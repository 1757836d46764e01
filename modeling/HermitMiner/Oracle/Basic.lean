import Mathlib.Data.List.Infix

/-!
# Programs driven by an oracle of environment events

A sequential program that talks to a nondeterministic environment is a function of its state and
of the list of the events the environment will answer with. A finite list is a finite piece of a
run: when it is used up in the middle of the program, the run is `pending` in the state reached so
far, so quantifying over all lists quantifies over every run and every state in the middle of one.

* `Proc`: the programs, a monad. A program leaves a suffix of its events, by construction.
* `Proc.await`: the next event, after those the environment slips in on its own.
* `Proc.loop`: a loop; `loop_eq` says it is its own unfolding when its rounds use up events, so
  the bound that makes it a structural recursion cuts no run short.
* `Proc.rounds`: the states in which the rounds of a loop start (`rounds_of_loop`, `rounds_inv`).
* `Proc.Leads`: a piece of a run of a loop, round after round.
* `wp`: the weakest precondition with two conditions, one for a run that returns and one for the
  states in which a run can stand (`wp_bind`, `wp_call`, `wp_await`, `wp_loop`, `wp_zoom`).
* `Keeps`: the programs that keep an invariant from any state that has it, closed under the
  operations of the language.
-/

namespace Oracle

/-- How a run over a finite list of events ends. -/
inductive Outcome (σ ε α : Type) where
  /-- The program returned, with the events it did not use. -/
  | done (a : α) (s : σ) (rest : List ε)
  /-- The events are used up, and the program waits for the next one. -/
  | pending (s : σ)

namespace Outcome

variable {σ ε α : Type}

/-- The state in which the run stands. -/
def state : Outcome σ ε α → σ
  | .done _ s _ => s
  | .pending s => s

/-- The value returned, if the program returned. -/
def value : Outcome σ ε α → Option α
  | .done a _ _ => some a
  | .pending _ => none

/-- The events that are left. -/
def rest : Outcome σ ε α → List ε
  | .done _ _ rest => rest
  | .pending _ => []

theorem eq_done_of_value {o : Outcome σ ε α} {a : α} (h : o.value = some a) :
    o = .done a o.state o.rest := by
  cases o with
  | done b s rest => rw [Option.some.inj h]; rfl
  | pending s => cases h

/-- `Q` holds of a run that returned and `R` of one that is pending. -/
def Sat (Q : α → σ → Prop) (R : σ → Prop) : Outcome σ ε α → Prop
  | .done a s _ => Q a s
  | .pending s => R s

end Outcome

/-- A program over states `σ` whose environment answers with events `ε`. -/
structure Proc (σ ε α : Type) where
  run : σ → List ε → Outcome σ ε α
  suffix : ∀ s es, (run s es).rest <:+ es

namespace Proc

variable {σ τ ε α β γ : Type}

/-- What a sequence of two programs does. -/
def bindRun (m : Proc σ ε α) (f : α → Proc σ ε β) (s : σ) (es : List ε) : Outcome σ ε β :=
  match m.run s es with
  | .done a s' es' => (f a).run s' es'
  | .pending s' => .pending s'

instance : Monad (Proc σ ε) where
  pure a := ⟨fun s es => .done a s es, fun _ es => List.suffix_refl es⟩
  bind m f := ⟨bindRun m f, fun s es => by
    have hm := m.suffix s es
    unfold bindRun
    cases hr : m.run s es with
    | done a s' es' => rw [hr] at hm; exact ((f a).suffix s' es').trans hm
    | pending s' => exact List.nil_suffix⟩

/-- The current state. -/
def get : Proc σ ε σ := ⟨fun s es => .done s s es, fun _ es => List.suffix_refl es⟩

/-- Update the state. -/
def modify (f : σ → σ) : Proc σ ε Unit :=
  ⟨fun s es => .done () (f s) es, fun _ es => List.suffix_refl es⟩

/-- The run goes no further: the environment's answer does not answer this program. -/
def halt : Proc σ ε α := ⟨fun s _ => .pending s, fun _ _ => List.nil_suffix⟩

/-- What `await` does. -/
def awaitRun (async : ε → Option (σ → σ)) : σ → List ε → Outcome σ ε ε
  | s, [] => .pending s
  | s, e :: es =>
    match async e with
    | some f => awaitRun async (f s) es
    | none => .done e s es

/-- Wait for an answer of the environment. The events that `async` knows act on the state on their
own, at any time, and answer nothing. -/
def await (async : ε → Option (σ → σ)) : Proc σ ε ε :=
  ⟨awaitRun async, fun s es => by
    induction es generalizing s with
    | nil => exact List.nil_suffix
    | cons e es ih =>
      unfold awaitRun
      cases async e with
      | some f => exact (ih (f s)).trans (List.suffix_cons e es)
      | none => exact List.suffix_cons e es⟩

/-- What `zoom` does. -/
def zoomRun (view : σ → τ) (put : τ → σ → σ) (m : Proc τ ε α) (s : σ) (es : List ε) :
    Outcome σ ε α :=
  match m.run (view s) es with
  | .done a t rest => .done a (put t s) rest
  | .pending t => .pending (put t s)

/-- Run a program on one component of the state. -/
def zoom (view : σ → τ) (put : τ → σ → σ) (m : Proc τ ε α) : Proc σ ε α :=
  ⟨zoomRun view put m, fun s es => by
    have hm := m.suffix (view s) es
    unfold zoomRun
    cases hr : m.run (view s) es with
    | done a t rest => rw [hr] at hm; exact hm
    | pending t => exact List.nil_suffix⟩

/-- At most `n` rounds of a loop body; `inl` starts the next round, `inr` leaves the loop. -/
def iter (body : β → Proc σ ε (β ⊕ α)) : Nat → β → Proc σ ε α
  | 0, _ => halt
  | n + 1, b => do
    match ← body b with
    | .inl b' => iter body n b'
    | .inr a => pure a

/-- The loop. Every round that starts another uses up an event (`Advances`), so there is one round
more than there are events. -/
def loop (body : β → Proc σ ε (β ⊕ α)) (b : β) : Proc σ ε α :=
  ⟨fun s es => (iter body (es.length + 1) b).run s es,
    fun s es => (iter body (es.length + 1) b).suffix s es⟩

theorem bind_run (m : Proc σ ε α) (f : α → Proc σ ε β) (s : σ) (es : List ε) :
    (m >>= f).run s es = match m.run s es with
      | .done a s' es' => (f a).run s' es'
      | .pending s' => .pending s' := rfl

@[simp] theorem pure_run (a : α) (s : σ) (es : List ε) :
    (pure a : Proc σ ε α).run s es = .done a s es := rfl

@[simp] theorem get_run (s : σ) (es : List ε) : (get : Proc σ ε σ).run s es = .done s s es := rfl

@[simp] theorem modify_run (f : σ → σ) (s : σ) (es : List ε) :
    (modify f : Proc σ ε Unit).run s es = .done () (f s) es := rfl

section Await

variable {async : ε → Option (σ → σ)} {e : ε}

/-- The environment acts on its own before the answer comes. -/
theorem await_run_async {f : σ → σ} (h : async e = some f) (s : σ) (es : List ε) :
    (await async).run s (e :: es) = (await async).run (f s) es := by
  show awaitRun async s (e :: es) = _
  rw [awaitRun, h]
  rfl

/-- The answer comes. -/
theorem await_run_answer (h : async e = none) (s : σ) (es : List ε) :
    (await async).run s (e :: es) = .done e s es := by
  show awaitRun async s (e :: es) = _
  rw [awaitRun, h]

theorem await_bind_async {f : σ → σ} {g : ε → Proc σ ε α} (h : async e = some f) (s : σ)
    (es : List ε) : (await async >>= g).run s (e :: es) = (await async >>= g).run (f s) es := by
  rw [bind_run, bind_run, await_run_async h]

theorem await_bind_answer {g : ε → Proc σ ε α} (h : async e = none) (s : σ) (es : List ε) :
    (await async >>= g).run s (e :: es) = (g e).run s es := by
  rw [bind_run, await_run_answer h]

end Await

/-! ## Loops are not cut short -/

/-- The program returns with fewer events than it was given. -/
def Eats (m : Proc σ ε α) : Prop :=
  ∀ s es a s' es', m.run s es = .done a s' es' → es'.length < es.length

theorem eats_await (async : ε → Option (σ → σ)) : Eats (await async) := by
  intro s es
  induction es generalizing s with
  | nil => intro a s' es' h; cases h
  | cons e es ih =>
    intro a s' es' h
    cases ha : async e with
    | some f =>
      rw [await_run_async ha] at h
      exact Nat.lt_succ_of_lt (ih (f s) a s' es' h)
    | none =>
      rw [await_run_answer ha] at h
      cases h
      exact Nat.lt_succ_self _

theorem Eats.bind {m : Proc σ ε α} (hm : Eats m) (f : α → Proc σ ε β) : Eats (m >>= f) := by
  intro s es b s' es' h
  rw [bind_run] at h
  cases hr : m.run s es with
  | pending t => rw [hr] at h; cases h
  | done a t rest =>
    rw [hr] at h
    have hlt := hm s es a t rest hr
    have hf : (f a).run t rest = .done b s' es' := h
    have hsuffix := (f a).suffix t rest
    rw [hf] at hsuffix
    have hle : es'.length ≤ rest.length := hsuffix.length_le
    omega

theorem Eats.zoom {m : Proc τ ε α} (hm : Eats m) (view : σ → τ) (put : τ → σ → σ) :
    Eats (zoom view put m) := by
  intro s es a s' es' h
  have hrun : (Proc.zoom view put m).run s es = zoomRun view put m s es := rfl
  rw [hrun, zoomRun] at h
  cases hr : m.run (view s) es with
  | pending t => rw [hr] at h; cases h
  | done b t rest =>
    rw [hr] at h
    cases h
    exact hm _ _ _ _ _ hr

/-- Every round that starts another uses up at least one event. -/
def Advances (body : β → Proc σ ε (β ⊕ α)) : Prop :=
  ∀ b s es b' s' es', (body b).run s es = .done (.inl b') s' es' → es'.length < es.length

theorem Advances.of_eats {body : β → Proc σ ε (β ⊕ α)} (h : ∀ b, Eats (body b)) :
    Advances body :=
  fun b s es b' s' es' hr => h b s es (.inl b') s' es' hr

theorem iter_fuel {body : β → Proc σ ε (β ⊕ α)} (hc : Advances body) (n m : Nat) (b : β)
    (s : σ) (es : List ε) (hn : es.length < n) (hm : es.length < m) :
    (iter body n b).run s es = (iter body m b).run s es := by
  induction n generalizing m b s es with
  | zero => omega
  | succ n ih =>
    obtain ⟨m, rfl⟩ : ∃ k, m = k + 1 := ⟨m - 1, by omega⟩
    simp only [iter, bind_run]
    cases hb : (body b).run s es with
    | pending s' => rfl
    | done r s' es' =>
      cases r with
      | inr a => rfl
      | inl b' =>
        have hlt := hc b s es b' s' es' hb
        exact ih m b' s' es' (by omega) (by omega)

/-- A loop whose rounds use up events is its own unfolding. -/
theorem loop_eq {body : β → Proc σ ε (β ⊕ α)} (hc : Advances body) (b : β) (s : σ)
    (es : List ε) :
    (loop body b).run s es = match (body b).run s es with
      | .done (.inl b') s' es' => (loop body b').run s' es'
      | .done (.inr a) s' es' => .done a s' es'
      | .pending s' => .pending s' := by
  have hround : (loop body b).run s es = (iter body (es.length + 1) b).run s es := rfl
  rw [hround]
  simp only [iter, bind_run]
  cases hb : (body b).run s es with
  | pending s' => rfl
  | done r s' es' =>
    cases r with
    | inr a => rfl
    | inl b' =>
      have hlt := hc b s es b' s' es' hb
      exact iter_fuel hc es.length (es'.length + 1) b' s' es' hlt (by omega)

/-! ## The rounds of a loop -/

/-- What `rounds` does, for at most `n` rounds. -/
def roundsFrom (body : β → Proc σ ε (β ⊕ α)) : Nat → β → σ → List ε → List (β × σ)
  | 0, _, _, _ => []
  | n + 1, b, s, es =>
    (b, s) :: match (body b).run s es with
      | .done (.inl b') s' es' => roundsFrom body n b' s' es'
      | _ => []

/-- The states in which the rounds of a run start, in order. -/
def rounds (body : β → Proc σ ε (β ⊕ α)) (b : β) (s : σ) (es : List ε) : List (β × σ) :=
  roundsFrom body (es.length + 1) b s es

/-! ## Runs of a loop by pieces -/

/-- The events `es` take the loop from one state of its rounds to another. -/
def Leads (body : β → Proc σ ε (β ⊕ α)) (b : β) (s : σ) (es : List ε) (b' : β) (s' : σ) : Prop :=
  ∀ rest, (loop body b).run s (es ++ rest) = (loop body b').run s' rest

section Leads

variable {body : β → Proc σ ε (β ⊕ α)} {b b' b'' : β} {s s' s'' : σ} {es es' : List ε}

theorem Leads.refl : Leads body b s [] b s := fun _ => rfl

theorem Leads.trans (h : Leads body b s es b' s') (h' : Leads body b' s' es' b'' s'') :
    Leads body b s (es ++ es') b'' s'' := by
  intro rest
  rw [List.append_assoc, h, h']

/-- One round of the loop. -/
theorem Leads.round (hc : Advances body)
    (h : ∀ rest, (body b).run s (es ++ rest) = .done (.inl b') s' rest) :
    Leads body b s es b' s' := by
  intro rest
  rw [loop_eq hc, h]

/-- Events before a round that act on the state alone. -/
theorem Leads.before (hc : Advances body)
    (h : ∀ rest, (body b).run s (es ++ rest) = (body b).run s' rest) : Leads body b s es b s' := by
  intro rest
  rw [loop_eq hc, h, ← loop_eq hc]

/-- The round that leaves the loop. -/
theorem Leads.done (hc : Advances body) (h : Leads body b s es b' s') {a : α} {rest : List ε}
    (hlast : (body b').run s' es' = .done (.inr a) s'' rest) :
    (loop body b).run s (es ++ es') = .done a s'' rest := by
  rw [h, loop_eq hc, hlast]

end Leads

end Proc

/-! ## Weakest preconditions -/

section Wp

variable {σ τ ε α β : Type} {Q Q' : α → σ → Prop} {R R' : σ → Prop} {s : σ}

/-- From `s`, every run that returns satisfies `Q` and every pending one satisfies `R`. -/
def wp (m : Proc σ ε α) (Q : α → σ → Prop) (R : σ → Prop) (s : σ) : Prop :=
  ∀ es, (m.run s es).Sat Q R

theorem wp_pure {a : α} (h : Q a s) : wp (pure a : Proc σ ε α) Q R s := fun _ => h

theorem wp_get {Q : σ → σ → Prop} (h : Q s s) : wp (Proc.get : Proc σ ε σ) Q R s := fun _ => h

theorem wp_modify {Q : Unit → σ → Prop} {f : σ → σ} (h : Q () (f s)) :
    wp (Proc.modify f : Proc σ ε Unit) Q R s := fun _ => h

theorem wp_halt (h : R s) : wp (Proc.halt : Proc σ ε α) Q R s := fun _ => h

theorem wp_bind {m : Proc σ ε β} {f : β → Proc σ ε α}
    (h : wp m (fun b s' => wp (f b) Q R s') R s) : wp (m >>= f) Q R s := by
  intro es
  have hm := h es
  rw [Proc.bind_run]
  cases hr : m.run s es with
  | done b s' es' => rw [hr] at hm; exact hm es'
  | pending s' => rw [hr] at hm; exact hm

theorem wp_mono {m : Proc σ ε α} (h : wp m Q R s) (hQ : ∀ a s', Q a s' → Q' a s')
    (hR : ∀ s', R s' → R' s') : wp m Q' R' s := by
  intro es
  have hm := h es
  cases hr : m.run s es with
  | done a s' es' => rw [hr] at hm; exact hQ a s' hm
  | pending s' => rw [hr] at hm; exact hR s' hm

/-- Read the state, and go on. -/
theorem wp_read {f : σ → Proc σ ε α} (h : wp (f s) Q R s) : wp (Proc.get >>= f) Q R s :=
  wp_bind (wp_get h)

/-- Update the state, and go on. -/
theorem wp_update {g : σ → σ} {f : Unit → Proc σ ε α} (h : wp (f ()) Q R (g s)) :
    wp (Proc.modify g >>= f) Q R s :=
  wp_bind (wp_modify h)

/-- **The rule for calls**: go on from what the specification of the callee says. -/
theorem wp_call {m : Proc σ ε β} {f : β → Proc σ ε α} {P : β → σ → Prop} (h : wp m P R' s)
    (hf : ∀ b s', P b s' → wp (f b) Q R s') (hR : ∀ s', R' s' → R s') : wp (m >>= f) Q R s :=
  wp_bind (wp_mono h hf hR)

/-- Two specifications of one program hold together. -/
theorem wp_and {m : Proc σ ε α} (h : wp m Q R s) (h' : wp m Q' R' s) :
    wp m (fun a s' => Q a s' ∧ Q' a s') (fun s' => R s' ∧ R' s') s := by
  intro es
  have hm := h es
  have hm' := h' es
  cases hr : m.run s es with
  | done a s' es' => rw [hr] at hm hm'; exact ⟨hm, hm'⟩
  | pending s' => rw [hr] at hm hm'; exact ⟨hm, hm'⟩

theorem wp_ite {c : Prop} [Decidable c] {m m' : Proc σ ε α} (ht : c → wp m Q R s)
    (he : ¬c → wp m' Q R s) : wp (if c then m else m') Q R s := by
  split
  · exact ht ‹_›
  · exact he ‹_›

/-- **The rule for waiting**: an invariant of what the environment does on its own holds when the
answer comes, whichever it is. -/
theorem wp_await {async : ε → Option (σ → σ)} {Q : ε → σ → Prop} {I : σ → Prop} (h : I s)
    (hasync : ∀ e f, async e = some f → ∀ s, I s → I (f s)) (hQ : ∀ e s, I s → Q e s)
    (hR : ∀ s, I s → R s) : wp (Proc.await async) Q R s := by
  intro es
  have hrun : ∀ s, (Proc.await async).run s es = Proc.awaitRun async s es := fun _ => rfl
  rw [hrun]
  induction es generalizing s with
  | nil => exact hR s h
  | cons e es ih =>
    unfold Proc.awaitRun
    cases ha : async e with
    | some f => exact ih (hasync e f ha s h) fun _ => rfl
    | none => exact hQ e s h

/-- **The loop rule**: an invariant `I` of the rounds that every body keeps or leaves the loop
with `Q`, and whose states are states in which a run can stand. -/
theorem wp_loop {body : β → Proc σ ε (β ⊕ α)} {I : β → σ → Prop} {b : β} (h : I b s)
    (hbody : ∀ b s, I b s →
      wp (body b) (fun r s' => Sum.elim (fun b' => I b' s') (fun a => Q a s') r) R s)
    (hR : ∀ b s, I b s → R s) : wp (Proc.loop body b) Q R s := by
  intro es
  have hround : (Proc.loop body b).run s es = (Proc.iter body (es.length + 1) b).run s es := rfl
  rw [hround]
  generalize es.length + 1 = n
  induction n generalizing b s es with
  | zero => exact hR b s h
  | succ n ih =>
    have hb := hbody b s h es
    simp only [Proc.iter, Proc.bind_run]
    cases hr : (body b).run s es with
    | pending s' => rw [hr] at hb; exact hb
    | done r s' es' =>
      rw [hr] at hb
      cases r with
      | inl b' => exact ih hb es' rfl
      | inr a => exact hb

/-- **The loop rule with a history**: an invariant that also speaks of the rounds so far says of a
run that returns what its rounds were. -/
theorem rounds_of_loop {body : β → Proc σ ε (β ⊕ α)} {I : List (β × σ) → β → σ → Prop}
    {Q : List (β × σ) → α → σ → Prop} {b : β} (h : I [] b s)
    (hbody : ∀ past b s, I past b s →
      wp (body b) (fun r s' => Sum.elim (fun b' => I (past ++ [(b, s)]) b' s')
        (fun a => Q (past ++ [(b, s)]) a s') r) (fun _ => True) s)
    {es rest : List ε} {a : α} {s' : σ} (hrun : (Proc.loop body b).run s es = .done a s' rest) :
    Q (Proc.rounds body b s es) a s' := by
  have hfrom : ∀ n past b s es, I past b s → (Proc.iter body n b).run s es = .done a s' rest →
      Q (past ++ Proc.roundsFrom body n b s es) a s' := by
    intro n
    induction n with
    | zero => intro past b s es _ hrun; cases hrun
    | succ n ih =>
      intro past b s es h hrun
      have hb := hbody past b s h es
      simp only [Proc.iter, Proc.bind_run] at hrun
      rw [Proc.roundsFrom]
      cases hr : (body b).run s es with
      | pending s' => rw [hr] at hrun; cases hrun
      | done r s' es' =>
        rw [hr] at hb hrun
        cases r with
        | inl b' =>
          have hrest := ih _ b' s' es' hb hrun
          rw [List.append_assoc, List.singleton_append] at hrest
          exact hrest
        | inr a' =>
          cases hrun
          exact hb
  exact hfrom (es.length + 1) [] b s es h hrun

/-- An invariant of the rounds holds wherever a round starts. -/
theorem rounds_inv {body : β → Proc σ ε (β ⊕ α)} {I : β → σ → Prop} {b : β} (h : I b s)
    (hbody : ∀ b s, I b s →
      wp (body b) (fun r s' => Sum.elim (fun b' => I b' s') (fun _ => True) r) (fun _ => True) s)
    {es : List ε} : ∀ p ∈ Proc.rounds body b s es, I p.1 p.2 := by
  have hfrom : ∀ n b s es, I b s → ∀ p ∈ Proc.roundsFrom body n b s es, I p.1 p.2 := by
    intro n
    induction n with
    | zero => intro b s es _ p hp; cases hp
    | succ n ih =>
      intro b s es h p hp
      have hb := hbody b s h es
      rw [Proc.roundsFrom] at hp
      rcases List.mem_cons.1 hp with rfl | hp
      · exact h
      · cases hr : (body b).run s es with
        | pending s' => rw [hr] at hp; cases hp
        | done r s' es' =>
          rw [hr] at hb hp
          cases r with
          | inl b' => exact ih b' s' es' hb p hp
          | inr a => cases hp
  exact hfrom (es.length + 1) b s es h

/-- A round that starts another. -/
theorem wp_again {I : β → σ → Prop} {b : β} (h : I b s) :
    wp (pure (.inl b) : Proc σ ε (β ⊕ α))
      (fun r s' => Sum.elim (fun b' => I b' s') (fun a => Q a s') r) R s := fun _ => h

/-- A round that leaves the loop. -/
theorem wp_leave {I : β → σ → Prop} {a : α} (h : Q a s) :
    wp (pure (.inr a) : Proc σ ε (β ⊕ α))
      (fun r s' => Sum.elim (fun b' => I b' s') (fun a => Q a s') r) R s := fun _ => h

theorem wp_zoom {view : σ → τ} {put : τ → σ → σ} {m : Proc τ ε α}
    (h : wp m (fun a t => Q a (put t s)) (fun t => R (put t s)) (view s)) :
    wp (Proc.zoom view put m) Q R s := by
  intro es
  have hm := h es
  have hrun : (Proc.zoom view put m).run s es = Proc.zoomRun view put m s es := rfl
  rw [hrun, Proc.zoomRun]
  cases hr : m.run (view s) es with
  | done a t rest => rw [hr] at hm; exact hm
  | pending t => rw [hr] at hm; exact hm

/-- A property kept to the end and in every state between holds of the state reached by any list
of events. -/
theorem wp.state {m : Proc σ ε α} {P : σ → Prop} (h : wp m (fun _ => P) P s) (es : List ε) :
    P (m.run s es).state := by
  have hm := h es
  cases hr : m.run s es with
  | done a s' es' => rw [hr] at hm; exact hm
  | pending s' => rw [hr] at hm; exact hm

theorem wp.done {m : Proc σ ε α} (h : wp m Q R s) {es rest : List ε} {a : α} {s' : σ}
    (hr : m.run s es = .done a s' rest) : Q a s' := by
  have hm := h es
  rw [hr] at hm
  exact hm

end Wp

/-! ## Invariants -/

section Keeps

variable {σ τ ε α β : Type} {I : σ → Prop}

/-- The program keeps `I`, to its end and in every state between. -/
def Keeps (I : σ → Prop) (m : Proc σ ε α) : Prop := ∀ s, I s → wp m (fun _ => I) I s

namespace Keeps

theorem pure {a : α} : Keeps I (pure a : Proc σ ε α) := fun _ h => wp_pure h

theorem get : Keeps I (Proc.get : Proc σ ε σ) := fun _ h => wp_get h

/-- What does not depend on the state is kept. -/
theorem const {p : Prop} (m : Proc σ ε α) : Keeps (fun _ => p) m := by
  intro s hp es
  cases m.run s es with
  | done a s' rest => exact hp
  | pending s' => exact hp

theorem modify {f : σ → σ} (hf : ∀ s, I s → I (f s)) : Keeps I (Proc.modify f : Proc σ ε Unit) :=
  fun s h => wp_modify (hf s h)

theorem halt : Keeps I (Proc.halt : Proc σ ε α) := fun _ h => wp_halt h

theorem bind {m : Proc σ ε β} {f : β → Proc σ ε α} (hm : Keeps I m) (hf : ∀ b, Keeps I (f b)) :
    Keeps I (m >>= f) :=
  fun s h => wp_call (hm s h) (fun b s' h' => hf b s' h') fun _ h' => h'

theorem ite {c : Prop} [Decidable c] {m m' : Proc σ ε α} (hm : Keeps I m) (hm' : Keeps I m') :
    Keeps I (if c then m else m') :=
  fun s h => wp_ite (fun _ => hm s h) fun _ => hm' s h

theorem await {async : ε → Option (σ → σ)}
    (hasync : ∀ e f, async e = some f → ∀ s, I s → I (f s)) : Keeps I (Proc.await async) :=
  fun _ h => wp_await h hasync (fun _ _ h' => h') fun _ h' => h'

theorem loop {body : β → Proc σ ε (β ⊕ α)} (hbody : ∀ b, Keeps I (body b)) (b : β) :
    Keeps I (Proc.loop body b) := by
  refine fun s h => wp_loop h (fun b s hs => ?_) fun _ _ hs => hs
  refine wp_mono (hbody b s hs) ?_ fun _ hs' => hs'
  intro r s' hs'
  cases r with
  | inl b' => exact hs'
  | inr a => exact hs'

theorem zoom {view : σ → τ} {put : τ → σ → σ} {m : Proc τ ε α}
    (hm : ∀ s, Keeps (fun t => I (put t s)) m) (hview : ∀ s, put (view s) s = s) :
    Keeps I (Proc.zoom view put m) :=
  fun s h => wp_zoom (hm s (view s) (show I (put (view s) s) by rw [hview]; exact h))

end Keeps

end Keeps

end Oracle
