import HermitMiner.Oracle.Legal

/-!
# Runs that can be ended

Whether events of a kind `C`, say those that need no other party, can end a program from wherever
any run of it stands. Once something has happened that `I` says, such as a request to end, the
program can be led to its end; and it can happen while the program waits.

* `EndsAt`: events of the kind lead the program to its end, where `I` still holds.
* `Drains`: they do so from wherever a run stands that is not stuck. It has a rule for each operation
  of the language; in a sequence, what comes after has to end (`EndsAt`) and to drain.
* `Interruptible`: both, from every state; closed under the operations of the language.
-/

namespace Oracle

open Proc

variable {σ τ ε α β : Type}

/-- Events of the kind `C` lead the program to its end, where `I` holds; it returns as `Q` says. -/
def EndsAt (C : ε → Prop) (I : σ → Prop) (m : Proc σ ε α) (Q : α → Prop) (s : σ) : Prop :=
  ∃ es a t, (∀ ev ∈ es, C ev) ∧ m.run s es = .done a t [] ∧ I t ∧ Q a

/-- Wherever a run stands and is not stuck, events of the kind `C` lead it to its end, where `I`
holds. -/
def Drains (C : ε → Prop) (I : σ → Prop) (m : Proc σ ε α) (s : σ) : Prop :=
  ∀ es t, m.run s es = .pending t → ¬Stuck m s es →
    ∃ more a u, (∀ ev ∈ more, C ev) ∧ m.run s (es ++ more) = .done a u [] ∧ I u

variable {C : ε → Prop} {I : σ → Prop} {s : σ}

namespace EndsAt

variable {P : β → Prop} {Q Q' : α → Prop}

theorem mono {m : Proc σ ε α} (h : EndsAt C I m Q s) (hQ : ∀ a, Q a → Q' a) :
    EndsAt C I m Q' s := by
  obtain ⟨es, a, t, hes, hr, ht, ha⟩ := h
  exact ⟨es, a, t, hes, hr, ht, hQ a ha⟩

theorem pure {a : α} (hs : I s) (h : Q a) : EndsAt C I (Pure.pure a : Proc σ ε α) Q s :=
  ⟨[], a, s, List.forall_mem_nil _, rfl, hs, h⟩

theorem modify {g : σ → σ} {Q : Unit → Prop} (hs : I (g s)) (h : Q ()) :
    EndsAt C I (Proc.modify g : Proc σ ε Unit) Q s :=
  ⟨[], (), g s, List.forall_mem_nil _, rfl, hs, h⟩

theorem bind {m : Proc σ ε β} {f : β → Proc σ ε α} (hc : m.Causal) (hm : EndsAt C I m P s)
    (hf : ∀ b t, I t → P b → EndsAt C I (f b) Q t) : EndsAt C I (m >>= f) Q s := by
  obtain ⟨es, b, t, hes, hr, ht, hb⟩ := hm
  obtain ⟨more, a, u, hmore, hr', hu, ha⟩ := hf b t ht hb
  refine ⟨es ++ more, a, u, List.forall_mem_append.2 ⟨hes, hmore⟩, ?_, hu, ha⟩
  rw [hc.bind_before hr]
  exact hr'

/-- Read the state, and go on. -/
theorem read {f : σ → Proc σ ε α} (h : EndsAt C I (f s) Q s) :
    EndsAt C I (Proc.get >>= f) Q s := h

/-- Update the state, and go on. -/
theorem update {g : σ → σ} {f : Unit → Proc σ ε α} (h : EndsAt C I (f ()) Q (g s)) :
    EndsAt C I (Proc.modify g >>= f) Q s := h

theorem ite {c : Prop} [Decidable c] {m m' : Proc σ ε α} (ht : c → EndsAt C I m Q s)
    (he : ¬c → EndsAt C I m' Q s) : EndsAt C I (if c then m else m') Q s := by
  split
  · exact ht ‹_›
  · exact he ‹_›

section Await

variable {async : ε → Option (σ → σ)} {f : ε → Proc σ ε α} {ev : ε}

/-- An answer comes that is of the kind. -/
theorem await (hev : C ev) (hanswer : async ev = none) (h : EndsAt C I (f ev) Q s) :
    EndsAt C I (Proc.await async >>= f) Q s := by
  obtain ⟨es, a, t, hes, hr, ht, ha⟩ := h
  refine ⟨ev :: es, a, t, List.forall_mem_cons.2 ⟨hev, hes⟩, ?_, ht, ha⟩
  rw [await_bind_answer hanswer]
  exact hr

/-- The environment acts on its own first, as the kind allows. -/
theorem slip {g : σ → σ} (hev : C ev) (hasync : async ev = some g)
    (h : EndsAt C I (Proc.await async >>= f) Q (g s)) :
    EndsAt C I (Proc.await async >>= f) Q s := by
  obtain ⟨es, a, t, hes, hr, ht, ha⟩ := h
  refine ⟨ev :: es, a, t, List.forall_mem_cons.2 ⟨hev, hes⟩, ?_, ht, ha⟩
  rw [await_bind_async hasync]
  exact hr

end Await

section Loop

variable {body : β → Proc σ ε (β ⊕ α)} {b : β} (hadvances : Advances body)
include hadvances

/-- The next round leaves the loop. -/
theorem loop_leaves (h : EndsAt C I (body b) (fun r => ∃ a, r = .inr a ∧ Q a) s) :
    EndsAt C I (Proc.loop body b) Q s := by
  obtain ⟨es, _, t, hes, hr, ht, a, rfl, ha⟩ := h
  exact ⟨es, a, t, hes, by rw [loop_eq hadvances, hr], ht, ha⟩

/-- Rounds that lower a measure leave the loop. -/
theorem loop (hc : ∀ b, (body b).Causal) {J : β → σ → Prop} (μ : β → σ → Nat)
    (hdown : ∀ b s, I s → J b s → ∃ es r t, (∀ ev ∈ es, C ev) ∧
      (body b).run s es = .done r t [] ∧ I t ∧
        Sum.elim (fun b' => J b' t ∧ μ b' t < μ b s) Q r)
    (hs : I s) (h : J b s) : EndsAt C I (Proc.loop body b) Q s := by
  generalize hn : μ b s = n
  induction n using Nat.strongRecOn generalizing b s with
  | ind n ih =>
    obtain ⟨es, r, t, hes, hr, ht, hnext⟩ := hdown b s hs h
    cases r with
    | inr a => exact ⟨es, a, t, hes, by rw [loop_eq hadvances, hr], ht, hnext⟩
    | inl b' =>
      obtain ⟨hJ, hlt⟩ := hnext
      obtain ⟨more, a, u, hmore, hr', hu, ha⟩ := ih _ (hn ▸ hlt) ht hJ rfl
      refine ⟨es ++ more, a, u, List.forall_mem_append.2 ⟨hes, hmore⟩, ?_, hu, ha⟩
      rw [loop_eq hadvances, (hc b).before hr]
      exact hr'

end Loop

/-- Run a program on one component of the state. -/
theorem zoom {view : σ → τ} {put : τ → σ → σ} {J : τ → Prop} {m : Proc τ ε α}
    (h : EndsAt C J m Q (view s)) (hI : ∀ t, J t → I (put t s)) :
    EndsAt C I (Proc.zoom view put m) Q s := by
  obtain ⟨es, a, t, hes, hr, ht, ha⟩ := h
  refine ⟨es, a, put t s, hes, ?_, hI t ht, ha⟩
  show zoomRun view put m s es = _
  rw [zoomRun, hr]

end EndsAt

namespace Drains

/-- A program that waits for nothing. -/
theorem of_immediate {m : Proc σ ε α} {a : α} {t : σ} (h : ∀ es, m.run s es = .done a t es) :
    Drains C I m s := by
  intro es u hr
  rw [h] at hr
  cases hr

theorem pure {a : α} : Drains C I (Pure.pure a : Proc σ ε α) s := of_immediate fun _ => rfl

theorem modify {g : σ → σ} : Drains C I (Proc.modify g : Proc σ ε Unit) s :=
  of_immediate fun _ => rfl

/-- A program that is stuck. -/
theorem halt : Drains C I (Proc.halt : Proc σ ε α) s :=
  fun es _ _ hstuck => absurd (stuck_halt s es) hstuck

theorem bind {m : Proc σ ε β} {f : β → Proc σ ε α} (hc : m.Causal) (hm : Drains C I m s)
    (hends : ∀ b t, I t → EndsAt C I (f b) (fun _ => True) t) (hf : ∀ b t, Drains C I (f b) t) :
    Drains C I (m >>= f) s := by
  intro es u hpending hstuck
  cases hr : m.run s es with
  | pending t =>
    obtain ⟨more, b, t', hmore, hr', ht'⟩ := hm es t hr fun h => hstuck h.bind
    obtain ⟨more', a, u', hmore', hr'', hu', -⟩ := hends b t' ht'
    refine ⟨more ++ more', a, u', List.forall_mem_append.2 ⟨hmore, hmore'⟩, ?_, hu'⟩
    rw [← List.append_assoc, hc.bind_before hr']
    exact hr''
  | done b t rest =>
    obtain ⟨used, rfl, hdone⟩ := hc.split hr
    have hafter := hc.bind_before (f := f) hdone
    rw [hafter] at hpending
    obtain ⟨more, a, u', hmore, hr', hu'⟩ := hf b t rest u hpending fun h =>
      hstuck (Stuck.after hafter h)
    refine ⟨more, a, u', hmore, ?_, hu'⟩
    rw [List.append_assoc, hafter]
    exact hr'

/-- Read the state, and go on. -/
theorem read {f : σ → Proc σ ε α} (h : Drains C I (f s) s) : Drains C I (Proc.get >>= f) s := h

/-- Update the state, and go on. -/
theorem update {g : σ → σ} {f : Unit → Proc σ ε α} (h : Drains C I (f ()) (g s)) :
    Drains C I (Proc.modify g >>= f) s := h

theorem ite {c : Prop} [Decidable c] {m m' : Proc σ ε α} (ht : c → Drains C I m s)
    (he : ¬c → Drains C I m' s) : Drains C I (if c then m else m') s := by
  split
  · exact ht ‹_›
  · exact he ‹_›

/-- **The rule for waiting**: `K` is an invariant of what the environment does on its own; from its
states events of the kind end the program, and what comes after each answer drains. -/
theorem await {async : ε → Option (σ → σ)} {f : ε → Proc σ ε α} {K : σ → Prop}
    (hasync : ∀ ev g, async ev = some g → ∀ t, K t → K (g t))
    (hends : ∀ t, K t → EndsAt C I (Proc.await async >>= f) (fun _ => True) t)
    (hf : ∀ ev t, K t → Drains C I (f ev) t) (h : K s) :
    Drains C I (Proc.await async >>= f) s := by
  intro es
  induction es generalizing s with
  | nil =>
    intro _ _ _
    obtain ⟨more, a, u, hmore, hr, hu, -⟩ := hends s h
    exact ⟨more, a, u, hmore, hr, hu⟩
  | cons ev es ih =>
    intro t hpending hstuck
    cases ha : async ev with
    | some g =>
      have hslip : ∀ es, (Proc.await async >>= f).run s (ev :: es) =
          (Proc.await async >>= f).run (g s) es := await_bind_async ha s
      rw [hslip] at hpending
      obtain ⟨more, a, u, hmore, hr, hu⟩ := ih (hasync ev g ha s h) t hpending fun hs =>
        hstuck (@Stuck.after _ _ _ _ s (g s) es _ [ev] hslip hs)
      exact ⟨more, a, u, hmore, (hslip _).trans hr, hu⟩
    | none =>
      have hanswer : ∀ es, (Proc.await async >>= f).run s (ev :: es) = (f ev).run s es :=
        await_bind_answer ha s
      rw [hanswer] at hpending
      obtain ⟨more, a, u, hmore, hr, hu⟩ := hf ev s h es t hpending fun hs =>
        hstuck (@Stuck.after _ _ _ _ s s es _ [ev] hanswer hs)
      exact ⟨more, a, u, hmore, (hanswer _).trans hr, hu⟩

/-- **The rule for loops**: `J` is an invariant of the rounds, from which the loop can be ended. -/
theorem loop {body : β → Proc σ ε (β ⊕ α)} {J : β → σ → Prop} {b : β}
    (hadvances : Advances body) (hc : ∀ b, (body b).Causal)
    (hJ : ∀ b s, J b s →
      wp (body b) (fun r t => Sum.elim (fun b' => J b' t) (fun _ => True) r) (fun _ => True) s)
    (hends : ∀ b t, J b t → I t → EndsAt C I (Proc.loop body b) (fun _ => True) t)
    (hbody : ∀ b s, J b s → Drains C I (body b) s) (h : J b s) :
    Drains C I (Proc.loop body b) s := by
  intro es
  generalize hn : es.length = n
  induction n using Nat.strongRecOn generalizing b s es with
  | ind n ih =>
    intro u hpending hstuck
    rw [loop_eq hadvances] at hpending
    have hkept := hJ b s h
    cases hr : (body b).run s es with
    | pending t =>
      have hgo : ¬Stuck (body b) s es := by
        rintro ⟨t', ht'⟩
        refine hstuck ⟨t', fun more => ?_⟩
        rw [loop_eq hadvances, ht']
      obtain ⟨more, r, t', hmore, hr', ht'⟩ := hbody b s h es t hr hgo
      cases r with
      | inr a => exact ⟨more, a, t', hmore, by rw [loop_eq hadvances, hr'], ht'⟩
      | inl b' =>
        have hb' := hkept (es ++ more)
        rw [hr'] at hb'
        obtain ⟨more', a, u', hmore', hr'', hu', -⟩ := hends b' t' hb' ht'
        refine ⟨more ++ more', a, u', List.forall_mem_append.2 ⟨hmore, hmore'⟩, ?_, hu'⟩
        rw [← List.append_assoc, loop_eq hadvances, (hc b).before hr']
        exact hr''
    | done r t rest =>
      obtain ⟨used, rfl, hdone⟩ := (hc b).split hr
      have hb' := hkept (used ++ rest)
      rw [hr] at hb' hpending
      cases r with
      | inr a => cases hpending
      | inl b' =>
        have hlt := hadvances b s _ b' t rest hr
        have hafter : ∀ more, (Proc.loop body b).run s (used ++ more) =
            (Proc.loop body b').run t more := by
          intro more
          rw [loop_eq hadvances, (hc b).before hdone]
        obtain ⟨more, a, u', hmore, hr', hu'⟩ := ih rest.length (by omega) hb' rest rfl u hpending
          fun hs => hstuck (Stuck.after hafter hs)
        refine ⟨more, a, u', hmore, ?_, hu'⟩
        rw [List.append_assoc, hafter]
        exact hr'

/-- Run a program on one component of the state. -/
theorem zoom {view : σ → τ} {put : τ → σ → σ} {J : τ → Prop} {m : Proc τ ε α}
    (h : Drains C J m (view s)) (hI : ∀ t, J t → I (put t s)) :
    Drains C I (Proc.zoom view put m) s := by
  have hrun : ∀ es, (Proc.zoom view put m).run s es = zoomRun view put m s es := fun _ => rfl
  intro es u hpending hstuck
  rw [hrun, zoomRun] at hpending
  cases hr : m.run (view s) es with
  | done a t rest =>
    rw [hr] at hpending
    cases hpending
  | pending t =>
    have hgo : ¬Stuck m (view s) es := by
      rintro ⟨t', ht'⟩
      refine hstuck ⟨put t' s, fun more => ?_⟩
      rw [hrun, zoomRun, ht']
    obtain ⟨more, a, t', hmore, hr', ht'⟩ := h es t hr hgo
    exact ⟨more, a, put t' s, hmore, by rw [hrun, zoomRun, hr'], hI t' ht'⟩

end Drains

/-! ## Programs that can be interrupted -/

/-- The program can be ended, from its start where `I` holds and from wherever a run of it stands. -/
structure Interruptible (C : ε → Prop) (I : σ → Prop) (m : Proc σ ε α) : Prop where
  ends : ∀ s, I s → EndsAt C I m (fun _ => True) s
  drains : ∀ s, Drains C I m s

namespace Interruptible

theorem pure {a : α} : Interruptible C I (Pure.pure a : Proc σ ε α) :=
  ⟨fun _ hs => .pure hs trivial, fun _ => .pure⟩

theorem modify {g : σ → σ} (hg : ∀ s, I s → I (g s)) :
    Interruptible C I (Proc.modify g : Proc σ ε Unit) :=
  ⟨fun s hs => .modify (hg s hs) trivial, fun _ => .modify⟩

theorem bind {m : Proc σ ε β} {f : β → Proc σ ε α} (hc : m.Causal) (hm : Interruptible C I m)
    (hf : ∀ b, Interruptible C I (f b)) : Interruptible C I (m >>= f) where
  ends s hs := .bind hc (hm.ends s hs) fun b t ht _ => (hf b).ends t ht
  drains s := .bind hc (hm.drains s) (fun b => (hf b).ends) fun b => (hf b).drains

/-- Read the state, and go on. -/
theorem read {f : σ → Proc σ ε α} (h : ∀ s, Interruptible C I (f s)) :
    Interruptible C I (Proc.get >>= f) :=
  ⟨fun s hs => .read ((h s).ends s hs), fun s => .read ((h s).drains s)⟩

/-- Update the state, and go on. -/
theorem update {g : σ → σ} {f : Unit → Proc σ ε α} (hg : ∀ s, I s → I (g s))
    (h : Interruptible C I (f ())) : Interruptible C I (Proc.modify g >>= f) :=
  bind .modify (.modify hg) fun _ => h

theorem ite {c : Prop} [Decidable c] {m m' : Proc σ ε α} (hm : Interruptible C I m)
    (hm' : Interruptible C I m') : Interruptible C I (if c then m else m') := by
  split
  · exact hm
  · exact hm'

/-- A loop of which each round can be interrupted, and left where `I` holds. -/
theorem loop {body : β → Proc σ ε (β ⊕ α)} (hadvances : Advances body)
    (hc : ∀ b, (body b).Causal) (hbody : ∀ b, Interruptible C I (body b))
    (hleaves : ∀ b s, I s → EndsAt C I (body b) (fun r => ∃ a, r = .inr a) s) (b : β) :
    Interruptible C I (Proc.loop body b) := by
  have hends : ∀ b s, I s → EndsAt C I (Proc.loop body b) (fun _ => True) s := by
    intro b s hs
    refine .loop_leaves hadvances ((hleaves b s hs).mono ?_)
    exact fun r hr => hr.imp fun _ hr => ⟨hr, trivial⟩
  refine ⟨hends b, fun s => .loop (J := fun _ _ => True) hadvances hc (fun b s _ es => ?_)
    (fun b s _ => hends b s) (fun b s _ => (hbody b).drains s) trivial⟩
  cases (body b).run s es with
  | pending t => exact trivial
  | done r t rest => cases r <;> exact trivial

/-- Run a program on one component of the state. -/
theorem zoom {view : σ → τ} {put : τ → σ → σ} {J : τ → Prop} {m : Proc τ ε α}
    (h : Interruptible C J m) (hview : ∀ s, I s → J (view s)) (hI : ∀ s t, J t → I (put t s)) :
    Interruptible C I (Proc.zoom view put m) where
  ends s hs := .zoom (h.ends _ (hview s hs)) (hI s)
  drains s := .zoom (h.drains _) (hI s)

end Interruptible

end Oracle
