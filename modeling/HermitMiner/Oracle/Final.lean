import HermitMiner.Oracle.Rounds

/-!
# What is final in a run

A run over more events goes on from where the run over fewer stands. `P` is a condition that ends
something for good.

* `Freezes`: once `P` holds in a run, it holds for good, and `f` changes no more.
* `Exits`: where a run stands and `P` holds, it waits for one more answer and returns.

Both have a rule for each operation of the language; a program that cannot stand where `P` holds has
both (`freezes_of_wp`, `exits_of_wp`).
-/

namespace Oracle

variable {σ τ ε α β κ : Type}

/-- Once `P` holds in a run, it holds for good, and `f` changes no more. -/
structure Freezes (P : σ → Prop) (f : σ → κ) (m : Proc σ ε α) (s : σ) : Prop where
  start : P s → ∀ es, P (m.run s es).state ∧ f (m.run s es).state = f s
  wait : ∀ es t, m.run s es = .pending t → P t → ∀ es',
    P (m.run s (es ++ es')).state ∧ f (m.run s (es ++ es')).state = f t

section Freezes

variable {P : σ → Prop} {f : σ → κ} {s : σ}

theorem freezes_of_keeps {m : Proc σ ε α} (h : ∀ x, Keeps (fun s => P s ∧ f s = x) m) (hs : P s) :
    Freezes P f m s := by
  have hall : ∀ es, P (m.run s es).state ∧ f (m.run s es).state = f s :=
    fun es => (h (f s) s ⟨hs, rfl⟩).state es
  refine ⟨fun _ => hall, ?_⟩
  intro es t hrun _ es'
  have ht := hall es
  rw [hrun] at ht
  exact ⟨(hall _).1, (hall _).2.trans ht.2.symm⟩

/-- The program cannot stand where `P` holds. -/
theorem freezes_of_wp {m : Proc σ ε α} {Q : α → σ → Prop} {R : σ → Prop} (hs : ¬P s)
    (h : wp m Q R s) (hR : ∀ t, R t → ¬P t) : Freezes P f m s := by
  refine ⟨fun hP => absurd hP hs, ?_⟩
  intro es t hrun hP
  have hstands := h es
  rw [hrun] at hstands
  exact absurd hP (hR t hstands)

/-- The program touches neither `P` nor, while `P` holds, `f`. -/
theorem freezes_of_still {m : Proc σ ε α} (h : ∀ x, Keeps (fun s => P s ∧ f s = x) m)
    (hnot : Keeps (fun s => ¬P s) m) : Freezes P f m s := by
  by_cases hs : P s
  · exact freezes_of_keeps h hs
  · exact freezes_of_wp hs (hnot s hs) fun _ h => h

theorem Freezes.bind {m : Proc σ ε β} {g : β → Proc σ ε α} (hc : m.Causal) (hm : Freezes P f m s)
    (hg : wp m (fun b t => Freezes P f (g b) t) (fun _ => True) s) : Freezes P f (m >>= g) s := by
  have hgo : ∀ es u, (∀ t, m.run s es = .pending t → P t ∧ f t = f u) →
      (∀ b t rest, m.run s es = .done b t rest → P t ∧ f t = f u) →
      P ((m >>= g).run s es).state ∧ f ((m >>= g).run s es).state = f u := by
    intro es u hpending hdone
    rw [Proc.bind_run]
    cases hr : m.run s es with
    | pending t => exact hpending t hr
    | done b t rest =>
      have hb := hg es
      rw [hr] at hb
      obtain ⟨hP, hf⟩ := hdone b t rest hr
      exact ⟨(hb.start hP rest).1, (hb.start hP rest).2.trans hf⟩
  refine ⟨?_, ?_⟩
  · intro hP es
    have hs := hm.start hP es
    refine hgo es s ?_ ?_
    · intro t hr
      rwa [hr] at hs
    · intro b t rest hr
      rwa [hr] at hs
  · intro es u hrun hP es'
    rw [Proc.bind_run] at hrun
    cases hr : m.run s es with
    | pending t =>
      rw [hr] at hrun
      obtain rfl : t = u := Outcome.pending.inj hrun
      have hw := hm.wait es t hr hP es'
      refine hgo (es ++ es') t ?_ ?_
      · intro t' hr'
        rwa [hr'] at hw
      · intro b t' rest hr'
        rwa [hr'] at hw
    | done b t rest =>
      have hb := hg es
      rw [hr] at hb hrun
      obtain ⟨used, rfl, hused⟩ := hc s es b t rest hr
      have hall : (m >>= g).run s (used ++ rest ++ es') = (g b).run t (rest ++ es') := by
        rw [Proc.bind_run, List.append_assoc, hused]
      rw [hall]
      exact hb.wait rest u hrun hP es'

/-- **What is final stays so**, in every run over more events. -/
theorem Freezes.final {m : Proc σ ε α} (h : Freezes P f m s) (hc : m.Causal) {es : List ε}
    (hP : P (m.run s es).state) (more : List ε) :
    P (m.run s (es ++ more)).state ∧ f (m.run s (es ++ more)).state = f (m.run s es).state := by
  cases hr : m.run s es with
  | pending t =>
    rw [hr] at hP
    exact h.wait es t hr hP more
  | done a t rest =>
    obtain ⟨used, rfl, hused⟩ := hc s es a t rest hr
    rw [hr] at hP
    rw [List.append_assoc, hused]
    exact ⟨hP, rfl⟩

theorem Freezes.ite {c : Prop} [Decidable c] {m m' : Proc σ ε α} (ht : c → Freezes P f m s)
    (he : ¬c → Freezes P f m' s) : Freezes P f (if c then m else m') s := by
  split
  · exact ht ‹_›
  · exact he ‹_›

/-- A loop whose rounds freeze `f`, from an invariant `I` of the rounds. -/
theorem Freezes.loop {body : β → Proc σ ε (β ⊕ α)} {I : β → σ → Prop} {b : β} (h : I b s)
    (hadvances : Proc.Advances body) (hc : ∀ b, (body b).Causal)
    (hbody : ∀ b s, I b s → Freezes P f (body b) s ∧
      wp (body b) (fun r t => Sum.elim (fun b' => I b' t) (fun _ => True) r) (fun _ => True) s) :
    Freezes P f (Proc.loop body b) s := by
  have hstart : ∀ n b s es, es.length < n → I b s → P s →
      P ((Proc.loop body b).run s es).state ∧ f ((Proc.loop body b).run s es).state = f s := by
    intro n
    induction n with
    | zero => intro b s es hn; omega
    | succ n ih =>
      intro b s es hn h hP
      obtain ⟨hfreezes, hwp⟩ := hbody b s h
      have hs := hfreezes.start hP es
      have hI := hwp es
      rw [Proc.loop_eq hadvances]
      cases hr : (body b).run s es with
      | pending t => rwa [hr] at hs
      | done r t rest =>
        rw [hr] at hs hI
        cases r with
        | inr a => exact hs
        | inl b' =>
          have hlt := hadvances b s es b' t rest hr
          have hrest := ih b' t rest (by omega) hI hs.1
          exact ⟨hrest.1, hrest.2.trans hs.2⟩
  refine ⟨fun hP es => hstart _ b s es (Nat.lt_succ_self _) h hP, ?_⟩
  intro es
  generalize hn : es.length = n
  induction n using Nat.strongRecOn generalizing b s es with
  | ind n ih =>
    intro u hrun hP es'
    obtain ⟨hfreezes, hwp⟩ := hbody b s h
    rw [Proc.loop_eq hadvances] at hrun ⊢
    cases hr : (body b).run s es with
    | pending t =>
      rw [hr] at hrun
      obtain rfl : t = u := Outcome.pending.inj hrun
      have hw := hfreezes.wait es t hr hP es'
      have hI := hwp (es ++ es')
      cases hr' : (body b).run s (es ++ es') with
      | pending t' => rwa [hr'] at hw
      | done r t' rest =>
        rw [hr'] at hw hI
        cases r with
        | inr a => exact hw
        | inl b' =>
          have hrest := hstart _ b' t' rest (Nat.lt_succ_self _) hI hw.1
          exact ⟨hrest.1, hrest.2.trans hw.2⟩
    | done r t rest =>
      have hI := hwp es
      rw [hr] at hrun hI
      obtain ⟨used, rfl, hused⟩ := hc b s es r t rest hr
      rw [List.append_assoc, hused]
      cases r with
      | inr a => cases hrun
      | inl b' =>
        have hlt := hadvances b s (used ++ rest) b' t rest hr
        exact ih rest.length (by omega) hI rest rfl u hrun hP es'

end Freezes

/-- Where a run stands and `P` holds, it returns with the next answer `ev`, whatever `free` events
come before it, and with a result in `R`. -/
def Exits (P : σ → Prop) (free : ε → Prop) (ev : ε) (R : α → Prop) (m : Proc σ ε α) (s : σ) : Prop :=
  ∀ es t, m.run s es = .pending t → P t → ∃ past rest, es = past ++ rest ∧
    ∀ between after, (∀ e ∈ between, free e) →
      ∃ a u, m.run s (past ++ between ++ ev :: after) = .done a u after ∧ R a

section Exits

variable {P : σ → Prop} {free : ε → Prop} {ev : ε} {R : α → Prop} {s : σ}

theorem exits_of_wp {m : Proc σ ε α} {Q : α → σ → Prop} {R' : σ → Prop} (h : wp m Q R' s)
    (hR' : ∀ t, R' t → ¬P t) : Exits P free ev R m s := by
  intro es t hrun hP
  have hstands := h es
  rw [hrun] at hstands
  exact absurd hP (hR' t hstands)

/-- The program waits for this very answer. -/
theorem exits_await {async : ε → Option (σ → σ)} {g : ε → Proc σ ε α} (hev : async ev = none)
    (hg : ∀ t after, ∃ a u, (g ev).run t after = .done a u after ∧ R a) :
    Exits P (fun e => (async e).isSome = true) ev R (Proc.await async >>= g) s := by
  have hanswer : ∀ between s after, (∀ e ∈ between, (async e).isSome = true) →
      ∃ a u, (Proc.await async >>= g).run s (between ++ ev :: after) = .done a u after ∧ R a := by
    intro between
    induction between with
    | nil =>
      intro s after _
      obtain ⟨a, u, hrun, hR⟩ := hg s after
      exact ⟨a, u, by rw [List.nil_append, Proc.await_bind_answer hev]; exact hrun, hR⟩
    | cons e between ih =>
      intro s after hfree
      obtain ⟨f, hf⟩ := Option.isSome_iff_exists.1 (hfree e List.mem_cons_self)
      obtain ⟨a, u, hrun, hR⟩ := ih (f s) after fun e' he' => hfree e' (List.mem_cons_of_mem e he')
      exact ⟨a, u, by rw [List.cons_append, Proc.await_bind_async hf]; exact hrun, hR⟩
  intro es
  induction es generalizing s with
  | nil => exact fun t _ _ => ⟨[], [], rfl, fun between after hfree => hanswer between s after hfree⟩
  | cons e es ih =>
    intro t hrun hP
    cases he : async e with
    | none =>
      exact ⟨[], e :: es, rfl, fun between after hfree => hanswer between s after hfree⟩
    | some f =>
      rw [Proc.await_bind_async he] at hrun
      obtain ⟨past, rest, hes, hpast⟩ := ih t hrun hP
      refine ⟨e :: past, rest, by rw [hes, List.cons_append], ?_⟩
      intro between after hfree
      obtain ⟨a, u, hdone, hR⟩ := hpast between after hfree
      exact ⟨a, u, by rw [List.cons_append, List.cons_append, Proc.await_bind_async he]; exact hdone, hR⟩

/-- The rest of the program waits for nothing. -/
theorem Exits.andThen {R' : β → Prop} {m : Proc σ ε β} {g : β → Proc σ ε α}
    (h : Exits P free ev R' m s)
    (hg : ∀ b t after, R' b → ∃ a u, (g b).run t after = .done a u after ∧ R a)
    (hR' : wp m (fun b _ => R' b) (fun _ => True) s) : Exits P free ev R (m >>= g) s := by
  intro es u hrun hP
  rw [Proc.bind_run] at hrun
  cases hr : m.run s es with
  | done b t rest =>
    have hb := hR' es
    rw [hr] at hb hrun
    obtain ⟨a, v, hdone, -⟩ := hg b t rest hb
    have hno : Outcome.done a v rest = (Outcome.pending u : Outcome σ ε α) := hdone.symm.trans hrun
    cases hno
  | pending t =>
    rw [hr] at hrun
    obtain rfl : t = u := Outcome.pending.inj hrun
    obtain ⟨past, rest, hes, hpast⟩ := h es t hr hP
    refine ⟨past, rest, hes, ?_⟩
    intro between after hfree
    obtain ⟨b, v, hdone, hb⟩ := hpast between after hfree
    obtain ⟨a, v', hdone', hR⟩ := hg b v after hb
    exact ⟨a, v', by rw [Proc.bind_run, hdone]; exact hdone', hR⟩

theorem Exits.bind {m : Proc σ ε β} {g : β → Proc σ ε α} (hc : m.Causal)
    (h : wp m (fun b t => Exits P free ev R (g b) t) (fun t => ¬P t) s) :
    Exits P free ev R (m >>= g) s := by
  intro es u hrun hP
  have hm := h es
  rw [Proc.bind_run] at hrun
  cases hr : m.run s es with
  | pending t =>
    rw [hr] at hm hrun
    obtain rfl : t = u := Outcome.pending.inj hrun
    exact absurd hP hm
  | done b t rest =>
    rw [hr] at hm hrun
    obtain ⟨used, rfl, hused⟩ := hc s es b t rest hr
    obtain ⟨past, rest', rfl, hpast⟩ := hm rest u hrun hP
    refine ⟨used ++ past, rest', (List.append_assoc used past rest').symm, ?_⟩
    intro between after hfree
    obtain ⟨a, v, hdone, hR⟩ := hpast between after hfree
    refine ⟨a, v, ?_, hR⟩
    rw [Proc.bind_run, List.append_assoc, List.append_assoc, hused, ← List.append_assoc]
    exact hdone

theorem Exits.ite {c : Prop} [Decidable c] {m m' : Proc σ ε α}
    (ht : c → Exits P free ev R m s) (he : ¬c → Exits P free ev R m' s) :
    Exits P free ev R (if c then m else m') s := by
  split
  · exact ht ‹_›
  · exact he ‹_›

/-- A loop whose rounds exit by leaving it, from an invariant `I` of the rounds. -/
theorem Exits.loop {body : β → Proc σ ε (β ⊕ α)} {I : β → σ → Prop} {b : β} (h : I b s)
    (hadvances : Proc.Advances body) (hc : ∀ b, (body b).Causal)
    (hbody : ∀ b s, I b s → Exits P free ev (fun r => ∃ a, r = .inr a ∧ R a) (body b) s ∧
      wp (body b) (fun r t => Sum.elim (fun b' => I b' t) (fun _ => True) r) (fun _ => True) s) :
    Exits P free ev R (Proc.loop body b) s := by
  intro es
  generalize hn : es.length = n
  induction n using Nat.strongRecOn generalizing b s es with
  | ind n ih =>
    intro u hrun hP
    obtain ⟨hexits, hwp⟩ := hbody b s h
    rw [Proc.loop_eq hadvances] at hrun
    cases hr : (body b).run s es with
    | pending t =>
      rw [hr] at hrun
      obtain rfl : t = u := Outcome.pending.inj hrun
      obtain ⟨past, rest, hes, hpast⟩ := hexits es t hr hP
      refine ⟨past, rest, hes, ?_⟩
      intro between after hfree
      obtain ⟨r, v, hdone, a, rfl, hR⟩ := hpast between after hfree
      exact ⟨a, v, by rw [Proc.loop_eq hadvances, hdone], hR⟩
    | done r t rest =>
      have hI := hwp es
      rw [hr] at hrun hI
      obtain ⟨used, rfl, hused⟩ := hc b s es r t rest hr
      cases r with
      | inr a => cases hrun
      | inl b' =>
        have hlt := hadvances b s (used ++ rest) b' t rest hr
        obtain ⟨past, rest', rfl, hpast⟩ := ih rest.length (by omega) hI rest rfl u hrun hP
        refine ⟨used ++ past, rest', (List.append_assoc used past rest').symm, ?_⟩
        intro between after hfree
        obtain ⟨a, v, hdone, hR⟩ := hpast between after hfree
        refine ⟨a, v, ?_, hR⟩
        rw [Proc.loop_eq hadvances, List.append_assoc, List.append_assoc, hused,
          ← List.append_assoc]
        exact hdone

theorem Exits.zoom {view : σ → τ} {put : τ → σ → σ} {m : Proc τ ε α} {P' : τ → Prop}
    (h : Exits P' free ev R m (view s)) (hP : ∀ t, P (put t s) → P' t) :
    Exits P free ev R (Proc.zoom view put m) s := by
  have hrun : ∀ es, (Proc.zoom view put m).run s es = Proc.zoomRun view put m s es := fun _ => rfl
  intro es u hpending hPu
  rw [hrun, Proc.zoomRun] at hpending
  cases hr : m.run (view s) es with
  | done a t rest => rw [hr] at hpending; cases hpending
  | pending t =>
    rw [hr] at hpending
    obtain rfl : put t s = u := Outcome.pending.inj hpending
    obtain ⟨past, rest, hes, hpast⟩ := h es t hr (hP t hPu)
    refine ⟨past, rest, hes, ?_⟩
    intro between after hfree
    obtain ⟨a, v, hdone, hR⟩ := hpast between after hfree
    exact ⟨a, put v s, by rw [hrun, Proc.zoomRun, hdone], hR⟩

end Exits

end Oracle
