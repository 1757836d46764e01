import HermitMiner.Oracle.Basic

/-!
# The rounds of a run of a loop

* `Proc.Causal`: a program whose run depends on the events it uses and not on those behind them.
* `Causal.leads_of_mem_rounds`: a loop of such rounds comes to each of them by a piece of the events.
* `rounds_pairwise`: what relates every round of a run to every later one.
-/

namespace Oracle

variable {σ τ ε α β : Type}

namespace Proc

/-- A run that returns does the same whatever events are behind those it used. -/
def Causal (m : Proc σ ε α) : Prop :=
  ∀ s es a s' rest, m.run s es = .done a s' rest →
    ∃ used, es = used ++ rest ∧ ∀ rest', m.run s (used ++ rest') = .done a s' rest'

namespace Causal

theorem pure {a : α} : Causal (Pure.pure a : Proc σ ε α) := by
  intro s es b s' rest hrun
  cases hrun
  exact ⟨[], rfl, fun _ => rfl⟩

theorem get : Causal (Proc.get : Proc σ ε σ) := by
  intro s es b s' rest hrun
  cases hrun
  exact ⟨[], rfl, fun _ => rfl⟩

theorem modify {f : σ → σ} : Causal (Proc.modify f : Proc σ ε Unit) := by
  intro s es b s' rest hrun
  cases hrun
  exact ⟨[], rfl, fun _ => rfl⟩

theorem halt : Causal (Proc.halt : Proc σ ε α) := by
  intro s es b s' rest hrun
  cases hrun

theorem bind {m : Proc σ ε β} {f : β → Proc σ ε α} (hm : Causal m) (hf : ∀ b, Causal (f b)) :
    Causal (m >>= f) := by
  intro s es a s' rest hrun
  rw [bind_run] at hrun
  cases hr : m.run s es with
  | pending t => rw [hr] at hrun; cases hrun
  | done b t es' =>
    rw [hr] at hrun
    obtain ⟨used, rfl, hused⟩ := hm s es b t es' hr
    obtain ⟨used', rfl, hused'⟩ := hf b t es' a s' rest hrun
    refine ⟨used ++ used', (List.append_assoc used used' rest).symm, ?_⟩
    intro rest'
    rw [bind_run, List.append_assoc, hused]
    exact hused' rest'

theorem ite {c : Prop} [Decidable c] {m m' : Proc σ ε α} (hm : Causal m) (hm' : Causal m') :
    Causal (if c then m else m') := by
  split
  · exact hm
  · exact hm'

theorem await (async : ε → Option (σ → σ)) : Causal (Proc.await async) := by
  intro s es
  induction es generalizing s with
  | nil => intro a s' rest hrun; cases hrun
  | cons e es ih =>
    intro a s' rest hrun
    cases ha : async e with
    | some f =>
      rw [await_run_async ha] at hrun
      obtain ⟨used, rfl, hused⟩ := ih (f s) a s' rest hrun
      refine ⟨e :: used, rfl, fun rest' => ?_⟩
      rw [List.cons_append, await_run_async ha]
      exact hused rest'
    | none =>
      rw [await_run_answer ha] at hrun
      cases hrun
      refine ⟨[e], rfl, fun rest' => ?_⟩
      rw [List.singleton_append, await_run_answer ha]

theorem loop {body : β → Proc σ ε (β ⊕ α)} (hc : Advances body) (hbody : ∀ b, Causal (body b))
    (b : β) : Causal (Proc.loop body b) := by
  intro s es
  generalize hn : es.length = n
  induction n using Nat.strongRecOn generalizing b s es with
  | ind n ih =>
    intro a s' rest hrun
    rw [loop_eq hc] at hrun
    cases hr : (body b).run s es with
    | pending t => rw [hr] at hrun; cases hrun
    | done r t es' =>
      rw [hr] at hrun
      obtain ⟨used, rfl, hused⟩ := hbody b s es r t es' hr
      cases r with
      | inr a' =>
        cases hrun
        exact ⟨used, rfl, fun rest' => by rw [loop_eq hc, hused]⟩
      | inl b' =>
        have hlt := hc b s (used ++ es') b' t es' hr
        obtain ⟨used', rfl, hused'⟩ := ih es'.length (by omega) b' t es' rfl a s' rest hrun
        refine ⟨used ++ used', (List.append_assoc used used' rest).symm, fun rest' => ?_⟩
        rw [loop_eq hc, List.append_assoc, hused]
        exact hused' rest'

theorem zoom {view : σ → τ} {put : τ → σ → σ} {m : Proc τ ε α} (hm : Causal m) :
    Causal (Proc.zoom view put m) := by
  intro s es a s' rest hrun
  have hzoom : ∀ es, (Proc.zoom view put m).run s es = Proc.zoomRun view put m s es := fun _ => rfl
  rw [hzoom, zoomRun] at hrun
  cases hr : m.run (view s) es with
  | pending t => rw [hr] at hrun; cases hrun
  | done b t es' =>
    rw [hr] at hrun
    cases hrun
    obtain ⟨used, hes, hused⟩ := hm _ _ _ _ _ hr
    exact ⟨used, hes, fun rest' => by rw [hzoom, zoomRun, hused]⟩

/-- **The rounds of a causal loop**: a piece of the events comes to each of them. -/
theorem leads_of_mem_rounds {body : β → Proc σ ε (β ⊕ α)} (hbody : ∀ b, Causal (body b))
    (hc : Advances body) {b : β} {s : σ} {es : List ε} {p : β × σ} (hp : p ∈ rounds body b s es) :
    ∃ past rest, es = past ++ rest ∧ Leads body b s past p.1 p.2 := by
  have hfrom : ∀ n b s es, p ∈ roundsFrom body n b s es →
      ∃ past rest, es = past ++ rest ∧ Leads body b s past p.1 p.2 := by
    intro n
    induction n with
    | zero => intro b s es hp; cases hp
    | succ n ih =>
      intro b s es hp
      rw [roundsFrom] at hp
      rcases List.mem_cons.1 hp with rfl | hlater
      · exact ⟨[], es, rfl, .refl⟩
      · cases hr : (body b).run s es with
        | pending s' => rw [hr] at hlater; cases hlater
        | done r s' es' =>
          rw [hr] at hlater
          cases r with
          | inr a => cases hlater
          | inl b' =>
            obtain ⟨used, hes, hused⟩ := hbody b s es _ s' es' hr
            obtain ⟨past, rest, hrest, hleads⟩ := ih b' s' es' hlater
            refine ⟨used ++ past, rest, ?_, (Leads.round hc hused).trans hleads⟩
            rw [hes, hrest, List.append_assoc]
  exact hfrom (es.length + 1) b s es hp

end Causal

end Proc

/-- What relates every round of a run to every later one: an invariant `I` of the rounds, and a
relation that a round establishes between its own start and the next round, and keeps. -/
theorem rounds_pairwise {body : β → Proc σ ε (β ⊕ α)} {I : β → σ → Prop}
    {R : β × σ → β × σ → Prop} {b : β} {s : σ} (h : I b s)
    (hbody : ∀ b s, I b s →
      wp (body b) (fun r s' => Sum.elim (fun b' => I b' s' ∧ R (b, s) (b', s') ∧
        ∀ p, R p (b, s) → R p (b', s')) (fun _ => True) r) (fun _ => True) s)
    (es : List ε) : (Proc.rounds body b s es).Pairwise R := by
  -- a round to which an earlier one `p` is related stays so
  have hlater : ∀ n p b s es, I b s → R p (b, s) → ∀ q ∈ Proc.roundsFrom body n b s es, R p q := by
    intro n p
    induction n with
    | zero => intro b s es _ _ q hq; cases hq
    | succ n ih =>
      intro b s es h hR q hq
      have hb := hbody b s h es
      rw [Proc.roundsFrom] at hq
      rcases List.mem_cons.1 hq with rfl | hq
      · exact hR
      · cases hr : (body b).run s es with
        | pending s' => rw [hr] at hq; cases hq
        | done r s' es' =>
          rw [hr] at hb hq
          cases r with
          | inr a => cases hq
          | inl b' => exact ih b' s' es' hb.1 (hb.2.2 p hR) q hq
  have hfrom : ∀ n b s es, I b s → (Proc.roundsFrom body n b s es).Pairwise R := by
    intro n
    induction n with
    | zero => intro b s es _; exact .nil
    | succ n ih =>
      intro b s es h
      have hb := hbody b s h es
      rw [Proc.roundsFrom]
      cases hr : (body b).run s es with
      | pending s' => exact .cons (by simp) .nil
      | done r s' es' =>
        rw [hr] at hb
        cases r with
        | inr a => exact .cons (by simp) .nil
        | inl b' =>
          exact .cons (hlater n (b, s) b' s' es' hb.1 hb.2.1) (ih b' s' es' hb.1)
  exact hfrom (es.length + 1) b s es h

end Oracle
