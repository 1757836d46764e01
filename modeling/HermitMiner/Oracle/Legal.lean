import HermitMiner.Oracle.Couple
import HermitMiner.Oracle.Rounds

/-!
# Legal events

In a system of several parties, the others decide which events a program can get: `L` says which,
from the state of the program in which the event comes.

* `Proc.Legal`: the runs over events that `L` admits; `legal_bind` takes them apart at a sequence.
* `Guards`: the programs that keep an invariant along legal runs, closed under the operations of the
  language.
-/

namespace Oracle

open Proc

variable {σ τ ε α β : Type}

/-- Every event is one that `L` admits in the state in which it comes. -/
def Proc.Legal (L : σ → ε → Prop) (m : Proc σ ε α) (s : σ) (es : List ε) : Prop :=
  ∀ past ev rest, es = past ++ ev :: rest → L (m.run s past).state ev

variable {L : σ → ε → Prop}

section Legal

variable {m : Proc σ ε α} {s : σ} {es more : List ε}

theorem legal_nil : m.Legal L s [] := by
  intro past ev rest h
  simp at h

theorem Proc.Legal.of_append (h : m.Legal L s (es ++ more)) : m.Legal L s es :=
  fun past ev rest hes => h past ev (rest ++ more) (by simp [hes])

theorem legal_concat {ev : ε} :
    m.Legal L s (es ++ [ev]) ↔ m.Legal L s es ∧ L (m.run s es).state ev := by
  constructor
  · exact fun h => ⟨h.of_append, h es ev [] rfl⟩
  · rintro ⟨hes, hev⟩ past x rest h
    rcases List.eq_nil_or_concat rest with rfl | ⟨rest, y, rfl⟩
    · obtain ⟨rfl, hx⟩ := List.append_inj' h rfl
      obtain rfl : ev = x := by simpa using hx
      exact hev
    · have h' : es ++ [ev] = (past ++ x :: rest) ++ [y] := by simpa using h
      exact hes past x rest (List.append_inj' h' rfl).1

theorem legal_singleton {ev : ε} (h : L (m.run s []).state ev) : m.Legal L s [ev] :=
  legal_concat.2 ⟨legal_nil, h⟩

theorem Proc.Legal.mono {L' : σ → ε → Prop} (h : m.Legal L s es) (hL : ∀ s ev, L s ev → L' s ev) :
    m.Legal L' s es :=
  fun past ev rest hes => hL _ ev (h past ev rest hes)

/-- The programs that run alike have the same legal events. -/
theorem Proc.Legal.congr {m' : Proc σ ε α} {s' : σ} (hrun : ∀ es, m'.run s' es = m.run s es)
    (h : m.Legal L s es) : m'.Legal L s' es := by
  intro past ev rest hes
  rw [hrun]
  exact h past ev rest hes

/-- Before a run that returns at the end of its events returns, it is pending. -/
theorem Proc.Causal.pending_before (hc : m.Causal) {past rest : List ε} {ev : ε} {a : α} {t : σ}
    (h : m.run s (past ++ ev :: rest) = .done a t []) : ∃ u, m.run s past = .pending u := by
  cases hr : m.run s past with
  | pending u => exact ⟨u, rfl⟩
  | done b u back =>
    obtain ⟨used, rfl, hused⟩ := hc s past b u back hr
    rw [List.append_assoc, hused] at h
    simp at h

theorem Proc.Causal.pending_of_append (hc : m.Causal) {t : σ}
    (h : m.run s (es ++ more) = .pending t) : ∃ u, m.run s es = .pending u := by
  cases hr : m.run s es with
  | pending u => exact ⟨u, rfl⟩
  | done b u back =>
    obtain ⟨used, rfl, hused⟩ := hc s es b u back hr
    rw [List.append_assoc, hused] at h
    cases h

/-- A run that returned with all its events used does the same before any others. -/
theorem Proc.Causal.before (hc : m.Causal) {a : α} {t : σ} (h : m.run s es = .done a t [])
    (rest : List ε) : m.run s (es ++ rest) = .done a t rest := by
  obtain ⟨used, hes, hused⟩ := hc s es a t [] h
  rw [List.append_nil] at hes
  rw [hes]
  exact hused rest

/-- The events that a run used are those of a run that returned with all its events used. -/
theorem Proc.Causal.split (hc : m.Causal) {a : α} {t : σ} {rest : List ε}
    (h : m.run s es = .done a t rest) : ∃ used, es = used ++ rest ∧ m.run s used = .done a t [] := by
  obtain ⟨used, rfl, hused⟩ := hc s es a t rest h
  exact ⟨used, rfl, by simpa using hused []⟩

end Legal

section LegalBind

variable {m : Proc σ ε β} {f : β → Proc σ ε α} {s t : σ} {es rest : List ε} {b : β}

/-- What the second program does, when the first has returned. -/
theorem Proc.Causal.bind_before (hc : m.Causal) (h : m.run s es = .done b t []) (rest : List ε) :
    (m >>= f).run s (es ++ rest) = (f b).run t rest := by
  rw [bind_run, hc.before h]

theorem bind_state_of_pending (h : m.run s es = .pending t) : ((m >>= f).run s es).state = t := by
  rw [bind_run, h]
  rfl

/-- As long as the first program is pending. -/
theorem legal_bind_pending (hc : m.Causal) (h : m.run s es = .pending t) :
    (m >>= f).Legal L s es ↔ m.Legal L s es := by
  have hstate : ∀ past ev rest, es = past ++ ev :: rest →
      ((m >>= f).run s past).state = (m.run s past).state := by
    rintro past ev rest rfl
    obtain ⟨u, hu⟩ := hc.pending_of_append h
    rw [bind_state_of_pending hu, hu]
    rfl
  constructor
  · intro hl past ev rest hes
    rw [← hstate past ev rest hes]
    exact hl past ev rest hes
  · intro hl past ev rest hes
    rw [hstate past ev rest hes]
    exact hl past ev rest hes

/-- **Legal events of a sequence**: those of the first program, and those of the second. -/
theorem legal_bind (hc : m.Causal) (h : m.run s es = .done b t []) :
    (m >>= f).Legal L s (es ++ rest) ↔ m.Legal L s es ∧ (f b).Legal L t rest := by
  have hfirst : ∀ past ev back, es = past ++ ev :: back →
      ((m >>= f).run s past).state = (m.run s past).state := by
    rintro past ev back rfl
    obtain ⟨u, hu⟩ := hc.pending_before h
    rw [bind_state_of_pending hu, hu]
    rfl
  have hsecond : ∀ past, (m >>= f).run s (es ++ past) = (f b).run t past := hc.bind_before h
  constructor
  · refine fun hl => ⟨?_, ?_⟩
    · intro past ev back hes
      rw [← hfirst past ev back hes]
      exact hl past ev (back ++ rest) (by simp [hes])
    · intro past ev back hrest
      rw [← hsecond]
      exact hl (es ++ past) ev back (by simp [hrest])
  · rintro ⟨hm, hf⟩ past ev back hes
    rcases List.append_eq_append_iff.1 hes with ⟨past', rfl, hrest⟩ | ⟨back', hes', hback⟩
    · rw [hsecond]
      exact hf past' ev back hrest
    · cases back' with
      | nil =>
        rw [List.append_nil] at hes'
        subst hes'
        have hnil := hsecond []
        rw [List.append_nil] at hnil
        rw [hnil]
        exact hf [] ev back (by simpa using hback.symm)
      | cons x back' =>
        obtain ⟨rfl, rfl⟩ : ev = x ∧ back = back' ++ rest := by simpa using hback
        rw [hfirst past ev back' hes']
        exact hm past ev back' hes'

end LegalBind

section LegalCons

variable {m m' : Proc σ ε α} {s t : σ} {ev : ε} {es : List ε}

/-- Legal events of a program that goes on as another after the first. -/
theorem legal_cons (hnil : m.run s [] = .pending s)
    (hrun : ∀ es, m.run s (ev :: es) = m'.run t es) :
    m.Legal L s (ev :: es) ↔ L s ev ∧ m'.Legal L t es := by
  have hfirst : (m.run s []).state = s := by rw [hnil]; rfl
  constructor
  · refine fun hl => ⟨hfirst ▸ hl [] ev es rfl, fun past x rest hes => ?_⟩
    rw [← hrun]
    exact hl (ev :: past) x rest (by rw [hes, List.cons_append])
  · rintro ⟨hev, hl⟩ past x rest hes
    cases past with
    | nil =>
      obtain ⟨rfl, rfl⟩ : ev = x ∧ es = rest := by simpa using hes
      rwa [hfirst]
    | cons y past =>
      obtain ⟨rfl, rfl⟩ : ev = y ∧ es = past ++ x :: rest := by simpa using hes
      rw [hrun]
      exact hl past x rest rfl

end LegalCons

/-! ## Invariants of legal runs -/

/-- The program keeps `I` along legal runs. -/
def Guards (L : σ → ε → Prop) (I : σ → Prop) (m : Proc σ ε α) : Prop :=
  ∀ s, I s → ∀ es, m.Legal L s es → I (m.run s es).state

namespace Guards

variable {I : σ → Prop}

theorem of_keeps {m : Proc σ ε α} (h : Keeps I m) : Guards L I m :=
  fun s hs es _ => (h s hs).state es

theorem pure {a : α} : Guards L I (Pure.pure a : Proc σ ε α) := of_keeps .pure

theorem bind {m : Proc σ ε β} {f : β → Proc σ ε α} (hc : m.Causal) (hm : Guards L I m)
    (hf : ∀ b, Guards L I (f b)) : Guards L I (m >>= f) := by
  intro s hs es hl
  cases hr : m.run s es with
  | pending t =>
    have ht := hm s hs es ((legal_bind_pending hc hr).1 hl)
    rw [hr] at ht
    rw [bind_state_of_pending hr]
    exact ht
  | done b t rest =>
    obtain ⟨used, rfl, hdone⟩ := hc.split hr
    obtain ⟨hm', hf'⟩ := (legal_bind hc hdone).1 hl
    have ht := hm s hs used hm'
    rw [hdone] at ht
    rw [bind_run, hr]
    exact hf b t ht rest hf'

theorem ite {c : Prop} [Decidable c] {m m' : Proc σ ε α} (hm : Guards L I m)
    (hm' : Guards L I m') : Guards L I (if c then m else m') := by
  split
  · exact hm
  · exact hm'

/-- A program that starts by waiting. -/
theorem await {async : ε → Option (σ → σ)} {m : Proc σ ε α} {next : ε → Proc σ ε α}
    (hm : Waits async m next)
    (hasync : ∀ ev f s, async ev = some f → L s ev → I s → I (f s))
    (hnext : ∀ ev, Guards L I (next ev)) : Guards L I m := by
  intro s hs es
  induction es generalizing s with
  | nil =>
    intro _
    rw [hm.nil]
    exact hs
  | cons ev es ih =>
    intro hl
    have hev : L s ev := by
      have hfirst := hl [] ev es rfl
      rwa [hm.nil] at hfirst
    cases ha : async ev with
    | some f =>
      have hrun : ∀ es, m.run s (ev :: es) = m.run (f s) es := hm.slip ha
      rw [hrun]
      refine ih (f s) (hasync ev f s ha hev hs) fun past x rest hes => ?_
      rw [← hrun]
      exact hl (ev :: past) x rest (by rw [hes, List.cons_append])
    | none =>
      have hrun : ∀ es, m.run s (ev :: es) = (next ev).run s es := hm.answer ha
      rw [hrun]
      refine hnext ev s hs es fun past x rest hes => ?_
      rw [← hrun]
      exact hl (ev :: past) x rest (by rw [hes, List.cons_append])

theorem loop {body : β → Proc σ ε (β ⊕ α)} (hadvances : Advances body)
    (hc : ∀ b, (body b).Causal) (hbody : ∀ b, Guards L I (body b)) (b : β) :
    Guards L I (Proc.loop body b) := by
  intro s hs es
  generalize hn : es.length = n
  induction n using Nat.strongRecOn generalizing b s es with
  | ind n ih =>
    rw [loop_bind hadvances]
    intro hl
    cases hr : (body b).run s es with
    | pending t =>
      have ht := hbody b s hs es ((legal_bind_pending (hc b) hr).1 hl)
      rw [hr] at ht
      rw [bind_state_of_pending hr]
      exact ht
    | done r t rest =>
      obtain ⟨used, rfl, hdone⟩ := (hc b).split hr
      obtain ⟨hm', hf'⟩ := (legal_bind (hc b) hdone).1 hl
      have ht := hbody b s hs used hm'
      rw [hdone] at ht
      rw [bind_run, hr]
      cases r with
      | inr a => exact ht
      | inl b' =>
        have hlt := hadvances b s _ b' t rest hr
        exact ih rest.length (by omega) b' t ht rest rfl hf'

end Guards

end Oracle
