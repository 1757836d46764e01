import HermitMiner.Oracle.Legal

/-!
# Runs that can always be completed

Liveness of a program among other parties, as the possibility to go on: wherever a legal run stands,
unless it is stuck on an answer to another operation, some legal events complete it.

* `Setting`: the events that the other parties can cause, and a relation of each state of a run to the
  later ones.
* `Can`: some legal events let the program return.
* `Live`: what legal runs satisfy, as in `wp`, and that they can be completed. It has a rule for each
  operation of the language; the rule for loops (`Live.loop`) asks for a measure that some legal
  round lowers.
-/

namespace Oracle

open Proc

variable {σ τ ε α β : Type}

/-- The world in which a program runs. -/
structure Setting (σ ε : Type) where
  /-- The events that can come in a state. -/
  admits : σ → ε → Prop
  /-- A state of a run and a later one. -/
  onward : σ → σ → Prop
  refl : ∀ s, onward s s
  trans : ∀ {s t u}, onward s t → onward t u → onward s u

/-- What happens in a component of the state happens in the whole. -/
structure Setting.Sees (W : Setting σ ε) (U : Setting τ ε) (put : τ → σ → σ) : Prop where
  admits : ∀ s t ev, W.admits (put t s) ev ↔ U.admits t ev
  onward : ∀ s t u, U.onward t u → W.onward (put t s) (put u s)

/-- The program returns, whatever comes after. -/
def Immediate (m : Proc σ ε α) (s : σ) : Prop := ∃ a t, ∀ es, m.run s es = .done a t es

section Immediate

variable {s : σ}

theorem Immediate.pure {a : α} : Immediate (Pure.pure a : Proc σ ε α) s := ⟨a, s, fun _ => rfl⟩

theorem Immediate.read {f : σ → Proc σ ε α} (h : Immediate (f s) s) :
    Immediate (Proc.get >>= f) s := h

theorem Immediate.update {g : σ → σ} {f : Unit → Proc σ ε α} (h : Immediate (f ()) (g s)) :
    Immediate (Proc.modify g >>= f) s := h

theorem Immediate.ite {c : Prop} [Decidable c] {m m' : Proc σ ε α} (ht : c → Immediate m s)
    (he : ¬c → Immediate m' s) : Immediate (if c then m else m') s := by
  split
  · exact ht ‹_›
  · exact he ‹_›

end Immediate

/-- Some legal events let the program return, as `P` says. -/
def Can (W : Setting σ ε) (m : Proc σ ε α) (P : α → σ → Prop) (s : σ) : Prop :=
  ∃ es a t, m.Legal W.admits s es ∧ m.run s es = .done a t [] ∧ P a t

/-- Legal runs satisfy `Q` when they return and `R` while they are pending; they go onward, they can
return, and those that are not stuck can be completed. -/
structure Live (W : Setting σ ε) (m : Proc σ ε α) (Q : α → σ → Prop) (R : σ → Prop) (s : σ) :
    Prop where
  safe : ∀ es, m.Legal W.admits s es → (m.run s es).Sat Q R
  starts : W.onward s (m.run s []).state
  grows : ∀ es ev, m.Legal W.admits s (es ++ [ev]) →
    W.onward (m.run s es).state (m.run s (es ++ [ev])).state
  begins : Can W m (fun _ _ => True) s
  continues : ∀ es t, m.Legal W.admits s es → m.run s es = .pending t → ¬Stuck m s es →
    ∃ more a u, m.Legal W.admits s (es ++ more) ∧ m.run s (es ++ more) = .done a u []

variable {W : Setting σ ε}

namespace Can

variable {P P' : α → σ → Prop} {s : σ}

theorem mono {m : Proc σ ε α} (h : Can W m P s) (hP : ∀ a t, P a t → P' a t) : Can W m P' s := by
  obtain ⟨es, a, t, hl, hr, ha⟩ := h
  exact ⟨es, a, t, hl, hr, hP a t ha⟩

theorem pure {a : α} (h : P a s) : Can W (Pure.pure a : Proc σ ε α) P s :=
  ⟨[], a, s, legal_nil, rfl, h⟩

/-- One event completes the program. -/
theorem event {m : Proc σ ε α} {ev : ε} {a : α} {t : σ} (hnil : m.run s [] = .pending s)
    (hev : W.admits s ev) (hr : m.run s [ev] = .done a t []) (h : P a t) : Can W m P s := by
  refine ⟨[ev], a, t, legal_singleton ?_, hr, h⟩
  rw [hnil]
  exact hev

theorem bind {m : Proc σ ε β} {f : β → Proc σ ε α} {Q : β → σ → Prop} (hc : m.Causal)
    (hm : Can W m Q s) (hf : ∀ b t, Q b t → Can W (f b) P t) : Can W (m >>= f) P s := by
  obtain ⟨es, b, t, hl, hr, hb⟩ := hm
  obtain ⟨more, a, u, hl', hr', ha⟩ := hf b t hb
  refine ⟨es ++ more, a, u, (legal_bind hc hr).2 ⟨hl, hl'⟩, ?_, ha⟩
  rw [bind_run, hc.before hr]
  exact hr'

/-- The environment acts on its own first. -/
theorem before {async : ε → Option (σ → σ)} {m : Proc σ ε α} {next : ε → Proc σ ε α} {ev : ε}
    {f : σ → σ} (hm : Waits async m next) (ha : async ev = some f) (hev : W.admits s ev)
    (h : Can W m P (f s)) : Can W m P s := by
  obtain ⟨es, a, t, hl, hr, hP⟩ := h
  have hrun : ∀ es, m.run s (ev :: es) = m.run (f s) es := hm.slip ha
  exact ⟨ev :: es, a, t, (legal_cons (hm.nil s) hrun).2 ⟨hev, hl⟩, (hrun es).trans hr, hP⟩

theorem ite {c : Prop} [Decidable c] {m m' : Proc σ ε α} (ht : c → Can W m P s)
    (he : ¬c → Can W m' P s) : Can W (if c then m else m') P s := by
  split
  · exact ht ‹_›
  · exact he ‹_›

end Can

namespace Live

variable {Q Q' : α → σ → Prop} {R R' : σ → Prop} {s : σ}

theorem mono {m : Proc σ ε α} (h : Live W m Q R s) (hQ : ∀ a t, Q a t → Q' a t)
    (hR : ∀ t, R t → R' t) : Live W m Q' R' s := by
  refine { h with safe := fun es hl => ?_ }
  have hs := h.safe es hl
  cases hr : m.run s es with
  | done a t rest =>
    rw [hr] at hs
    exact hQ a t hs
  | pending t =>
    rw [hr] at hs
    exact hR t hs

/-- What a legal run that returned satisfies. -/
theorem done {m : Proc σ ε α} (h : Live W m Q R s) {es rest : List ε} {a : α} {t : σ}
    (hl : m.Legal W.admits s es) (hr : m.run s es = .done a t rest) : Q a t := by
  have hs := h.safe es hl
  rw [hr] at hs
  exact hs

theorem can {m : Proc σ ε α} (h : Live W m Q R s) : Can W m Q s := by
  obtain ⟨es, a, t, hl, hr, -⟩ := h.begins
  exact ⟨es, a, t, hl, hr, h.done hl hr⟩

/-- A legal run that is not stuck is completed. -/
theorem complete {m : Proc σ ε α} (h : Live W m Q R s) {es : List ε}
    (hl : m.Legal W.admits s es) (hstuck : ¬Stuck m s es) :
    ∃ more a t rest, m.Legal W.admits s (es ++ more) ∧
      m.run s (es ++ more) = .done a t rest ∧ Q a t := by
  cases hr : m.run s es with
  | done a t rest =>
    exact ⟨[], a, t, rest, by rwa [List.append_nil], by rwa [List.append_nil], h.done hl hr⟩
  | pending t =>
    obtain ⟨more, a, u, hl', hr'⟩ := h.continues es t hl hr hstuck
    exact ⟨more, a, u, [], hl', hr', h.done hl' hr'⟩

/-- A program that waits for nothing. -/
theorem of_done {m : Proc σ ε α} {a : α} {t : σ} (h : ∀ es, m.run s es = .done a t es)
    (ht : W.onward s t) (hQ : Q a t) : Live W m Q R s where
  safe es _ := by
    rw [h]
    exact hQ
  starts := by
    rw [h]
    exact ht
  grows es ev _ := by
    rw [h, h]
    exact W.refl t
  begins := ⟨[], a, t, legal_nil, h [], trivial⟩
  continues es u _ hr := by
    rw [h] at hr
    cases hr

/-- A program that returns, as `wp` says. -/
theorem of_immediate {m : Proc σ ε α} (h : Immediate m s)
    (hwp : wp m (fun a t => W.onward s t ∧ Q a t) R' s) : Live W m Q R s := by
  obtain ⟨a, t, hrun⟩ := h
  obtain ⟨hon, hQ⟩ := hwp.done (hrun [])
  exact of_done hrun hon hQ

theorem pure {a : α} (h : Q a s) : Live W (Pure.pure a : Proc σ ε α) Q R s :=
  of_done (fun _ => rfl) (W.refl s) h

/-- What every run satisfies, legal runs satisfy. -/
theorem and {m : Proc σ ε α} (h : Live W m Q R s) (hwp : wp m Q' R' s) :
    Live W m (fun a t => Q a t ∧ Q' a t) (fun t => R t ∧ R' t) s := by
  refine { h with safe := fun es hl => ?_ }
  have hs := h.safe es hl
  have hs' := hwp es
  cases hr : m.run s es with
  | done a t rest =>
    rw [hr] at hs hs'
    exact ⟨hs, hs'⟩
  | pending t =>
    rw [hr] at hs hs'
    exact ⟨hs, hs'⟩

section Sequence

variable {m : Proc σ ε β} {f : β → Proc σ ε α} {P : β → σ → Prop} (hc : m.Causal)
  (hm : Live W m P R s)
include hc hm

/-- A run of the first program that returned is completed by one of the second. -/
theorem finish (hf : ∀ b t, P b t → Can W (f b) (fun _ _ => True) t) {es : List ε} {b : β} {t : σ}
    (hl : m.Legal W.admits s es) (hr : m.run s es = .done b t []) :
    ∃ more a u, (m >>= f).Legal W.admits s (es ++ more) ∧
      (m >>= f).run s (es ++ more) = .done a u [] := by
  obtain ⟨more, a, u, hl', hr', -⟩ := hf b t (hm.done hl hr)
  exact ⟨more, a, u, (legal_bind hc hr).2 ⟨hl, hl'⟩, (hc.bind_before hr more).trans hr'⟩

/-- A run that stands in the first program is completed. -/
theorem finish_pending (hf : ∀ b t, P b t → Can W (f b) (fun _ _ => True) t) {es : List ε} {t : σ}
    (hl : (m >>= f).Legal W.admits s es) (hr : m.run s es = .pending t)
    (hstuck : ¬Stuck (m >>= f) s es) :
    ∃ more a u, (m >>= f).Legal W.admits s (es ++ more) ∧
      (m >>= f).run s (es ++ more) = .done a u [] := by
  obtain ⟨more, b, t', hl', hr'⟩ :=
    hm.continues es t ((legal_bind_pending hc hr).1 hl) hr fun h => hstuck h.bind
  obtain ⟨more', a, u, hdone⟩ := finish hc hm hf hl' hr'
  exact ⟨more ++ more', a, u, by rwa [← List.append_assoc]⟩

/-- A run that stands in the first program goes onward. -/
theorem grows_pending (hf : ∀ b t, P b t → W.onward t ((f b).run t []).state) {es : List ε} {ev : ε}
    {t : σ} (hl : (m >>= f).Legal W.admits s (es ++ [ev])) (hr : m.run s es = .pending t) :
    W.onward ((m >>= f).run s es).state ((m >>= f).run s (es ++ [ev])).state := by
  rw [bind_state_of_pending hr]
  cases hr' : m.run s (es ++ [ev]) with
  | pending t' =>
    have hgrow := hm.grows es ev ((legal_bind_pending hc hr').1 hl)
    rw [bind_state_of_pending hr']
    rwa [hr, hr'] at hgrow
  | done b t' rest =>
    -- the last event lets the first program return
    obtain ⟨used, hes, hused⟩ := hc s _ b t' rest hr'
    have hrest : rest = [] := by
      rcases List.eq_nil_or_concat rest with hrest | ⟨rest, x, rfl⟩
      · exact hrest
      · rw [List.concat_eq_append, ← List.append_assoc] at hes
        obtain ⟨rfl, -⟩ := List.append_inj' hes rfl
        rw [hused] at hr
        cases hr
    subst hrest
    have hall := hc.bind_before (f := f) hr' []
    rw [List.append_nil] at hall
    have hl' : m.Legal W.admits s (es ++ [ev]) :=
      ((@legal_bind _ _ _ _ _ _ f _ _ _ [] _ hc hr').1 (by rwa [List.append_nil])).1
    have hgrow := hm.grows es ev hl'
    rw [hr, hr'] at hgrow
    rw [hall]
    exact W.trans hgrow (hf b t' (hm.done hl' hr'))

theorem starts_bind (hf : ∀ b t, P b t → W.onward t ((f b).run t []).state) :
    W.onward s ((m >>= f).run s []).state := by
  have hstart := hm.starts
  rw [bind_run]
  cases hr : m.run s [] with
  | pending t =>
    rw [hr] at hstart
    exact hstart
  | done b t rest =>
    obtain ⟨used, hused, hrun⟩ := hc s [] b t rest hr
    obtain ⟨rfl, rfl⟩ := List.nil_eq_append_iff.1 hused
    rw [hr] at hstart
    exact W.trans hstart (hf b t (hm.done legal_nil hr))

theorem bind (hf : ∀ b t, P b t → Live W (f b) Q R t) : Live W (m >>= f) Q R s := by
  have hbegins : ∀ b t, P b t → Can W (f b) (fun _ _ => True) t := fun b t h => (hf b t h).begins
  have hstarts : ∀ b t, P b t → W.onward t ((f b).run t []).state := fun b t h => (hf b t h).starts
  refine ⟨?_, starts_bind hc hm hstarts, ?_, ?_, ?_⟩
  · intro es hl
    rw [bind_run]
    cases hr : m.run s es with
    | pending t =>
      have hs := hm.safe es ((legal_bind_pending hc hr).1 hl)
      rw [hr] at hs
      exact hs
    | done b t rest =>
      obtain ⟨used, rfl, hdone⟩ := hc.split hr
      obtain ⟨hm', hf'⟩ := (legal_bind hc hdone).1 hl
      exact (hf b t (hm.done hm' hdone)).safe rest hf'
  · intro es ev hl
    cases hr : m.run s es with
    | pending t => exact grows_pending hc hm hstarts hl hr
    | done b t rest =>
      obtain ⟨used, rfl, hdone⟩ := hc.split hr
      rw [List.append_assoc] at hl ⊢
      obtain ⟨hm', hf'⟩ := (legal_bind hc hdone).1 hl
      rw [hc.bind_before hdone, hc.bind_before hdone]
      exact (hf b t (hm.done hm' hdone)).grows rest ev hf'
  · obtain ⟨es, b, t, hl, hr, -⟩ := hm.begins
    obtain ⟨more, a, u, hl', hr'⟩ := finish hc hm hbegins hl hr
    exact ⟨es ++ more, a, u, hl', hr', trivial⟩
  · intro es u hl hpending hstuck
    cases hr : m.run s es with
    | pending t => exact finish_pending hc hm hbegins hl hr hstuck
    | done b t rest =>
      obtain ⟨used, rfl, hdone⟩ := hc.split hr
      have hafter := hc.bind_before (f := f) hdone
      obtain ⟨hm', hf'⟩ := (legal_bind hc hdone).1 hl
      obtain ⟨more, a, u', hl', hr'⟩ := (hf b t (hm.done hm' hdone)).continues rest u hf'
        (by rwa [hafter] at hpending) fun h => hstuck (Stuck.after hafter h)
      refine ⟨more, a, u', ?_, ?_⟩
      · rw [List.append_assoc]
        exact (legal_bind hc hdone).2 ⟨hm', hl'⟩
      · rw [List.append_assoc, hafter]
        exact hr'

end Sequence

theorem ite {c : Prop} [Decidable c] {m m' : Proc σ ε α} (ht : c → Live W m Q R s)
    (he : ¬c → Live W m' Q R s) : Live W (if c then m else m') Q R s := by
  split
  · exact ht ‹_›
  · exact he ‹_›

/-- Read the state, and go on. -/
theorem read {f : σ → Proc σ ε α} (h : Live W (f s) Q R s) : Live W (Proc.get >>= f) Q R s := by
  refine .bind (P := fun a t => a = s ∧ t = s) .get
    (of_done (fun _ => rfl) (W.refl s) ⟨rfl, rfl⟩) ?_
  rintro _ _ ⟨rfl, rfl⟩
  exact h

/-- Update the state, and go on. -/
theorem update {g : σ → σ} {f : Unit → Proc σ ε α} (hg : W.onward s (g s))
    (h : Live W (f ()) Q R (g s)) : Live W (Proc.modify g >>= f) Q R s := by
  refine .bind (P := fun _ t => t = g s) .modify (of_done (fun _ => rfl) hg rfl) ?_
  rintro _ _ rfl
  exact h

/-- **The rule for waiting**: `I` is an invariant of what the environment does on its own; each
legal answer goes on as the program says, or leaves it stuck; and some legal answer completes it. -/
theorem await {async : ε → Option (σ → σ)} {m : Proc σ ε α} {next : ε → Proc σ ε α}
    {I : σ → Prop} (hm : Waits async m next) (h : I s)
    (hasync : ∀ ev f t, async ev = some f → W.admits t ev → I t → I (f t) ∧ W.onward t (f t))
    (hR : ∀ t, I t → R t)
    (hnext : ∀ ev t, async ev = none → W.admits t ev → I t → Live W (next ev) Q R t ∨
      ∀ es, (next ev).run t es = .pending t)
    (hanswer : ∀ t, I t → Can W m (fun _ _ => True) t) : Live W m Q R s := by
  have hshift : ∀ {m' : Proc σ ε α} {s t : σ} {ev : ε} {es : List ε},
      (∀ es, m.run s (ev :: es) = m'.run t es) → (m.Legal W.admits s (ev :: es) ↔
        W.admits s ev ∧ m'.Legal W.admits t es) := fun hrun => legal_cons (hm.nil _) hrun
  have hslip : ∀ {ev f s}, async ev = some f → ∀ es, m.run s (ev :: es) = m.run (f s) es :=
    fun ha es => hm.slip ha es
  have hcome : ∀ {ev s}, async ev = none → ∀ es, m.run s (ev :: es) = (next ev).run s es :=
    fun ha es => hm.answer ha es
  refine ⟨?_, ?_, ?_, hanswer s h, ?_⟩
  · intro es
    induction es generalizing s with
    | nil =>
      intro _
      rw [hm.nil]
      exact hR s h
    | cons ev es ih =>
      intro hl
      cases ha : async ev with
      | some f =>
        obtain ⟨hev, hl'⟩ := (hshift (hslip ha)).1 hl
        rw [hslip ha]
        exact ih (hasync ev f s ha hev h).1 hl'
      | none =>
        obtain ⟨hev, hl'⟩ := (hshift (hcome ha)).1 hl
        rw [hcome ha]
        rcases hnext ev s ha hev h with hlive | hhalt
        · exact hlive.safe es hl'
        · rw [hhalt]
          exact hR s h
  · rw [hm.nil]
    exact W.refl s
  · intro es
    induction es generalizing s with
    | nil =>
      intro ev hl
      rw [List.nil_append] at hl ⊢
      rw [hm.nil]
      cases ha : async ev with
      | some f =>
        obtain ⟨hev, -⟩ := (hshift (hslip ha)).1 hl
        rw [hslip ha, hm.nil]
        exact (hasync ev f s ha hev h).2
      | none =>
        obtain ⟨hev, -⟩ := (hshift (hcome ha)).1 hl
        rw [hcome ha]
        rcases hnext ev s ha hev h with hlive | hhalt
        · exact hlive.starts
        · rw [hhalt]
          exact W.refl s
    | cons x es ih =>
      intro ev hl
      rw [List.cons_append] at hl ⊢
      cases ha : async x with
      | some f =>
        obtain ⟨hx, hl'⟩ := (hshift (hslip ha)).1 hl
        rw [hslip ha, hslip ha]
        exact ih (hasync x f s ha hx h).1 ev hl'
      | none =>
        obtain ⟨hx, hl'⟩ := (hshift (hcome ha)).1 hl
        rw [hcome ha, hcome ha]
        rcases hnext x s ha hx h with hlive | hhalt
        · exact hlive.grows es ev hl'
        · rw [hhalt, hhalt]
          exact W.refl s
  · intro es
    induction es generalizing s with
    | nil =>
      intro _ _ _ _
      obtain ⟨es, a, u, hl, hr, -⟩ := hanswer s h
      exact ⟨es, a, u, hl, hr⟩
    | cons ev es ih =>
      intro t hl hpending hstuck
      cases ha : async ev with
      | some f =>
        obtain ⟨hev, hl'⟩ := (hshift (hslip ha)).1 hl
        rw [hslip ha] at hpending
        obtain ⟨more, a, u, hl'', hr⟩ := ih (hasync ev f s ha hev h).1 t hl' hpending fun hs =>
          hstuck (@Stuck.after _ _ _ m s (f s) es m [ev] (hslip ha) hs)
        refine ⟨more, a, u, (hshift (hslip ha)).2 ⟨hev, hl''⟩, ?_⟩
        rw [List.cons_append, hslip ha]
        exact hr
      | none =>
        obtain ⟨hev, hl'⟩ := (hshift (hcome ha)).1 hl
        rw [hcome ha] at hpending
        rcases hnext ev s ha hev h with hlive | hhalt
        · obtain ⟨more, a, u, hl'', hr⟩ := hlive.continues es t hl' hpending fun hs =>
            hstuck (@Stuck.after _ _ _ m s s es _ [ev] (hcome ha) hs)
          refine ⟨more, a, u, (hshift (hcome ha)).2 ⟨hev, hl''⟩, ?_⟩
          rw [List.cons_append, hcome ha]
          exact hr
        · exact absurd (@Stuck.after _ _ _ m s s es _ [ev] (hcome ha) ⟨s, fun _ => hhalt _⟩) hstuck

/-! ## Loops -/

section Loop

variable {body : β → Proc σ ε (β ⊕ α)} {I : β → σ → Prop} {b : β} (hadvances : Advances body)
  (hc : ∀ b, (body b).Causal)
  (hbody : ∀ b s, I b s →
    Live W (body b) (fun r t => Sum.elim (fun b' => I b' t) (fun a => Q a t) r) R s)
include hadvances hc hbody

/-- Rounds that lower a measure leave the loop. -/
theorem loop_begins (μ : β → σ → Nat)
    (hdown : ∀ b s, I b s → Can W (body b) (fun r t => ∀ b', r = .inl b' → μ b' t < μ b s) s)
    (h : I b s) : Can W (Proc.loop body b) (fun _ _ => True) s := by
  have hbegins : ∀ n b s, μ b s < n → I b s → Can W (Proc.loop body b) (fun _ _ => True) s := by
    intro n
    induction n with
    | zero => exact fun b s hn => absurd hn (Nat.not_lt_zero _)
    | succ n ih =>
      intro b s hn h
      obtain ⟨es, r, t, hl, hr, hlow⟩ := hdown b s h
      rw [loop_bind hadvances]
      cases r with
      | inr a =>
        refine ⟨es, a, t, ?_, by rw [bind_run, hr]; rfl, trivial⟩
        have hboth : (body b >>= afterRound body).Legal W.admits s (es ++ []) :=
          (legal_bind (hc b) hr).2 ⟨hl, legal_nil⟩
        rwa [List.append_nil] at hboth
      | inl b' =>
        have hlt := hlow b' rfl
        obtain ⟨es', a, u, hl', hr', -⟩ := ih b' t (by omega) ((hbody b s h).done hl hr)
        refine ⟨es ++ es', a, u, (legal_bind (hc b) hr).2 ⟨hl, hl'⟩, ?_, trivial⟩
        rw [bind_run, (hc b).before hr]
        exact hr'
  exact hbegins _ b s (Nat.lt_succ_self _) h

/-- **The rule for loops**: an invariant `I` of the rounds, and a measure that some legal round
lowers unless it leaves the loop. -/
theorem loop (μ : β → σ → Nat)
    (hdown : ∀ b s, I b s → Can W (body b) (fun r t => ∀ b', r = .inl b' → μ b' t < μ b s) s)
    (h : I b s) : Live W (Proc.loop body b) Q R s := by
  have hbegins : ∀ {b s}, I b s → Can W (Proc.loop body b) (fun _ _ => True) s :=
    fun h => loop_begins hadvances hc hbody μ hdown h
  have hcan : ∀ (r : β ⊕ α) t, Sum.elim (fun b' => I b' t) (fun a => Q a t) r →
      Can W (afterRound body r) (fun _ _ => True) t := by
    intro r t ht
    cases r with
    | inr a => exact .pure trivial
    | inl b' => exact hbegins ht
  have hstarts : ∀ {b s}, I b s → W.onward s ((Proc.loop body b).run s []).state := by
    intro b s h
    have hstart := (hbody b s h).starts
    rw [loop_bind hadvances, bind_run]
    cases hr : (body b).run s [] with
    | pending t =>
      rw [hr] at hstart
      exact hstart
    | done r t rest =>
      rw [hr] at hstart
      cases r with
      | inr a => exact hstart
      | inl b' => exact absurd (hadvances b s _ b' t rest hr) (Nat.not_lt_zero _)
  have hafter : ∀ (r : β ⊕ α) t, Sum.elim (fun b' => I b' t) (fun a => Q a t) r →
      W.onward t ((afterRound body r).run t []).state := by
    intro r t ht
    cases r with
    | inr a => exact W.refl t
    | inl b' => exact hstarts ht
  refine ⟨?_, hstarts h, ?_, hbegins h, ?_⟩
  · intro es
    generalize hn : es.length = n
    induction n using Nat.strongRecOn generalizing b s es with
    | ind n ih =>
      rw [loop_bind hadvances]
      intro hl
      rw [bind_run]
      cases hr : (body b).run s es with
      | pending t =>
        have hs := (hbody b s h).safe es ((legal_bind_pending (hc b) hr).1 hl)
        rw [hr] at hs
        exact hs
      | done r t rest =>
        obtain ⟨used, rfl, hdone⟩ := (hc b).split hr
        obtain ⟨hm', hf'⟩ := (legal_bind (hc b) hdone).1 hl
        have hnext := (hbody b s h).done hm' hdone
        cases r with
        | inr a => exact hnext
        | inl b' =>
          have hlt := hadvances b s _ b' t rest hr
          exact ih rest.length (by omega) hnext rest rfl hf'
  · intro es
    generalize hn : es.length = n
    induction n using Nat.strongRecOn generalizing b s es with
    | ind n ih =>
      rw [loop_bind hadvances]
      intro ev hl
      cases hr : (body b).run s es with
      | pending t => exact grows_pending (hc b) (hbody b s h) hafter hl hr
      | done r t rest =>
        obtain ⟨used, rfl, hdone⟩ := (hc b).split hr
        rw [List.append_assoc] at hl ⊢
        obtain ⟨hm', hf'⟩ := (legal_bind (hc b) hdone).1 hl
        rw [(hc b).bind_before hdone, (hc b).bind_before hdone]
        have hnext := (hbody b s h).done hm' hdone
        cases r with
        | inr a => exact W.refl t
        | inl b' =>
          have hlt := hadvances b s _ b' t rest hr
          exact ih rest.length (by omega) hnext rest rfl ev hf'
  · intro es
    generalize hn : es.length = n
    induction n using Nat.strongRecOn generalizing b s es with
    | ind n ih =>
      rw [loop_bind hadvances]
      intro u hl hpending hstuck
      cases hr : (body b).run s es with
      | pending t => exact finish_pending (hc b) (hbody b s h) hcan hl hr hstuck
      | done r t rest =>
        obtain ⟨used, rfl, hdone⟩ := (hc b).split hr
        have hrun := (hc b).bind_before (f := afterRound body) hdone
        rw [hrun] at hpending
        obtain ⟨hm', hf'⟩ := (legal_bind (hc b) hdone).1 hl
        cases r with
        | inr a => cases hpending
        | inl b' =>
          have hlt := hadvances b s _ b' t rest hr
          obtain ⟨more, a, v, hl', hr'⟩ := ih rest.length (by omega) ((hbody b s h).done hm' hdone)
            rest rfl u hf' hpending fun hs => hstuck (Stuck.after hrun hs)
          refine ⟨more, a, v, ?_, ?_⟩
          · rw [List.append_assoc]
            exact (legal_bind (hc b) hdone).2 ⟨hm', hl'⟩
          · rw [List.append_assoc, hrun]
            exact hr'

end Loop

/-! ## One component of the state -/

section Zoom

variable {view : σ → τ} {put : τ → σ → σ} {U : Setting τ ε} (hW : W.Sees U put)
include hW

omit hW in
theorem zoom_state (m : Proc τ ε α) (s : σ) (es : List ε) :
    ((Proc.zoom view put m).run s es).state = put (m.run (view s) es).state s := by
  show (zoomRun view put m s es).state = _
  rw [zoomRun]
  cases m.run (view s) es with
  | done a t rest => rfl
  | pending t => rfl

theorem legal_zoom (m : Proc τ ε α) (s : σ) (es : List ε) :
    (Proc.zoom view put m).Legal W.admits s es ↔ m.Legal U.admits (view s) es := by
  simp only [Proc.Legal, zoom_state, hW.admits]

theorem zoom {m : Proc τ ε α}
    (h : Live U m (fun a t => Q a (put t s)) (fun t => R (put t s)) (view s))
    (hview : put (view s) s = s) : Live W (Proc.zoom view put m) Q R s := by
  have hrun : ∀ es, (Proc.zoom view put m).run s es = zoomRun view put m s es := fun _ => rfl
  have hdone : ∀ {es a t rest}, m.run (view s) es = .done a t rest →
      (Proc.zoom view put m).run s es = .done a (put t s) rest := by
    intro es a t rest hr
    rw [hrun, zoomRun, hr]
  have hlegal : ∀ es, (Proc.zoom view put m).Legal W.admits s es ↔ m.Legal U.admits (view s) es :=
    legal_zoom hW m s
  refine ⟨?_, ?_, ?_, ?_, ?_⟩
  · intro es hl
    have hs := h.safe es ((hlegal es).1 hl)
    rw [hrun, zoomRun]
    cases hr : m.run (view s) es with
    | done a t rest => rw [hr] at hs; exact hs
    | pending t => rw [hr] at hs; exact hs
  · have hstart := hW.onward s _ _ h.starts
    rw [hview] at hstart
    rw [zoom_state]
    exact hstart
  · intro es ev hl
    rw [zoom_state, zoom_state]
    exact hW.onward s _ _ (h.grows es ev ((hlegal _).1 hl))
  · obtain ⟨es, a, t, hl, hr, -⟩ := h.begins
    exact ⟨es, a, _, (hlegal es).2 hl, hdone hr, trivial⟩
  · intro es u hl hpending hstuck
    cases hr : m.run (view s) es with
    | done a t rest =>
      rw [hdone hr] at hpending
      cases hpending
    | pending t =>
      have hnot : ¬Stuck m (view s) es := by
        rintro ⟨t', ht'⟩
        refine hstuck ⟨put t' s, fun more => ?_⟩
        rw [hrun, zoomRun, ht']
      obtain ⟨more, a, t', hl', hr'⟩ := h.continues es t ((hlegal es).1 hl) hr hnot
      exact ⟨more, a, _, (hlegal _).2 hl', hdone hr'⟩

end Zoom

end Live

end Oracle
