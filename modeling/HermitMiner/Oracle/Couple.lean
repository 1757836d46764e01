import HermitMiner.Oracle.Basic
import Mathlib.Data.List.Forall2

/-!
# Two runs side by side

A relational calculus for programs driven by an oracle: what two programs do when the environment
treats them alike. Some events answer one of the programs alone, and a run may take any number of
them; the others come in the same order in both. Runs are compared until one of them is stuck on an
event that answers another operation, or is in a state that excuses it.

* `Proc.Ends`, `Proc.Stuck`: a run that returns, or goes no further, whatever comes after.
* `Pairing`, `Pairing.Alike`: the events two runs share.
* `Couple`: the relational weakest precondition, with the rules `couple_pure`, `couple_read`,
  `couple_update`, `couple_call`, `couple_ite`, `couple_await`, `couple_loop` and `couple_zoom`.
* `Couple.near`: what it says of the states in which two runs stand.
-/

namespace Oracle

variable {σ τ ε α α' β β' : Type}

namespace Proc

/-! ## Runs and what comes after -/

/-- The run returns, whatever comes after its events. -/
def Ends (m : Proc σ ε α) (s : σ) (es : List ε) (a : α) (s' : σ) (rest : List ε) : Prop :=
  ∀ more, m.run s (es ++ more) = .done a s' (rest ++ more)

/-- The run goes no further, whatever comes after its events. -/
def Stuck (m : Proc σ ε α) (s : σ) (es : List ε) : Prop :=
  ∃ s', ∀ more, m.run s (es ++ more) = .pending s'

section After

variable {m : Proc σ ε α} {f : α → Proc σ ε β} {s s' s'' : σ} {es rest rest' : List ε} {a : α}
  {b : β}

theorem Ends.run (h : Ends m s es a s' rest) : m.run s es = .done a s' rest := by
  have hnone := h []
  rwa [List.append_nil, List.append_nil] at hnone

theorem Ends.bind (h : Ends m s es a s' rest) (hf : Ends (f a) s' rest b s'' rest') :
    Ends (m >>= f) s es b s'' rest' := by
  intro more
  rw [bind_run, h more]
  exact hf more

theorem Stuck.bind (h : Stuck m s es) : Stuck (m >>= f) s es := by
  obtain ⟨t, ht⟩ := h
  refine ⟨t, fun more => ?_⟩
  rw [bind_run, ht more]

theorem Ends.stuck (h : Ends m s es a s' rest) (hf : Stuck (f a) s' rest) :
    Stuck (m >>= f) s es := by
  obtain ⟨t, ht⟩ := hf
  refine ⟨t, fun more => ?_⟩
  rw [bind_run, h more]
  exact ht more

theorem stuck_halt (s : σ) (es : List ε) : Stuck (halt : Proc σ ε α) s es := ⟨s, fun _ => rfl⟩

/-- A run that more events take on is not stuck. -/
theorem not_stuck_of_state (more : List ε)
    (h : (m.run s (es ++ more)).state ≠ (m.run s es).state) : ¬Stuck m s es := by
  rintro ⟨t, ht⟩
  have hnone := ht []
  rw [List.append_nil] at hnone
  rw [ht more, hnone] at h
  exact h rfl

/-- A run that more events complete is not stuck. -/
theorem not_stuck_of_value {more : List ε} (h : (m.run s (es ++ more)).value = some a) :
    ¬Stuck m s es := by
  rintro ⟨t, ht⟩
  rw [ht more] at h
  cases h

/-- Events that take a run from one program to another. -/
theorem Stuck.after {m' : Proc σ ε α} {front : List ε}
    (hfront : ∀ es, m.run s (front ++ es) = m'.run s' es) (h : Stuck m' s' es) :
    Stuck m s (front ++ es) := by
  obtain ⟨t, ht⟩ := h
  refine ⟨t, fun more => ?_⟩
  rw [List.append_assoc, hfront]
  exact ht more

theorem Ends.after {m' : Proc σ ε α} {front : List ε}
    (hfront : ∀ es, m.run s (front ++ es) = m'.run s' es) (h : Ends m' s' es a s'' rest) :
    Ends m s (front ++ es) a s'' rest := by
  intro more
  rw [List.append_assoc, hfront]
  exact h more

end After

end Proc

open Proc

/-! ## Pairs of runs -/

/-- How two runs are compared. -/
structure Pairing (σ ε : Type) where
  /-- The events that answer one of the runs alone. -/
  own : ε → Bool
  /-- The answers that the two runs get at the same point. -/
  same : ε → ε → Prop
  /-- The states in which the two runs can stand. -/
  near : σ → σ → Prop

namespace Pairing

variable (p : Pairing σ ε)

/-- The events of the two runs are the same but for those that answer one run alone. -/
def Alike (es₁ es₂ : List ε) : Prop :=
  List.Forall₂ p.same (es₁.filter fun e => !p.own e) (es₂.filter fun e => !p.own e)

variable {p} {e₁ e₂ : ε} {es₁ es₂ : List ε}

theorem Alike.symm (hsame : ∀ e₁ e₂, p.same e₁ e₂ → p.same e₂ e₁) (h : p.Alike es₁ es₂) :
    p.Alike es₂ es₁ :=
  (List.Forall₂.imp (fun e₁ e₂ => hsame e₂ e₁) h.flip :)

theorem alike_own_left (h : p.own e₁ = true) : p.Alike (e₁ :: es₁) es₂ ↔ p.Alike es₁ es₂ := by
  simp [Alike, h]

theorem alike_own_right (h : p.own e₂ = true) : p.Alike es₁ (e₂ :: es₂) ↔ p.Alike es₁ es₂ := by
  simp [Alike, h]

theorem alike_cons (h₁ : p.own e₁ = false) (h₂ : p.own e₂ = false) :
    p.Alike (e₁ :: es₁) (e₂ :: es₂) ↔ p.same e₁ e₂ ∧ p.Alike es₁ es₂ := by
  simp [Alike, h₁, h₂]

theorem not_alike_nil_left (h₂ : p.own e₂ = false) : ¬p.Alike [] (e₂ :: es₂) := by
  simp [Alike, h₂]

theorem not_alike_nil_right (h₁ : p.own e₁ = false) : ¬p.Alike (e₁ :: es₁) [] := by
  simp [Alike, h₁]

/-- The pairing on states of which a part is compared. -/
def under (view : τ → σ) : Pairing τ ε where
  own := p.own
  same := p.same
  near t₁ t₂ := p.near (view t₁) (view t₂)

end Pairing

/-- How two runs over events that are alike end: one of them is stuck or excused, or both return
related values in related states, or both wait for their next event. -/
inductive Meet (p : Pairing σ ε) (X : σ → Prop) (m₁ : Proc σ ε α) (s₁ : σ) (es₁ : List ε)
    (m₂ : Proc σ ε α') (s₂ : σ) (es₂ : List ε) (Q : α → α' → σ → σ → Prop) : Prop
  | stuck₁ (h : Stuck m₁ s₁ es₁)
  | stuck₂ (h : Stuck m₂ s₂ es₂)
  | excused₁ (h : X (m₁.run s₁ es₁).state)
  | excused₂ (h : X (m₂.run s₂ es₂).state)
  | done {a₁ : α} {a₂ : α'} {t₁ t₂ : σ} {rest₁ rest₂ : List ε}
      (h₁ : Ends m₁ s₁ es₁ a₁ t₁ rest₁) (h₂ : Ends m₂ s₂ es₂ a₂ t₂ rest₂)
      (hrest : p.Alike rest₁ rest₂) (hQ : Q a₁ a₂ t₁ t₂)
  | pending {t₁ t₂ : σ} (h₁ : m₁.run s₁ es₁ = .pending t₁) (h₂ : m₂.run s₂ es₂ = .pending t₂)
      (hnear : p.near t₁ t₂)

/-- From `s₁` and `s₂`, two runs over events that are alike meet in `Q`. -/
def Couple (p : Pairing σ ε) (X : σ → Prop) (m₁ : Proc σ ε α) (m₂ : Proc σ ε α')
    (Q : α → α' → σ → σ → Prop) (s₁ s₂ : σ) : Prop :=
  ∀ es₁ es₂, p.Alike es₁ es₂ → Meet p X m₁ s₁ es₁ m₂ s₂ es₂ Q

/-- No state is excused. -/
def Never (_ : σ) : Prop := False

theorem keeps_never (m : Proc σ ε α) : Keeps Never m := fun _ h => h.elim

/-! ## Rules -/

section Rules

variable {p : Pairing σ ε} {X Y : σ → Prop} {s₁ s₂ : σ}

/-- **What two coupled runs show**: unless one of them is stuck or excused, they stand in states
that are near. -/
theorem Couple.near {m₁ : Proc σ ε α} {m₂ : Proc σ ε α'} {Q : α → α' → σ → σ → Prop}
    (h : Couple p X m₁ m₂ Q s₁ s₂) (hQ : ∀ a₁ a₂ t₁ t₂, Q a₁ a₂ t₁ t₂ → p.near t₁ t₂)
    {es₁ es₂ : List ε} (halike : p.Alike es₁ es₂) (hgo₁ : ¬Stuck m₁ s₁ es₁)
    (hgo₂ : ¬Stuck m₂ s₂ es₂) (hX₁ : ¬X (m₁.run s₁ es₁).state) (hX₂ : ¬X (m₂.run s₂ es₂).state) :
    p.near (m₁.run s₁ es₁).state (m₂.run s₂ es₂).state := by
  cases h es₁ es₂ halike with
  | stuck₁ hstuck => exact absurd hstuck hgo₁
  | stuck₂ hstuck => exact absurd hstuck hgo₂
  | excused₁ hexcused => exact absurd hexcused hX₁
  | excused₂ hexcused => exact absurd hexcused hX₂
  | done h₁ h₂ _ hQs =>
    rw [h₁.run, h₂.run]
    exact hQ _ _ _ _ hQs
  | pending h₁ h₂ hnear =>
    rw [h₁, h₂]
    exact hnear

theorem couple_mono {m₁ : Proc σ ε α} {m₂ : Proc σ ε α'} {Q Q' : α → α' → σ → σ → Prop}
    (h : Couple p Y m₁ m₂ Q s₁ s₂) (hX : ∀ s, Y s → X s)
    (hQ : ∀ a₁ a₂ t₁ t₂, Q a₁ a₂ t₁ t₂ → Q' a₁ a₂ t₁ t₂) : Couple p X m₁ m₂ Q' s₁ s₂ := by
  intro es₁ es₂ halike
  cases h es₁ es₂ halike with
  | stuck₁ hstuck => exact .stuck₁ hstuck
  | stuck₂ hstuck => exact .stuck₂ hstuck
  | excused₁ hexcused => exact .excused₁ (hX _ hexcused)
  | excused₂ hexcused => exact .excused₂ (hX _ hexcused)
  | done h₁ h₂ hrest hQs => exact .done h₁ h₂ hrest (hQ _ _ _ _ hQs)
  | pending h₁ h₂ hnear => exact .pending h₁ h₂ hnear

/-- What holds of coupled runs when no state is excused holds whatever is excused. -/
theorem Couple.of_never {m₁ : Proc σ ε α} {m₂ : Proc σ ε α'} {Q : α → α' → σ → σ → Prop}
    (h : Couple p Never m₁ m₂ Q s₁ s₂) : Couple p X m₁ m₂ Q s₁ s₂ :=
  couple_mono h (fun _ hs => hs.elim) fun _ _ _ _ hQ => hQ

theorem couple_pure {a₁ : α} {a₂ : α'} {Q : α → α' → σ → σ → Prop} (h : Q a₁ a₂ s₁ s₂) :
    Couple p X (pure a₁) (pure a₂) Q s₁ s₂ :=
  fun _ _ halike => .done (fun _ => rfl) (fun _ => rfl) halike h

theorem couple_get {Q : σ → σ → σ → σ → Prop} (h : Q s₁ s₂ s₁ s₂) :
    Couple p X (Proc.get : Proc σ ε σ) Proc.get Q s₁ s₂ :=
  fun _ _ halike => .done (fun _ => rfl) (fun _ => rfl) halike h

theorem couple_modify {f₁ f₂ : σ → σ} {Q : Unit → Unit → σ → σ → Prop}
    (h : Q () () (f₁ s₁) (f₂ s₂)) : Couple p X (Proc.modify f₁) (Proc.modify f₂) Q s₁ s₂ :=
  fun _ _ halike => .done (fun _ => rfl) (fun _ => rfl) halike h

theorem couple_halt {m₂ : Proc σ ε α'} {Q : α → α' → σ → σ → Prop} :
    Couple p X (Proc.halt : Proc σ ε α) m₂ Q s₁ s₂ :=
  fun es₁ _ _ => .stuck₁ (stuck_halt s₁ es₁)

section Bind

variable {m₁ : Proc σ ε α} {m₂ : Proc σ ε α'} {f₁ : α → Proc σ ε β} {f₂ : α' → Proc σ ε β'}
  {P : α → α' → σ → σ → Prop} {Q : β → β' → σ → σ → Prop}

/-- A run that is excused in the first program of a sequence stays so in the second. -/
theorem excused_bind {s : σ} {es : List ε} (hX : ∀ s, Y s → X s)
    (hf : ∀ a s, Y s → wp (f₁ a) (fun _ => X) X s) (h : Y (m₁.run s es).state) :
    X ((m₁ >>= f₁).run s es).state := by
  rw [bind_run]
  cases hr : m₁.run s es with
  | done a t rest =>
    rw [hr] at h
    exact (hf a t h).state rest
  | pending t =>
    rw [hr] at h
    exact hX t h

/-- Two sequences of programs, when the first ones meet. -/
theorem Meet.bind {es₁ es₂ : List ε} (h : Meet p Y m₁ s₁ es₁ m₂ s₂ es₂ P) (hX : ∀ s, Y s → X s)
    (hf₁ : ∀ a s, Y s → wp (f₁ a) (fun _ => X) X s)
    (hf₂ : ∀ a s, Y s → wp (f₂ a) (fun _ => X) X s)
    (hP : ∀ a₁ a₂ t₁ t₂ rest₁ rest₂, Ends m₁ s₁ es₁ a₁ t₁ rest₁ → p.Alike rest₁ rest₂ →
      P a₁ a₂ t₁ t₂ → Meet p X (f₁ a₁) t₁ rest₁ (f₂ a₂) t₂ rest₂ Q) :
    Meet p X (m₁ >>= f₁) s₁ es₁ (m₂ >>= f₂) s₂ es₂ Q := by
  cases h with
  | stuck₁ hstuck => exact .stuck₁ hstuck.bind
  | stuck₂ hstuck => exact .stuck₂ hstuck.bind
  | excused₁ hexcused => exact .excused₁ (excused_bind hX hf₁ hexcused)
  | excused₂ hexcused => exact .excused₂ (excused_bind hX hf₂ hexcused)
  | pending h₁ h₂ hnear => exact .pending (by rw [bind_run, h₁]) (by rw [bind_run, h₂]) hnear
  | done h₁ h₂ hrest hPs =>
    cases hP _ _ _ _ _ _ h₁ hrest hPs with
    | stuck₁ hstuck => exact .stuck₁ (h₁.stuck hstuck)
    | stuck₂ hstuck => exact .stuck₂ (h₂.stuck hstuck)
    | excused₁ hexcused =>
      refine .excused₁ ?_
      rw [bind_run, h₁.run]
      exact hexcused
    | excused₂ hexcused =>
      refine .excused₂ ?_
      rw [bind_run, h₂.run]
      exact hexcused
    | done h₁' h₂' hrest' hQ => exact .done (h₁.bind h₁') (h₂.bind h₂') hrest' hQ
    | pending h₁' h₂' hnear =>
      exact .pending (by rw [bind_run, h₁.run]; exact h₁') (by rw [bind_run, h₂.run]; exact h₂')
        hnear

/-- **The rule for calls**: go on from what the coupling of the callees says. -/
theorem couple_call (h : Couple p Never m₁ m₂ P s₁ s₂)
    (hP : ∀ a₁ a₂ t₁ t₂, P a₁ a₂ t₁ t₂ → Couple p X (f₁ a₁) (f₂ a₂) Q t₁ t₂) :
    Couple p X (m₁ >>= f₁) (m₂ >>= f₂) Q s₁ s₂ :=
  fun es₁ es₂ halike => (h es₁ es₂ halike).bind (fun _ hs => hs.elim) (fun _ _ hs => hs.elim)
    (fun _ _ hs => hs.elim) fun _ _ _ _ _ _ _ hrest ht => hP _ _ _ _ ht _ _ hrest

/-- The rule for calls in which a run may be excused. -/
theorem couple_callExcused (h : Couple p X m₁ m₂ P s₁ s₂) (hf₁ : ∀ a, Keeps X (f₁ a))
    (hf₂ : ∀ a, Keeps X (f₂ a))
    (hP : ∀ a₁ a₂ t₁ t₂, P a₁ a₂ t₁ t₂ → Couple p X (f₁ a₁) (f₂ a₂) Q t₁ t₂) :
    Couple p X (m₁ >>= f₁) (m₂ >>= f₂) Q s₁ s₂ :=
  fun es₁ es₂ halike => (h es₁ es₂ halike).bind (fun _ hs => hs) (fun a => hf₁ a)
    (fun a => hf₂ a) fun _ _ _ _ _ _ _ hrest ht => hP _ _ _ _ ht _ _ hrest

end Bind

/-- Read the states, and go on. -/
theorem couple_read {f₁ : σ → Proc σ ε α} {f₂ : σ → Proc σ ε α'} {Q : α → α' → σ → σ → Prop}
    (h : Couple p X (f₁ s₁) (f₂ s₂) Q s₁ s₂) :
    Couple p X (Proc.get >>= f₁) (Proc.get >>= f₂) Q s₁ s₂ :=
  couple_call (couple_get (Q := fun a₁ a₂ t₁ t₂ => (a₁ = s₁ ∧ a₂ = s₂) ∧ t₁ = s₁ ∧ t₂ = s₂)
    ⟨⟨rfl, rfl⟩, rfl, rfl⟩) (by rintro _ _ _ _ ⟨⟨rfl, rfl⟩, rfl, rfl⟩; exact h)

/-- Update the states, and go on. -/
theorem couple_update {g₁ g₂ : σ → σ} {f₁ : Unit → Proc σ ε α} {f₂ : Unit → Proc σ ε α'}
    {Q : α → α' → σ → σ → Prop} (h : Couple p X (f₁ ()) (f₂ ()) Q (g₁ s₁) (g₂ s₂)) :
    Couple p X (Proc.modify g₁ >>= f₁) (Proc.modify g₂ >>= f₂) Q s₁ s₂ :=
  couple_call (couple_modify (Q := fun _ _ t₁ t₂ => t₁ = g₁ s₁ ∧ t₂ = g₂ s₂) ⟨rfl, rfl⟩)
    (by rintro _ _ _ _ ⟨rfl, rfl⟩; exact h)

theorem couple_ite {c₁ c₂ : Prop} [Decidable c₁] [Decidable c₂] {m₁ m₁' : Proc σ ε α}
    {m₂ m₂' : Proc σ ε α'} {Q : α → α' → σ → σ → Prop} (hc : c₁ ↔ c₂)
    (ht : c₁ → Couple p X m₁ m₂ Q s₁ s₂) (he : ¬c₁ → Couple p X m₁' m₂' Q s₁ s₂) :
    Couple p X (if c₁ then m₁ else m₁') (if c₂ then m₂ else m₂') Q s₁ s₂ := by
  by_cases h : c₁
  · rw [if_pos h, if_pos (hc.1 h)]
    exact ht h
  · rw [if_neg h, if_neg (mt hc.2 h)]
    exact he h

/-- Events that take two runs from one pair of programs to another. -/
theorem Meet.after {m₁ m₁' : Proc σ ε α} {m₂ m₂' : Proc σ ε α'} {t₁ t₂ : σ}
    (front₁ front₂ : List ε) {es₁ es₂ : List ε} {Q : α → α' → σ → σ → Prop}
    (h : Meet p X m₁' t₁ es₁ m₂' t₂ es₂ Q) (h₁ : ∀ es, m₁.run s₁ (front₁ ++ es) = m₁'.run t₁ es)
    (h₂ : ∀ es, m₂.run s₂ (front₂ ++ es) = m₂'.run t₂ es) :
    Meet p X m₁ s₁ (front₁ ++ es₁) m₂ s₂ (front₂ ++ es₂) Q := by
  cases h with
  | stuck₁ hstuck => exact .stuck₁ (hstuck.after h₁)
  | stuck₂ hstuck => exact .stuck₂ (hstuck.after h₂)
  | excused₁ hexcused => exact .excused₁ ((h₁ es₁).symm ▸ hexcused)
  | excused₂ hexcused => exact .excused₂ ((h₂ es₂).symm ▸ hexcused)
  | done hd₁ hd₂ hrest hQ => exact .done (hd₁.after h₁) (hd₂.after h₂) hrest hQ
  | pending hp₁ hp₂ hnear => exact .pending ((h₁ es₁).trans hp₁) ((h₂ es₂).trans hp₂) hnear

section Await

variable {async : ε → Option (σ → σ)} {f : ε → Proc σ ε α} {g : σ → σ} {e : ε} {s : σ}

/-- The program starts by waiting for an event, and goes on as `next` says. -/
def Waits (async : ε → Option (σ → σ)) (m : Proc σ ε α) (next : ε → Proc σ ε α) : Prop :=
  ∀ s es, m.run s es = (Proc.await async >>= next).run s es

theorem Waits.bind {m : Proc σ ε α} {next : ε → Proc σ ε α} (h : Waits async m next)
    (f : α → Proc σ ε β) : Waits async (m >>= f) fun e => next e >>= f := by
  intro s es
  rw [bind_run, h s es, bind_run, bind_run]
  cases (Proc.await async).run s es with
  | pending t => rfl
  | done e t rest => rfl

theorem Waits.nil {m : Proc σ ε α} {next : ε → Proc σ ε α} (h : Waits async m next) (s : σ) :
    m.run s [] = .pending s := h s []

theorem Waits.slip {m : Proc σ ε α} {next : ε → Proc σ ε α} (h : Waits async m next)
    (hg : async e = some g) (es : List ε) : m.run s ([e] ++ es) = m.run (g s) es := by
  rw [h, List.singleton_append, await_bind_async hg, ← h]

theorem Waits.answer {m : Proc σ ε α} {next : ε → Proc σ ε α} (h : Waits async m next)
    (hnone : async e = none) (es : List ε) : m.run s ([e] ++ es) = (next e).run s es := by
  rw [h, List.singleton_append, await_bind_answer hnone]

theorem stuck_await (h : async e = none) (hf : f e = Proc.halt) (es : List ε) :
    Stuck (Proc.await async >>= f) s (e :: es) :=
  @Stuck.after _ _ _ _ s s es _ [e] (await_bind_answer h s) (hf ▸ stuck_halt s es)

end Await

/-- **The rule for waiting**: what the environment does on its own it does to both, and an event
that answers one run alone leaves it stuck. -/
theorem couple_await {async : ε → Option (σ → σ)} {f₁ : ε → Proc σ ε α} {f₂ : ε → Proc σ ε α'}
    {I : σ → σ → Prop} {Q : α → α' → σ → σ → Prop} (h : I s₁ s₂)
    (hown : ∀ e, p.own e = true → async e = none ∧ f₁ e = Proc.halt ∧ f₂ e = Proc.halt)
    (hsame : ∀ e₁ e₂, p.same e₁ e₂ → async e₁ = async e₂)
    (hasync : ∀ e g, async e = some g → ∀ t₁ t₂, I t₁ t₂ → I (g t₁) (g t₂))
    (hnear : ∀ t₁ t₂, I t₁ t₂ → p.near t₁ t₂)
    (hf : ∀ e₁ e₂ t₁ t₂, p.same e₁ e₂ → I t₁ t₂ → Couple p X (f₁ e₁) (f₂ e₂) Q t₁ t₂) :
    Couple p X (Proc.await async >>= f₁) (Proc.await async >>= f₂) Q s₁ s₂ := by
  intro es₁ es₂ halike
  induction es₁ generalizing es₂ s₁ s₂ with
  | nil =>
    cases es₂ with
    | nil => exact .pending rfl rfl (hnear _ _ h)
    | cons e₂ es₂ =>
      cases ho : p.own e₂ with
      | true => exact .stuck₂ (stuck_await (hown e₂ ho).1 (hown e₂ ho).2.2 es₂)
      | false => exact absurd halike (Pairing.not_alike_nil_left ho)
  | cons e₁ es₁ ih =>
    cases ho₁ : p.own e₁ with
    | true => exact .stuck₁ (stuck_await (hown e₁ ho₁).1 (hown e₁ ho₁).2.1 es₁)
    | false =>
      cases es₂ with
      | nil => exact absurd halike (Pairing.not_alike_nil_right ho₁)
      | cons e₂ es₂ =>
        cases ho₂ : p.own e₂ with
        | true => exact .stuck₂ (stuck_await (hown e₂ ho₂).1 (hown e₂ ho₂).2.2 es₂)
        | false =>
          obtain ⟨he, hrest⟩ := (Pairing.alike_cons ho₁ ho₂).1 halike
          cases ha : async e₁ with
          | some g =>
            have ha₂ : async e₂ = some g := hsame e₁ e₂ he ▸ ha
            exact Meet.after [e₁] [e₂]
              (ih (hasync e₁ g ha s₁ s₂ h) es₂ hrest) (await_bind_async ha s₁)
              (await_bind_async ha₂ s₂)
          | none =>
            have ha₂ : async e₂ = none := hsame e₁ e₂ he ▸ ha
            exact Meet.after [e₁] [e₂] (hf e₁ e₂ s₁ s₂ he h es₁ es₂ hrest)
              (await_bind_answer ha s₁) (await_bind_answer ha₂ s₂)

section Loop

variable {body₁ : β → Proc σ ε (β ⊕ α)} {body₂ : β' → Proc σ ε (β' ⊕ α')}

/-- What comes after a round. -/
def afterRound (body : β → Proc σ ε (β ⊕ α)) : β ⊕ α → Proc σ ε α
  | .inl b => Proc.loop body b
  | .inr a => pure a

/-- A loop is its first round and what comes after. -/
theorem loop_bind (hc : Advances body₁) (b : β) :
    Proc.loop body₁ b = body₁ b >>= afterRound body₁ := by
  have hrun : (Proc.loop body₁ b).run = (body₁ b >>= afterRound body₁).run := by
    funext s es
    rw [loop_eq hc, bind_run]
    cases (body₁ b).run s es with
    | pending t => rfl
    | done r t rest =>
      cases r with
      | inl b' => rfl
      | inr a => rfl
  cases hl : Proc.loop body₁ b with
  | mk run suffix =>
    cases hr : body₁ b >>= afterRound body₁ with
    | mk run' suffix' =>
      rw [hl, hr] at hrun
      cases hrun
      rfl

/-- What a round says of the loops: both start another round, or both leave. -/
def Rounds (I : β → β' → σ → σ → Prop) (Q : α → α' → σ → σ → Prop) :
    β ⊕ α → β' ⊕ α' → σ → σ → Prop
  | .inl b₁, .inl b₂ => I b₁ b₂
  | .inr a₁, .inr a₂ => Q a₁ a₂
  | _, _ => fun _ _ => False

/-- **The loop rule**: a relation `I` of the rounds that every pair of bodies keeps, or leaves the
loops together with `Q`. -/
theorem couple_loop (hc₁ : Advances body₁) (hc₂ : Advances body₂) {I : β → β' → σ → σ → Prop}
    {Q : α → α' → σ → σ → Prop} (hk₁ : ∀ b, Keeps X (body₁ b)) (hk₂ : ∀ b, Keeps X (body₂ b))
    (hbody : ∀ b₁ b₂ t₁ t₂, I b₁ b₂ t₁ t₂ → Couple p X (body₁ b₁) (body₂ b₂) (Rounds I Q) t₁ t₂)
    {b₁ : β} {b₂ : β'} (h : I b₁ b₂ s₁ s₂) :
    Couple p X (Proc.loop body₁ b₁) (Proc.loop body₂ b₂) Q s₁ s₂ := by
  have hafter : ∀ {γ δ : Type} {body : γ → Proc σ ε (γ ⊕ δ)}, (∀ b, Keeps X (body b)) →
      ∀ r, Keeps X (afterRound body r) := by
    intro γ δ body hk r
    cases r with
    | inl b => exact .loop hk b
    | inr a => exact .pure
  intro es₁ es₂ halike
  -- by induction on the events that the first run has left
  obtain ⟨n, hn⟩ : ∃ n, es₁.length < n := ⟨_, Nat.lt_succ_self _⟩
  induction n generalizing b₁ b₂ s₁ s₂ es₁ es₂ with
  | zero => exact absurd hn (Nat.not_lt_zero _)
  | succ n ih =>
    rw [loop_bind hc₁, loop_bind hc₂]
    refine (hbody b₁ b₂ s₁ s₂ h es₁ es₂ halike).bind (fun _ hs => hs)
      (fun r => hafter hk₁ r) (fun r => hafter hk₂ r) ?_
    intro r₁ r₂ t₁ t₂ rest₁ rest₂ hround hrest hr
    cases r₁ with
    | inr a₁ =>
      cases r₂ with
      | inr a₂ =>
        have hQ : Q a₁ a₂ t₁ t₂ := hr
        exact couple_pure hQ _ _ hrest
      | inl b₂' => exact hr.elim
    | inl b₁' =>
      cases r₂ with
      | inr a₂ => exact hr.elim
      | inl b₂' =>
        have hlt := hc₁ b₁ s₁ es₁ b₁' t₁ rest₁ hround.run
        exact ih hr rest₁ rest₂ hrest (by omega)

end Loop

/-- **The rule for a component of the state**. -/
theorem couple_zoom {view : τ → σ} {put : σ → τ → τ} {m₁ : Proc σ ε α} {m₂ : Proc σ ε α'}
    {Q : α → α' → τ → τ → Prop} {t₁ t₂ : τ} (hview : ∀ s t, view (put s t) = s)
    (h : Couple p X m₁ m₂ (fun a₁ a₂ s₁ s₂ => Q a₁ a₂ (put s₁ t₁) (put s₂ t₂)) (view t₁)
      (view t₂)) :
    Couple (p.under view) (fun t => X (view t)) (Proc.zoom view put m₁) (Proc.zoom view put m₂) Q
      t₁ t₂ := by
  have hstate : ∀ {γ : Type} (m : Proc σ ε γ) t es,
      view ((Proc.zoom view put m).run t es).state = (m.run (view t) es).state := by
    intro γ m t es
    show view (Proc.zoomRun view put m t es).state = _
    rw [Proc.zoomRun]
    cases m.run (view t) es with
    | done a s rest => exact hview s t
    | pending s => exact hview s t
  have hstuck : ∀ {γ : Type} {m : Proc σ ε γ} {t es}, Stuck m (view t) es →
      Stuck (Proc.zoom view put m) t es := by
    rintro γ m t es ⟨s, hs⟩
    refine ⟨put s t, fun more => ?_⟩
    show Proc.zoomRun view put m t (es ++ more) = _
    rw [Proc.zoomRun, hs more]
  have hends : ∀ {γ : Type} {m : Proc σ ε γ} {t es a s rest}, Ends m (view t) es a s rest →
      Ends (Proc.zoom view put m) t es a (put s t) rest := by
    intro γ m t es a s rest hm more
    show Proc.zoomRun view put m t (es ++ more) = _
    rw [Proc.zoomRun, hm more]
  intro es₁ es₂ halike
  cases h es₁ es₂ halike with
  | stuck₁ hs => exact .stuck₁ (hstuck hs)
  | stuck₂ hs => exact .stuck₂ (hstuck hs)
  | excused₁ hX => exact .excused₁ ((hstate m₁ t₁ es₁).symm ▸ hX)
  | excused₂ hX => exact .excused₂ ((hstate m₂ t₂ es₂).symm ▸ hX)
  | done h₁ h₂ hrest hQ => exact .done (hends h₁) (hends h₂) hrest hQ
  | pending h₁ h₂ hnear =>
    have hpending : ∀ {γ : Type} {m : Proc σ ε γ} {t es s}, m.run (view t) es = .pending s →
        (Proc.zoom view put m).run t es = .pending (put s t) := by
      intro γ m t es s hm
      show Proc.zoomRun view put m t es = _
      rw [Proc.zoomRun, hm]
    refine .pending (hpending h₁) (hpending h₂) ?_
    show p.near (view _) (view _)
    rw [hview, hview]
    exact hnear

end Rules

end Oracle
