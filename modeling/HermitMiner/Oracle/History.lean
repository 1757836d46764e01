import Mathlib.Data.List.Infix

/-!
# Histories

A history is the list of what has been observed, oldest first. A discipline says of every
observation what must have come before it, and `Along` says that a history keeps a discipline.

* `along_concat`: one more observation keeps the discipline exactly when the discipline admits it.
* `Along.of_prefix`: what a history has kept, every earlier history had kept.
* `AlongAfter`: the discipline checked one observation after another, which decides it.
-/

namespace Oracle

variable {ο σ : Type} {P Q : List ο → ο → Prop}

/-- Every observation is admitted by the history before it. -/
def Along (P : List ο → ο → Prop) (t : List ο) : Prop :=
  ∀ before o after, t = before ++ o :: after → P before o

@[simp] theorem along_nil : Along P [] := by
  intro before o after h
  simp at h

@[simp] theorem along_concat {t : List ο} {o : ο} : Along P (t ++ [o]) ↔ Along P t ∧ P t o := by
  constructor
  · intro h
    refine ⟨?_, h t o [] rfl⟩
    intro before x after ht
    exact h before x (after ++ [o]) (by simp [ht])
  · rintro ⟨ht, ho⟩ before x after h
    rcases List.eq_nil_or_concat after with rfl | ⟨after, y, rfl⟩
    · obtain ⟨rfl, hx⟩ := List.append_inj' h rfl
      obtain rfl : o = x := by simpa using hx
      exact ho
    · have h' : t ++ [o] = (before ++ x :: after) ++ [y] := by simpa using h
      exact ht before x after (List.append_inj' h' rfl).1

theorem Along.of_append {t u : List ο} (h : Along P (t ++ u)) : Along P t :=
  fun before o after ht => h before o (after ++ u) (by simp [ht])

theorem Along.of_prefix {t u : List ο} (h : Along P u) (ht : t <+: u) : Along P t := by
  obtain ⟨rest, rfl⟩ := ht
  exact h.of_append

/-- The discipline admits the last observation. -/
theorem Along.last {t : List ο} {o : ο} (h : Along P t) (ht : t.getLast? = some o) :
    P t.dropLast o :=
  h t.dropLast o [] (List.dropLast_append_getLast? o ht).symm

theorem Along.mono {t : List ο} (h : Along P t) (hPQ : ∀ before o, P before o → Q before o) :
    Along Q t :=
  fun before o after ht => hPQ before o (h before o after ht)

theorem Along.and {t : List ο} (h : Along P t) (h' : Along Q t) :
    Along (fun before o => P before o ∧ Q before o) t :=
  fun before o after ht => ⟨h before o after ht, h' before o after ht⟩

/-! ## Deciding a discipline -/

/-- The observations of `t`, after those of `before`, are each admitted by the history. -/
def AlongAfter (P : List ο → ο → Prop) : List ο → List ο → Prop
  | _, [] => True
  | before, o :: t => P before o ∧ AlongAfter P (before ++ [o]) t

theorem along_append {before t : List ο} :
    Along P (before ++ t) ↔ Along P before ∧ AlongAfter P before t := by
  induction t generalizing before with
  | nil => simp [AlongAfter]
  | cons o t ih =>
    have hmove : before ++ o :: t = (before ++ [o]) ++ t := by simp
    rw [hmove, ih, along_concat, AlongAfter, and_assoc]

instance decidableAlongAfter [∀ t o, Decidable (P t o)] (before t : List ο) :
    Decidable (AlongAfter P before t) :=
  match t with
  | [] => isTrue trivial
  | o :: t =>
    haveI := decidableAlongAfter (before ++ [o]) t
    inferInstanceAs (Decidable (P before o ∧ AlongAfter P (before ++ [o]) t))

instance [∀ t o, Decidable (P t o)] (t : List ο) : Decidable (Along P t) :=
  decidable_of_iff (AlongAfter P [] t) (by
    have happend : Along P ([] ++ t) ↔ Along P [] ∧ AlongAfter P [] t := along_append
    simpa using happend.symm)

end Oracle
