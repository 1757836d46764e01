import HermitMiner.Oracle.History

/-!
# Paths of an automaton

A history that an automaton can make: it moves from place to place, one observation a move.

* `Path`: the moves from one place to another, and what is observed in them.
* `Path.along`: a discipline that follows from where the automaton stands, with an invariant that
  ties its place to the history.
-/

namespace Oracle

variable {φ ο : Type} {move : φ → ο → φ → Prop} {p q r : φ} {t : List ο} {o : ο}

/-- The automaton comes from `p` to another place and observes a history. -/
inductive Path (move : φ → ο → φ → Prop) (p : φ) : List ο → φ → Prop where
  | nil : Path move p [] p
  | snoc {t : List ο} {q r : φ} {o : ο} (h : Path move p t q) (hmove : move q o r) :
      Path move p (t ++ [o]) r

/-- What every move keeps, and the discipline that follows from it. -/
theorem Path.along {I : List ο → φ → Prop} {P : List ο → ο → Prop} (h : Path move p t q)
    (hstart : I [] p) (hkeep : ∀ t q o r, I t q → move q o r → I (t ++ [o]) r)
    (hallow : ∀ t q o r, I t q → move q o r → P t o) : I t q ∧ Along P t := by
  induction h with
  | nil => exact ⟨hstart, along_nil⟩
  | snoc _ hmove ih =>
    exact ⟨hkeep _ _ _ _ ih.1 hmove, along_concat.2 ⟨ih.2, hallow _ _ _ _ ih.1 hmove⟩⟩

end Oracle
