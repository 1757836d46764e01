import Mathlib.Algebra.Group.Nat.Defs

/-!
# Checked arithmetic, reads and stores

Operations of a machine that stop where the plain ones would wrap or leave an array.

* `Checked.add`, `Checked.mul`, `Checked.sub`: arithmetic in `w` bits that stops at a wrap.
* `Checked.store`: a store that stops outside the array; a checked read is `xs[i]?`.
* `Checked.loop`: a loop whose passes do not stop does what the plain loop does.
-/

namespace HermitMiner.Checked

variable {α β : Type} {w a b : Nat}

def add (w a b : Nat) : Option Nat := if a + b < 2 ^ w then some (a + b) else none

def mul (w a b : Nat) : Option Nat := if a * b < 2 ^ w then some (a * b) else none

def sub (a b : Nat) : Option Nat := if b ≤ a then some (a - b) else none

def store (xs : Array α) (i : Nat) (x : α) : Option (Array α) :=
  if i < xs.size then some (xs.set! i x) else none

theorem add_eq (h : a + b < 2 ^ w) : add w a b = some (a + b) := if_pos h

theorem mul_eq (h : a * b < 2 ^ w) : mul w a b = some (a * b) := if_pos h

theorem sub_eq (h : b ≤ a) : sub a b = some (a - b) := if_pos h

theorem store_eq {xs : Array α} {i : Nat} {x : α} (h : i < xs.size) :
    store xs i x = some (xs.set! i x) := if_pos h

theorem read_eq [Inhabited α] {xs : Array α} {i : Nat} (h : i < xs.size) :
    xs[i]? = some xs[i]! := by
  rw [Array.getElem?_eq_getElem h, getElem!_pos xs i h]

theorem size_set! (xs : Array α) (i : Nat) (x : α) : (xs.set! i x).size = xs.size := by
  rw [Array.set!_eq_setIfInBounds, Array.size_setIfInBounds]

/-- A loop that keeps an invariant under which its checked passes do what the plain ones do. -/
theorem loop {f : β → α → Option β} {g : β → α → β} {as : List α} (P : β → Prop)
    (hstep : ∀ b, ∀ a ∈ as, P b → f b a = some (g b a) ∧ P (g b a)) :
    ∀ b, P b → as.foldlM f b = some (as.foldl g b) ∧ P (as.foldl g b) := by
  induction as with
  | nil =>
    intro b hb
    exact ⟨rfl, hb⟩
  | cons a as ih =>
    intro b hb
    obtain ⟨hpass, hnext⟩ := hstep b a List.mem_cons_self hb
    have hrest := ih (fun b a ha => hstep b a (List.mem_cons_of_mem _ ha)) (g b a) hnext
    rw [List.foldlM_cons, hpass, List.foldl_cons]
    exact hrest

end HermitMiner.Checked
