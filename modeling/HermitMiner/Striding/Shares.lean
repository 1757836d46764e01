import Mathlib.Algebra.BigOperators.Intervals
import Mathlib.Algebra.Order.BigOperators.Group.Finset

/-!
# Dealing numbers out in strides

The numbers below `n` are dealt to `t` workers: worker `i` gets `i`, `i + t`, `i + 2 * t`, ….

* `lt_share`: how many numbers a worker gets.
* `mem_share`: every number is dealt to a worker.
* `sum_share`: the shares make up all the numbers.
* `full_of_sum`: workers that together have done all but one of the numbers, none of them stopping
  one short of its share, have done all.
-/

namespace Striding

open Finset

/-- How many of the numbers below `n` worker `i` of `t` gets. -/
def share (n t i : Nat) : Nat := (n + (t - 1 - i)) / t

variable {n t i : Nat}

theorem lt_share (hi : i < t) (k : Nat) : k < share n t i ↔ i + t * k < n := by
  rw [share, Nat.lt_iff_add_one_le, Nat.le_div_iff_mul_le (by omega), Nat.add_mul, Nat.one_mul,
    Nat.mul_comm k t]
  generalize t * k = x
  omega

/-- A number is the `m / t`-th of worker `m % t`. -/
theorem mem_share (ht : 0 < t) {m : Nat} (hm : m < n) :
    m % t < t ∧ m / t < share n t (m % t) ∧ m % t + t * (m / t) = m := by
  have hmod := Nat.mod_lt m ht
  have hdiv := Nat.mod_add_div m t
  exact ⟨hmod, (lt_share hmod _).2 (by rw [hdiv]; exact hm), hdiv⟩

theorem two_le_share (hi : i < t) (htn : 2 * t ≤ n) : 2 ≤ share n t i :=
  (lt_share hi 1).2 (by omega)

/-- Hermite's identity. -/
theorem sum_add_div (ht : 0 < t) (n : Nat) : ∑ i ∈ range t, (n + i) / t = n := by
  induction n with
  | zero =>
    apply sum_eq_zero
    intro i hi
    rw [Nat.zero_add, Nat.div_eq_of_lt (mem_range.1 hi)]
  | succ n ih =>
    -- one step shifts the terms: the first one leaves, and the last one is one more than it
    have hfirst := sum_range_succ' (fun i => (n + i) / t) t
    have hlast := sum_range_succ (fun i => (n + i) / t) t
    have hshift : ∑ i ∈ range t, (n + 1 + i) / t = ∑ i ∈ range t, (n + (i + 1)) / t :=
      sum_congr rfl fun i _ => by rw [Nat.add_assoc, Nat.add_comm 1 i]
    rw [Nat.add_div_right n ht, ih] at hlast
    simp only [Nat.add_zero] at hfirst
    omega

theorem sum_share (ht : 0 < t) (n : Nat) : ∑ i ∈ range t, share n t i = n := by
  calc ∑ i ∈ range t, share n t i = ∑ i ∈ range t, (n + (t - 1 - i)) / t := rfl
    _ = ∑ i ∈ range t, (n + i) / t := sum_range_reflect (fun i => (n + i) / t) t
    _ = n := sum_add_div ht n

/-- Terms of which one is two short make a sum that is two short. -/
theorem sum_add_two_le {f g : Nat → Nat} {s : Finset Nat} (hle : ∀ i ∈ s, f i ≤ g i) {j : Nat}
    (hj : j ∈ s) (hshort : f j + 2 ≤ g j) : ∑ i ∈ s, f i + 2 ≤ ∑ i ∈ s, g i := by
  rw [← add_sum_erase s f hj, ← add_sum_erase s g hj]
  have hrest : ∑ i ∈ s.erase j, f i ≤ ∑ i ∈ s.erase j, g i :=
    sum_le_sum fun i hi => hle i (mem_of_mem_erase hi)
  omega

/-- **All but one is all**, when no worker stops one short of its share. -/
theorem full_of_sum (ht : 0 < t) {f : Nat → Nat} (hle : ∀ i < t, f i ≤ share n t i)
    (hshort : ∀ i < t, f i = share n t i ∨ f i + 2 ≤ share n t i)
    (hsum : n ≤ ∑ i ∈ range t, f i + 1) : ∀ i < t, f i = share n t i := by
  intro i hi
  apply (hshort i hi).resolve_right
  intro htwo
  have hgap := sum_add_two_le (fun j hj => hle j (mem_range.1 hj)) (mem_range.2 hi) htwo
  rw [sum_share ht] at hgap
  omega

/-- All is all. -/
theorem full_of_sum_eq (ht : 0 < t) {f : Nat → Nat} (hle : ∀ i < t, f i ≤ share n t i)
    (hsum : ∑ i ∈ range t, f i = n) : ∀ i < t, f i = share n t i := by
  have heq : ∑ i ∈ range t, f i = ∑ i ∈ range t, share n t i := by rw [hsum, sum_share ht]
  exact fun i hi =>
    (sum_eq_sum_iff_of_le fun j hj => hle j (mem_range.1 hj)).1 heq i (mem_range.2 hi)

end Striding
