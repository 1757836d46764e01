import HermitMiner.Regex.Search
import Mathlib.Data.List.Forall2

/-!
# What a match is

A text matches a pattern, with the texts of its groups; and what the backtracking matcher finds is a
match in this sense.

* `Matches`: the relation, by the shape of the pattern.
* `run_matches`, `matchAt_matches`: the matcher finds matches.
* `run_isSome`: it finds one where there is one.
* `matches_cat_cons`, `matches_word`, …: the relation, pattern by pattern.
-/

namespace Regex

variable {α β : Type}

/-- The text is a match of the pattern with these captures. -/
inductive Matches : Pat α → List α → List (List α) → Prop where
  | eps : Matches .eps [] []
  | one {p : α → Bool} {c : α} (h : p c = true) : Matches (.one p) [c] []
  | many {p : α → Bool} {u : List α} (h : ∀ c ∈ u, p c = true) : Matches (.many p) u []
  | seq {a b : Pat α} {u v : List α} {cs ds : List (List α)} (ha : Matches a u cs)
      (hb : Matches b v ds) : Matches (.seq a b) (u ++ v) (cs ++ ds)
  | altLeft {a b : Pat α} {u : List α} {cs : List (List α)} (h : Matches a u cs) :
      Matches (.alt a b) u cs
  | altRight {a b : Pat α} {u : List α} {cs : List (List α)} (h : Matches b u cs) :
      Matches (.alt a b) u cs
  | group {a : Pat α} {u : List α} {cs : List (List α)} (h : Matches a u cs) :
      Matches (.group a) u (cs ++ [u])

/-! ## The matcher -/

open Pat

theorem runMany_matches {p : α → Bool} {k : List α → Option β} {s : List α} {b : β}
    (h : runMany p k s = some b) :
    ∃ u s', s = u ++ s' ∧ (∀ c ∈ u, p c = true) ∧ k s' = some b := by
  induction s with
  | nil => exact ⟨[], [], rfl, by simp, h⟩
  | cons c s ih =>
    rw [runMany] at h
    split at h
    · rename_i hc
      rcases Option.or_eq_some_iff.1 h with h | ⟨-, h⟩
      · obtain ⟨u, s', rfl, hu, hk⟩ := ih h
        exact ⟨c :: u, s', rfl, List.forall_mem_cons.2 ⟨hc, hu⟩, hk⟩
      · exact ⟨[], c :: s, rfl, by simp, h⟩
    · exact ⟨[], c :: s, rfl, by simp, h⟩

/-- What the matcher takes from the front is a match. -/
theorem run_matches {a : Pat α} {s : List α} {cs : List (List α)}
    {k : List α → List (List α) → Option β} {b : β} (h : a.run s cs k = some b) :
    ∃ u ds s', s = u ++ s' ∧ Matches a u ds ∧ k s' (cs ++ ds) = some b := by
  induction a generalizing s cs k with
  | eps =>
    rw [run_eps] at h
    exact ⟨[], [], s, rfl, .eps, by rwa [List.append_nil]⟩
  | one p =>
    cases s with
    | nil => cases h
    | cons c s =>
      rw [run_one_cons] at h
      split at h
      · rename_i hc
        exact ⟨[c], [], s, rfl, .one hc, by rwa [List.append_nil]⟩
      · cases h
  | many p =>
    rw [run_many] at h
    obtain ⟨u, s', rfl, hu, hk⟩ := runMany_matches h
    exact ⟨u, [], s', rfl, .many hu, by rwa [List.append_nil]⟩
  | seq a b iha ihb =>
    rw [run_seq] at h
    obtain ⟨u, ds, s', rfl, ha, h⟩ := iha h
    obtain ⟨v, es, s'', rfl, hb, h⟩ := ihb h
    exact ⟨u ++ v, ds ++ es, s'', (List.append_assoc _ _ _).symm, .seq ha hb,
      by rwa [← List.append_assoc]⟩
  | alt a b iha ihb =>
    rw [run_alt] at h
    rcases Option.or_eq_some_iff.1 h with h | ⟨-, h⟩
    · obtain ⟨u, ds, s', hs, ha, hk⟩ := iha h
      exact ⟨u, ds, s', hs, .altLeft ha, hk⟩
    · obtain ⟨u, ds, s', hs, hb, hk⟩ := ihb h
      exact ⟨u, ds, s', hs, .altRight hb, hk⟩
  | group a iha =>
    rw [run_group] at h
    obtain ⟨u, ds, s', rfl, ha, hk⟩ := iha h
    rw [List.length_append, Nat.add_sub_cancel, List.take_left, List.append_assoc] at hk
    exact ⟨u, ds ++ [u], s', rfl, .group ha, hk⟩

theorem runMany_isSome {p : α → Bool} {k : List α → Option β} {u s : List α}
    (hu : ∀ c ∈ u, p c = true) (hk : (k s).isSome) : (runMany p k (u ++ s)).isSome := by
  induction u with
  | nil =>
    cases s with
    | nil => exact hk
    | cons c s =>
      rw [List.nil_append, runMany]
      split
      · rw [Option.isSome_or, hk, Bool.or_true]
      · exact hk
  | cons c u ih =>
    obtain ⟨hc, hu⟩ := List.forall_mem_cons.1 hu
    rw [List.cons_append, runMany, if_pos hc, Option.isSome_or, ih hu, Bool.true_or]

/-- The matcher finds a match where there is one. -/
theorem run_isSome {a : Pat α} {u s : List α} {cs ds : List (List α)}
    {k : List α → List (List α) → Option β} (h : Matches a u ds) (hk : (k s (cs ++ ds)).isSome) :
    (a.run (u ++ s) cs k).isSome := by
  induction h generalizing s cs k with
  | eps =>
    rw [List.append_nil] at hk
    rwa [run_eps]
  | one hc =>
    rw [List.append_nil] at hk
    rwa [List.singleton_append, run_one_cons, if_pos hc]
  | many hu =>
    rw [List.append_nil] at hk
    rw [run_many]
    exact runMany_isSome hu hk
  | seq _ _ iha ihb =>
    rw [run_seq, List.append_assoc]
    refine iha (ihb ?_)
    rwa [List.append_assoc]
  | altLeft _ ih => rw [run_alt, Option.isSome_or, ih hk, Bool.true_or]
  | altRight _ ih => rw [run_alt, Option.isSome_or, ih hk, Bool.or_true]
  | group _ ih =>
    rw [run_group]
    refine ih ?_
    rwa [List.length_append, Nat.add_sub_cancel, List.take_left, List.append_assoc]

theorem matchAt_matches {a : Pat α} {s : List α} {cs : List (List α)} (h : a.matchAt s = some cs) :
    ∃ u s', s = u ++ s' ∧ Matches a u cs := by
  obtain ⟨u, ds, s', hs, ha, hcs⟩ := run_matches h
  obtain rfl : ds = cs := Option.some.inj hcs
  exact ⟨u, s', hs, ha⟩

/-! ## The relation, pattern by pattern -/

section Inversion

variable {a : Pat α} {as : List (Pat α)} {p : α → Bool} {u : List α} {cs : List (List α)}

theorem matches_cat_nil : Matches (cat ([] : List (Pat α))) u cs ↔ u = [] ∧ cs = [] := by
  constructor
  · intro h
    cases h
    exact ⟨rfl, rfl⟩
  · rintro ⟨rfl, rfl⟩
    exact .eps

theorem matches_cat_cons : Matches (cat (a :: as)) u cs ↔
    ∃ v w ds es, u = v ++ w ∧ cs = ds ++ es ∧ Matches a v ds ∧ Matches (cat as) w es := by
  constructor
  · intro h
    cases h with
    | seq ha hb => exact ⟨_, _, _, _, rfl, rfl, ha, hb⟩
  · rintro ⟨v, w, ds, es, rfl, rfl, ha, hb⟩
    exact .seq ha hb

theorem matches_many : Matches (.many p) u cs ↔ (∀ c ∈ u, p c = true) ∧ cs = [] := by
  constructor
  · intro h
    cases h with
    | many h => exact ⟨h, rfl⟩
  · rintro ⟨h, rfl⟩
    exact .many h

theorem matches_group : Matches (.group a) u cs ↔ ∃ ds, cs = ds ++ [u] ∧ Matches a u ds := by
  constructor
  · intro h
    cases h with
    | group h => exact ⟨_, rfl, h⟩
  · rintro ⟨ds, rfl, h⟩
    exact .group h

theorem matches_alt {b : Pat α} : Matches (.alt a b) u cs ↔ Matches a u cs ∨ Matches b u cs := by
  constructor
  · intro h
    cases h with
    | altLeft h => exact .inl h
    | altRight h => exact .inr h
  · rintro (h | h)
    · exact .altLeft h
    · exact .altRight h

/-- A word matches a text of its length, item by item. -/
theorem matches_word {ps : List (α → Bool)} :
    Matches (word ps) u cs ↔ u.length = ps.length ∧ startsWith ps u = true ∧ cs = [] := by
  induction ps generalizing u cs with
  | nil => simp [word, matches_cat_nil, startsWith]
  | cons p ps ih =>
    have hword : word (p :: ps) = .seq (.one p) (word ps) := rfl
    rw [hword]
    constructor
    · intro h
      cases h with
      | seq ha hb =>
        cases ha with
        | one hc =>
          obtain ⟨hlen, hstart, rfl⟩ := ih.1 hb
          exact ⟨congrArg Nat.succ hlen, by simp [startsWith, hc, hstart], rfl⟩
    · rintro ⟨hlen, hstart, rfl⟩
      cases u with
      | nil => cases hlen
      | cons c u =>
        simp only [startsWith, Bool.and_eq_true] at hstart
        exact .seq (.one hstart.1) (ih.2 ⟨Nat.succ.inj hlen, hstart.2, rfl⟩)

end Inversion

/-! ## Captures -/

section Captures

def Groupless : Pat α → Prop
  | .eps | .one _ | .many _ => True
  | .seq a b | .alt a b => Groupless a ∧ Groupless b
  | .group _ => False

theorem captures_eq_nil {a : Pat α} {u : List α} {cs : List (List α)} (h : Matches a u cs)
    (ha : Groupless a) : cs = [] := by
  induction h with
  | eps => rfl
  | one => rfl
  | many => rfl
  | seq _ _ iha ihb =>
    rw [iha ha.1, ihb ha.2]
    rfl
  | altLeft _ ih => exact ih ha.1
  | altRight _ ih => exact ih ha.2
  | group => exact ha.elim

end Captures

end Regex
