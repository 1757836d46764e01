import Mathlib.Data.List.Basic
import Mathlib.Data.List.Infix

/-!
# Backtracking search with greedy repetition

Patterns as a backtracking matcher runs them: alternatives in order, repetitions of a class of
items greedily, groups captured in the order in which they close. `search` is the leftmost match.

* `run_many_det`: a repetition whose continuation cannot start with a repeated item takes all of
  them and never backtracks.
* `search_length`: a search captures as many texts as the pattern has groups.
* `firstSuffix_sound`, `firstSuffix_isSome`, `firstSuffix_mono`: a search finds a match at some
  suffix, and finds one when there is one.
-/

namespace Regex

inductive Pat (α : Type) where
  | eps
  | one (p : α → Bool)
  /-- As many items of the class as the rest of the pattern allows. -/
  | many (p : α → Bool)
  | seq (a b : Pat α)
  /-- `a`, and `b` when the rest of the pattern fails after `a`. -/
  | alt (a b : Pat α)
  | group (a : Pat α)

namespace Pat

variable {α β : Type}

/-- `p*`: the longest repetition first, then one item less, down to none. -/
def runMany (p : α → Bool) (k : List α → Option β) : List α → Option β
  | [] => k []
  | c :: s => if p c then (runMany p k s).or (k (c :: s)) else k (c :: s)

/-- Match at the front of `s`, with the captures so far, and go on with `k`. -/
def run : Pat α → List α → List (List α) → (List α → List (List α) → Option β) → Option β
  | .eps, s, cs, k => k s cs
  | .one _, [], _, _ => none
  | .one p, c :: s, cs, k => if p c then k s cs else none
  | .many p, s, cs, k => runMany p (fun s' => k s' cs) s
  | .seq a b, s, cs, k => a.run s cs fun s' cs' => b.run s' cs' k
  | .alt a b, s, cs, k => (a.run s cs k).or (b.run s cs k)
  | .group a, s, cs, k => a.run s cs fun s' cs' => k s' (cs' ++ [s.take (s.length - s'.length)])

/-- The captures of the match at the front of `s`. -/
def matchAt (a : Pat α) (s : List α) : Option (List (List α)) := a.run s [] fun _ cs => some cs

/-- The pattern that runs the given ones one after another. -/
def cat : List (Pat α) → Pat α
  | [] => .eps
  | a :: as => .seq a (cat as)

/-- A word, given as the classes of its items. -/
def word (ps : List (α → Bool)) : Pat α := cat (ps.map .one)

end Pat

/-- The first suffix of a list at which `f` succeeds. -/
def firstSuffix {α β : Type} (f : List α → Option β) : List α → Option β
  | [] => f []
  | c :: s => (f (c :: s)).or (firstSuffix f s)

/-- The captures of the leftmost match. -/
def search {α : Type} (a : Pat α) (s : List α) : Option (List (List α)) := firstSuffix a.matchAt s

/-! ## Search -/

section Suffix

variable {α β : Type} {f : List α → Option β}

theorem firstSuffix_sound {s : List α} {b : β} (h : firstSuffix f s = some b) :
    ∃ t, t <:+ s ∧ f t = some b := by
  induction s with
  | nil => exact ⟨[], List.suffix_refl _, h⟩
  | cons c s ih =>
    rw [firstSuffix, Option.or_eq_some_iff] at h
    rcases h with h | ⟨-, h⟩
    · exact ⟨c :: s, List.suffix_refl _, h⟩
    · obtain ⟨t, ht, hf⟩ := ih h
      exact ⟨t, ht.trans (List.suffix_cons c s), hf⟩

/-- The suffix at which the search succeeds, and no longer one. -/
theorem firstSuffix_eq_some {s : List α} {b : β} (h : firstSuffix f s = some b) :
    ∃ front t, s = front ++ t ∧ (∀ x y, front = x ++ y → y ≠ [] → f (y ++ t) = none) ∧
      f t = some b := by
  induction s with
  | nil => exact ⟨[], [], rfl, fun x y hxy hy => absurd (List.append_eq_nil_iff.1 hxy.symm).2 hy, h⟩
  | cons c s ih =>
    rw [firstSuffix, Option.or_eq_some_iff] at h
    rcases h with h | ⟨hc, h⟩
    · exact ⟨[], c :: s, rfl, fun x y hxy hy => absurd (List.append_eq_nil_iff.1 hxy.symm).2 hy, h⟩
    · obtain ⟨front, t, rfl, hfront, ht⟩ := ih h
      refine ⟨c :: front, t, rfl, fun x y hxy hy => ?_, ht⟩
      cases x with
      | nil =>
        obtain rfl : c :: front = y := hxy
        exact hc
      | cons d x => exact hfront x y (List.cons.inj hxy).2 hy

theorem firstSuffix_isSome {s t : List α} (ht : t <:+ s) (h : (f t).isSome) :
    (firstSuffix f s).isSome := by
  induction s with
  | nil => rw [List.suffix_nil.1 ht] at h; exact h
  | cons c s ih =>
    rw [firstSuffix, Option.isSome_or, Bool.or_eq_true]
    rcases List.suffix_cons_iff.1 ht with rfl | ht
    · exact Or.inl h
    · exact Or.inr (ih ht)

/-- Where `f` fails at every suffix that starts in `front`, the search starts after `front`. -/
theorem firstSuffix_append {front s : List α}
    (h : ∀ x y, front = x ++ y → y ≠ [] → f (y ++ s) = none) :
    firstSuffix f (front ++ s) = firstSuffix f s := by
  induction front with
  | nil => rfl
  | cons c front ih =>
    have hc : f (c :: (front ++ s)) = none := h [] (c :: front) rfl (by simp)
    rw [List.cons_append, firstSuffix, hc, Option.none_or]
    exact ih fun x y hxy hy => h (c :: x) y (by simp [hxy]) hy

theorem firstSuffix_of_eq_some {s : List α} {b : β} (h : f s = some b) :
    firstSuffix f s = some b := by
  cases s with
  | nil => exact h
  | cons c s => rw [firstSuffix, h, Option.some_or]

/-- A search that succeeds on a suffix succeeds on the whole. -/
theorem firstSuffix_mono {s t : List α} (ht : t <:+ s) (h : (firstSuffix f t).isSome) :
    (firstSuffix f s).isSome := by
  obtain ⟨b, hb⟩ := Option.isSome_iff_exists.1 h
  obtain ⟨u, hu, hf⟩ := firstSuffix_sound hb
  exact firstSuffix_isSome (hu.trans ht) (by rw [hf]; rfl)

end Suffix

/-! ## Matching at the front -/

namespace Pat

section Run

variable {α β : Type} {p : α → Bool} {s : List α} {cs : List (List α)}
  {k : List α → List (List α) → Option β}

@[simp] theorem run_eps : run .eps s cs k = k s cs := by
  cases s <;> rfl

@[simp] theorem run_one_nil : run (.one p) [] cs k = none := rfl

@[simp] theorem run_one_cons {c : α} :
    run (.one p) (c :: s) cs k = if p c then k s cs else none := rfl

@[simp] theorem run_seq {a b : Pat α} :
    run (.seq a b) s cs k = a.run s cs fun s' cs' => b.run s' cs' k := by
  cases s <;> rfl

@[simp] theorem run_alt {a b : Pat α} :
    run (.alt a b) s cs k = (a.run s cs k).or (b.run s cs k) := by
  cases s <;> rfl

@[simp] theorem run_group {a : Pat α} :
    run (.group a) s cs k =
      a.run s cs fun s' cs' => k s' (cs' ++ [s.take (s.length - s'.length)]) := by
  cases s <;> rfl

theorem run_many : run (.many p) s cs k = runMany p (fun s' => k s' cs) s := by
  cases s <;> rfl

@[simp] theorem run_cat_nil : run (cat []) s cs k = k s cs := run_eps

@[simp] theorem run_cat_cons {a : Pat α} {as : List (Pat α)} :
    run (cat (a :: as)) s cs k = a.run s cs fun s' cs' => (cat as).run s' cs' k := run_seq

theorem runMany_det {k : List α → Option β} (h : ∀ c t, p c = true → k (c :: t) = none) :
    runMany p k s = k (s.dropWhile p) := by
  induction s with
  | nil => rfl
  | cons c s ih =>
    by_cases hc : p c = true
    · rw [runMany, if_pos hc, h c s hc, Option.or_none, ih, List.dropWhile_cons_of_pos hc]
    · rw [runMany, if_neg hc, List.dropWhile_cons_of_neg hc]

/-- A repetition whose continuation fails on repeated items takes all of them. -/
theorem run_many_det (h : ∀ c t, p c = true → k (c :: t) cs = none) :
    run (.many p) s cs k = k (s.dropWhile p) cs := by
  rw [run_many, runMany_det h]

/-- A repetition whose continuation accepts the longest match takes it. -/
theorem run_many_greedy (h : (k (s.dropWhile p) cs).isSome) :
    run (.many p) s cs k = k (s.dropWhile p) cs := by
  rw [run_many]
  induction s with
  | nil => rfl
  | cons c s ih =>
    by_cases hc : p c = true
    · rw [List.dropWhile_cons_of_pos hc] at h ⊢
      rw [runMany, if_pos hc, ih h]
      exact Option.or_of_isSome h
    · rw [runMany, if_neg hc, List.dropWhile_cons_of_neg hc]

end Run

/-! ## Captures -/

section Groups

variable {α β : Type}

/-- How many groups a match closes. -/
def groups : Pat α → Nat
  | .eps | .one _ | .many _ => 0
  | .seq a b => groups a + groups b
  | .alt a _ => groups a
  | .group a => groups a + 1

/-- The two sides of every alternative close the same number of groups. -/
def Balanced : Pat α → Prop
  | .eps | .one _ | .many _ => True
  | .seq a b => Balanced a ∧ Balanced b
  | .alt a b => groups a = groups b ∧ Balanced a ∧ Balanced b
  | .group a => Balanced a

theorem runMany_sound {p : α → Bool} {k : List α → Option β} {s : List α} {b : β}
    (h : runMany p k s = some b) : ∃ s', k s' = some b := by
  induction s with
  | nil => exact ⟨[], h⟩
  | cons c s ih =>
    rw [runMany] at h
    split at h
    · rcases Option.or_eq_some_iff.1 h with h | ⟨-, h⟩
      · exact ih h
      · exact ⟨_, h⟩
    · exact ⟨_, h⟩

/-- A match leaves the captures longer by the groups of the pattern. -/
theorem run_sound {a : Pat α} (ha : a.Balanced) {s : List α} {cs : List (List α)}
    {k : List α → List (List α) → Option β} {b : β} (h : a.run s cs k = some b) :
    ∃ s' cs', cs'.length = cs.length + a.groups ∧ k s' cs' = some b := by
  induction a generalizing s cs k with
  | eps => exact ⟨s, cs, rfl, by rwa [run_eps] at h⟩
  | one p =>
    cases s with
    | nil => cases h
    | cons c s =>
      rw [run_one_cons] at h
      split at h
      · exact ⟨s, cs, rfl, h⟩
      · cases h
  | many p =>
    rw [run_many] at h
    obtain ⟨s', hs'⟩ := runMany_sound h
    exact ⟨s', cs, rfl, hs'⟩
  | seq a b iha ihb =>
    rw [run_seq] at h
    obtain ⟨s', cs', hlen, h'⟩ := iha ha.1 h
    obtain ⟨s'', cs'', hlen', h''⟩ := ihb ha.2 h'
    exact ⟨s'', cs'', by rw [hlen', hlen, Nat.add_assoc, groups], h''⟩
  | alt a b iha ihb =>
    rw [run_alt] at h
    rcases Option.or_eq_some_iff.1 h with h | ⟨-, h⟩
    · exact iha ha.2.1 h
    · obtain ⟨s', cs', hlen, h'⟩ := ihb ha.2.2 h
      exact ⟨s', cs', by rw [hlen, groups, ha.1], h'⟩
  | group a iha =>
    rw [run_group] at h
    obtain ⟨s', cs', hlen, h'⟩ := iha ha h
    exact ⟨s', _, by rw [List.length_append, hlen]; rfl, h'⟩

end Groups

/-! ## Words -/

section Word

variable {α β : Type}

/-- The list starts with items of the given classes. -/
def startsWith : List (α → Bool) → List α → Bool
  | [], _ => true
  | _ :: _, [] => false
  | p :: ps, c :: s => p c && startsWith ps s

theorem run_word {ps : List (α → Bool)} {s : List α} {cs : List (List α)}
    {k : List α → List (List α) → Option β} :
    run (word ps) s cs k = if startsWith ps s then k (s.drop ps.length) cs else none := by
  induction ps generalizing s with
  | nil => simp [word, startsWith]
  | cons p ps ih =>
    have hword : word (p :: ps) = .seq (.one p) (word ps) := rfl
    rw [hword, run_seq]
    cases s with
    | nil => simp [startsWith]
    | cons c s => by_cases hc : p c = true <;> simp [startsWith, hc, ih]

theorem startsWith_map {f : α → α → Bool} (hf : ∀ c, f c c = true) (w t : List α) :
    startsWith (w.map f) (w ++ t) = true := by
  induction w with
  | nil => rfl
  | cons c w ih => simp [startsWith, hf, ih]

end Word

end Pat

/-- A search captures as many texts as the pattern has groups. -/
theorem search_length {α : Type} {a : Pat α} (ha : a.Balanced) {s : List α} {cs : List (List α)}
    (h : search a s = some cs) : cs.length = a.groups := by
  obtain ⟨t, -, ht⟩ := firstSuffix_sound h
  obtain ⟨s', cs', hlen, hcs⟩ := Pat.run_sound ha ht
  rw [← Option.some.inj hcs, hlen, List.length_nil, Nat.zero_add]

end Regex
