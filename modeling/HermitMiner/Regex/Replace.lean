import HermitMiner.Regex.Matches

/-!
# Replacing the matches in a text

`std::regex_replace`: the leftmost match is replaced, and the search goes on after it. The pattern
must not match the empty text.

* `matchEnd`: a match at the front, with its captures and what is left of the text.
* `replace`: the text with its matches replaced.
* `replace_of_some`, `replace_of_none`, `replace_append`: its steps.
* `Within`, `least`: what items, and how many at least, a match has.
* `replace_settled`: the replacements in a text that no later text changes.
* `replace_coupled`: the replacements in two texts that differ at one place.
-/

namespace Regex

variable {α : Type}

/-- The captures of the match at the front of `s`, and the text after it. -/
def Pat.matchEnd (a : Pat α) (s : List α) : Option (List (List α) × List α) :=
  a.run s [] fun s' cs => some (cs, s')

/-- The text from its item number `skip` on, with its matches replaced. -/
def replaceFrom (a : Pat α) (format : List (List α) → List α) : Nat → List α → List α
  | _, [] => []
  | skip + 1, _ :: s => replaceFrom a format skip s
  | 0, c :: s =>
    match a.matchEnd (c :: s) with
    | some (cs, s') => format cs ++ replaceFrom a format (s.length - s'.length) s
    | none => c :: replaceFrom a format 0 s

def replace (a : Pat α) (format : List (List α) → List α) (s : List α) : List α :=
  replaceFrom a format 0 s

/-! ## Steps -/

section Steps

variable {a : Pat α} {format : List (List α) → List α} {s s' t : List α} {cs : List (List α)}

theorem matchEnd_matches (h : a.matchEnd s = some (cs, s')) :
    ∃ u, s = u ++ s' ∧ Matches a u cs := by
  obtain ⟨u, ds, t, rfl, ha, hk⟩ := run_matches h
  obtain ⟨rfl, rfl⟩ := Prod.mk.inj (Option.some.inj hk)
  exact ⟨u, rfl, ha⟩

theorem matchEnd_isSome {u : List α} (h : Matches a u cs) : (a.matchEnd (u ++ s)).isSome :=
  run_isSome h rfl

theorem replaceFrom_drop (skip : Nat) :
    replaceFrom a format skip s = replace a format (s.drop skip) := by
  induction s generalizing skip with
  | nil => cases skip <;> rfl
  | cons c s ih =>
    cases skip with
    | zero => rfl
    | succ skip => exact ih skip

@[simp] theorem replace_nil : replace a format [] = [] := rfl

theorem replace_of_none {c : α} (h : a.matchEnd (c :: s) = none) :
    replace a format (c :: s) = c :: replace a format s := by
  rw [replace, replaceFrom, h]
  rfl

/-- A match is replaced, and the search goes on after it. -/
theorem replace_of_some (h : a.matchEnd s = some (cs, s')) (hlt : s'.length < s.length) :
    replace a format s = format cs ++ replace a format s' := by
  obtain ⟨u, hs, -⟩ := matchEnd_matches h
  cases s with
  | nil => cases hlt
  | cons c s =>
    have hdrop : s.drop (s.length - s'.length) = s' := by
      cases u with
      | nil =>
        rw [List.nil_append] at hs
        rw [hs] at hlt
        exact absurd hlt (Nat.lt_irrefl _)
      | cons d u =>
        have hs' : s = u ++ s' := (List.cons.inj hs).2
        rw [hs', List.length_append, Nat.add_sub_cancel, List.drop_left]
    rw [replace, replaceFrom, h]
    dsimp only
    rw [replaceFrom_drop, hdrop]

/-- Where no match starts, the text is left as it is. -/
theorem replace_append (h : ∀ x y, t = x ++ y → y ≠ [] → a.matchEnd (y ++ s) = none) :
    replace a format (t ++ s) = t ++ replace a format s := by
  induction t with
  | nil => rfl
  | cons c t ih =>
    have hc : a.matchEnd (c :: (t ++ s)) = none := h [] (c :: t) rfl (List.cons_ne_nil c t)
    rw [List.cons_append, replace_of_none hc, List.cons_append, ih]
    intro x y hxy hy
    exact h (c :: x) y (congrArg (c :: ·) hxy) hy

end Steps

/-! ## Items of a match -/

section Items

/-- All the classes of the pattern are inside one. -/
inductive Pat.Within (q : α → Prop) : Pat α → Prop where
  | eps : Within q .eps
  | one {p : α → Bool} (h : ∀ c, p c = true → q c) : Within q (.one p)
  | many {p : α → Bool} (h : ∀ c, p c = true → q c) : Within q (.many p)
  | seq {a b : Pat α} (ha : Within q a) (hb : Within q b) : Within q (.seq a b)
  | alt {a b : Pat α} (ha : Within q a) (hb : Within q b) : Within q (.alt a b)
  | group {a : Pat α} (ha : Within q a) : Within q (.group a)

theorem Matches.within {a : Pat α} {u : List α} {cs : List (List α)} {q : α → Prop}
    (h : Matches a u cs) (ha : a.Within q) : ∀ c ∈ u, q c := by
  induction h with
  | eps => exact fun c hc => by cases hc
  | one hc =>
    intro d hd
    obtain rfl := List.mem_singleton.1 hd
    cases ha with
    | one h => exact h d hc
  | many h =>
    cases ha with
    | many hq => exact fun c hc => hq c (h c hc)
  | seq _ _ iha ihb =>
    cases ha with
    | seq ha hb =>
      intro c hc
      rcases List.mem_append.1 hc with hc | hc
      · exact iha ha c hc
      · exact ihb hb c hc
  | altLeft _ ih =>
    cases ha with
    | alt ha _ => exact ih ha
  | altRight _ ih =>
    cases ha with
    | alt _ hb => exact ih hb
  | group _ ih =>
    cases ha with
    | group ha => exact ih ha

theorem within_cat {q : α → Prop} {as : List (Pat α)} (h : ∀ a ∈ as, a.Within q) :
    (Pat.cat as).Within q := by
  induction as with
  | nil => exact .eps
  | cons a as ih =>
    exact .seq (h a List.mem_cons_self) (ih fun b hb => h b (List.mem_cons_of_mem a hb))

theorem within_word {q : α → Prop} {ps : List (α → Bool)} (h : ∀ p ∈ ps, ∀ c, p c = true → q c) :
    (Pat.word ps).Within q := by
  apply within_cat
  intro a ha
  obtain ⟨p, hp, rfl⟩ := List.mem_map.1 ha
  exact .one (h p hp)

/-- The least length of a match. -/
def Pat.least : Pat α → Nat
  | .eps | .many _ => 0
  | .one _ => 1
  | .seq a b => least a + least b
  | .alt a b => min (least a) (least b)
  | .group a => least a

theorem Matches.least_le {a : Pat α} {u : List α} {cs : List (List α)} (h : Matches a u cs) :
    a.least ≤ u.length := by
  induction h with
  | eps => exact Nat.zero_le _
  | one => exact Nat.le_refl 1
  | many => exact Nat.zero_le _
  | seq _ _ iha ihb =>
    rw [List.length_append]
    exact Nat.add_le_add iha ihb
  | altLeft _ ih => exact Nat.le_trans (Nat.min_le_left _ _) ih
  | altRight _ ih => exact Nat.le_trans (Nat.min_le_right _ _) ih
  | group _ ih => exact ih

/-- A match that cannot be empty leaves less of the text. -/
theorem matchEnd_lt {a : Pat α} {s s' : List α} {cs : List (List α)} (ha : 0 < a.least)
    (h : a.matchEnd s = some (cs, s')) : s'.length < s.length := by
  obtain ⟨u, rfl, hu⟩ := matchEnd_matches h
  have hle := hu.least_le
  rw [List.length_append]
  omega

end Items

/-! ## Texts behind which nothing is undone -/

section Settled

variable {a : Pat α} {format : List (List α) → List α}

/-- Where every match that starts in `t` ends in `t`, whatever stands behind, the replacements in `t`
do not depend on it. -/
theorem replace_settled (ha : 0 < a.least) {t : List α}
    (h : ∀ x y, t = x ++ y → y ≠ [] → (∀ r, a.matchEnd (y ++ r) = none) ∨
      ∃ out y', ∀ r, ∃ cs, a.matchEnd (y ++ r) = some (cs, y' ++ r) ∧ format cs = out) :
    ∃ t', ∀ r, replace a format (t ++ r) = t' ++ replace a format r := by
  induction hn : t.length using Nat.strongRecOn generalizing t with
  | _ n ih =>
    cases t with
    | nil => exact ⟨[], fun _ => rfl⟩
    | cons c t =>
      rcases h [] (c :: t) rfl (List.cons_ne_nil c t) with hnone | ⟨out, y', hsome⟩
      · obtain ⟨t', ht'⟩ := ih t.length (by rw [← hn]; exact Nat.lt_succ_self _)
          (fun x y hxy hy => h (c :: x) y (congrArg (c :: ·) hxy) hy) rfl
        refine ⟨c :: t', fun r => ?_⟩
        have hhead : a.matchEnd (c :: (t ++ r)) = none := hnone r
        rw [List.cons_append, replace_of_none hhead, ht' r, List.cons_append]
      · -- what the match leaves is the end of `t`
        obtain ⟨cs, hend, -⟩ := hsome []
        obtain ⟨u, hu, -⟩ := matchEnd_matches hend
        rw [List.append_nil, List.append_nil] at hu
        have hlt := matchEnd_lt ha hend
        rw [List.append_nil, List.append_nil] at hlt
        obtain ⟨t', ht'⟩ := ih y'.length (by rw [← hn]; exact hlt)
          (fun x y hxy hy => h (u ++ x) y (by rw [hu, hxy, List.append_assoc]) hy) rfl
        refine ⟨out ++ t', fun r => ?_⟩
        obtain ⟨cs, hend, rfl⟩ := hsome r
        rw [replace_of_some hend (matchEnd_lt ha hend), ht' r, List.append_assoc]

end Settled

/-! ## Two texts that end differently -/

section Coupled

variable {a : Pat α} {format : List (List α) → List α} {r₁ r₂ : List α}

/-- What the matcher does at one position of two texts that end in `r₁` and `r₂`: it matches in
neither, or ends before the ends, or has the difference inside its match. -/
inductive Coupled (format : List (List α) → List α) (r₁ r₂ : List α) :
    Option (List (List α) × List α) → Option (List (List α) × List α) → Prop where
  | none : Coupled format r₁ r₂ none none
  | inside {cs cs' : List (List α)} {y : List α} (h : format cs = format cs') :
    Coupled format r₁ r₂ (some (cs, y ++ r₁)) (some (cs', y ++ r₂))
  | across {cs cs' : List (List α)} {s : List α} (h : format cs = format cs') :
    Coupled format r₁ r₂ (some (cs, s)) (some (cs', s))

/-- It is enough to follow the matches of each text. -/
theorem Coupled.of_some {m₁ m₂ : Option (List (List α) × List α)}
    (h : ∀ cs s, m₁ = some (cs, s) → Coupled format r₁ r₂ (some (cs, s)) m₂)
    (h' : ∀ cs s, m₂ = some (cs, s) → Coupled format r₂ r₁ (some (cs, s)) m₁) :
    Coupled format r₁ r₂ m₁ m₂ := by
  cases m₁ with
  | some m => exact h m.1 m.2 rfl
  | none =>
    cases m₂ with
    | none => exact .none
    | some m =>
      obtain ⟨cs, s⟩ := m
      cases h' cs s rfl

/-- **Two texts in lockstep**: the replacements are the same up to the ends, or some match makes them
the same altogether. -/
theorem replace_coupled (ha : 0 < a.least) {t : List α}
    (h : ∀ x y, t = x ++ y → y ≠ [] →
      Coupled format r₁ r₂ (a.matchEnd (y ++ r₁)) (a.matchEnd (y ++ r₂))) :
    replace a format (t ++ r₁) = replace a format (t ++ r₂) ∨
      ∃ t', replace a format (t ++ r₁) = t' ++ replace a format r₁ ∧
        replace a format (t ++ r₂) = t' ++ replace a format r₂ := by
  induction hn : t.length using Nat.strongRecOn generalizing t with
  | _ n ih =>
    cases t with
    | nil => exact .inr ⟨[], rfl, rfl⟩
    | cons c t =>
      have hc := h [] (c :: t) rfl (List.cons_ne_nil c t)
      rw [List.length_cons] at hn
      generalize hm₁ : a.matchEnd (c :: t ++ r₁) = m₁ at hc
      generalize hm₂ : a.matchEnd (c :: t ++ r₂) = m₂ at hc
      cases hc with
      | none =>
        have hrest := ih t.length (by omega)
          (fun x y hxy => h (c :: x) y (congrArg (c :: ·) hxy)) rfl
        have h₁ : replace a format (c :: t ++ r₁) = c :: replace a format (t ++ r₁) :=
          replace_of_none hm₁
        have h₂ : replace a format (c :: t ++ r₂) = c :: replace a format (t ++ r₂) :=
          replace_of_none hm₂
        rw [h₁, h₂]
        rcases hrest with heq | ⟨t', h₁, h₂⟩
        · exact .inl (congrArg (c :: ·) heq)
        · exact .inr ⟨c :: t', congrArg (c :: ·) h₁, congrArg (c :: ·) h₂⟩
      | @inside cs cs' y hformat =>
        have hlt := matchEnd_lt ha hm₁
        obtain ⟨u, hu, -⟩ := matchEnd_matches hm₁
        rw [← List.append_assoc, List.append_cancel_right_eq] at hu
        have hlength := congrArg List.length hu
        rw [List.length_append, List.length_cons] at hlength
        rw [List.length_append, List.length_append, List.length_cons] at hlt
        have hrest := ih y.length (by omega)
          (fun x z hxz => h (u ++ x) z (by rw [hu, hxz, List.append_assoc])) rfl
        rw [replace_of_some hm₁ (matchEnd_lt ha hm₁), replace_of_some hm₂ (matchEnd_lt ha hm₂),
          ← hformat]
        rcases hrest with heq | ⟨t', h₁, h₂⟩
        · exact .inl (congrArg (format cs ++ ·) heq)
        · exact .inr ⟨format cs ++ t', by rw [h₁, List.append_assoc],
            by rw [h₂, List.append_assoc]⟩
      | across hformat =>
        refine .inl ?_
        rw [replace_of_some hm₁ (matchEnd_lt ha hm₁), replace_of_some hm₂ (matchEnd_lt ha hm₂),
          hformat]

end Coupled

end Regex
