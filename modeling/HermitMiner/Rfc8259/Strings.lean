import HermitMiner.Rfc8259.Text

/-!
# The texts of strings

* `Chars.unique`: the text of a string ends at the first quote that no backslash escapes.
* `Chars.eq_iff`: a text denotes itself exactly when nothing is escaped in it.
* `Chars.quote_mem`, `Chars.quote_before`: a quote in the text stands for a quote of the string, which
  comes earlier there.
* `Chars.not_control`: there are no control bytes between the quotes.
-/

namespace Rfc8259

section Strings

variable {e e' d d' s s' text text' r r' : Text}

theorem char_eq {c c' : Char} (h : c.toNat = c'.toNat) : c = c' :=
  Char.ext (UInt32.toNat_inj.1 h)

theorem not_surrogate (c : Char) {k : Nat} (hk : k < 0x800) : c.toNat ≠ 0xD800 + k := by
  intro h
  have hvalid : c.toNat < 0xD800 ∨ (0xDFFF < c.toNat ∧ c.toNat < 0x110000) := c.valid
  omega

/-- The two letters of a short escape and of a numeric one differ. -/
theorem short_ne_unicode {c : UInt8} (h : (0x75, c) ∈ escapes) : False := by
  simp [escapes] at h

theorem escape_inj {c c' : UInt8} {l : UInt8} (h : (l, c) ∈ escapes) (h' : (l, c') ∈ escapes) :
    c = c' := by
  simp only [escapes, List.mem_cons, Prod.mk.injEq, List.not_mem_nil, or_false] at h h'
  rcases h with h | h | h | h | h | h | h | h <;> rcases h' with h' | h' | h' | h' | h' | h' | h' | h'
  all_goals
    obtain ⟨hl, rfl⟩ := h
    obtain ⟨hl', rfl⟩ := h'
    first
      | rfl
      | exact absurd (hl.symm.trans hl') (by decide)

theorem Escape.unique (h : Escape e d) (h' : Escape e' d') (heq : e ++ r = e' ++ r') :
    e = e' ∧ d = d' := by
  cases h with
  | short hc =>
    cases h' with
    | short hc' =>
      obtain ⟨rfl, -⟩ := List.cons.inj heq
      rw [escape_inj hc hc']
      exact ⟨rfl, rfl⟩
    | unicode hc' =>
      obtain ⟨rfl, -⟩ := List.cons.inj heq
      exact (short_ne_unicode hc).elim
    | pair hhigh hlow =>
      obtain ⟨rfl, -⟩ := List.cons.inj heq
      exact (short_ne_unicode hc).elim
  | unicode hc =>
    cases h' with
    | short hc' =>
      obtain ⟨rfl, -⟩ := List.cons.inj heq
      exact (short_ne_unicode hc').elim
    | unicode hc' =>
      simp only [List.cons_append, List.nil_append, List.cons.injEq, true_and] at heq
      obtain ⟨rfl, rfl, rfl, rfl, -⟩ := heq
      rw [hc] at hc'
      rw [char_eq (Option.some.inj hc')]
      exact ⟨rfl, rfl⟩
    | pair hhigh hlow hhigh' hlow' =>
      simp only [List.cons_append, List.nil_append, List.cons.injEq, true_and] at heq
      obtain ⟨rfl, rfl, rfl, rfl, -⟩ := heq
      rw [hc] at hhigh
      exact absurd (Option.some.inj hhigh) (not_surrogate _ (by omega))
  | pair hhigh hlow hhigh' hlow' hc =>
    cases h' with
    | short hc' =>
      obtain ⟨rfl, -⟩ := List.cons.inj heq
      exact (short_ne_unicode hc').elim
    | unicode hc' =>
      simp only [List.cons_append, List.nil_append, List.cons.injEq, true_and] at heq
      obtain ⟨rfl, rfl, rfl, rfl, -⟩ := heq
      rw [hc'] at hhigh
      exact absurd (Option.some.inj hhigh) (not_surrogate _ (by omega))
    | pair hhigh₂ hlow₂ _ _ hc₂ =>
      simp only [List.cons_append, List.nil_append, List.cons.injEq, true_and] at heq
      obtain ⟨rfl, rfl, rfl, rfl, rfl, rfl, rfl, rfl, -⟩ := heq
      rw [hhigh] at hhigh₂
      rw [hlow] at hlow₂
      have hhigh₃ := Option.some.inj hhigh₂
      have hlow₃ := Option.some.inj hlow₂
      rw [char_eq (hc.trans (Eq.trans (by omega) hc₂.symm))]
      exact ⟨rfl, rfl⟩

/-- The text of a string ends at the quote that closes it. -/
theorem Chars.unique (h : Chars text s) (h' : Chars text' s')
    (heq : text ++ 0x22 :: r = text' ++ 0x22 :: r') : text = text' ∧ s = s' := by
  induction h generalizing text' s' with
  | nil =>
    cases h' with
    | nil => exact ⟨rfl, rfl⟩
    | unescaped _ hquote => exact absurd (List.cons.inj heq).1.symm hquote
    | escape => exact absurd (List.cons.inj heq).1 (by decide)
  | unescaped _ hquote hslash _ ih =>
    cases h' with
    | nil => exact absurd (List.cons.inj heq).1 hquote
    | unescaped _ _ _ hrest' =>
      obtain ⟨rfl, htail⟩ := List.cons.inj heq
      obtain ⟨rfl, rfl⟩ := ih hrest' htail
      exact ⟨rfl, rfl⟩
    | escape => exact absurd (List.cons.inj heq).1 hslash
  | escape he _ ih =>
    cases h' with
    | nil => exact absurd (List.cons.inj heq).1 (by decide)
    | unescaped _ _ hslash => exact absurd (List.cons.inj heq).1.symm hslash
    | escape he' hrest' =>
      simp only [List.cons_append, List.append_assoc, List.cons.injEq, true_and] at heq
      obtain ⟨rfl, rfl⟩ := he.unique he' heq
      obtain ⟨rfl, rfl⟩ := ih hrest' (List.append_cancel_left heq)
      exact ⟨rfl, rfl⟩

/-! ## Texts and what they denote -/

theorem Chars.append (h : Chars text s) (h' : Chars text' s') : Chars (text ++ text') (s ++ s') := by
  induction h with
  | nil => exact h'
  | unescaped hcontrol hquote hslash _ ih => exact .unescaped hcontrol hquote hslash ih
  | escape he _ ih =>
    rw [List.cons_append, List.append_assoc, List.append_assoc]
    exact .escape he ih

theorem Escape.length_lt (h : Escape e d) : d.length < e.length + 1 := by
  cases h with
  | short => simp
  | @unicode x y z w c h =>
    have hsize := c.utf8Size_le_four
    simp only [String.length_utf8EncodeChar, List.length_cons, List.length_nil]
    omega
  | @pair _ _ _ _ _ _ _ _ _ _ c =>
    have hsize := c.utf8Size_le_four
    simp only [String.length_utf8EncodeChar, List.length_cons, List.length_nil]
    omega

theorem Chars.length_le (h : Chars text s) : s.length ≤ text.length := by
  induction h with
  | nil => exact le_rfl
  | unescaped _ _ _ _ ih => simpa using ih
  | escape he _ ih =>
    have hlt := he.length_lt
    simp only [List.length_append, List.length_cons]
    omega

/-- A text denotes itself exactly when nothing is escaped in it. -/
theorem Chars.eq_iff (h : Chars text s) : text = s ↔ 0x5C ∉ text := by
  induction h with
  | nil => simp
  | unescaped _ _ hslash _ ih => simp [ih, hslash.symm]
  | escape he hrest _ =>
    have hlt := he.length_lt
    have hle := hrest.length_le
    refine iff_of_false ?_ (by simp)
    intro heq
    have hlength := congrArg List.length heq
    simp only [List.length_append, List.length_cons] at hlength
    omega

theorem le_of_hexDigit {c : UInt8} {n : Nat} (h : hexDigit c = some n) : 0x30 ≤ c := by
  unfold hexDigit at h
  simp only [Bool.and_eq_true, decide_eq_true_eq, UInt8.le_iff_toNat_le] at h ⊢
  split at h
  · rename_i hc
    exact hc.1
  split at h
  · rename_i hc
    exact Nat.le_trans (by decide) hc.1
  split at h
  · rename_i hc
    exact Nat.le_trans (by decide) hc.1
  · cases h

theorem le_of_hex4 {x y z w : UInt8} {n : Nat} (h : hex4 x y z w = some n) :
    0x30 ≤ x ∧ 0x30 ≤ y ∧ 0x30 ≤ z ∧ 0x30 ≤ w := by
  simp only [hex4, Option.bind_eq_bind, Option.bind_eq_some_iff] at h
  obtain ⟨_, hx, _, hy, _, hz, _, hw, -⟩ := h
  exact ⟨le_of_hexDigit hx, le_of_hexDigit hy, le_of_hexDigit hz, le_of_hexDigit hw⟩

/-- No control byte follows a backslash, and a quote stands for a quote. -/
theorem Escape.mem (h : Escape e d) {c : UInt8} (hmem : c ∈ e) :
    0x20 ≤ c ∧ (c = 0x22 → 0x22 ∈ d) := by
  have hhex : ∀ {b : UInt8}, 0x30 ≤ b → 0x20 ≤ b ∧ (b = 0x22 → 0x22 ∈ d) := by
    intro b hb
    refine ⟨UInt8.le_trans (by decide) hb, ?_⟩
    rintro rfl
    exact absurd hb (by decide)
  cases h with
  | short h =>
    obtain rfl := List.mem_singleton.1 hmem
    simp only [escapes, List.mem_cons, Prod.mk.injEq, List.not_mem_nil, or_false] at h
    rcases h with h | h | h | h | h | h | h | h
    all_goals
      obtain ⟨rfl, rfl⟩ := h
      decide
  | unicode h =>
    obtain ⟨hx, hy, hz, hw⟩ := le_of_hex4 h
    simp only [List.mem_cons, List.not_mem_nil, or_false] at hmem
    rcases hmem with rfl | rfl | rfl | rfl | rfl
    · exact hhex (by decide)
    all_goals exact hhex ‹_›
  | pair hhigh hlow =>
    obtain ⟨hx, hy, hz, hw⟩ := le_of_hex4 hhigh
    obtain ⟨hx', hy', hz', hw'⟩ := le_of_hex4 hlow
    simp only [List.mem_cons, List.not_mem_nil, or_false] at hmem
    rcases hmem with rfl | rfl | rfl | rfl | rfl | rfl | rfl | rfl | rfl | rfl | rfl
    · exact hhex (by decide)
    · exact hhex hx
    · exact hhex hy
    · exact hhex hz
    · exact hhex hw
    · exact hhex (by decide)
    · exact hhex (by decide)
    · exact hhex hx'
    · exact hhex hy'
    · exact hhex hz'
    · exact hhex hw'

/-- A quote in the text stands for a quote. -/
theorem Chars.quote_mem (h : Chars text s) (hmem : 0x22 ∈ text) : 0x22 ∈ s := by
  induction h with
  | nil => cases hmem
  | unescaped _ hquote _ _ ih =>
    rcases List.mem_cons.1 hmem with heq | hmem
    · exact absurd heq.symm hquote
    · exact List.mem_cons_of_mem _ (ih hmem)
  | escape he _ ih =>
    rcases List.mem_cons.1 hmem with heq | hmem
    · exact absurd heq (by decide)
    rcases List.mem_append.1 hmem with hmem | hmem
    · exact List.mem_append_left _ ((he.mem hmem).2 rfl)
    · exact List.mem_append_right _ (ih hmem)

/-- Only an escape has a quote. -/
theorem Chars.not_quote (h : Chars text s) (hslash : 0x5C ∉ text) : 0x22 ∉ text := by
  induction h with
  | nil => exact List.not_mem_nil
  | unescaped _ hquote _ _ ih =>
    rw [List.mem_cons, not_or] at hslash ⊢
    exact ⟨hquote.symm, ih hslash.2⟩
  | escape => simp at hslash

theorem Escape.quote (h : Escape e d) (hmem : 0x22 ∈ e) : e = [0x22] ∧ d = [0x22] := by
  cases h with
  | @short l c h =>
    obtain rfl := List.mem_singleton.1 hmem
    have hquote : (0x22, 0x22) ∈ escapes := by decide
    rw [escape_inj h hquote]
    exact ⟨rfl, rfl⟩
  | unicode h =>
    obtain ⟨hx, hy, hz, hw⟩ := le_of_hex4 h
    simp only [List.mem_cons, List.not_mem_nil, or_false] at hmem
    rcases hmem with hmem | rfl | rfl | rfl | rfl
    all_goals contradiction
  | pair hhigh hlow =>
    obtain ⟨hx, hy, hz, hw⟩ := le_of_hex4 hhigh
    obtain ⟨hx', hy', hz', hw'⟩ := le_of_hex4 hlow
    simp only [List.mem_cons, List.not_mem_nil, or_false] at hmem
    rcases hmem with hmem | rfl | rfl | rfl | rfl | hmem | hmem | rfl | rfl | rfl | rfl
    all_goals contradiction

/-- A quote stands further on in the text than in the string. -/
theorem Chars.quote_before (h : Chars text s) {a rest : Text} (htext : text = a ++ 0x22 :: rest)
    (ha : 0x22 ∉ a) : ∃ b rest', s = b ++ 0x22 :: rest' ∧ b.length < a.length := by
  induction h generalizing a with
  | nil => simp at htext
  | unescaped _ hquote _ _ ih =>
    cases a with
    | nil => exact absurd (List.cons.inj htext).1 hquote
    | cons c a =>
      obtain ⟨rfl, htail⟩ := List.cons.inj htext
      rw [List.mem_cons, not_or] at ha
      obtain ⟨b, rest', rfl, hlt⟩ := ih htail ha.2
      exact ⟨_ :: b, rest', rfl, by simpa using hlt⟩
  | @escape e d text s he _ ih =>
    cases a with
    | nil => exact absurd (List.cons.inj htext).1 (by decide)
    | cons c a =>
      obtain ⟨-, htext⟩ := List.cons.inj htext
      rw [List.mem_cons, not_or] at ha
      by_cases hmem : 0x22 ∈ e
      · obtain ⟨rfl, rfl⟩ := he.quote hmem
        exact ⟨[], s, rfl, by simp⟩
      · rcases List.append_eq_append_iff.1 htext with ⟨a', rfl, hrest⟩ | ⟨e', rfl, hrest⟩
        · obtain ⟨b, rest', rfl, hlt⟩ := ih hrest fun h => ha.2 (List.mem_append_right _ h)
          have hle := he.length_lt
          refine ⟨d ++ b, rest', by simp, ?_⟩
          simp only [List.length_append, List.length_cons]
          omega
        · cases e' with
          | nil =>
            rw [List.nil_append] at hrest
            obtain ⟨b, rest', rfl, hlt⟩ := ih hrest.symm List.not_mem_nil
            simp at hlt
          | cons c e' =>
            obtain ⟨rfl, -⟩ := List.cons.inj hrest
            exact absurd (by simp) hmem

/-- There is no control byte between the quotes. -/
theorem Chars.not_control (h : Chars text s) {c : UInt8} (hmem : c ∈ text) : 0x20 ≤ c := by
  induction h with
  | nil => cases hmem
  | unescaped hcontrol _ _ _ ih =>
    rcases List.mem_cons.1 hmem with rfl | hmem
    · exact hcontrol
    · exact ih hmem
  | escape he _ ih =>
    rcases List.mem_cons.1 hmem with rfl | hmem
    · decide
    rcases List.mem_append.1 hmem with hmem | hmem
    · exact (he.mem hmem).1
    · exact ih hmem

end Strings

end Rfc8259
