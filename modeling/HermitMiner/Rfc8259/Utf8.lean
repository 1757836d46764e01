import HermitMiner.Rfc8259.Text

/-!
# UTF-8 texts

Texts are exchanged in UTF-8 (RFC 8259, section 8.1).

* `IsUtf8`: the encodings of strings of characters.
* `encode_cases`: a character is one byte below `0x80`, or bytes from `0x80` on.
* `IsUtf8.split`: a text can be cut at a byte below `0x80`.
-/

namespace Rfc8259

/-- The text encodes a string of characters. -/
def IsUtf8 (s : Text) : Prop := ∃ cs : List Char, s = cs.flatMap String.utf8EncodeChar

theorem isUtf8_nil : IsUtf8 [] := ⟨[], rfl⟩

theorem isUtf8_encode (c : Char) : IsUtf8 (String.utf8EncodeChar c) :=
  ⟨[c], (List.append_nil _).symm⟩

theorem IsUtf8.append {s t : Text} (hs : IsUtf8 s) (ht : IsUtf8 t) : IsUtf8 (s ++ t) := by
  obtain ⟨cs, rfl⟩ := hs
  obtain ⟨ds, rfl⟩ := ht
  exact ⟨cs ++ ds, List.flatMap_append.symm⟩

/-- A text is empty, or a character and a text. -/
theorem IsUtf8.cases {s : Text} (h : IsUtf8 s) :
    s = [] ∨ ∃ c t, s = String.utf8EncodeChar c ++ t ∧ IsUtf8 t := by
  obtain ⟨cs, rfl⟩ := h
  cases cs with
  | nil => exact .inl rfl
  | cons c cs => exact .inr ⟨c, _, List.flatMap_cons, cs, rfl⟩

theorem encode_ascii {c : Char} (h : c.toNat < 0x80) :
    String.utf8EncodeChar c = [c.toNat.toUInt8] := by
  have hval : c.val.toNat ≤ 127 := Nat.le_of_lt_succ h
  rw [String.utf8EncodeChar, if_pos hval]
  rfl

/-- A character from `0x80` on has no byte below. -/
theorem encode_high {c : Char} (h : 0x80 ≤ c.toNat) {b : UInt8}
    (hb : b ∈ String.utf8EncodeChar c) : 0x80 ≤ b := by
  have hval : 127 < c.val.toNat := h
  rw [String.utf8EncodeChar, if_neg (by omega)] at hb
  rw [UInt8.le_iff_toNat_le]
  split at hb
  · simp only [List.mem_cons, List.not_mem_nil, or_false] at hb
    rcases hb with rfl | rfl <;> simp <;> omega
  split at hb
  · simp only [List.mem_cons, List.not_mem_nil, or_false] at hb
    rcases hb with rfl | rfl | rfl <;> simp <;> omega
  · simp only [List.mem_cons, List.not_mem_nil, or_false] at hb
    rcases hb with rfl | rfl | rfl | rfl <;> simp <;> omega

theorem encode_cases (c : Char) :
    (∃ b : UInt8, b < 0x80 ∧ String.utf8EncodeChar c = [b]) ∨
      (String.utf8EncodeChar c ≠ [] ∧ ∀ b ∈ String.utf8EncodeChar c, 0x80 ≤ b) := by
  by_cases h : c.toNat < 0x80
  · left
    refine ⟨c.toNat.toUInt8, ?_, encode_ascii h⟩
    rw [UInt8.lt_iff_toNat_lt]
    simp
    omega
  · right
    refine ⟨?_, fun b hb => encode_high (Nat.le_of_not_lt h) hb⟩
    intro hnil
    have hlen := String.length_utf8EncodeChar c
    rw [hnil] at hlen
    exact absurd hlen.symm (Nat.pos_iff_ne_zero.1 c.utf8Size_pos)

/-- A byte below `0x80` is a character. -/
theorem isUtf8_singleton {b : UInt8} (h : b < 0x80) : IsUtf8 [b] := by
  have hlt : b.toNat < 0x80 := UInt8.lt_iff_toNat_lt.1 h
  have hchar : (Char.ofUInt8 b).toNat = b.toNat := rfl
  have hencode : String.utf8EncodeChar (Char.ofUInt8 b) = [b] := by
    rw [encode_ascii (by rw [hchar]; exact hlt), hchar]
    simp
  rw [← hencode]
  exact isUtf8_encode _

theorem isUtf8_ascii {s : Text} (h : ∀ b ∈ s, b < 0x80) : IsUtf8 s := by
  induction s with
  | nil => exact isUtf8_nil
  | cons b s ih =>
    have hs : IsUtf8 s := ih fun d hd => h d (List.mem_cons_of_mem b hd)
    exact (isUtf8_singleton (h b List.mem_cons_self)).append hs

/-- **Cuts**: before and after a byte below `0x80` there are texts. -/
theorem IsUtf8.split {x y : Text} {b : UInt8} (h : IsUtf8 (x ++ b :: y)) (hb : b < 0x80) :
    IsUtf8 x ∧ IsUtf8 y := by
  obtain ⟨cs, hcs⟩ := h
  induction cs generalizing x with
  | nil => simp at hcs
  | cons c cs ih =>
    rw [List.flatMap_cons] at hcs
    rcases List.append_eq_append_iff.1 hcs with ⟨u, hu, hrest⟩ | ⟨u, rfl, hrest⟩
    · cases u with
      | nil =>
        rw [List.append_nil] at hu
        rw [List.nil_append] at hrest
        obtain ⟨-, hy⟩ := ih (x := []) hrest
        exact ⟨hu ▸ isUtf8_encode c, hy⟩
      | cons d u =>
        -- the byte is in the first character, which is the byte
        obtain ⟨rfl, rfl⟩ := List.cons.inj hrest
        rcases encode_cases c with ⟨b', -, hc⟩ | ⟨-, hhigh⟩
        · rw [hc] at hu
          have hx : x = [] := by
            cases x with
            | nil => rfl
            | cons a x => simp at hu
          subst hx
          obtain ⟨-, rfl⟩ := List.cons.inj hu
          exact ⟨isUtf8_nil, cs, by simp⟩
        · have hmem := hhigh b (by rw [hu]; simp)
          exact absurd hb (UInt8.not_lt.2 hmem)
    · obtain ⟨hx, hy⟩ := ih hrest.symm
      exact ⟨(isUtf8_encode c).append hx, hy⟩

end Rfc8259
