import HermitMiner.Cli

/-!
# Numbers on the command line

* `parseUint32In_eq_some`: the texts that are accepted, for every width of `unsigned long`.
* `parseUint32In_exact`: digits alone are read exactly, and what else is accepted.
-/

namespace HermitMiner

/-! ## Accepted texts -/

/-- The texts that should be accepted: digits that denote the number. -/
def DecimalText (text : Bytes) (v : UInt32) : Prop :=
  text ≠ [] ∧ (∀ d ∈ text, isDigit d = true) ∧ digitsValue text = v.toNat

/-- Digits with white space or a sign in front that `std::stoul` takes to a 32-bit number. -/
def FrontedNumeral (width : Nat) (text : Bytes) : Prop :=
  ∃ spaces sign digits, Numeral spaces sign digits ∧ spaces ++ sign ≠ [] ∧
    text = spaces ++ (sign ++ digits) ∧ digitsValue digits < 2 ^ width ∧
    signedValue width sign digits ≤ uint32Max

theorem parseUint32In_numeral {width : Nat} {spaces sign digits : Bytes}
    (h : Numeral spaces sign digits) (v : UInt32) :
    parseUint32In width (spaces ++ (sign ++ digits)) = some v ↔
      digitsValue digits < 2 ^ width ∧ signedValue width sign digits = v.toNat := by
  have hv : v.toNat ≤ uint32Max := Nat.le_pred_of_lt v.toNat_lt
  unfold parseUint32In
  rw [strtoul_numeral h]
  by_cases hwidth : 2 ^ width ≤ digitsValue digits
  · rw [if_pos hwidth]
    exact ⟨nofun, fun hvalue => absurd hvalue.1 (by omega)⟩
  · rw [if_neg hwidth]
    dsimp only
    by_cases hrange : uint32Max < signedValue width sign digits
    · rw [if_pos (.inr hrange)]
      exact ⟨nofun, fun hvalue => absurd hvalue.2 (by omega)⟩
    · have hlt : signedValue width sign digits < 2 ^ 32 := by
        unfold uint32Max at hrange
        omega
      rw [if_neg (by simpa using hrange), Option.some_inj, ← UInt32.toNat_inj]
      have hnat : (signedValue width sign digits).toUInt32.toNat = signedValue width sign digits :=
        UInt32.toNat_ofNat_of_lt' hlt
      rw [hnat]
      exact ⟨fun hvalue => ⟨by omega, hvalue⟩, fun hvalue => hvalue.2⟩

/-- The accepted texts. -/
theorem parseUint32In_eq_some {width : Nat} {text : Bytes} {v : UInt32} :
    parseUint32In width text = some v ↔ ∃ spaces sign digits, Numeral spaces sign digits ∧
      text = spaces ++ (sign ++ digits) ∧ digitsValue digits < 2 ^ width ∧
      signedValue width sign digits = v.toNat := by
  constructor
  · intro h
    obtain ⟨value, hread⟩ : ∃ value, strtoul 10 width text = some (value, text.length) := by
      unfold parseUint32In at h
      split at h
      · rename_i value idx hread
        split at h
        · cases h
        · rename_i hok
          have hidx : idx = text.length := by
            by_contra hne
            exact hok (.inl hne)
          exact ⟨value, by rw [hread, hidx]⟩
      · cases h
    obtain ⟨spaces, sign, digits, hnumeral, rfl⟩ := strtoul_whole hread
    exact ⟨spaces, sign, digits, hnumeral, rfl, (parseUint32In_numeral hnumeral v).1 h⟩
  · rintro ⟨spaces, sign, digits, hnumeral, rfl, hvalue⟩
    exact (parseUint32In_numeral hnumeral v).2 hvalue

/-! ## Digits alone -/

theorem DecimalText.numeral {text : Bytes} {v : UInt32} (h : DecimalText text v) :
    Numeral [] [] text where
  spaces := nofun
  sign := .inl rfl
  nonempty := h.1
  digits := h.2.1

/-- Digits alone are accepted with their value. -/
theorem DecimalText.accepted {width : Nat} {text : Bytes} {v : UInt32} (hwidth : 32 ≤ width)
    (h : DecimalText text v) : parseUint32In width text = some v := by
  have hpow : 2 ^ 32 ≤ 2 ^ width := Nat.pow_le_pow_right (by decide) hwidth
  have hv := v.toNat_lt
  have hvalue := h.2.2
  exact parseUint32In_eq_some.2 ⟨[], [], text, h.numeral, rfl, by omega, hvalue⟩

/-- A text with white space or a sign in front is no string of digits. -/
theorem not_decimalText {width : Nat} {text : Bytes} {v : UInt32} (h : FrontedNumeral width text) :
    ¬DecimalText text v := by
  obtain ⟨spaces, sign, digits, hnumeral, hfront, rfl, -⟩ := h
  rintro ⟨-, hdigits, -⟩
  cases spaces with
  | cons c spaces =>
    have hspace := hnumeral.spaces c List.mem_cons_self
    have hdigit := hdigits c List.mem_cons_self
    rw [not_isSpace_of_isDigit hdigit] at hspace
    cases hspace
  | nil =>
    rcases hnumeral.sign with rfl | rfl | rfl
    · exact hfront rfl
    all_goals exact absurd (hdigits _ List.mem_cons_self) (by decide)

/-- **Command-line integers**: where `unsigned long` has at least 32 bits, the digits of a number
below `2 ^ 32` are all that is accepted for a text exactly when it is not a number of that size with
white space or a sign in front. -/
theorem parseUint32In_exact (width : Nat) (hwidth : 32 ≤ width) (text : Bytes) :
    (∀ v, parseUint32In width text = some v ↔ DecimalText text v) ↔ ¬FrontedNumeral width text := by
  constructor
  · rintro hexact hfronted
    obtain ⟨spaces, sign, digits, hnumeral, hfront, htext, hvalue, hrange⟩ := hfronted
    have hlt : signedValue width sign digits < 2 ^ 32 := Nat.lt_of_le_of_lt hrange (by decide)
    have hnat : (signedValue width sign digits).toUInt32.toNat = signedValue width sign digits :=
      UInt32.toNat_ofNat_of_lt' hlt
    have haccepted := parseUint32In_eq_some.2
      ⟨spaces, sign, digits, hnumeral, htext, hvalue, hnat.symm⟩
    exact not_decimalText ⟨spaces, sign, digits, hnumeral, hfront, htext, hvalue, hrange⟩
      ((hexact _).1 haccepted)
  · intro hplain v
    refine ⟨fun haccepted => ?_, DecimalText.accepted hwidth⟩
    obtain ⟨spaces, sign, digits, hnumeral, rfl, hvalue, hsigned⟩ :=
      parseUint32In_eq_some.1 haccepted
    have hv : v.toNat ≤ uint32Max := Nat.le_pred_of_lt v.toNat_lt
    have hfront : spaces ++ sign = [] := by
      by_contra hne
      exact hplain ⟨spaces, sign, digits, hnumeral, hne, rfl, hvalue, by omega⟩
    obtain ⟨rfl, rfl⟩ := List.append_eq_nil_iff.1 hfront
    exact ⟨hnumeral.nonempty, hnumeral.digits, hsigned⟩

theorem parseUint32In_exact_sixteen :
    (∀ v, parseUint32In 64 (str "16") = some v ↔ DecimalText (str "16") v) ↔
      ¬FrontedNumeral 64 (str "16") :=
  parseUint32In_exact 64 (by decide) (str "16")

/-- White space and signs are accepted, and negative numbers become thread counts. -/
theorem parseUint32In_inexact :
    parseUint32 (str " 5") = some 5 ∧ parseUint32 (str "+5") = some 5 ∧
      parseUint32 (str "-18446744073709551615") = some 1 ∧
      parseUint32In 32 (str "-1") = some 4294967295 ∧
      ¬∀ width, width = 64 ∨ width = 32 → ∀ text v,
        parseUint32In width text = some v ↔ DecimalText text v := by
  have hminus : parseUint32In 32 (str "-1") = some 4294967295 := by decide +kernel
  refine ⟨by decide +kernel, by decide +kernel, by decide +kernel, hminus, fun hexact => ?_⟩
  have hdigits := ((hexact 32 (.inr rfl) (str "-1") 4294967295).1 hminus).2.1
  exact absurd (hdigits (ch '-') List.mem_cons_self) (by decide)

end HermitMiner
