import HermitMiner.Bytes

/-!
# `std::stoul`

* `strtoul`: `std::stoul(text, &idx, base)`, for any width of `unsigned long`.
* `strtoul_numeral`, `strtoul_whole`: the decimal texts that are read to their end.
-/

namespace HermitMiner

/-! ## The function -/

/-- The value of a decimal digit or of a letter of either case. -/
def alnumValue (c : UInt8) : Option Nat :=
  if isDigit c then some (c.toNat - 48)
  else if ch 'a' ≤ lower c && lower c ≤ ch 'z' then some ((lower c).toNat - 87)
  else none

def isDigitIn (base : Nat) (c : UInt8) : Bool := (alnumValue c).any (· < base)

/-- The number a string of digits denotes. -/
def valueIn (base : Nat) (ds : Bytes) : Nat :=
  ds.foldl (fun v d => base * v + (alnumValue d).getD 0) 0

/-- `0x` in front of a hexadecimal digit. -/
def hexMark : Bytes → Bool
  | zero :: x :: digit :: _ => zero == ch '0' && lower x == ch 'x' && isDigitIn 16 digit
  | _ => false

/-- `std::stoul(text, &idx, base)` where `unsigned long` has `width` bits: the number, and how many
bytes it takes. White space, a sign and in base 16 a mark may stand before the digits, and a minus
negates modulo `2 ^ width`. It throws without a digit and from `2 ^ width` on. -/
def strtoul (base width : Nat) (text : Bytes) : Option (Nat × Nat) :=
  let spaces := text.takeWhile isSpace
  let rest := text.dropWhile isSpace
  let negative := rest.head? == some (ch '-')
  let sign := if negative || rest.head? == some (ch '+') then 1 else 0
  let mark := if base = 16 ∧ hexMark (rest.drop sign) then 2 else 0
  let digits := (rest.drop (sign + mark)).takeWhile (isDigitIn base)
  let idx := spaces.length + sign + mark + digits.length
  if digits = [] ∨ 2 ^ width ≤ valueIn base digits then none
  else if negative then some ((2 ^ width - valueIn base digits) % 2 ^ width, idx)
  else some (valueIn base digits, idx)

/-! ## Decimal texts -/

theorem lower_letter {c : UInt8}
    (hc : ch 'a' ≤ lower c && lower c ≤ ch 'z') : 97 ≤ (lower c).toNat := by
  rw [Bool.and_eq_true, decide_eq_true_eq, UInt8.le_iff_toNat_le] at hc
  exact hc.1

theorem isDigitIn_ten : isDigitIn 10 = isDigit := by
  funext c
  unfold isDigitIn alnumValue
  split
  · rename_i hc
    have hbounds := (isDigit_iff c).1 hc
    rw [hc]
    simp
    omega
  · split
    · rename_i hc hletter
      have hlow := lower_letter hletter
      simp [hc]
      omega
    · rename_i hc _
      simp [hc]

theorem valueIn_ten {ds : Bytes} (hds : ∀ d ∈ ds, isDigit d = true) :
    valueIn 10 ds = digitsValue ds := by
  have hfold : ∀ v, ds.foldl (fun v d => 10 * v + (alnumValue d).getD 0) v =
      ds.foldl (fun v d => 10 * v + (d.toNat - 48)) v := by
    induction ds with
    | nil => exact fun _ => rfl
    | cons d ds ih =>
      intro v
      have hvalue : alnumValue d = some (d.toNat - 48) := if_pos (hds d List.mem_cons_self)
      rw [List.foldl_cons, List.foldl_cons, hvalue]
      exact ih (fun d hd => hds d (List.mem_cons_of_mem _ hd)) _
  exact hfold 0

/-- White space, an optional sign, and decimal digits. -/
structure Numeral (spaces sign digits : Bytes) : Prop where
  spaces : ∀ c ∈ spaces, isSpace c = true
  sign : sign = [] ∨ sign = [ch '+'] ∨ sign = [ch '-']
  nonempty : digits ≠ []
  digits : ∀ d ∈ digits, isDigit d = true

/-- What a numeral denotes in `width` bits. -/
def signedValue (width : Nat) (sign digits : Bytes) : Nat :=
  if sign = [ch '-'] then (2 ^ width - digitsValue digits) % 2 ^ width else digitsValue digits

theorem Numeral.split {spaces sign digits : Bytes} (h : Numeral spaces sign digits) :
    (spaces ++ (sign ++ digits)).takeWhile isSpace = spaces ∧
      (spaces ++ (sign ++ digits)).dropWhile isSpace = sign ++ digits := by
  have hhead : ∀ c ∈ (sign ++ digits).head?, isSpace c = false := by
    obtain ⟨d, ds, hds⟩ := List.exists_cons_of_ne_nil h.nonempty
    have hd := h.digits d (by rw [hds]; exact List.mem_cons_self)
    rw [hds]
    rcases h.sign with hsign | hsign | hsign <;> rw [hsign] <;> simp
    · exact not_isSpace_of_isDigit hd
    all_goals decide
  obtain ⟨c, cs, hcs⟩ := List.exists_cons_of_ne_nil (List.append_ne_nil_of_right_ne_nil sign h.nonempty)
  rw [hcs] at hhead ⊢
  have hc := hhead c rfl
  constructor
  · rw [List.takeWhile_append_of_pos h.spaces, List.takeWhile_cons_of_neg (by simp [hc]),
      List.append_nil]
  · rw [List.dropWhile_append_of_pos h.spaces, List.dropWhile_cons_of_neg (by simp [hc])]

/-- A numeral is read to its end. -/
theorem strtoul_numeral {spaces sign digits : Bytes} (h : Numeral spaces sign digits)
    (width : Nat) :
    strtoul 10 width (spaces ++ (sign ++ digits)) =
      if 2 ^ width ≤ digitsValue digits then none
      else some (signedValue width sign digits, (spaces ++ (sign ++ digits)).length) := by
  obtain ⟨htake, hdrop⟩ := h.split
  have hdigits : digits.takeWhile isDigit = digits := List.takeWhile_eq_self_iff.2 h.digits
  obtain ⟨d, ds, hds⟩ := List.exists_cons_of_ne_nil h.nonempty
  have hd := h.digits d (by rw [hds]; exact List.mem_cons_self)
  have hsign : ∀ c : UInt8, c.toNat < 48 → d ≠ c := by
    rintro c hc rfl
    rw [isDigit_iff] at hd
    omega
  have hminus : d ≠ ch '-' := hsign _ (by decide)
  have hplus : d ≠ ch '+' := hsign _ (by decide)
  have hne := h.nonempty
  have hvalue := valueIn_ten h.digits
  have hmarks : ch '+' ≠ ch '-' := by decide
  unfold strtoul signedValue
  rw [htake, hdrop, isDigitIn_ten]
  rcases h.sign with rfl | rfl | rfl
  · have hhead : digits.head? = some d := by rw [hds]; rfl
    simp [hhead, hminus, hplus, hdigits, hvalue, hne]
  · simp [hmarks, hdigits, hvalue, hne, Nat.add_assoc, Nat.add_comm 1]
  · simp [hdigits, hvalue, hne, Nat.add_assoc, Nat.add_comm 1]

/-- The sign that is taken off the front. -/
theorem exists_sign (rest : Bytes) : ∃ sign digits : Bytes, rest = sign ++ digits ∧
    (sign = [] ∨ sign = [ch '+'] ∨ sign = [ch '-']) ∧
    (if rest.head? == some (ch '-') || rest.head? == some (ch '+') then 1 else 0) =
      sign.length := by
  cases rest with
  | nil => exact ⟨[], [], rfl, .inl rfl, rfl⟩
  | cons c rest =>
    by_cases hminus : c = ch '-'
    · exact ⟨[c], rest, rfl, .inr (.inr (by rw [hminus])), by simp [hminus]⟩
    · by_cases hplus : c = ch '+'
      · exact ⟨[c], rest, rfl, .inr (.inl (by rw [hplus])), by simp [hplus]⟩
      · exact ⟨[], c :: rest, rfl, .inl rfl, by simp [hminus, hplus]⟩

/-- A decimal text that is read to its end is a numeral. -/
theorem strtoul_whole {width value : Nat} {text : Bytes}
    (h : strtoul 10 width text = some (value, text.length)) :
    ∃ spaces sign digits, Numeral spaces sign digits ∧ text = spaces ++ (sign ++ digits) := by
  have hsplit : text.takeWhile isSpace ++ text.dropWhile isSpace = text :=
    List.takeWhile_append_dropWhile
  obtain ⟨sign, digits, hrest, hsign, hcount⟩ := exists_sign (text.dropWhile isSpace)
  have hlength := congrArg List.length hsplit
  rw [List.length_append, hrest, List.length_append] at hlength
  have hmark : ¬(10 = 16 ∧ hexMark (digits) = true) := fun h => absurd h.1 (by decide)
  unfold strtoul at h
  dsimp only at h
  rw [isDigitIn_ten, hcount, hrest, List.drop_left, if_neg hmark, Nat.add_zero, List.drop_left]
    at h
  split at h
  · cases h
  · rename_i hread
    have hidx : (text.takeWhile isSpace).length + sign.length + (digits.takeWhile isDigit).length =
        text.length := by
      split at h <;> exact (Prod.mk.inj (Option.some.inj h)).2
    have hall : digits.takeWhile isDigit = digits :=
      (List.takeWhile_prefix isDigit).eq_of_length (by omega)
    rw [hall] at hread
    refine ⟨text.takeWhile isSpace, sign, digits, ⟨fun c => List.mem_takeWhile_imp, hsign, ?_,
      List.takeWhile_eq_self_iff.1 hall⟩, by rw [← hrest, hsplit]⟩
    exact fun hnil => hread (.inl hnil)

end HermitMiner
