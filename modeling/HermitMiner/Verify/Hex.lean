import HermitMiner.Job

/-!
# Hexadecimal text

* `byteOfStr_pair`, `byteOfStr_eq_none`: what the decoder does with the slices of the text.
* `hexToBytes_hashToHex`: the text of a hash is decoded to the hash.
* `hexToBytes_strict`: when the decoder takes nothing but well-formed text.
-/

namespace HermitMiner

/-! ## Digits -/

def isHexDigit (c : UInt8) : Bool := isDigitIn 16 c

/-- A hexadecimal digit has a value below 16, and in lower case it is the digit of the value. -/
theorem alnumValue_of_isHexDigit {c : UInt8} (h : isHexDigit c = true) :
    ∃ r < 16, alnumValue c = some r ∧ lower c = ch (Nat.digitChar r) := by
  obtain ⟨n, hn, rfl⟩ := exists_toUInt8 c
  revert n
  decide +kernel

theorem not_isHexDigit_of_isSpace {c : UInt8} (h : isSpace c = true) : isHexDigit c = false := by
  obtain ⟨n, hn, rfl⟩ := exists_toUInt8 c
  revert n
  decide +kernel

/-- A digit is neither white space nor a sign. -/
theorem isHexDigit_front {c : UInt8} (h : isHexDigit c = true) :
    isSpace c = false ∧ c ≠ ch '-' ∧ c ≠ ch '+' := by
  refine ⟨?_, ?_, ?_⟩
  · by_contra hspace
    rw [not_isHexDigit_of_isSpace (Bool.not_eq_false _ ▸ hspace)] at h
    cases h
  all_goals
    rintro rfl
    revert h
    decide

/-- The two digits of a byte. -/
def hexByte (b : UInt8) : Bytes := ((Nat.toDigits 16 b.toNat).map ch).leftpad 2 (ch '0')

theorem hexByte_eq (b : UInt8) :
    hexByte b = [ch (Nat.digitChar (b.toNat / 16)), ch (Nat.digitChar (b.toNat % 16))] := by
  obtain ⟨n, hn, rfl⟩ := exists_toUInt8 b
  revert n
  decide +kernel

theorem alnumValue_digitChar : ∀ r < 16, alnumValue (ch (Nat.digitChar r)) = some r := by decide

/-! ## Slices -/

/-- Two hexadecimal digits. -/
def isPair : Bytes → Bool
  | [c, d] => isHexDigit c && isHexDigit d
  | _ => false

/-- A slice that is no pair of digits, but in which `std::stoul` finds one digit. -/
def isLoose : Bytes → Bool
  | [c] => isHexDigit c
  | [c, d] =>
    isHexDigit c && !isHexDigit d || (isSpace c || c == ch '+' || c == ch '-') && isHexDigit d
  | _ => false

/-- In two bytes there is no room for a mark. -/
theorem hexMark_drop {text : Bytes} (h : text.length ≤ 2) (n : Nat) :
    hexMark (text.drop n) = false := by
  have hshort : ∀ rest : Bytes, rest.length ≤ 2 → hexMark rest = false := by
    rintro (_ | ⟨c, _ | ⟨d, _ | ⟨e, rest⟩⟩⟩) hlength
    · rfl
    · rfl
    · rfl
    · simp at hlength
  exact hshort _ (by rw [List.length_drop]; omega)

/-- The digits that `std::stoul` finds in a text without a mark. -/
def foundDigits (text : Bytes) : Bytes :=
  let rest := text.dropWhile isSpace
  let sign := if rest.head? == some (ch '-') || rest.head? == some (ch '+') then 1 else 0
  (rest.drop sign).takeWhile isHexDigit

theorem valueIn_lt {ds : Bytes} (hds : ∀ d ∈ ds, isHexDigit d = true) :
    valueIn 16 ds < 16 ^ ds.length := by
  induction ds using List.reverseRecOn with
  | nil => decide
  | append_singleton ds d ih =>
    obtain ⟨r, hr, hvalue, -⟩ := alnumValue_of_isHexDigit
      (hds d (List.mem_append_right _ (List.mem_singleton_self d)))
    have hfront := ih fun e he => hds e (List.mem_append_left _ he)
    unfold valueIn at hfront ⊢
    rw [List.foldl_append, List.foldl_cons, List.foldl_nil, hvalue, List.length_append,
      List.length_singleton, Nat.pow_succ, Option.getD_some]
    omega

/-- A slice gives a byte when a digit is found in it. -/
theorem byteOfStr_eq_none {slice : Bytes} (h : slice.length ≤ 2) :
    byteOfStr slice = none ↔ foundDigits slice = [] := by
  have hrest : (slice.dropWhile isSpace).length ≤ 2 :=
    ((List.dropWhile_sublist isSpace).length_le).trans h
  have hmark : ∀ n, ¬(16 = 16 ∧ hexMark ((slice.dropWhile isSpace).drop n) = true) := by
    intro n hmarked
    rw [hexMark_drop hrest n] at hmarked
    cases hmarked.2
  have hfound : foundDigits slice = ((slice.dropWhile isSpace).drop
      (if (slice.dropWhile isSpace).head? == some (ch '-') ||
        (slice.dropWhile isSpace).head? == some (ch '+') then 1 else 0)).takeWhile isHexDigit := rfl
  have hdigits : isDigitIn 16 = isHexDigit := rfl
  have hlength : (foundDigits slice).length ≤ 2 := by
    rw [hfound]
    exact ((List.takeWhile_sublist _).trans (List.drop_sublist _ _)).length_le.trans hrest
  have hvalue : valueIn 16 (foundDigits slice) < 2 ^ 64 := by
    have hlt := @valueIn_lt (foundDigits slice) fun d => List.mem_takeWhile_imp
    have hpow := Nat.pow_le_pow_right (n := 16) (by decide) hlength
    omega
  unfold byteOfStr strtoul
  dsimp only
  rw [if_neg (hmark _), Nat.add_zero, hdigits, ← hfound, Option.map_eq_none_iff]
  by_cases hnil : foundDigits slice = []
  · rw [if_pos (.inl hnil)]
    exact ⟨fun _ => hnil, fun _ => rfl⟩
  · rw [if_neg fun hor => hor.elim hnil (by omega)]
    split <;> simp [hnil]

theorem byteOfStr_pair {c d : UInt8} {r s : Nat} (hc : alnumValue c = some r)
    (hd : alnumValue d = some s) (hr : r < 16) (hs : s < 16) :
    byteOfStr [c, d] = some (16 * r + s).toUInt8 := by
  have hcdigit : isHexDigit c = true := by simp [isHexDigit, isDigitIn, hc, hr]
  have hddigit : isHexDigit d = true := by simp [isHexDigit, isDigitIn, hd, hs]
  obtain ⟨hspace, hminus, hplus⟩ := isHexDigit_front hcdigit
  have hdigits : isDigitIn 16 = isHexDigit := rfl
  have hvalue : valueIn 16 [c, d] = 16 * r + s := by simp [valueIn, hc, hd]
  unfold byteOfStr strtoul
  simp [hspace, hminus, hplus, hexMark, hdigits, hcdigit, hddigit, hvalue]
  omega

theorem mem_byteStrs {hex slice : Bytes} (h : slice ∈ byteStrs hex) :
    (∃ c, slice = [c]) ∨ ∃ c d, slice = [c, d] := by
  induction hex using byteStrs.induct with
  | case1 => cases h
  | case2 c => exact .inl ⟨c, List.mem_singleton.1 h⟩
  | case3 c d hex ih =>
    rcases List.mem_cons.1 h with rfl | h
    · exact .inr ⟨c, d, rfl⟩
    · exact ih h

theorem foundDigits_singleton (c : UInt8) :
    foundDigits [c] = if isHexDigit c then [c] else [] := by
  by_cases hc : isHexDigit c = true
  · obtain ⟨hspace, hminus, hplus⟩ := isHexDigit_front hc
    simp [foundDigits, hc, hspace, hminus, hplus]
  · by_cases hspace : isSpace c = true
    · simp [foundDigits, hc, hspace]
    · by_cases hsign : c = ch '-' ∨ c = ch '+' <;> simp [foundDigits, hc, hspace, hsign]

theorem foundDigits_pair (c d : UInt8) :
    foundDigits [c, d] =
      if isHexDigit c then c :: (if isHexDigit d then [d] else [])
      else if isSpace c || c == ch '+' || c == ch '-' then (if isHexDigit d then [d] else [])
      else [] := by
  by_cases hc : isHexDigit c = true
  · obtain ⟨hspace, hminus, hplus⟩ := isHexDigit_front hc
    simp [foundDigits, hc, hspace, hminus, hplus, List.takeWhile_cons]
  · by_cases hspace : isSpace c = true
    · have hdrop : foundDigits [c, d] = foundDigits [d] := by
        unfold foundDigits
        rw [List.dropWhile_cons_of_pos hspace]
      rw [hdrop, foundDigits_singleton]
      simp [hc, hspace]
    · by_cases hsign : c = ch '+' ∨ c = ch '-'
      · simp [foundDigits, hc, hspace, hsign, hsign.symm, List.takeWhile_cons]
      · have hminus : ¬(c = ch '-' ∨ c = ch '+') := fun h => hsign h.symm
        simp [foundDigits, hc, hspace, hsign, hminus]

/-- The slices in which no digit is found are neither pairs nor loose. -/
theorem foundDigits_eq_nil {hex slice : Bytes} (h : slice ∈ byteStrs hex) :
    foundDigits slice = [] ↔ isPair slice = false ∧ isLoose slice = false := by
  rcases mem_byteStrs h with ⟨c, rfl⟩ | ⟨c, d, rfl⟩
  · rw [foundDigits_singleton]
    by_cases hc : isHexDigit c = true <;> simp [isPair, isLoose, hc]
  · rw [foundDigits_pair]
    by_cases hc : isHexDigit c = true
    · by_cases hd : isHexDigit d = true <;> simp [isPair, isLoose, hc, hd]
    · by_cases hd : isHexDigit d = true <;> simp [isPair, isLoose, hc, hd]

theorem length_slice {hex slice : Bytes} (h : slice ∈ byteStrs hex) : slice.length ≤ 2 := by
  rcases mem_byteStrs h with ⟨c, rfl⟩ | ⟨c, d, rfl⟩
  · exact Nat.le_succ 1
  · exact Nat.le_refl 2

/-! ## The whole text -/

theorem hexToBytes_cons (c d : UInt8) (hex : Bytes) :
    hexToBytes (c :: d :: hex) =
      (byteOfStr [c, d]).bind fun b => (hexToBytes hex).map (b :: ·) := by
  unfold hexToBytes
  rw [byteStrs, List.mapM_cons]
  cases byteOfStr [c, d] with
  | none => rfl
  | some b => cases (byteStrs hex).mapM byteOfStr <;> rfl

/-- The decoder throws when it finds no digit in some slice. -/
theorem hexToBytes_eq_none {hex : Bytes} :
    hexToBytes hex = none ↔
      ∃ slice ∈ byteStrs hex, isPair slice = false ∧ isLoose slice = false := by
  have hslice : ∀ slice ∈ byteStrs hex,
      byteOfStr slice = none ↔ isPair slice = false ∧ isLoose slice = false :=
    fun slice h => (byteOfStr_eq_none (length_slice h)).trans (foundDigits_eq_nil h)
  have hmap : ∀ slices : List Bytes, slices.mapM byteOfStr = none ↔
      ∃ slice ∈ slices, byteOfStr slice = none := by
    intro slices
    induction slices with
    | nil => simp
    | cons slice slices ih =>
      rw [List.mapM_cons, List.exists_mem_cons_iff, ← ih]
      cases byteOfStr slice with
      | none => simp
      | some b => cases slices.mapM byteOfStr <;> simp
  rw [hexToBytes, hmap]
  exact exists_congr fun slice => and_congr_right (hslice slice)

/-- Pairs of digits are decoded to the bytes whose text they are, up to case. -/
theorem hexToBytes_pairs {hex bytes : Bytes} (h : ∀ slice ∈ byteStrs hex, isPair slice = true)
    (hbytes : hexToBytes hex = some bytes) :
    hex.length % 2 = 0 ∧ (∀ c ∈ hex, isHexDigit c = true) ∧
      bytes.flatMap hexByte = hex.map lower := by
  induction hex using byteStrs.induct generalizing bytes with
  | case1 =>
    cases hbytes
    exact ⟨rfl, nofun, rfl⟩
  | case2 c => cases h [c] (List.mem_singleton_self _)
  | case3 c d hex ih =>
    have hpair := h [c, d] List.mem_cons_self
    rw [isPair, Bool.and_eq_true] at hpair
    obtain ⟨r, hr, hc, hlowerC⟩ := alnumValue_of_isHexDigit hpair.1
    obtain ⟨s, hs, hd, hlowerD⟩ := alnumValue_of_isHexDigit hpair.2
    rw [hexToBytes_cons, byteOfStr_pair hc hd hr hs, Option.bind_some, Option.map_eq_some_iff]
      at hbytes
    obtain ⟨rest, hrest, rfl⟩ := hbytes
    obtain ⟨hlength, hdigits, htext⟩ :=
      ih (fun slice hslice => h slice (List.mem_cons_of_mem _ hslice)) hrest
    have hnat : (16 * r + s).toUInt8.toNat = 16 * r + s :=
      UInt8.toNat_ofNat_of_lt' (by show 16 * r + s < 256; omega)
    refine ⟨by simp; omega, ?_, ?_⟩
    · rintro e (_ | ⟨_, _ | ⟨_, he⟩⟩)
      · exact hpair.1
      · exact hpair.2
      · exact hdigits e he
    · have hhigh : (16 * r + s) / 16 = r := by omega
      have hlow : (16 * r + s) % 16 = s := by omega
      rw [List.flatMap_cons, hexByte_eq, hnat, hhigh, hlow, htext, List.map_cons, List.map_cons,
        hlowerC, hlowerD]
      rfl

/-- A text of pairs of digits. -/
theorem isPair_of_digits {hex : Bytes} (hlength : hex.length % 2 = 0)
    (hdigits : ∀ c ∈ hex, isHexDigit c = true) : ∀ slice ∈ byteStrs hex, isPair slice = true := by
  induction hex using byteStrs.induct with
  | case1 => exact nofun
  | case2 c => cases hlength
  | case3 c d hex ih =>
    intro slice hslice
    rcases List.mem_cons.1 hslice with rfl | hslice
    · simp [isPair, hdigits c, hdigits d]
    · refine ih ?_ (fun e he => hdigits e (by simp [he])) slice hslice
      simp at hlength
      omega

theorem hexToBytes_flatMap (bytes : Bytes) : hexToBytes (bytes.flatMap hexByte) = some bytes := by
  induction bytes with
  | nil => rfl
  | cons b bytes ih =>
    have hhigh : b.toNat / 16 < 16 := by
      have hb := b.toNat_lt
      omega
    have hlow : b.toNat % 16 < 16 := Nat.mod_lt _ (by decide)
    have hbyte : (16 * (b.toNat / 16) + b.toNat % 16).toUInt8 = b := by
      rw [Nat.div_add_mod, Nat.toUInt8, UInt8.ofNat_toNat]
    rw [List.flatMap_cons, hexByte_eq, List.cons_append, List.cons_append, List.nil_append,
      hexToBytes_cons, byteOfStr_pair (alnumValue_digitChar _ hhigh) (alnumValue_digitChar _ hlow)
        hhigh hlow, hbyte, ih]
    rfl

/-- **Hexadecimal codec**: the text of every hash is decoded to the hash; and what the decoder takes
of a text is well formed, and its bytes have this text up to case, exactly when no slice of it is
loose or a slice without a digit stops the decoder. -/
theorem hexToBytes_strict (hash : Hash256) (hex : Bytes) :
    hexToBytes (hashToHex hash) = some hash.toList ∧
      ((∀ bytes, hexToBytes hex = some bytes →
          hex.length % 2 = 0 ∧ (∀ c ∈ hex, isHexDigit c = true) ∧
            bytes.flatMap hexByte = hex.map lower) ↔
        (∀ slice ∈ byteStrs hex, isLoose slice = false) ∨
          ∃ slice ∈ byteStrs hex, isPair slice = false ∧ isLoose slice = false) := by
  refine ⟨hexToBytes_flatMap hash.toList, fun h => ?_, ?_⟩
  · cases hbytes : hexToBytes hex with
    | none => exact .inr (hexToBytes_eq_none.1 hbytes)
    | some bytes =>
      obtain ⟨hlength, hdigits, -⟩ := h bytes hbytes
      refine .inl fun slice hslice => ?_
      have hpair := isPair_of_digits hlength hdigits slice hslice
      rcases mem_byteStrs hslice with ⟨c, rfl⟩ | ⟨c, d, rfl⟩
      · cases hpair
      · rw [isPair, Bool.and_eq_true] at hpair
        have hfront := isHexDigit_front hpair.1
        simp [isLoose, hpair.1, hpair.2, hfront]
  · intro hcondition bytes hbytes
    refine hexToBytes_pairs (fun slice hslice => ?_) hbytes
    have hread : ¬∃ slice ∈ byteStrs hex, isPair slice = false ∧ isLoose slice = false := by
      rw [← hexToBytes_eq_none, hbytes]
      exact nofun
    rcases hcondition with hloose | hstop
    · by_contra hpair
      exact hread ⟨slice, hslice, Bool.not_eq_true _ ▸ hpair, hloose slice hslice⟩
    · exact absurd hstop hread

/-- Malformed text that is turned into bytes: a character that is no digit, a blank, a sign, an
odd length. -/
theorem hexToBytes_loose :
    hexToBytes (str "1g") = some [1] ∧ hexToBytes (str " 1") = some [1] ∧
      hexToBytes (str "-1") = some [255] ∧ hexToBytes (str "abc") = some [0xab, 0xc] ∧
      ¬∀ hex bytes, hexToBytes hex = some bytes →
        hex.length % 2 = 0 ∧ (∀ c ∈ hex, isHexDigit c = true) ∧
          bytes.flatMap hexByte = hex.map lower := by
  have hodd : hexToBytes (str "abc") = some [0xab, 0xc] := by rfl
  refine ⟨by rfl, by rfl, by rfl, hodd, ?_⟩
  intro h
  exact absurd (h _ _ hodd).1 (by decide)

end HermitMiner
