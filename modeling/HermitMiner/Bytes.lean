import HermitMiner.Regex.Search
import Mathlib.Data.List.TakeWhile
import Mathlib.Data.UInt

/-!
# Byte strings

`std::string` as a list of bytes, with the pieces of the C++ library the miner uses on them:
character classes of the "C" locale, decimal output, and `std::stoull`.
-/

namespace HermitMiner

/-- A `std::string`. -/
abbrev Bytes := List UInt8

/-- The byte of an ASCII character. -/
def ch (c : Char) : UInt8 := c.toNat.toUInt8

/-- A string literal. -/
def str (s : String) : Bytes := s.toList.map ch

def isDigit (c : UInt8) : Bool := ch '0' ≤ c && c ≤ ch '9'

/-- `std::isspace`: blank, `\t`, `\n`, `\v`, `\f`, `\r`. -/
def isSpace (c : UInt8) : Bool := c == ch ' ' || (9 ≤ c && c ≤ 13)

/-- `std::tolower`. -/
def lower (c : UInt8) : UInt8 := if ch 'A' ≤ c && c ≤ ch 'Z' then c + 32 else c

/-- `os << n` of an unsigned integer, and `std::to_string`. -/
def dec (n : Nat) : Bytes := (Nat.toDigits 10 n).map ch

/-- `os << n` of a signed integer. -/
def decInt (n : Int) : Bytes := if n < 0 then str "-" ++ dec n.natAbs else dec n.natAbs

/-- The number a string of decimal digits denotes. -/
def digitsValue (ds : Bytes) : Nat := ds.foldl (fun v d => 10 * v + (d.toNat - 48)) 0

/-- `std::stoull`: optional white space, an optional sign (a minus negates modulo `2 ^ 64`), then
digits up to the first byte that is none. It throws without a digit and from `2 ^ 64` on. -/
def stoull (text : Bytes) : Option Nat :=
  let text := text.dropWhile isSpace
  let negative := text.head? == some (ch '-')
  let text := if negative || text.head? == some (ch '+') then text.drop 1 else text
  let digits := text.takeWhile isDigit
  if digits = [] ∨ 2 ^ 64 ≤ digitsValue digits then none
  else if negative then some ((2 ^ 64 - digitsValue digits) % 2 ^ 64)
  else some (digitsValue digits)

/-- A byte is one of 256. -/
theorem exists_toUInt8 (c : UInt8) : ∃ n < 256, c = n.toUInt8 :=
  ⟨c.toNat, c.toNat_lt, by rw [Nat.toUInt8, UInt8.ofNat_toNat]⟩

/-! ## Decimal digits -/

theorem isDigit_iff (c : UInt8) : isDigit c = true ↔ 48 ≤ c.toNat ∧ c.toNat ≤ 57 := by
  simp [isDigit, ch, UInt8.le_iff_toNat_le]

theorem isSpace_iff (c : UInt8) :
    isSpace c = true ↔ c.toNat = 32 ∨ (9 ≤ c.toNat ∧ c.toNat ≤ 13) := by
  simp [isSpace, ch, UInt8.le_iff_toNat_le, ← UInt8.toNat_inj]

theorem not_isSpace_of_isDigit {c : UInt8} (h : isDigit c = true) : isSpace c = false := by
  rw [isDigit_iff] at h
  rw [← Bool.not_eq_true, isSpace_iff]
  omega

theorem isDigit_of_mem_dec {n : Nat} {d : UInt8} (h : d ∈ dec n) : isDigit d = true := by
  obtain ⟨c, hc, rfl⟩ := List.mem_map.1 h
  have hdigit := Nat.isDigit_of_mem_toDigits (by decide) (by decide) hc
  simp only [Char.isDigit, Bool.and_eq_true, decide_eq_true_eq] at hdigit
  obtain ⟨h₁, h₂⟩ := hdigit
  have h₁' : 48 ≤ c.toNat := h₁
  have h₂' : c.toNat ≤ 57 := h₂
  rw [isDigit_iff]
  have hval : (ch c).toNat = c.toNat := by
    simp only [ch, UInt8.toNat_ofNat']
    omega
  omega

theorem dec_ne_nil (n : Nat) : dec n ≠ [] := by
  simp [dec, Nat.toDigits_ne_nil]

theorem digitsValue_dec (n : Nat) : digitsValue (dec n) = n := by
  have hfold : ∀ (cs : List Char) (v : Nat), (∀ c ∈ cs, c.toNat < 256) →
      (cs.map ch).foldl (fun v d => 10 * v + (d.toNat - 48)) v = Nat.ofDigitChars 10 cs v := by
    intro cs
    induction cs with
    | nil => intro v _; simp
    | cons c cs ih =>
      intro v hcs
      have hc : (ch c).toNat = c.toNat := by
        have := hcs c List.mem_cons_self
        simp only [ch, UInt8.toNat_ofNat']
        omega
      rw [List.map_cons, List.foldl_cons, hc, Nat.ofDigitChars_cons]
      exact ih _ fun d hd => hcs d (List.mem_cons_of_mem c hd)
  have hsmall : ∀ c ∈ Nat.toDigits 10 n, c.toNat < 256 := by
    intro c hc
    have hdigit := Nat.isDigit_of_mem_toDigits (by decide) (by decide) hc
    simp only [Char.isDigit, Bool.and_eq_true, decide_eq_true_eq] at hdigit
    have h₂ : c.toNat ≤ 57 := hdigit.2
    omega
  unfold digitsValue dec
  rw [hfold _ 0 hsmall, Nat.ofDigitChars_ten_toDigits]

theorem dec_injective : Function.Injective dec := fun m n h => by
  rw [← digitsValue_dec m, h, digitsValue_dec]

/-- On a string of digits `stoull` is the value, up to its range. -/
theorem stoull_digits {ds : Bytes} (hne : ds ≠ []) (h : ∀ d ∈ ds, isDigit d = true) :
    stoull ds = if 2 ^ 64 ≤ digitsValue ds then none else some (digitsValue ds) := by
  obtain ⟨d, ds, rfl⟩ := List.exists_cons_of_ne_nil hne
  have hd := h d List.mem_cons_self
  have hsign : ∀ c : UInt8, c.toNat < 48 → d ≠ c := by
    rintro c hc rfl
    rw [isDigit_iff] at hd
    omega
  have hminus : d ≠ ch '-' := hsign _ (by decide)
  have hplus : d ≠ ch '+' := hsign _ (by decide)
  have htake : (d :: ds).takeWhile isDigit = d :: ds := List.takeWhile_eq_self_iff.2 h
  have hdrop : (d :: ds).dropWhile isSpace = d :: ds :=
    List.dropWhile_cons_of_neg (by simp [not_isSpace_of_isDigit hd])
  unfold stoull
  simp [hdrop, hminus, hplus, htake]

end HermitMiner
