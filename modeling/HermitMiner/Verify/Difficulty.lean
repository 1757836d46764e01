import HermitMiner.Job
import HermitMiner.Verify.Digest

/-!
# What the difficulty test decides

* `meetsDifficultyLoop_iff`: the loop looks at the first bits of the bytes, and at nothing else.
* `meetsDifficulty_spec`: the test in terms of the number that the hash denotes and of its leading
  zero bits.
-/

namespace HermitMiner

open SecureHash (bits value)

/-- The number that bytes denote, the first of them the most significant. -/
def bigEndian (bytes : List UInt8) : Nat := bytes.foldl (fun n b => 256 * n + b.toNat) 0

theorem bigEndian_snoc (bytes : List UInt8) (b : UInt8) :
    bigEndian (bytes ++ [b]) = 256 * bigEndian bytes + b.toNat := by
  simp [bigEndian]

theorem value_bitString_eq (bytes : List UInt8) : value (bitString bytes) = bigEndian bytes := by
  induction bytes using List.reverseRecOn with
  | nil => rfl
  | append_singleton bytes b ih =>
    have hlast : bitString [b] = bits 8 b.toNat := by simp [bitString]
    have hsplit : bitString (bytes ++ [b]) = bitString bytes ++ bitString [b] := by
      simp [bitString]
    have hbyte : b.toNat % 2 ^ 8 = b.toNat := Nat.mod_eq_of_lt b.toNat_lt
    rw [hsplit, SecureHash.value_append, hlast, SecureHash.length_bits, SecureHash.value_bits, ih,
      bigEndian_snoc, hbyte, Nat.mul_comm]
    rfl

/-! ## One byte -/

theorem byte_eq_zero_iff (b : UInt8) : b = 0 ↔ ∀ x ∈ bits 8 b.toNat, x = false := by
  rw [← SecureHash.value_eq_zero_iff, SecureHash.value_bits, Nat.mod_eq_of_lt b.toNat_lt,
    ← UInt8.toNat_inj]
  rfl

/-- The mask keeps the first bits of a byte. -/
theorem masked_eq_zero_iff (b : UInt8) {d : UInt32} (hd : d.toNat < 8) :
    b &&& (0xff <<< (8 - d)).toUInt8 = 0 ↔ ∀ x ∈ (bits 8 b.toNat).take d.toNat, x = false := by
  have hall : ∀ d < 8, ∀ n < 256, UInt8.ofNat n &&& (0xff <<< (8 - UInt32.ofNat d)).toUInt8 = 0 ↔
      ∀ x ∈ (bits 8 n).take d, x = false := by decide +kernel
  have hb := hall d.toNat hd b.toNat b.toNat_lt
  rwa [UInt8.ofNat_toNat, UInt32.ofNat_toNat] at hb

/-! ## The test -/

/-- The loop passes exactly when the bits it still has to look at are zeros. -/
theorem meetsDifficultyLoop_iff (bytes : List UInt8) (d : UInt32) :
    meetsDifficultyLoop bytes d = true ↔ ∀ x ∈ (bitString bytes).take d.toNat, x = false := by
  induction bytes generalizing d with
  | nil => simp [meetsDifficultyLoop, bitString]
  | cons b bytes ih =>
    have hcons : bitString (b :: bytes) = bits 8 b.toNat ++ bitString bytes := rfl
    have hlength := SecureHash.length_bits 8 b.toNat
    rw [meetsDifficultyLoop, hcons, List.take_append, hlength]
    by_cases hzero : d = 0
    · subst hzero
      simp
    by_cases hbyte : 8 ≤ d
    · have hge : 8 ≤ d.toNat := UInt32.le_iff_toNat_le.1 hbyte
      have hrest : (d - 8).toNat = d.toNat - 8 := UInt32.toNat_sub_of_le d 8 hbyte
      have hwhole : (bits 8 b.toNat).take d.toNat = bits 8 b.toNat := by
        rw [List.take_of_length_le]
        omega
      rw [if_neg hzero, if_pos hbyte, hwhole, List.forall_mem_append, ← byte_eq_zero_iff, ← hrest,
        ← ih]
      by_cases hb : b = 0
      · simp [hb]
      · simp [hb]
    · have hlt : d.toNat < 8 := Nat.lt_of_not_le fun h => hbyte (UInt32.le_iff_toNat_le.2 h)
      have hnone : d.toNat - 8 = 0 := by omega
      rw [if_neg hzero, if_neg hbyte, hnone, List.take_zero, List.append_nil,
        ← masked_eq_zero_iff b hlt]
      exact decide_eq_true_iff

theorem length_bitString_hash (hash : Hash256) : (bitString hash.toList).length = 256 := by
  rw [length_bitString, Vector.length_toList]

/-- A difficulty above the length of the hash is tested on the whole of it. -/
theorem meetsDifficulty_iff_take (hash : Hash256) (d : UInt32) :
    meetsDifficulty hash d = true ↔
      ∀ x ∈ (bitString hash.toList).take (min d.toNat 256), x = false := by
  have htake : (bitString hash.toList).take (min d.toNat 256) =
      (bitString hash.toList).take d.toNat := by
    have hwhole : (bitString hash.toList).take 256 = bitString hash.toList :=
      List.take_of_length_le (length_bitString_hash hash).le
    rw [← List.take_take, hwhole]
  rw [htake, meetsDifficulty, meetsDifficultyLoop_iff]

/-- **The difficulty test** passes exactly the hashes below `2 ^ (256 - d)`, which are those with `d`
leading zero bits; a difficulty above 256 counts as 256. A hash that meets a difficulty meets every
smaller one. -/
theorem meetsDifficulty_spec (hash : Hash256) (d : UInt32) :
    (meetsDifficulty hash d = true ↔
      bigEndian hash.toList < 2 ^ (256 - min d.toNat 256)) ∧
    (meetsDifficulty hash d = true ↔
      min d.toNat 256 ≤ SecureHash.leadingZeros (bitString hash.toList)) ∧
    (meetsDifficulty hash d = true → ∀ d' ≤ d, meetsDifficulty hash d' = true) := by
  have hlength := length_bitString_hash hash
  have hle : min d.toNat 256 ≤ (bitString hash.toList).length := by
    rw [hlength]
    exact Nat.min_le_right _ _
  refine ⟨?_, ?_, ?_⟩
  · rw [meetsDifficulty_iff_take, ← SecureHash.value_lt_two_pow_iff, hlength,
      value_bitString_eq]
  · rw [meetsDifficulty_iff_take, SecureHash.le_leadingZeros_iff hle]
  · intro h d' hd
    have hd' : d'.toNat ≤ d.toNat := UInt32.le_iff_toNat_le.1 hd
    rw [meetsDifficulty, meetsDifficultyLoop_iff] at h ⊢
    intro x hx
    exact h x (List.take_subset_take_left _ hd' hx)

end HermitMiner
