import HermitMiner.Digest.Standard
import HermitMiner.Sha256
import Mathlib.Data.Nat.Bitwise

/-!
# The digest is the standard's

* `paddedMessage_eq`: the buffer is the message, the closing bit, zeros and the length.
* `Holds`: the schedule array holds the standard's schedule, whatever it held before.
* `compress_eq`, `blocks_eq`: the hash value after a block, and after every block.
* `sha256_eq_standard`: the digest of every message.
-/

namespace HermitMiner

open SecureHash (bits value word Word)

/-! ## Loops that store -/

section Stores

variable {α : Type} {g : Nat → Nat} {v : Nat → α} {a : Array α}

/-- A loop that stores the value `v i` at the place `g i`, for each `i` below `n`. -/
def storeLoop (g : Nat → Nat) (v : Nat → α) (n : Nat) (a : Array α) : Array α :=
  (List.range n).foldl (fun a i => a.set! (g i) (v i)) a

theorem storeLoop_succ (n : Nat) :
    storeLoop g v (n + 1) a = (storeLoop g v n a).set! (g n) (v n) := by
  simp [storeLoop, List.range_succ, List.foldl_append]

@[simp] theorem size_storeLoop (n : Nat) : (storeLoop g v n a).size = a.size := by
  induction n with
  | zero => rfl
  | succ n ih => rw [storeLoop_succ, Array.set!_eq_setIfInBounds, Array.size_setIfInBounds, ih]

/-- The loop leaves every other place alone. -/
theorem getElem?_storeLoop_of_ne {n j : Nat} (h : ∀ i < n, g i ≠ j) :
    (storeLoop g v n a)[j]? = a[j]? := by
  induction n with
  | zero => rfl
  | succ n ih =>
    rw [storeLoop_succ, Array.set!_eq_setIfInBounds, Array.getElem?_setIfInBounds_ne (h n (by omega)),
      ih fun i hi => h i (by omega)]

/-- What is stored stays, when no place is stored to twice. -/
theorem getElem?_storeLoop {n i : Nat} (hg : ∀ i < n, ∀ k < n, g i = g k → i = k) (hi : i < n)
    (hsize : g i < a.size) : (storeLoop g v n a)[g i]? = some (v i) := by
  induction n with
  | zero => omega
  | succ n ih =>
    rw [storeLoop_succ, Array.set!_eq_setIfInBounds]
    rcases Nat.lt_succ_iff_lt_or_eq.1 hi with hlt | rfl
    · have hne : g n ≠ g i := fun heq => by
        have := hg n (by omega) i hi heq
        omega
      rw [Array.getElem?_setIfInBounds_ne hne]
      exact ih (fun i hi k hk => hg i (by omega) k (by omega)) hlt
    · rw [Array.getElem?_setIfInBounds_self_of_lt (by rw [size_storeLoop]; exact hsize)]

end Stores

/-! ## Bytes as bits -/

/-- The bits of a byte string, every byte from its most significant bit on. -/
def bitString (cs : List UInt8) : List Bool := cs.flatMap fun c => bits 8 c.toNat

@[simp] theorem bitString_nil : bitString [] = [] := rfl

@[simp] theorem bitString_cons (c : UInt8) (cs : List UInt8) :
    bitString (c :: cs) = bits 8 c.toNat ++ bitString cs := List.flatMap_cons

@[simp] theorem bitString_append (cs ds : List UInt8) :
    bitString (cs ++ ds) = bitString cs ++ bitString ds := List.flatMap_append

@[simp] theorem length_bitString (cs : List UInt8) : (bitString cs).length = 8 * cs.length := by
  induction cs with
  | nil => rfl
  | cons c cs ih =>
    rw [bitString_cons, List.length_append, SecureHash.length_bits, ih, List.length_cons]
    omega

theorem drop_bitString (n : Nat) (cs : List UInt8) :
    (bitString cs).drop (8 * n) = bitString (cs.drop n) := by
  induction cs generalizing n with
  | nil => simp
  | cons c cs ih =>
    cases n with
    | zero => rfl
    | succ n =>
      have hsplit : 8 * (n + 1) = (bits 8 c.toNat).length + 8 * n := by
        rw [SecureHash.length_bits]
        omega
      rw [bitString_cons, hsplit, List.drop_length_add_append, ih, List.drop_succ_cons]

theorem take_bitString (n : Nat) (cs : List UInt8) :
    (bitString cs).take (8 * n) = bitString (cs.take n) := by
  induction cs generalizing n with
  | nil => simp
  | cons c cs ih =>
    cases n with
    | zero => rfl
    | succ n =>
      have hsplit : 8 * (n + 1) = (bits 8 c.toNat).length + 8 * n := by
        rw [SecureHash.length_bits]
        omega
      rw [bitString_cons, hsplit, List.take_length_add_append, ih, List.take_succ_cons,
        bitString_cons]

/-- The number four bytes denote, the first of them the most significant. -/
theorem value_bitString (a b c d : UInt8) :
    value (bitString [a, b, c, d]) =
      a.toNat * 2 ^ 24 + b.toNat * 2 ^ 16 + c.toNat * 2 ^ 8 + d.toNat := by
  simp only [bitString_cons, bitString_nil, List.append_nil, SecureHash.value_append,
    SecureHash.value_bits, List.length_append, SecureHash.length_bits]
  have ha := a.toNat_lt
  have hb := b.toNat_lt
  have hc := c.toNat_lt
  have hd := d.toNat_lt
  omega

/-- Four bytes shifted into place. -/
theorem or_shifted {a b c d : Nat} (hb : b < 256) (hc : c < 256) (hd : d < 256) :
    a * 2 ^ 24 ||| b * 2 ^ 16 ||| c * 2 ^ 8 ||| d = a * 2 ^ 24 + b * 2 ^ 16 + c * 2 ^ 8 + d := by
  have h₁ : 2 ^ 24 * a + b * 2 ^ 16 = 2 ^ 24 * a ||| b * 2 ^ 16 :=
    Nat.two_pow_add_eq_or_of_lt (by omega) a
  have h₂ : 2 ^ 16 * (2 ^ 8 * a + b) + c * 2 ^ 8 = 2 ^ 16 * (2 ^ 8 * a + b) ||| c * 2 ^ 8 :=
    Nat.two_pow_add_eq_or_of_lt (by omega) _
  have h₃ : 2 ^ 8 * (2 ^ 16 * a + 2 ^ 8 * b + c) + d =
      2 ^ 8 * (2 ^ 16 * a + 2 ^ 8 * b + c) ||| d := Nat.two_pow_add_eq_or_of_lt (by omega) _
  have hsecond : 2 ^ 24 * a + b * 2 ^ 16 = 2 ^ 16 * (2 ^ 8 * a + b) := by omega
  have hthird : 2 ^ 16 * (2 ^ 8 * a + b) + c * 2 ^ 8 = 2 ^ 8 * (2 ^ 16 * a + 2 ^ 8 * b + c) := by
    omega
  rw [Nat.mul_comm a, ← h₁, hsecond, ← h₂, hthird, ← h₃]

/-- The loads of a block make the standard's words. -/
theorem toBitVec_loaded (a b c d : UInt8) :
    ((a.toUInt32 <<< 24) ||| (b.toUInt32 <<< 16) ||| (c.toUInt32 <<< 8) ||| d.toUInt32).toBitVec =
      word (bitString [a, b, c, d]) := by
  have ha := a.toNat_lt
  have hb := b.toNat_lt
  have hc := c.toNat_lt
  have hd := d.toNat_lt
  apply BitVec.eq_of_toNat_eq
  rw [word, value_bitString, BitVec.toNat_ofNat, UInt32.toNat_toBitVec]
  simp only [UInt32.toNat_or, UInt32.toNat_shiftLeft, UInt8.toNat_toUInt32, UInt32.reduceToNat,
    Nat.reduceMod, Nat.shiftLeft_eq]
  rw [Nat.mod_eq_of_lt (a := a.toNat * 2 ^ 24) (by omega),
    Nat.mod_eq_of_lt (a := b.toNat * 2 ^ 16) (by omega),
    Nat.mod_eq_of_lt (a := c.toNat * 2 ^ 8) (by omega), or_shifted hb hc hd]
  omega

/-- The four bytes of a word, the most significant first. -/
theorem bitString_word (h : UInt32) :
    bitString [(h >>> 24 &&& 0xff).toUInt8, (h >>> 16 &&& 0xff).toUInt8,
      (h >>> 8 &&& 0xff).toUInt8, (h &&& 0xff).toUInt8] = bits 32 h.toBitVec.toNat := by
  have hbyte : ∀ k : UInt32, bits 8 (h >>> k &&& 0xff).toUInt8.toNat =
      bits 8 (h.toNat >>> (k.toNat % 32)) := by
    intro k
    have hmask : h.toNat >>> (k.toNat % 32) &&& 255 = h.toNat >>> (k.toNat % 32) % 2 ^ 8 :=
      Nat.and_two_pow_sub_one_eq_mod _ 8
    simp only [UInt32.toNat_toUInt8, UInt32.toNat_and, UInt32.toNat_shiftRight, UInt32.reduceToNat,
      hmask, Nat.mod_mod, SecureHash.bits_mod]
  have hlast : bits 8 (h &&& 0xff).toUInt8.toNat = bits 8 h.toNat := by
    have hmask : h.toNat &&& 255 = h.toNat % 2 ^ 8 := Nat.and_two_pow_sub_one_eq_mod _ 8
    simp only [UInt32.toNat_toUInt8, UInt32.toNat_and, UInt32.reduceToNat, hmask, Nat.mod_mod,
      SecureHash.bits_mod]
  rw [UInt32.toNat_toBitVec, SecureHash.bits_add 24 8, SecureHash.bits_add 16 8,
    SecureHash.bits_add 8 8]
  simp only [bitString_cons, bitString_nil, hbyte, hlast, List.append_nil, List.append_assoc,
    ← Nat.shiftRight_add, UInt32.reduceToNat, Nat.reduceMod, Nat.reduceAdd]

/-! ## Padding -/

namespace Sha256

section Padding

variable {data : Array UInt8} (hdata : data.size < 2 ^ 61)
include hdata

theorem totalLen_eq : totalLen data.size = (data.size + 72) / 64 * 64 := by
  unfold totalLen
  rw [Nat.mod_eq_of_lt (by omega)]

theorem bitLen_eq : bitLen data.size = 8 * data.size := by
  unfold bitLen
  rw [Nat.mod_eq_of_lt (by omega), Nat.mul_comm]

/-- The bytes of the 64-bit length, the most significant first. -/
def lengthBytes (n : Nat) : List UInt8 :=
  (List.range 8).map fun i => (n >>> ((7 - i) * 8) &&& 0xff).toUInt8

omit hdata in
theorem bitString_lengthBytes (n : Nat) : bitString (lengthBytes n) = bits 64 n := by
  have hbyte : ∀ k, bits 8 (n >>> k &&& 0xff).toUInt8.toNat = bits 8 (n >>> k) := by
    intro k
    have hmask : n >>> k &&& 255 = n >>> k % 2 ^ 8 := Nat.and_two_pow_sub_one_eq_mod _ 8
    rw [hmask, UInt8.toNat_ofNat', Nat.mod_mod, SecureHash.bits_mod]
  have hrange : List.range 8 = [0, 1, 2, 3, 4, 5, 6, 7] := rfl
  rw [SecureHash.bits_add 56 8, SecureHash.bits_add 48 8, SecureHash.bits_add 40 8,
    SecureHash.bits_add 32 8, SecureHash.bits_add 24 8, SecureHash.bits_add 16 8,
    SecureHash.bits_add 8 8]
  simp only [lengthBytes, hrange, List.map_cons, List.map_nil, bitString_cons, bitString_nil, hbyte,
    List.append_nil, List.append_assoc, ← Nat.shiftRight_add, Nat.reduceSub, Nat.reduceMul,
    Nat.reduceAdd]
  rfl

/-- The buffer is the message, the closing bit, zeros and the length. -/
theorem paddedMessage_eq :
    (paddedMessage data).toList = data.toList ++ 0x80 ::
      (List.replicate (totalLen data.size - 9 - data.size) 0 ++ lengthBytes (bitLen data.size)) := by
  have htotal := totalLen_eq hdata
  have hcopied : paddedMessage data =
      storeLoop (fun i => totalLen data.size - 1 - i)
        (fun i => (bitLen data.size >>> (i * 8) &&& 0xff).toUInt8) 8
        ((storeLoop id (fun i => data[i]!) data.size
          (Array.replicate (totalLen data.size) 0)).set! data.size 0x80) := rfl
  apply List.ext_getElem?
  intro j
  rw [Array.getElem?_toList, hcopied]
  generalize totalLen data.size = total at *
  rcases Nat.lt_or_ge j (total - 8) with hj | hj
  · rw [getElem?_storeLoop_of_ne (by omega), Array.set!_eq_setIfInBounds]
    rcases Nat.lt_trichotomy j data.size with hlt | rfl | hgt
    · rw [Array.getElem?_setIfInBounds_ne (by omega),
        List.getElem?_append_left (by rw [Array.length_toList]; exact hlt)]
      have hstored := getElem?_storeLoop (g := id) (v := fun i => data[i]!) (n := data.size)
        (a := Array.replicate total 0) (fun _ _ _ _ h => h) hlt (by simp; omega)
      rw [id] at hstored
      rw [hstored]
      simp [hlt]
    · rw [Array.getElem?_setIfInBounds_self_of_lt (by simp; omega), List.getElem?_append_right (by simp)]
      simp
    · rw [Array.getElem?_setIfInBounds_ne (by omega),
        getElem?_storeLoop_of_ne (by intro i hi; simp only [id]; omega),
        List.getElem?_append_right (by simp; omega), Array.length_toList]
      obtain ⟨k, hk⟩ : ∃ k, j - data.size = k + 1 := ⟨j - data.size - 1, by omega⟩
      rw [hk, List.getElem?_cons_succ, List.getElem?_append_left (by simp; omega)]
      rw [Array.getElem?_replicate, List.getElem?_replicate, if_pos (by omega), if_pos (by omega)]
  · rw [List.getElem?_append_right (by simp; omega), Array.length_toList]
    obtain ⟨k, hk⟩ : ∃ k, j - data.size = k + 1 := ⟨j - data.size - 1, by omega⟩
    rw [hk, List.getElem?_cons_succ, List.getElem?_append_right (by simp; omega),
      List.length_replicate, lengthBytes, List.getElem?_map]
    rcases Nat.lt_or_ge j total with hlt | hge
    · obtain ⟨i, hi, rfl⟩ : ∃ i < 8, j = total - 1 - i := ⟨total - 1 - j, by omega, by omega⟩
      have hstored := getElem?_storeLoop (g := fun i => total - 1 - i)
        (v := fun i => (bitLen data.size >>> (i * 8) &&& 0xff).toUInt8) (n := 8)
        (a := (storeLoop id (fun i => data[i]!) data.size
          (Array.replicate total 0)).set! data.size 0x80)
        (by omega) hi
        (by simp [Array.set!_eq_setIfInBounds]; omega)
      rw [hstored]
      have hindex : k - (total - 9 - data.size) = 7 - i := by omega
      rw [hindex, List.getElem?_range (by omega)]
      have hback : 7 - (7 - i) = i := by omega
      rw [Option.map_some, hback]
    · rw [Array.getElem?_eq_none (by simp [Array.set!_eq_setIfInBounds]; omega),
        List.getElem?_eq_none (by simp; omega), Option.map_none]

/-- The buffer holds the padded message of the standard. -/
theorem bitString_paddedMessage :
    bitString (paddedMessage data).toList = SecureHash.pad (bitString data.toList) := by
  have htotal := totalLen_eq hdata
  have hone : bits 8 (0x80 : UInt8).toNat = true :: List.replicate 7 false := by decide
  have hzeros : ∀ n, bitString (List.replicate n 0) = List.replicate (8 * n) false := by
    intro n
    induction n with
    | zero => rfl
    | succ n ih =>
      have hzero : bits 8 (0 : UInt8).toNat = List.replicate 8 false := by decide
      rw [List.replicate_succ, bitString_cons, ih, hzero, List.replicate_append_replicate,
        Nat.mul_succ, Nat.add_comm]
  have hcount : SecureHash.zeros (8 * data.size) = 7 + 8 * (totalLen data.size - 9 - data.size) := by
    rw [SecureHash.zeros_eq, htotal]
    omega
  rw [paddedMessage_eq hdata, bitString_append, bitString_cons, bitString_append, hone, hzeros,
    bitString_lengthBytes, bitLen_eq hdata, SecureHash.pad, length_bitString, Array.length_toList,
    hcount, ← List.replicate_append_replicate]
  simp

end Padding

/-! ## Words -/

section Words

/-- A hash value as the code's array. -/
def words (v : SecureHash.Vars) : Array UInt32 :=
  #[⟨v.a⟩, ⟨v.b⟩, ⟨v.c⟩, ⟨v.d⟩, ⟨v.e⟩, ⟨v.f⟩, ⟨v.g⟩, ⟨v.h⟩]

/-- The working variables are the standard's. -/
def Agrees (v : Vars) (r : SecureHash.Vars) : Prop :=
  v = ⟨⟨r.a⟩, ⟨r.b⟩, ⟨r.c⟩, ⟨r.d⟩, ⟨r.e⟩, ⟨r.f⟩, ⟨r.g⟩, ⟨r.h⟩⟩

theorem toBitVec_rotr (x n : UInt32) (hpos : 0 < n.toNat) (hn : n.toNat < 32) :
    (rotr x n).toBitVec = x.toBitVec.rotateRight n.toNat := by
  have hshift : ∀ k : UInt32, k.toNat < 32 → (k.toBitVec % 32).toNat = k.toNat := by
    intro k hk
    rw [BitVec.toNat_umod, UInt32.toNat_toBitVec]
    exact Nat.mod_eq_of_lt hk
  have hsub : (32 - n).toNat = 32 - n.toNat := by
    rw [UInt32.toNat_sub_of_le _ _ (UInt32.le_iff_toNat_le.2 hn.le)]
    rfl
  rw [rotr, UInt32.toBitVec_or, UInt32.toBitVec_shiftRight, UInt32.toBitVec_shiftLeft,
    BitVec.ushiftRight_eq', BitVec.shiftLeft_eq', hshift n hn, hshift _ (by omega), hsub,
    BitVec.rotateRight_def, Nat.mod_eq_of_lt hn]

theorem toBitVec_bigSigma0 (x : UInt32) :
    (bigSigma0 x).toBitVec = SecureHash.bigSigma0 x.toBitVec := by
  simp only [bigSigma0, UInt32.toBitVec_xor, toBitVec_rotr x 2 (by decide) (by decide),
    toBitVec_rotr x 13 (by decide) (by decide), toBitVec_rotr x 22 (by decide) (by decide)]
  rfl

theorem toBitVec_bigSigma1 (x : UInt32) :
    (bigSigma1 x).toBitVec = SecureHash.bigSigma1 x.toBitVec := by
  simp only [bigSigma1, UInt32.toBitVec_xor, toBitVec_rotr x 6 (by decide) (by decide),
    toBitVec_rotr x 11 (by decide) (by decide), toBitVec_rotr x 25 (by decide) (by decide)]
  rfl

theorem toBitVec_smallSigma0 (x : UInt32) :
    (smallSigma0 x).toBitVec = SecureHash.smallSigma0 x.toBitVec := by
  simp only [smallSigma0, UInt32.toBitVec_xor, toBitVec_rotr x 7 (by decide) (by decide),
    toBitVec_rotr x 18 (by decide) (by decide)]
  rfl

theorem toBitVec_smallSigma1 (x : UInt32) :
    (smallSigma1 x).toBitVec = SecureHash.smallSigma1 x.toBitVec := by
  simp only [smallSigma1, UInt32.toBitVec_xor, toBitVec_rotr x 17 (by decide) (by decide),
    toBitVec_rotr x 19 (by decide) (by decide)]
  rfl

theorem toBitVec_K {t : Nat} (ht : t < 64) : (K[t]!).toBitVec = SecureHash.K t := by
  have hall : ∀ t < 64, (K[t]!).toBitVec = SecureHash.K t := by
    unfold SecureHash.K
    rw [SecureHash.primes_eq]
    decide +kernel
  exact hall t ht

theorem initialHash_eq : initialHash = words SecureHash.initial := by decide +kernel

end Words

/-! ## One block -/

section Block

variable {msg w : Array UInt32}

/-- The array holds the standard's schedule of a block. -/
structure Holds (block : Nat → Word) (w : Array UInt32) (n : Nat) : Prop where
  size : w.size = 64
  words : ∀ t < n, (w[t]!).toBitVec = SecureHash.schedule block t

theorem get!_of_getElem? {α : Type} [Inhabited α] {xs : Array α} {i : Nat} {a : α}
    (h : xs[i]? = some a) : xs[i]! = a := by
  rw [getElem!_def, h]

/-- Four bytes of the buffer are a word of a block of it. -/
theorem blockWord_eq {msg : Array UInt8} {i t : Nat} (hsize : 64 * i + 4 * t + 4 ≤ msg.size) :
    SecureHash.blockWord (bitString msg.toList) i t =
      word (bitString [msg[64 * i + t * 4]!, msg[64 * i + t * 4 + 1]!, msg[64 * i + t * 4 + 2]!,
        msg[64 * i + t * 4 + 3]!]) := by
  have hplace : 512 * i + 32 * t = 8 * (64 * i + t * 4) := by omega
  have hcount : 32 = 8 * 4 := rfl
  unfold SecureHash.blockWord
  rw [hplace, drop_bitString, hcount, take_bitString]
  congr 2
  apply List.ext_getElem?
  intro k
  rcases Nat.lt_or_ge k 4 with hk | hk
  · rw [List.getElem?_take_of_lt hk, List.getElem?_drop, Array.getElem?_toList,
      Array.getElem?_eq_getElem (by omega)]
    have hcases : k = 0 ∨ k = 1 ∨ k = 2 ∨ k = 3 := by omega
    rcases hcases with rfl | rfl | rfl | rfl
    all_goals simp only [List.getElem?_cons_zero, List.getElem?_cons_succ, Nat.add_zero]
    all_goals rw [getElem!_pos _ _ (by omega)]
  · rw [List.getElem?_take_eq_none hk, List.getElem?_eq_none (by simpa using hk)]

/-- The first loop fills the words of the block, whatever the array held. -/
theorem holds_loadBlock {msg : Array UInt8} {i : Nat} (hw : w.size = 64)
    (hsize : 64 * (i + 1) ≤ msg.size) :
    Holds (SecureHash.blockWord (bitString msg.toList) i) (loadBlock msg (64 * i) w) 16 := by
  have hloop : loadBlock msg (64 * i) w = storeLoop id (fun t =>
      (msg[64 * i + t * 4]!.toUInt32 <<< 24) ||| (msg[64 * i + t * 4 + 1]!.toUInt32 <<< 16)
        ||| (msg[64 * i + t * 4 + 2]!.toUInt32 <<< 8) ||| msg[64 * i + t * 4 + 3]!.toUInt32) 16 w :=
    rfl
  rw [hloop]
  refine ⟨by rw [size_storeLoop, hw], ?_⟩
  intro t ht
  have hstored := getElem?_storeLoop (g := id) (v := fun t =>
      (msg[64 * i + t * 4]!.toUInt32 <<< 24) ||| (msg[64 * i + t * 4 + 1]!.toUInt32 <<< 16)
        ||| (msg[64 * i + t * 4 + 2]!.toUInt32 <<< 8) ||| msg[64 * i + t * 4 + 3]!.toUInt32)
    (a := w) (n := 16) (fun _ _ _ _ h => h) ht (by rw [id, hw]; omega)
  rw [id] at hstored
  rw [get!_of_getElem? hstored, toBitVec_loaded, SecureHash.schedule, if_pos ht,
    blockWord_eq (by omega)]

/-- The second loop extends the schedule by one word. -/
theorem Holds.extend {block : Nat → Word} {t : Nat} (h : Holds block w t) (hlow : 16 ≤ t)
    (hhigh : t < 64) :
    Holds block (w.set! t (smallSigma1 w[t - 2]! + w[t - 7]! + smallSigma0 w[t - 15]! + w[t - 16]!))
      (t + 1) := by
  rw [Array.set!_eq_setIfInBounds]
  refine ⟨by rw [Array.size_setIfInBounds, h.size], ?_⟩
  intro k hk
  rcases Nat.lt_succ_iff_lt_or_eq.1 hk with hlt | rfl
  · have hkeep : (w.setIfInBounds t (smallSigma1 w[t - 2]! + w[t - 7]! + smallSigma0 w[t - 15]!
        + w[t - 16]!))[k]! = w[k]! := by
      simp only [getElem!_def, Array.getElem?_setIfInBounds_ne (Nat.ne_of_gt hlt)]
    rw [hkeep, h.words k hlt]
  · have hnew := @Array.getElem?_setIfInBounds_self_of_lt _ w k
      (smallSigma1 w[k - 2]! + w[k - 7]! + smallSigma0 w[k - 15]! + w[k - 16]!)
      (by rw [h.size]; omega)
    rw [get!_of_getElem? hnew, SecureHash.schedule, if_neg (by omega)]
    simp only [UInt32.toBitVec_add, toBitVec_smallSigma0, toBitVec_smallSigma1,
      h.words _ (show k - 2 < k by omega), h.words _ (show k - 7 < k by omega),
      h.words _ (show k - 15 < k by omega), h.words _ (show k - 16 < k by omega)]

theorem Holds.extendSchedule {block : Nat → Word} (h : Holds block w 16) :
    Holds block (extendSchedule w) 64 := by
  have hsteps : ∀ n ≤ 48, Holds block ((List.range' 16 n).foldl (fun w i =>
      w.set! i (smallSigma1 w[i - 2]! + w[i - 7]! + smallSigma0 w[i - 15]! + w[i - 16]!)) w)
      (16 + n) := by
    intro n hn
    induction n with
    | zero => exact h
    | succ n ih =>
      rw [List.range'_1_concat, List.foldl_append]
      exact (ih (by omega)).extend (by omega) (by omega)
  exact hsteps 48 le_rfl

/-- One round. -/
theorem Agrees.round {block : Nat → Word} {t : Nat} {v : Vars} {r : SecureHash.Vars}
    (h : Agrees v r) (hw : Holds block w 64) (ht : t < 64) :
    Agrees (round w v t) (SecureHash.round r (SecureHash.K t) (SecureHash.schedule block t)) := by
  have hK : K[t]! = ⟨SecureHash.K t⟩ := UInt32.toBitVec_inj.1 (toBitVec_K ht)
  have hword : w[t]! = ⟨SecureHash.schedule block t⟩ := UInt32.toBitVec_inj.1 (hw.words t ht)
  have h0 : ∀ x : Word, bigSigma0 ⟨x⟩ = ⟨SecureHash.bigSigma0 x⟩ := fun x =>
    UInt32.toBitVec_inj.1 (toBitVec_bigSigma0 ⟨x⟩)
  have h1 : ∀ x : Word, bigSigma1 ⟨x⟩ = ⟨SecureHash.bigSigma1 x⟩ := fun x =>
    UInt32.toBitVec_inj.1 (toBitVec_bigSigma1 ⟨x⟩)
  subst h
  unfold Agrees Sha256.round SecureHash.round
  simp only [hK, hword, h0, h1]
  rfl

/-- The 64 rounds and the additions. -/
theorem compress_eq {block : Nat → Word} (hw : Holds block w 64) (r : SecureHash.Vars) :
    compress (words r) w = words (SecureHash.compress r block) := by
  have hrounds : ∀ n ≤ 64, Agrees ((List.range n).foldl (round w)
      ⟨⟨r.a⟩, ⟨r.b⟩, ⟨r.c⟩, ⟨r.d⟩, ⟨r.e⟩, ⟨r.f⟩, ⟨r.g⟩, ⟨r.h⟩⟩)
      (SecureHash.rounds block r n) := by
    intro n hn
    induction n with
    | zero => rfl
    | succ n ih =>
      rw [List.range_succ, List.foldl_append]
      exact (ih (by omega)).round hw (by omega)
  have hall := hrounds 64 le_rfl
  have hcode : compress (words r) w =
      let v := (List.range 64).foldl (round w)
        ⟨⟨r.a⟩, ⟨r.b⟩, ⟨r.c⟩, ⟨r.d⟩, ⟨r.e⟩, ⟨r.f⟩, ⟨r.g⟩, ⟨r.h⟩⟩
      #[⟨r.a⟩ + v.a, ⟨r.b⟩ + v.b, ⟨r.c⟩ + v.c, ⟨r.d⟩ + v.d,
        ⟨r.e⟩ + v.e, ⟨r.f⟩ + v.f, ⟨r.g⟩ + v.g, ⟨r.h⟩ + v.hh] := rfl
  rw [hcode, hall]
  rfl

end Block

/-! ## All blocks -/

section Chain

variable {msg : Array UInt8}

/-- The pass over a block. -/
theorem block_eq {n : Nat} {r : SecureHash.Vars} {w : Array UInt32} (hw : w.size = 64)
    (hsize : 64 * (n + 1) ≤ msg.size) :
    (block msg (words r, w) (64 * n)).1 =
        words (SecureHash.compress r (SecureHash.blockWord (bitString msg.toList) n)) ∧
      (block msg (words r, w) (64 * n)).2.size = 64 := by
  have hholds := (holds_loadBlock hw hsize).extendSchedule
  unfold block
  dsimp only
  exact ⟨compress_eq hholds r, hholds.size⟩

/-- The loop over the first `n` blocks. -/
def blocks (msg : Array UInt8) (n : Nat) : Array UInt32 × Array UInt32 :=
  ((List.range n).map (64 * ·)).foldl (block msg) (initialHash, Array.replicate 64 0)

/-- The hash value after the first `n` blocks. -/
theorem blocks_eq {n : Nat} (hsize : 64 * n ≤ msg.size) :
    ∃ w : Array UInt32, w.size = 64 ∧
      blocks msg n = (words (SecureHash.hashValue (bitString msg.toList) n), w) := by
  induction n with
  | zero =>
    refine ⟨Array.replicate 64 0, rfl, ?_⟩
    rw [blocks, initialHash_eq]
    rfl
  | succ n ih =>
    obtain ⟨w, hw, hblocks⟩ := ih (by omega)
    have hstep : blocks msg (n + 1) = block msg (blocks msg n) (64 * n) := by
      rw [blocks, List.range_succ, List.map_append, List.foldl_append]
      rfl
    obtain ⟨hvalue, hsize'⟩ := block_eq (r := SecureHash.hashValue (bitString msg.toList) n) hw hsize
    refine ⟨_, hsize', ?_⟩
    rw [hstep, hblocks, SecureHash.hashValue, ← hvalue]

/-- The digest bytes are the words, most significant byte first. -/
theorem bitString_digest (v : SecureHash.Vars) :
    bitString (digest (words v)).toList = SecureHash.digest v := by
  have hrange : List.range 8 = [0, 1, 2, 3, 4, 5, 6, 7] := rfl
  have hbytes : (digest (words v)).toList = ([v.a, v.b, v.c, v.d, v.e, v.f, v.g, v.h].flatMap
      fun x => [((⟨x⟩ : UInt32) >>> 24 &&& 0xff).toUInt8, ((⟨x⟩ : UInt32) >>> 16 &&& 0xff).toUInt8,
        ((⟨x⟩ : UInt32) >>> 8 &&& 0xff).toUInt8, ((⟨x⟩ : UInt32) &&& 0xff).toUInt8]) := by
    simp only [digest, hrange, List.foldl_cons, List.foldl_nil, words]
    simp [Vector.set!, Array.set!_eq_setIfInBounds, Vector.toList]
  rw [hbytes, SecureHash.digest]
  simp only [List.flatMap_cons, List.flatMap_nil, bitString_append, bitString_word, bitString_nil]

end Chain

end Sha256

/-- **SHA-256**: for every message of less than `2 ^ 61` bytes the digest is the standard's, as a
string of bits. -/
theorem sha256_eq_standard (data : Array UInt8) (hdata : data.size < 2 ^ 61) :
    bitString (sha256 data).toList = SecureHash.sha256 (bitString data.toList) := by
  have hpad := Sha256.bitString_paddedMessage hdata
  have htotal := Sha256.totalLen_eq hdata
  have hsize : (Sha256.paddedMessage data).size = Sha256.totalLen data.size := by
    rw [← Array.length_toList, Sha256.paddedMessage_eq hdata]
    simp [Sha256.lengthBytes]
    omega
  have hlength : (SecureHash.pad (bitString data.toList)).length =
      512 * (Sha256.totalLen data.size / 64) := by
    rw [← hpad, length_bitString, Array.length_toList, hsize]
    omega
  obtain ⟨w, -, hblocks⟩ := @Sha256.blocks_eq (Sha256.paddedMessage data)
    (Sha256.totalLen data.size / 64) (by omega)
  have hcode : sha256 data = Sha256.digest
      (Sha256.blocks (Sha256.paddedMessage data) (Sha256.totalLen data.size / 64)).1 := rfl
  rw [hcode, hblocks, Sha256.bitString_digest, SecureHash.sha256, hlength, hpad,
    Nat.mul_div_cancel_left _ (by decide)]

theorem sha256_eq_standard_abc :
    bitString (sha256 (str "abc").toArray).toList = SecureHash.sha256 (bitString (str "abc")) :=
  sha256_eq_standard (str "abc").toArray (by decide)

example : (sha256 (str "abc").toArray).toList.take 4 = [0xba, 0x78, 0x16, 0xbf] := by
  decide +kernel

end HermitMiner
