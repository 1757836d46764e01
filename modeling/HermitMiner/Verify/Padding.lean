import HermitMiner.Sha256.Checked
import HermitMiner.Verify.Digest
import Mathlib.Order.Bounds.Defs

/-!
# Padding

* `checked_eq`: no `size_t` operation of `btc::sha256` wraps, and no read or store leaves its array.
* `size_paddedMessage`, `totalLen_least`: the size of the padded buffer.
* `paddedMessage_injective`: the buffer determines the message.
* `padding_safe`: all of it for every message below `2 ^ 61` bytes.
-/

namespace HermitMiner

open SecureHash (value)

namespace Sha256

/-! ## The checked run -/

section Run

open HermitMiner.Checked

variable {data : Array UInt8} (hdata : data.size < 2 ^ 61)

include hdata in
theorem checked_paddedMessage :
    Checked.paddedMessage data = some (paddedMessage data, totalLen data.size) := by
  have htotal := totalLen_eq hdata
  have hsum : (data.size + 9 + 63) / 64 * 64 = totalLen data.size := by rw [htotal]
  have hbitLen : data.size * 8 = bitLen data.size := by rw [bitLen_eq hdata, Nat.mul_comm]
  have hcopy := @loop _ _ (Checked.copyByte data) (fun msg i => msg.set! i data[i]!)
    (List.range data.size) (fun msg => msg.size = totalLen data.size) (by
      intro msg i hi hsize
      have hlt := List.mem_range.1 hi
      unfold Checked.copyByte
      rw [read_eq hlt]
      exact ⟨store_eq (by omega), by rw [size_set!, hsize]⟩)
    (Array.replicate (totalLen data.size) 0) Array.size_replicate
  have hlength := @loop _ _ (Checked.storeLength (bitLen data.size) (totalLen data.size))
    (fun msg i =>
      msg.set! (totalLen data.size - 1 - i) (bitLen data.size >>> (i * 8) &&& 0xff).toUInt8)
    (List.range 8) (fun msg => msg.size = totalLen data.size) (by
      intro msg i hi hsize
      have hlt := List.mem_range.1 hi
      unfold Checked.storeLength
      simp (disch := omega) only [sub_eq, mul_eq, Option.bind_eq_bind, Option.bind_some]
      exact ⟨store_eq (by omega), by rw [size_set!, hsize]⟩)
  unfold Checked.paddedMessage
  simp (disch := omega) only [add_eq, mul_eq, Option.bind_eq_bind, Option.bind_some, hsum, hbitLen]
  rw [hcopy.1, Option.bind_some, store_eq (by rw [hcopy.2]; omega), Option.bind_some,
    (hlength _ (by rw [size_set!, hcopy.2])).1]
  rfl

theorem checked_loadBlock {msg : Array UInt8} {offset : Nat} {w : Array UInt32}
    (hoffset : offset + 64 ≤ msg.size) (hmsg : msg.size < 2 ^ 64) (hw : w.size = 64) :
    Checked.loadBlock msg offset w = some (loadBlock msg offset w) ∧
      (loadBlock msg offset w).size = 64 := by
  refine loop (fun w => w.size = 64) ?_ w hw
  intro w i hi hsize
  have hlt := List.mem_range.1 hi
  simp (disch := omega) only [mul_eq, add_eq, read_eq, Option.bind_eq_bind, Option.bind_some]
  exact ⟨store_eq (by omega), by rw [size_set!, hsize]⟩

theorem checked_extendSchedule {w : Array UInt32} (hw : w.size = 64) :
    Checked.extendSchedule w = some (extendSchedule w) ∧ (extendSchedule w).size = 64 := by
  refine loop (fun w => w.size = 64) ?_ w hw
  intro w i hi hsize
  have hbounds := List.mem_range'_1.1 hi
  simp (disch := omega) only [sub_eq, read_eq, Option.bind_eq_bind, Option.bind_some]
  exact ⟨store_eq (by omega), by rw [size_set!, hsize]⟩

theorem checked_compress {h w : Array UInt32} (hh : h.size = 8) (hw : w.size = 64) :
    Checked.compress h w = some (compress h w) := by
  have hK : K.size = 64 := rfl
  have hrounds := @loop _ _ (Checked.round w) (round w) (List.range 64)
    (fun _ => True) (by
      intro v i hi _
      have hlt := List.mem_range.1 hi
      unfold Checked.round
      simp (disch := omega) only [read_eq, Option.bind_eq_bind, Option.bind_some]
      exact ⟨rfl, trivial⟩)
    ⟨h[0]!, h[1]!, h[2]!, h[3]!, h[4]!, h[5]!, h[6]!, h[7]!⟩ trivial
  unfold Checked.compress
  simp (disch := omega) only [read_eq, Option.bind_eq_bind, Option.bind_some, hrounds.1]
  rfl

theorem size_compress (h w : Array UInt32) : (compress h w).size = 8 := by
  unfold compress
  rfl

theorem checked_block {msg : Array UInt8} {st : Array UInt32 × Array UInt32} {offset : Nat}
    (hoffset : offset + 64 ≤ msg.size) (hmsg : msg.size + 64 < 2 ^ 64) (hh : st.1.size = 8)
    (hw : st.2.size = 64) :
    Checked.block msg st offset = some (block msg st offset) ∧
      (block msg st offset).1.size = 8 ∧ (block msg st offset).2.size = 64 := by
  obtain ⟨hload, hloaded⟩ := checked_loadBlock hoffset (by omega) hw
  obtain ⟨hextend, hextended⟩ := checked_extendSchedule hloaded
  have hblock : block msg st offset = (compress st.1 (extendSchedule (loadBlock msg offset st.2)),
      extendSchedule (loadBlock msg offset st.2)) := rfl
  rw [hblock]
  dsimp only
  refine ⟨?_, size_compress _ _, hextended⟩
  unfold Checked.block
  simp (disch := omega) only [hload, hextend, checked_compress hh hextended, add_eq,
    Option.bind_eq_bind, Option.bind_some]
  rfl

include hdata in
theorem size_paddedMessage : (paddedMessage data).size = totalLen data.size := by
  have htotal := totalLen_eq hdata
  rw [← Array.length_toList, paddedMessage_eq hdata]
  simp [lengthBytes]
  omega

include hdata in
/-- No operation of the run stops it. -/
theorem checked_eq : checked data = some (sha256 data) := by
  have hsize := size_paddedMessage hdata
  have htotal := totalLen_eq hdata
  have hblocks := @loop _ _ (Checked.block (paddedMessage data)) (block (paddedMessage data))
    ((List.range (totalLen data.size / 64)).map (64 * ·))
    (fun st => st.1.size = 8 ∧ st.2.size = 64) (by
      intro st offset hoffset hst
      obtain ⟨i, hi, rfl⟩ := List.mem_map.1 hoffset
      have hlt := List.mem_range.1 hi
      exact checked_block (by omega) (by omega) hst.1 hst.2)
    (initialHash, Array.replicate 64 0) ⟨rfl, rfl⟩
  unfold checked
  simp only [checked_paddedMessage hdata, Option.bind_eq_bind, Option.bind_some, hblocks.1]
  rfl

end Run

/-! ## The buffer -/

section Buffer

/-- The size is the least multiple of 64 with room for the message and the nine bytes. -/
theorem totalLen_least {data : Array UInt8} (hdata : data.size < 2 ^ 61) :
    IsLeast { n | 64 ∣ n ∧ data.size + 9 ≤ n } (totalLen data.size) := by
  rw [totalLen_eq hdata]
  refine ⟨⟨Nat.dvd_mul_left _ _, by omega⟩, ?_⟩
  rintro n ⟨⟨k, rfl⟩, hn⟩
  omega

theorem lengthBytes_injective {n m : Nat} (hn : n < 2 ^ 64) (hm : m < 2 ^ 64)
    (h : lengthBytes n = lengthBytes m) : n = m := by
  have hbits := congrArg bitString h
  rw [bitString_lengthBytes, bitString_lengthBytes] at hbits
  have hvalue := congrArg value hbits
  rwa [SecureHash.value_bits, SecureHash.value_bits, Nat.mod_eq_of_lt hn, Nat.mod_eq_of_lt hm]
    at hvalue

/-- The last eight bytes of the buffer are the length. -/
theorem drop_paddedMessage {data : Array UInt8} (hdata : data.size < 2 ^ 61) :
    (paddedMessage data).toList.drop ((paddedMessage data).size - 8) =
      lengthBytes (bitLen data.size) := by
  have htotal := totalLen_eq hdata
  have hfront : (paddedMessage data).size - 8 =
      (data.toList ++ 0x80 :: List.replicate (totalLen data.size - 9 - data.size) 0).length := by
    rw [size_paddedMessage hdata]
    simp
    omega
  rw [paddedMessage_eq hdata, ← List.cons_append, ← List.append_assoc, hfront, List.drop_left]

/-- The buffer determines the message. -/
theorem paddedMessage_injective {data other : Array UInt8} (hdata : data.size < 2 ^ 61)
    (hother : other.size < 2 ^ 61) (h : paddedMessage data = paddedMessage other) :
    data = other := by
  have hlengths : lengthBytes (bitLen data.size) = lengthBytes (bitLen other.size) := by
    rw [← drop_paddedMessage hdata, ← drop_paddedMessage hother, h]
  rw [bitLen_eq hdata, bitLen_eq hother] at hlengths
  have height := lengthBytes_injective (by omega) (by omega) hlengths
  have hbuffers := congrArg Array.toList h
  rw [paddedMessage_eq hdata, paddedMessage_eq hother] at hbuffers
  have hmessages := (List.append_inj hbuffers (by simp; omega)).1
  exact Array.toList_inj.1 hmessages

end Buffer

/-- **Padding**: below `2 ^ 61` bytes, no operation of the run wraps or leaves its array, the buffer
has the least size, the message, the closing byte and the length bytes lie apart in it, and it
determines the message. -/
theorem padding_safe (data : Array UInt8) (hdata : data.size < 2 ^ 61) :
    checked data = some (sha256 data) ∧
      (paddedMessage data).size = totalLen data.size ∧
      IsLeast { n | 64 ∣ n ∧ data.size + 9 ≤ n } (totalLen data.size) ∧
      (∀ i < 8, data.size < totalLen data.size - 1 - i) ∧
      (∀ i < 8, ∀ k < 8, totalLen data.size - 1 - i = totalLen data.size - 1 - k → i = k) ∧
      (paddedMessage data).toList = data.toList ++ 0x80 ::
        (List.replicate (totalLen data.size - 9 - data.size) 0 ++ lengthBytes (8 * data.size)) ∧
      ∀ other : Array UInt8, other.size < 2 ^ 61 → paddedMessage data = paddedMessage other →
        data = other := by
  have hleast := totalLen_least hdata
  have hroom := hleast.1.2
  have hbuffer := paddedMessage_eq hdata
  rw [bitLen_eq hdata] at hbuffer
  exact ⟨checked_eq hdata, size_paddedMessage hdata, hleast, by omega, by omega, hbuffer,
    fun _ hother => paddedMessage_injective hdata hother⟩

theorem padding_safe_abc :
    checked (str "abc").toArray = some (sha256 (str "abc").toArray) :=
  (padding_safe (str "abc").toArray (by decide)).1

end Sha256

end HermitMiner
