import HermitMiner.Checked
import HermitMiner.Sha256

/-!
# SHA-256 with every access checked

`btc::sha256` again, operation by operation, but each `size_t` operation stops where it would wrap
and each read and store stops outside its array: a run that does not stop does neither.
-/

namespace HermitMiner.Sha256

namespace Checked

open HermitMiner.Checked

/-- The copy of one byte by `memcpy`. -/
def copyByte (data msg : Array UInt8) (i : Nat) : Option (Array UInt8) := do
  store msg i (← data[i]?)

/-- The store of one byte of the length. -/
def storeLength (bitLen totalLen : Nat) (msg : Array UInt8) (i : Nat) : Option (Array UInt8) := do
  let last ← sub totalLen 1
  let place ← sub last i
  let shift ← mul 64 i 8
  store msg place (bitLen >>> shift &&& 0xff).toUInt8

/-- The buffer `msg` and its length `total_len`. -/
def paddedMessage (data : Array UInt8) : Option (Array UInt8 × Nat) := do
  let len := data.size
  let bitLen ← mul 64 len 8
  let rounded ← add 64 (← add 64 len 9) 63
  let totalLen ← mul 64 (rounded / 64) 64
  let msg ← (List.range len).foldlM (copyByte data) (Array.replicate totalLen 0)
  let msg ← store msg len 0x80
  let msg ← (List.range 8).foldlM (storeLength bitLen totalLen) msg
  return (msg, totalLen)

/-- The first loop on `w`. -/
def loadBlock (msg : Array UInt8) (offset : Nat) (w : Array UInt32) : Option (Array UInt32) :=
  (List.range 16).foldlM (fun w i => do
    let j ← add 64 offset (← mul 64 i 4)
    let first ← msg[j]?
    let second ← msg[← add 64 j 1]?
    let third ← msg[← add 64 j 2]?
    let fourth ← msg[← add 64 j 3]?
    store w i ((first.toUInt32 <<< 24) ||| (second.toUInt32 <<< 16)
      ||| (third.toUInt32 <<< 8) ||| fourth.toUInt32)) w

/-- The second loop on `w`. -/
def extendSchedule (w : Array UInt32) : Option (Array UInt32) :=
  (List.range' 16 48).foldlM (fun w i => do
    let w2 ← w[← sub i 2]?
    let w7 ← w[← sub i 7]?
    let w15 ← w[← sub i 15]?
    let w16 ← w[← sub i 16]?
    store w i (smallSigma1 w2 + w7 + smallSigma0 w15 + w16)) w

/-- One round. -/
def round (w : Array UInt32) (v : Vars) (i : Nat) : Option Vars := do
  let t1 := v.hh + bigSigma1 v.e + ch v.e v.f v.g + (← K[i]?) + (← w[i]?)
  let t2 := bigSigma0 v.a + maj v.a v.b v.c
  return { a := t1 + t2, b := v.a, c := v.b, d := v.c, e := v.d + t1, f := v.e, g := v.f, hh := v.g }

/-- The 64 rounds on one block and the additions to the hash value. -/
def compress (h w : Array UInt32) : Option (Array UInt32) := do
  let start : Vars := ⟨← h[0]?, ← h[1]?, ← h[2]?, ← h[3]?, ← h[4]?, ← h[5]?, ← h[6]?, ← h[7]?⟩
  let v ← (List.range 64).foldlM (round w) start
  return #[start.a + v.a, start.b + v.b, start.c + v.c, start.d + v.d,
    start.e + v.e, start.f + v.f, start.g + v.g, start.hh + v.hh]

/-- One pass of the loop over the blocks, with the step of `offset` at its end. -/
def block (msg : Array UInt8) (st : Array UInt32 × Array UInt32) (offset : Nat) :
    Option (Array UInt32 × Array UInt32) := do
  let w ← extendSchedule (← loadBlock msg offset st.2)
  let h ← compress st.1 w
  let _ ← add 64 offset 64
  return (h, w)

end Checked

/-- `btc::sha256` with every operation checked. -/
def checked (data : Array UInt8) : Option Hash256 := do
  let (msg, totalLen) ← Checked.paddedMessage data
  let offsets := (List.range (totalLen / 64)).map (64 * ·)
  let st ← offsets.foldlM (Checked.block msg) (initialHash, Array.replicate 64 0)
  return digest st.1

end HermitMiner.Sha256
