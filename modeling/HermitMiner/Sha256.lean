import HermitMiner.Bytes

/-!
# SHA-256

`src/sha256.cpp`, loop by loop: the padded buffer, the message schedule kept in one array from
block to block, the 64 rounds, and the digest bytes.
-/

namespace HermitMiner

/-- `btc::Hash256`. -/
abbrev Hash256 := Vector UInt8 32

namespace Sha256

/-- The round constants. -/
def K : Array UInt32 := #[
  0x428a2f98, 0x71374491, 0xb5c0fbcf, 0xe9b5dba5,
  0x3956c25b, 0x59f111f1, 0x923f82a4, 0xab1c5ed5,
  0xd807aa98, 0x12835b01, 0x243185be, 0x550c7dc3,
  0x72be5d74, 0x80deb1fe, 0x9bdc06a7, 0xc19bf174,
  0xe49b69c1, 0xefbe4786, 0x0fc19dc6, 0x240ca1cc,
  0x2de92c6f, 0x4a7484aa, 0x5cb0a9dc, 0x76f988da,
  0x983e5152, 0xa831c66d, 0xb00327c8, 0xbf597fc7,
  0xc6e00bf3, 0xd5a79147, 0x06ca6351, 0x14292967,
  0x27b70a85, 0x2e1b2138, 0x4d2c6dfc, 0x53380d13,
  0x650a7354, 0x766a0abb, 0x81c2c92e, 0x92722c85,
  0xa2bfe8a1, 0xa81a664b, 0xc24b8b70, 0xc76c51a3,
  0xd192e819, 0xd6990624, 0xf40e3585, 0x106aa070,
  0x19a4c116, 0x1e376c08, 0x2748774c, 0x34b0bcb5,
  0x391c0cb3, 0x4ed8aa4a, 0x5b9cca4f, 0x682e6ff3,
  0x748f82ee, 0x78a5636f, 0x84c87814, 0x8cc70208,
  0x90befffa, 0xa4506ceb, 0xbef9a3f7, 0xc67178f2]

def rotr (x n : UInt32) : UInt32 := (x >>> n) ||| (x <<< (32 - n))

def ch (x y z : UInt32) : UInt32 := (x &&& y) ^^^ (~~~x &&& z)

def maj (x y z : UInt32) : UInt32 := (x &&& y) ^^^ (x &&& z) ^^^ (y &&& z)

def bigSigma0 (x : UInt32) : UInt32 := rotr x 2 ^^^ rotr x 13 ^^^ rotr x 22

def bigSigma1 (x : UInt32) : UInt32 := rotr x 6 ^^^ rotr x 11 ^^^ rotr x 25

def smallSigma0 (x : UInt32) : UInt32 := rotr x 7 ^^^ rotr x 18 ^^^ (x >>> 3)

def smallSigma1 (x : UInt32) : UInt32 := rotr x 17 ^^^ rotr x 19 ^^^ (x >>> 10)

/-- The hash value before the first block. -/
def initialHash : Array UInt32 := #[
  0x6a09e667, 0xbb67ae85, 0x3c6ef372, 0xa54ff53a,
  0x510e527f, 0x9b05688c, 0x1f83d9ab, 0x5be0cd19]

/-- `bit_len`, a 64-bit `size_t`. -/
def bitLen (len : Nat) : Nat := len * 8 % 2 ^ 64

/-- `total_len`, a 64-bit `size_t`. -/
def totalLen (len : Nat) : Nat := (len + 9 + 63) % 2 ^ 64 / 64 * 64

/-- The buffer `msg`: the data, `0x80`, zeros, and the bit length in the last eight bytes. -/
def paddedMessage (data : Array UInt8) : Array UInt8 :=
  let len := data.size
  let msg := Array.replicate (totalLen len) 0
  let msg := (List.range len).foldl (fun msg i => msg.set! i data[i]!) msg
  let msg := msg.set! len 0x80
  (List.range 8).foldl
    (fun msg i => msg.set! (totalLen len - 1 - i) (bitLen len >>> (i * 8) &&& 0xff).toUInt8) msg

/-- The first loop on `w`: sixteen big-endian words of the block at `offset`. -/
def loadBlock (msg : Array UInt8) (offset : Nat) (w : Array UInt32) : Array UInt32 :=
  (List.range 16).foldl (fun w i =>
    let j := offset + i * 4
    w.set! i ((msg[j]!.toUInt32 <<< 24) ||| (msg[j + 1]!.toUInt32 <<< 16)
      ||| (msg[j + 2]!.toUInt32 <<< 8) ||| msg[j + 3]!.toUInt32)) w

/-- The second loop on `w`. -/
def extendSchedule (w : Array UInt32) : Array UInt32 :=
  (List.range' 16 48).foldl (fun w i =>
    w.set! i (smallSigma1 w[i - 2]! + w[i - 7]! + smallSigma0 w[i - 15]! + w[i - 16]!)) w

/-- The working variables. -/
structure Vars where
  a : UInt32
  b : UInt32
  c : UInt32
  d : UInt32
  e : UInt32
  f : UInt32
  g : UInt32
  hh : UInt32
  deriving DecidableEq

/-- One round. -/
def round (w : Array UInt32) (v : Vars) (i : Nat) : Vars :=
  let t1 := v.hh + bigSigma1 v.e + ch v.e v.f v.g + K[i]! + w[i]!
  let t2 := bigSigma0 v.a + maj v.a v.b v.c
  { a := t1 + t2, b := v.a, c := v.b, d := v.c, e := v.d + t1, f := v.e, g := v.f, hh := v.g }

/-- The 64 rounds on one block and the additions to the hash value. -/
def compress (h w : Array UInt32) : Array UInt32 :=
  let v := (List.range 64).foldl (round w) ⟨h[0]!, h[1]!, h[2]!, h[3]!, h[4]!, h[5]!, h[6]!, h[7]!⟩
  #[h[0]! + v.a, h[1]! + v.b, h[2]! + v.c, h[3]! + v.d,
    h[4]! + v.e, h[5]! + v.f, h[6]! + v.g, h[7]! + v.hh]

/-- One pass of the loop over the blocks; `w` is the array left by the block before. -/
def block (msg : Array UInt8) (st : Array UInt32 × Array UInt32) (offset : Nat) :
    Array UInt32 × Array UInt32 :=
  let w := extendSchedule (loadBlock msg offset st.2)
  (compress st.1 w, w)

/-- The digest bytes of the final hash value, most significant byte first. -/
def digest (h : Array UInt32) : Hash256 :=
  (List.range 8).foldl (fun out i =>
    out.set! (i * 4) (h[i]! >>> 24 &&& 0xff).toUInt8
      |>.set! (i * 4 + 1) (h[i]! >>> 16 &&& 0xff).toUInt8
      |>.set! (i * 4 + 2) (h[i]! >>> 8 &&& 0xff).toUInt8
      |>.set! (i * 4 + 3) (h[i]! &&& 0xff).toUInt8) (Vector.replicate 32 0)

end Sha256

/-- `btc::sha256`. -/
def sha256 (data : Array UInt8) : Hash256 :=
  let msg := Sha256.paddedMessage data
  let offsets := (List.range (Sha256.totalLen data.size / 64)).map (64 * ·)
  let st := offsets.foldl (Sha256.block msg) (Sha256.initialHash, Array.replicate 64 0)
  Sha256.digest st.1

/-- `btc::double_sha256`. -/
def doubleSha256 (data : Bytes) : Hash256 :=
  sha256 (sha256 data.toArray).toArray

end HermitMiner
