import HermitMiner.Sha256
import HermitMiner.Strtoul

/-!
# The difficulty test

`src/lib/job.cpp`: `meets_difficulty`, and the text of a hash and back.
-/

namespace HermitMiner

/-- The loop of `meets_difficulty` over the bytes of the hash that are left. -/
def meetsDifficultyLoop : List UInt8 → UInt32 → Bool
  | [], _ => true
  | byte :: hash, bitsLeft =>
    if bitsLeft = 0 then true
    else if 8 ≤ bitsLeft then
      if byte ≠ 0 then false else meetsDifficultyLoop hash (bitsLeft - 8)
    else
      -- a 32-bit shift, of which the cast keeps the low byte
      let mask := (0xff <<< (8 - bitsLeft)).toUInt8
      byte &&& mask = 0

def meetsDifficulty (hash : Hash256) (difficultyBits : UInt32) : Bool :=
  meetsDifficultyLoop hash.toList difficultyBits

/-- `hash_to_hex`: two lower-case hexadecimal digits for each byte. -/
def hashToHex (hash : Hash256) : Bytes :=
  hash.toList.flatMap fun b => ((Nat.toDigits 16 b.toNat).map ch).leftpad 2 (ch '0')

/-- The strings `hex.substr(i, 2)` for every second `i`. -/
def byteStrs : Bytes → List Bytes
  | [] => []
  | [c] => [[c]]
  | c :: d :: hex => [c, d] :: byteStrs hex

/-- One pass of the loop of `hex_to_bytes`, or nothing where `std::stoul` throws. -/
def byteOfStr (byteStr : Bytes) : Option UInt8 :=
  (strtoul 16 64 byteStr).map fun (value, _) => value.toUInt8

/-- `hex_to_bytes`, or nothing where it throws. -/
def hexToBytes (hex : Bytes) : Option Bytes := (byteStrs hex).mapM byteOfStr

end HermitMiner
