import Mathlib.Data.Nat.Find
import Mathlib.Data.Nat.NthRoot.Defs
import Mathlib.Data.Nat.Prime.Defs
import Mathlib.Tactic.Ring

/-!
# SHA-256 over bit strings

The function of the Secure Hash Standard in the standard's own terms: a message is a string of bits
of any length below `2 ^ 64`, a word is a bit vector of 32, the schedule is a recursion, and the
constants are the roots of primes.

* `pad`, `blockWord`: the padded message and its words.
* `schedule`, `rounds`, `compress`: one block.
* `hashValue`, `sha256`: the chain of blocks and the digest.
* `primes_eq`: the primes under the constants.
* `bits_add`, `value_append`: how bit strings split.
-/

namespace SecureHash

abbrev Word := BitVec 32

/-- The `w` low bits of a number, the most significant first. -/
def bits : Nat → Nat → List Bool
  | 0, _ => []
  | w + 1, n => n.testBit w :: bits w n

/-- The number that a bit string denotes. -/
def value (bs : List Bool) : Nat := bs.foldl (fun n b => 2 * n + b.toNat) 0

def word (bs : List Bool) : Word := BitVec.ofNat 32 (value bs)

/-! ## Functions and constants -/

section

variable (x y z : Word)

def ch : Word := (x &&& y) ^^^ (~~~x &&& z)

def maj : Word := (x &&& y) ^^^ (x &&& z) ^^^ (y &&& z)

def bigSigma0 : Word := x.rotateRight 2 ^^^ x.rotateRight 13 ^^^ x.rotateRight 22

def bigSigma1 : Word := x.rotateRight 6 ^^^ x.rotateRight 11 ^^^ x.rotateRight 25

def smallSigma0 : Word := x.rotateRight 7 ^^^ x.rotateRight 18 ^^^ x >>> 3

def smallSigma1 : Word := x.rotateRight 17 ^^^ x.rotateRight 19 ^^^ x >>> 10

end

/-- The first 64 primes. -/
def primes : List Nat := (List.range 312).filter fun n => Nat.Prime n

/-- The first 32 bits of the fractional part of the `k`-th root of `n`. -/
def rootFraction (k n : Nat) : Word := BitVec.ofNat 32 (Nat.nthRoot k (n * 2 ^ (32 * k)))

def K (t : Nat) : Word := rootFraction 3 primes[t]!

/-! ## Preprocessing -/

theorem exists_zeros (l : Nat) : ∃ k, (l + 1 + k) % 512 = 448 :=
  ⟨(959 - l % 512) % 512, by omega⟩

/-- The least number of zeros that leaves room for the length in the last block. -/
def zeros (l : Nat) : Nat := Nat.find (exists_zeros l)

def pad (message : List Bool) : List Bool :=
  message ++ true :: (List.replicate (zeros message.length) false ++ bits 64 message.length)

/-- Word `t` of block `i`. -/
def blockWord (padded : List Bool) (i t : Nat) : Word :=
  word ((padded.drop (512 * i + 32 * t)).take 32)

/-! ## Computation -/

/-- The eight words of a hash value, and the eight working variables. -/
structure Vars where
  a : Word
  b : Word
  c : Word
  d : Word
  e : Word
  f : Word
  g : Word
  h : Word

def initial : Vars where
  a := rootFraction 2 2
  b := rootFraction 2 3
  c := rootFraction 2 5
  d := rootFraction 2 7
  e := rootFraction 2 11
  f := rootFraction 2 13
  g := rootFraction 2 17
  h := rootFraction 2 19

/-- The message schedule of a block. -/
def schedule (block : Nat → Word) (t : Nat) : Word :=
  if t < 16 then block t
  else smallSigma1 (schedule block (t - 2)) + schedule block (t - 7)
    + smallSigma0 (schedule block (t - 15)) + schedule block (t - 16)
termination_by t
decreasing_by all_goals omega

def round (v : Vars) (k w : Word) : Vars :=
  let t1 := v.h + bigSigma1 v.e + ch v.e v.f v.g + k + w
  let t2 := bigSigma0 v.a + maj v.a v.b v.c
  { a := t1 + t2, b := v.a, c := v.b, d := v.c, e := v.d + t1, f := v.e, g := v.f, h := v.g }

/-- The working variables after the first `t` rounds. -/
def rounds (block : Nat → Word) (v : Vars) : Nat → Vars
  | 0 => v
  | t + 1 => round (rounds block v t) (K t) (schedule block t)

def compress (v : Vars) (block : Nat → Word) : Vars :=
  let r := rounds block v 64
  { a := v.a + r.a, b := v.b + r.b, c := v.c + r.c, d := v.d + r.d
    e := v.e + r.e, f := v.f + r.f, g := v.g + r.g, h := v.h + r.h }

/-- The hash value after the first `i` blocks. -/
def hashValue (padded : List Bool) : Nat → Vars
  | 0 => initial
  | i + 1 => compress (hashValue padded i) (blockWord padded i)

def digest (v : Vars) : List Bool :=
  [v.a, v.b, v.c, v.d, v.e, v.f, v.g, v.h].flatMap fun w => bits 32 w.toNat

def sha256 (message : List Bool) : List Bool :=
  digest (hashValue (pad message) ((pad message).length / 512))

/-! ## Primes -/

/-- A number below `18 * 18` is prime when nothing below 18 divides it. -/
theorem prime_iff {n : Nat} (hn : n < 324) :
    Nat.Prime n ↔ 2 ≤ n ∧ ∀ m < 18, 2 ≤ m → m * m ≤ n → ¬m ∣ n := by
  rw [Nat.prime_def_le_sqrt]
  refine and_congr_right fun _ => ⟨?_, ?_⟩
  · intro h m _ hm hsq
    exact h m hm (Nat.le_sqrt.2 hsq)
  · intro h m hm hsqrt
    have hsq := Nat.le_sqrt.1 hsqrt
    have hm18 : m < 18 := by
      by_contra hge
      have := Nat.mul_le_mul (Nat.le_of_not_lt hge) (Nat.le_of_not_lt hge)
      omega
    exact h m hm18 hm hsq

/-- The list of primes, written out. -/
theorem primes_eq : primes =
    [2, 3, 5, 7, 11, 13, 17, 19, 23, 29, 31, 37, 41, 43, 47, 53, 59, 61, 67, 71, 73, 79, 83, 89, 97,
      101, 103, 107, 109, 113, 127, 131, 137, 139, 149, 151, 157, 163, 167, 173, 179, 181, 191, 193,
      197, 199, 211, 223, 227, 229, 233, 239, 241, 251, 257, 263, 269, 271, 277, 281, 283, 293, 307,
      311] := by
  have htest : primes = (List.range 312).filter fun n =>
      2 ≤ n ∧ ∀ m < 18, 2 ≤ m → m * m ≤ n → ¬m ∣ n := by
    apply List.filter_congr
    intro n hn
    rw [List.mem_range] at hn
    exact decide_eq_decide.2 (prime_iff (by omega))
  rw [htest]
  decide +kernel

/-! ## Bit strings -/

@[simp] theorem length_bits (w n : Nat) : (bits w n).length = w := by
  induction w with
  | zero => rfl
  | succ w ih => rw [bits, List.length_cons, ih]

theorem bits_add (a b n : Nat) : bits (a + b) n = bits a (n >>> b) ++ bits b n := by
  induction a with
  | zero => simp [bits]
  | succ a ih =>
    rw [Nat.add_right_comm, bits, bits, ih, Nat.testBit_shiftRight, Nat.add_comm b a]
    rfl

theorem bits_mod (w n : Nat) : bits w (n % 2 ^ w) = bits w n := by
  have hle : ∀ k ≤ w, bits k (n % 2 ^ w) = bits k n := by
    intro k hk
    induction k with
    | zero => rfl
    | succ k ih =>
      rw [bits, bits, ih (by omega), Nat.testBit_mod_two_pow]
      simp [Nat.lt_of_succ_le hk]
  exact hle w le_rfl

theorem value_append (bs cs : List Bool) :
    value (bs ++ cs) = value bs * 2 ^ cs.length + value cs := by
  induction cs generalizing bs with
  | nil => simp [value]
  | cons c cs ih =>
    have hmove : bs ++ c :: cs = (bs ++ [c]) ++ cs := by simp
    have hsnoc : value (bs ++ [c]) = 2 * value bs + c.toNat := by simp [value]
    have hhead : value (c :: cs) = c.toNat * 2 ^ cs.length + value cs := by
      have hone := ih [c]
      simpa [value] using hone
    rw [hmove, ih, hsnoc, hhead, List.length_cons, pow_succ]
    ring

theorem value_bits (w n : Nat) : value (bits w n) = n % 2 ^ w := by
  induction w with
  | zero => simp [bits, value, Nat.mod_one]
  | succ w ih =>
    have hcons : bits (w + 1) n = [n.testBit w] ++ bits w n := rfl
    rw [hcons, value_append, ih, length_bits, Nat.mod_pow_succ, Nat.testBit_eq_decide_div_mod_eq]
    rcases Nat.mod_two_eq_zero_or_one (n / 2 ^ w) with h | h <;> simp [h, value, Nat.add_comm]

theorem value_lt (bs : List Bool) : value bs < 2 ^ bs.length := by
  induction bs with
  | nil => decide
  | cons b bs ih =>
    have hcons : b :: bs = [b] ++ bs := rfl
    have hhead : value [b] ≤ 1 := by cases b <;> decide
    rw [hcons, value_append, List.length_append, List.length_singleton, Nat.pow_add, Nat.pow_one]
    have hbit := Nat.mul_le_mul_right (2 ^ bs.length) hhead
    omega

theorem value_eq_zero_iff (bs : List Bool) : value bs = 0 ↔ ∀ b ∈ bs, b = false := by
  induction bs with
  | nil => simp [value]
  | cons b bs ih =>
    have hcons : b :: bs = [b] ++ bs := rfl
    rw [hcons, value_append, Nat.add_eq_zero_iff, ih, List.forall_mem_append,
      List.forall_mem_singleton]
    cases b <;> simp [value]

/-- The number is below a power of two exactly when the bits above it are zeros. -/
theorem value_lt_two_pow_iff (bs : List Bool) (k : Nat) :
    value bs < 2 ^ (bs.length - k) ↔ ∀ b ∈ bs.take k, b = false := by
  have hlow := value_lt (bs.drop k)
  rw [List.length_drop] at hlow
  have hsplit : value bs = value (bs.take k) * 2 ^ (bs.length - k) + value (bs.drop k) := by
    rw [← List.length_drop, ← value_append, List.take_append_drop]
  rw [← value_eq_zero_iff, hsplit]
  constructor
  · intro h
    by_contra hne
    have hpos : 1 * 2 ^ (bs.length - k) ≤ value (bs.take k) * 2 ^ (bs.length - k) :=
      Nat.mul_le_mul_right _ (Nat.pos_of_ne_zero hne)
    omega
  · intro h
    rw [h, Nat.zero_mul, Nat.zero_add]
    exact hlow

/-- How many bits a bit string starts with before the first one that is set. -/
def leadingZeros (bs : List Bool) : Nat := (bs.takeWhile fun b => !b).length

theorem le_leadingZeros_iff {bs : List Bool} {k : Nat} (hk : k ≤ bs.length) :
    k ≤ leadingZeros bs ↔ ∀ b ∈ bs.take k, b = false := by
  induction bs generalizing k with
  | nil =>
    obtain rfl : k = 0 := Nat.le_zero.1 hk
    simp
  | cons b bs ih =>
    cases k with
    | zero => simp
    | succ k =>
      have hrest := ih (Nat.le_of_succ_le_succ hk)
      unfold leadingZeros at hrest ⊢
      cases b with
      | true => simp
      | false => simpa using hrest

/-! ## Padding -/

theorem zeros_eq (l : Nat) : zeros l = (959 - l % 512) % 512 := by
  unfold zeros
  rw [Nat.find_eq_iff]
  refine ⟨by omega, ?_⟩
  intro k hk
  omega

end SecureHash
