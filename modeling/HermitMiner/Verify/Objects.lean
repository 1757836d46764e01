import HermitMiner.Rfc8259.Utf8
import HermitMiner.Verify.Escapes

/-!
# Objects of strings and numbers

What the logger and the runtime write, in the abstract.

* `Field`, `objectText`, `objectValue`: such an object, how it is written, and what it denotes.
* `utf8_jsonEscape`: escaping keeps UTF-8.
* `jsonLine_iff`: the text is JSON for the object exactly when its strings are escapable.
-/

namespace HermitMiner

open Rfc8259 (Chars Value ValueText Members Member Document IsUtf8)

/-! ## Fields -/

section Objects

/-- A member of an object, under a key without anything to escape. -/
inductive Field where
  | string (key s : Bytes)
  /-- A number as it is printed. -/
  | number (key text : Bytes)

namespace Field

def key : Field → Bytes
  | .string key _ | .number key _ => key

/-- The text after the colon. -/
def valueText : Field → Bytes
  | .string _ s => Rfc8259.quoted (jsonEscape s)
  | .number _ text => text

def value : Field → Value
  | .string _ s => .string s
  | .number _ text => .number text

def text (f : Field) : Bytes := Rfc8259.quoted f.key ++ ch ':' :: f.valueText

/-- A string is in UTF-8, and a number is a number of JSON. -/
def Sound : Field → Prop
  | .string _ s => IsUtf8 s
  | .number _ text => ValueText text (.number text) ∧ ∀ c ∈ text, isDigit c = true ∨ c = ch '.'

def Escapable : Field → Prop
  | .string _ s => HermitMiner.Escapable s
  | .number .. => True

end Field

def membersText : List Field → Bytes
  | [] => []
  | [f] => f.text
  | f :: g :: fs => f.text ++ ch ',' :: membersText (g :: fs)

/-- The members after the first one. -/
def membersTail (fs : List Field) : Bytes := fs.flatMap fun f => ch ',' :: f.text

def objectText (fs : List Field) : Bytes := ch '\x7b' :: (membersText fs ++ [ch '\x7d'])

def objectValue (fs : List Field) : Value := .object (fs.map fun f => (f.key, f.value))

/-- The text is one line of UTF-8, and JSON for the value. -/
structure JsonLine (text : Bytes) (v : Value) : Prop where
  utf8 : IsUtf8 text
  inLine : InLine text
  document : Document text v

/-- A key of printed ASCII letters. -/
def isKey (key : Bytes) : Bool :=
  key.all fun c => 0x20 ≤ c && c < 0x80 && c != ch '"' && c != ch '\\'

variable {fs : List Field} {f : Field}

theorem membersText_cons (f : Field) (fs : List Field) :
    membersText (f :: fs) = f.text ++ membersTail fs := by
  induction fs generalizing f with
  | nil => simp [membersText, membersTail]
  | cons g fs ih =>
    have htail : membersTail (g :: fs) = ch ',' :: (g.text ++ membersTail fs) := rfl
    rw [membersText, ih, htail]

theorem chars_key {key : Bytes} (h : isKey key = true) : Chars key key := by
  apply chars_self
  intro c hc
  have hkey := List.all_eq_true.1 h c hc
  simp only [Bool.and_eq_true, decide_eq_true_eq, bne_iff_ne] at hkey
  exact ⟨hkey.1.1.1, hkey.1.2, hkey.2⟩

theorem member_text (hkey : isKey f.key = true) (hsound : f.Sound) (h : f.Escapable) :
    Member f.text (f.key, f.value) := by
  apply member_tight (chars_key hkey)
  cases f with
  | string key s => exact .string (chars_jsonEscape h)
  | number key text => exact hsound.1

theorem members_membersText (hne : fs ≠ []) (hkeys : ∀ f ∈ fs, isKey f.key = true)
    (hsound : ∀ f ∈ fs, f.Sound) (h : ∀ f ∈ fs, f.Escapable) :
    Members (membersText fs) (fs.map fun f => (f.key, f.value)) := by
  have hmember : ∀ f ∈ fs, Member f.text (f.key, f.value) := fun f hf =>
    member_text (hkeys f hf) (hsound f hf) (h f hf)
  clear hkeys hsound h
  induction fs using membersText.induct with
  | case1 => exact absurd rfl hne
  | case2 f => exact .last (hmember f List.mem_cons_self)
  | case3 f g fs ih =>
    exact .cons (hmember f List.mem_cons_self)
      (ih (by simp) fun f' hf' => hmember f' (List.mem_cons_of_mem f hf'))

theorem mem_membersText {c : UInt8} (hf : f ∈ fs) (hc : c ∈ f.text) : c ∈ membersText fs := by
  induction fs using membersText.induct with
  | case1 => cases hf
  | case2 g =>
    obtain rfl := List.mem_singleton.1 hf
    exact hc
  | case3 g g' fs ih =>
    rw [membersText]
    rcases List.mem_cons.1 hf with rfl | hf
    · exact List.mem_append_left _ hc
    · exact List.mem_append_right _ (List.mem_cons_of_mem _ (ih hf))

theorem mem_objectText {c : UInt8} {key s : Bytes} (hf : .string key s ∈ fs)
    (hc : c ∈ jsonEscape s) : c ∈ objectText fs := by
  have htext : c ∈ (Field.string key s).text := by
    simp [Field.text, Field.valueText, Rfc8259.quoted, hc]
  exact List.mem_cons_of_mem _ (List.mem_append_left _ (mem_membersText hf htext))

/-- What holds of all texts and of the commas holds of the members. -/
theorem membersText_induction {P : Bytes → Prop} (hnil : P []) (hcomma : P [ch ','])
    (happend : ∀ a b, P a → P b → P (a ++ b)) (h : ∀ f ∈ fs, P f.text) : P (membersText fs) := by
  induction fs using membersText.induct with
  | case1 => exact hnil
  | case2 f => exact h f List.mem_cons_self
  | case3 f g fs ih =>
    have hrest := ih fun f' hf' => h f' (List.mem_cons_of_mem f hf')
    exact happend _ _ (h f List.mem_cons_self) (happend _ _ hcomma hrest)

theorem jsonEscape_append (s t : Bytes) : jsonEscape (s ++ t) = jsonEscape s ++ jsonEscape t :=
  List.flatMap_append

theorem ascii_jsonEscapeByte {c : UInt8} (hc : c < 0x80) : ∀ d ∈ jsonEscapeByte c, d < 0x80 := by
  unfold jsonEscapeByte
  repeat' split
  · decide +kernel
  · decide +kernel
  · decide +kernel
  · decide +kernel
  · decide +kernel
  · simpa using hc

theorem jsonEscapeByte_high {c : UInt8} (hc : 0x80 ≤ c) : jsonEscapeByte c = [c] := by
  have hne : ∀ d : UInt8, d < 0x80 → c ≠ d := by
    rintro d hd rfl
    exact absurd hd (UInt8.not_lt.2 hc)
  unfold jsonEscapeByte
  rw [if_neg (hne _ (by decide)), if_neg (hne _ (by decide)), if_neg (hne _ (by decide)),
    if_neg (hne _ (by decide)), if_neg (hne _ (by decide))]

/-- Only characters of one byte are escaped. -/
theorem utf8_jsonEscape {s : Bytes} (h : IsUtf8 s) : IsUtf8 (jsonEscape s) := by
  obtain ⟨cs, rfl⟩ := h
  induction cs with
  | nil => exact Rfc8259.isUtf8_nil
  | cons c cs ih =>
    rw [List.flatMap_cons, jsonEscape_append]
    refine IsUtf8.append ?_ ih
    rcases Rfc8259.encode_cases c with ⟨b, hb, hc⟩ | ⟨-, hhigh⟩
    · rw [hc]
      apply Rfc8259.isUtf8_ascii
      intro d hd
      rw [jsonEscape, List.flatMap_singleton] at hd
      exact ascii_jsonEscapeByte hb d hd
    · rw [jsonEscape_self fun b hb => jsonEscapeByte_high (hhigh b hb)]
      exact Rfc8259.isUtf8_encode c

theorem utf8_text (hkey : isKey f.key = true) (hsound : f.Sound) : IsUtf8 f.text := by
  have hquote : IsUtf8 [ch '"'] := Rfc8259.isUtf8_singleton (by decide)
  have hcolon : IsUtf8 [ch ':'] := Rfc8259.isUtf8_singleton (by decide)
  have hname : IsUtf8 f.key := by
    apply Rfc8259.isUtf8_ascii
    intro c hc
    have hc := List.all_eq_true.1 hkey c hc
    simp only [Bool.and_eq_true, decide_eq_true_eq] at hc
    exact hc.1.1.2
  have hvalue : IsUtf8 f.valueText := by
    cases f with
    | string key s => exact hquote.append ((utf8_jsonEscape hsound).append hquote)
    | number key text =>
      apply Rfc8259.isUtf8_ascii
      intro c hc
      rcases hsound.2 c hc with hc | rfl
      · rw [isDigit_iff] at hc
        rw [UInt8.lt_iff_toNat_lt]
        exact Nat.lt_of_le_of_lt hc.2 (by decide)
      · decide
  exact (hquote.append (hname.append hquote)).append (hcolon.append hvalue)

theorem inLine_text (hkey : isKey f.key = true) (hsound : f.Sound) : InLine f.text := by
  have hquote : InLine [ch '"'] := by simp [InLine, ch]
  have hcolon : InLine [ch ':'] := by simp [InLine, ch]
  have hname : InLine f.key := by
    intro c hc
    have hc := List.all_eq_true.1 hkey c hc
    simp only [Bool.and_eq_true, decide_eq_true_eq] at hc
    have hprint : 0x20 ≤ c := hc.1.1.1
    constructor <;> rintro rfl <;> exact absurd hprint (by decide)
  have hvalue : InLine f.valueText := by
    cases f with
    | string key s => exact hquote.append ((inLine_jsonEscape s).append hquote)
    | number key text =>
      intro c hc
      rcases hsound.2 c hc with hc | rfl
      · constructor <;> rintro rfl <;> exact absurd hc (by decide)
      · decide
  exact (hquote.append (hname.append hquote)).append (hcolon.append hvalue)

/-- **Objects**: what is written is JSON for what was to be written exactly when nothing in its
strings has to be escaped and is not. -/
theorem jsonLine_iff (hne : fs ≠ []) (hkeys : ∀ f ∈ fs, isKey f.key = true)
    (hsound : ∀ f ∈ fs, f.Sound) :
    JsonLine (objectText fs) (objectValue fs) ↔ ∀ f ∈ fs, f.Escapable := by
  constructor
  · intro h f hf
    cases f with
    | number key text => trivial
    | string key s =>
      apply escapable_of_printable
      intro c hc
      exact h.document.not_control (mem_objectText hf hc)
  · intro h
    have hcomma : IsUtf8 [ch ','] := Rfc8259.isUtf8_singleton (by decide)
    have hopen : IsUtf8 [ch '\x7b'] := Rfc8259.isUtf8_singleton (by decide)
    have hclose : IsUtf8 [ch '\x7d'] := Rfc8259.isUtf8_singleton (by decide)
    have hutf8 : IsUtf8 (membersText fs) :=
      membersText_induction Rfc8259.isUtf8_nil hcomma (fun _ _ => IsUtf8.append) fun f hf =>
        utf8_text (hkeys f hf) (hsound f hf)
    have hline : InLine (membersText fs) :=
      membersText_induction (by simp [InLine]) (by simp [InLine, ch]) (fun _ _ => InLine.append)
        fun f hf => inLine_text (hkeys f hf) (hsound f hf)
    exact {
      utf8 := hopen.append (hutf8.append hclose)
      inLine := (show InLine [ch '\x7b'] by simp [InLine, ch]).append
        (hline.append (by simp [InLine, ch]))
      document := element_tight (.object (members_membersText hne hkeys hsound h)) }

end Objects

end HermitMiner
