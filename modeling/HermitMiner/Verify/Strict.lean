import HermitMiner.Rfc8259.Lexical
import HermitMiner.Rfc8259.Utf8
import HermitMiner.Verify.Grammar

/-!
# The parser and RFC 8259

The grammar of the parser is the standard's, but for two rules of it: there may be control bytes in
the strings, and leading zeros in the numbers.

* `Conveys`: a value of the parser is the value of a JSON text.
* `valueText_of_value`: a text that the parser reads and that the scan accepts is one of the standard.
* `parse_strict_iff`: an accepted document is a JSON text with that value exactly when it is lexical.
-/

namespace HermitMiner

open JsonParser JsonGrammar
open Rfc8259 (Place Scanner places scan)

/-! ## Values -/

mutual

/-- The parser's value is what the text's value says. Numbers are not negative, and a name that is
repeated has its last value. -/
inductive Conveys : Rfc8259.Value → JsonValue → Prop where
  | null : Conveys .null .null
  | bool (b : Bool) : Conveys (.bool b) (.bool b)
  | number {ds : Bytes} (hdigits : Rfc8259.Digits ds) :
      Conveys (.number ds) (.number (digitsValue ds))
  | string (s : Bytes) : Conveys (.string s) (.string s)
  | object {ms : List (Bytes × Rfc8259.Value)} {members : List (Bytes × JsonValue)}
      (h : ConveyMembers ms members) : Conveys (.object ms) (.object (objectOf members))

inductive ConveyMembers : List (Bytes × Rfc8259.Value) → List (Bytes × JsonValue) → Prop where
  | nil : ConveyMembers [] []
  | cons {k : Bytes} {w : Rfc8259.Value} {v : JsonValue} {ms : List (Bytes × Rfc8259.Value)}
      {members : List (Bytes × JsonValue)} (h : Conveys w v) (hrest : ConveyMembers ms members) :
      ConveyMembers ((k, w) :: ms) ((k, v) :: members)

end

/-! ## Texts -/

section Texts

variable {a b body s text rest : Bytes} {v : JsonValue} {m : Bytes × JsonValue}
variable {members : List (Bytes × JsonValue)} {p q : Place}

theorem ws_of_blank (h : Blank a) : Rfc8259.Ws a := by
  intro c hc
  have hall : ∀ d ∈ str " \t\r\n", Rfc8259.isWs d = true := by decide +kernel
  exact hall c (h c hc)

theorem rfcIsDigit (c : UInt8) : Rfc8259.isDigit c = isDigit c := rfl

/-- What stands between the quotes, where the scan does not fail. -/
theorem chars_of_body (rest : Bytes) (h : Body body s)
    (hscan : scan Place.step .inside (body ++ rest) = some q) : Rfc8259.Chars body s := by
  induction h with
  | nil => exact .nil
  | @plain c text s hquote hslash _ ih =>
    have hcontrol : 0x20 ≤ c := by
      by_contra hlow
      have hstep : Place.step .inside c = none :=
        (if_neg hquote).trans ((if_neg hslash).trans (if_pos (UInt8.not_le.1 hlow)))
      rw [List.cons_append, Rfc8259.scan, hstep] at hscan
      cases hscan
    rw [List.cons_append, Rfc8259.scan_cons (Rfc8259.step_inside hcontrol hquote hslash)] at hscan
    exact .unescaped hcontrol hquote hslash (ih hscan)
  | escape hesc _ ih => exact .escape (.short hesc) (ih hscan)

/-- A run of digits, where the scan does not fail. -/
theorem digits_of_scan (hne : text ≠ []) (hdigits : ∀ d ∈ text, isDigit d = true)
    (hscan : scan Place.step .outside text = some q) :
    Rfc8259.NumberText [] text [] [] := by
  refine ⟨by simp, ⟨⟨hne, hdigits⟩, ?_⟩, .inl rfl, .inl rfl⟩
  intro hzero
  cases text with
  | nil => cases hzero
  | cons c text =>
    obtain rfl := Option.some.inj hzero
    cases text with
    | nil => rfl
    | cons d text =>
      have hstep : Place.step .zero d = none := by
        rw [Place.step, rfcIsDigit, hdigits d (by simp)]
        rfl
      rw [Rfc8259.scan_cons (q := .zero) rfl, Rfc8259.scan, hstep] at hscan
      cases hscan

/-- The member of a text that the scan accepts is one of the standard. -/
def StrictMember (text : Bytes) (m : Bytes × JsonValue) : Prop :=
  ∀ q, scan Place.step .outside text = some q →
    ∃ w, Rfc8259.Member text (m.1, w) ∧ Conveys w m.2

def StrictMembers (text : Bytes) (members : List (Bytes × JsonValue)) : Prop :=
  ∀ q, scan Place.step .outside text = some q →
    ∃ ms, Rfc8259.Members text ms ∧ ConveyMembers ms members

def StrictValue (text : Bytes) (v : JsonValue) : Prop :=
  ∀ q, scan Place.step .outside text = some q → ∃ w, Rfc8259.ValueText text w ∧ Conveys w v

theorem strict_number (hne : text ≠ []) (hdigits : ∀ d ∈ text, isDigit d = true) :
    StrictValue text (.number (digitsValue text)) := by
  intro q hscan
  have htext := Rfc8259.ValueText.number (digits_of_scan hne hdigits hscan)
  simp only [List.nil_append, List.append_nil] at htext
  exact ⟨_, htext, .number ⟨hne, hdigits⟩⟩

theorem strict_string (h : Body body s) : StrictValue (quoted body) (.string s) := by
  intro q hscan
  exact ⟨_, .string (chars_of_body [0x22] h hscan), .string s⟩

theorem strict_object (h : StrictMembers text members) :
    StrictValue (0x7B :: (text ++ [0x7D])) (.object (objectOf members)) := by
  intro q hscan
  rw [Rfc8259.scan_cons (q := .outside) rfl] at hscan
  obtain ⟨p, htext, -⟩ := Rfc8259.scan_split hscan
  obtain ⟨ms, hms, hmembers⟩ := h p htext
  exact ⟨_, .object hms, .object hmembers⟩

theorem strict_last (h : StrictMember text m) : StrictMembers text [m] := by
  intro q hscan
  obtain ⟨w, hmember, hw⟩ := h q hscan
  exact ⟨_, .last hmember, .cons hw .nil⟩

theorem strict_cons (h : StrictMember text m) (hrest : StrictMembers rest members) :
    StrictMembers (text ++ 0x2C :: rest) (m :: members) := by
  intro q hscan
  obtain ⟨p, htext, -⟩ := Rfc8259.scan_split hscan
  obtain ⟨w, hmember, hw⟩ := h p htext
  have hseen : places.Scans text := Scanner.member hmember
  obtain ⟨ms, hms, hmembers⟩ := hrest q (hseen.behind rfl hscan)
  exact ⟨_, .cons hmember hms, .cons hw hmembers⟩

theorem strict_member {key k c d : Bytes} (ha : Blank a) (hkey : Body key k) (hb : Blank b)
    (hc : Blank c) (h : StrictValue text v) (hd : Blank d) :
    StrictMember (a ++ (quoted key ++ (b ++ ch ':' :: (c ++ (text ++ d))))) (k, v) := by
  intro q hscan
  have hinside : scan Place.step .outside (quoted key ++ (b ++ ch ':' ::
      (c ++ (text ++ d)))) = some q := places.behind_ws (ws_of_blank ha) hscan
  have htext : quoted key ++ (b ++ ch ':' :: (c ++ (text ++ d))) =
      0x22 :: (key ++ 0x22 :: (b ++ 0x3A :: (c ++ (text ++ d)))) :=
    congrArg (0x22 :: ·) (List.append_assoc key [0x22] _)
  rw [htext, Rfc8259.scan_cons (q := .inside) rfl] at hinside
  have hchars := chars_of_body _ hkey hinside
  have hcolon : scan Place.step .outside (b ++ 0x3A :: (c ++ (text ++ d))) = some q := by
    rw [Rfc8259.scan_append, Rfc8259.scan_chars hchars] at hinside
    exact hinside
  have hblank : places.Scans b := .ws (ws_of_blank hb)
  obtain ⟨p, htext, -⟩ := Rfc8259.scan_split
    (places.behind_ws (ws_of_blank hc) (hblank.behind rfl hcolon))
  obtain ⟨w, hw, hconveys⟩ := h p htext
  exact ⟨w, .mk (ws_of_blank ha) hchars (ws_of_blank hb)
    (.mk (ws_of_blank hc) hw (ws_of_blank hd)), hconveys⟩

mutual

theorem strict_of_value : ∀ {text : Bytes} {v : JsonValue}, Value text v → StrictValue text v
  | _, _, .null => fun _ _ => ⟨_, .nullText, .null⟩
  | _, _, .true => fun _ _ => ⟨_, .trueText, .bool true⟩
  | _, _, .false => fun _ _ => ⟨_, .falseText, .bool false⟩
  | _, _, .number hne hdigits _ => strict_number hne hdigits
  | _, _, .string hbody => strict_string hbody
  | _, _, .empty ha => fun _ _ => ⟨_, .emptyObject (ws_of_blank ha), .object .nil⟩
  | _, _, .object h => strict_object (strict_of_members h)

theorem strict_of_members : ∀ {text : Bytes} {members : List (Bytes × JsonValue)},
    Members text members → StrictMembers text members
  | _, _, .last h => strict_last (strict_of_member h)
  | _, _, .cons h hrest => strict_cons (strict_of_member h) (strict_of_members hrest)

theorem strict_of_member : ∀ {text : Bytes} {m : Bytes × JsonValue}, Member text m →
    StrictMember text m
  | _, _, .mk ha hkey hb hc h hd => by
    simpa using strict_member ha hkey hb hc (strict_of_value h) hd

end

end Texts

/-! ## Documents -/

section Documents

variable {input : Bytes} {v : JsonValue}

theorem rfcDocument_of_lexical (h : Document input v) (hlexical : Rfc8259.Lexical input) :
    ∃ w, Rfc8259.Document input w ∧ Conveys w v := by
  obtain ⟨a, text, b, ha, htext, hb, rfl⟩ := h
  obtain ⟨q, hscan⟩ := Option.isSome_iff_exists.1 hlexical
  rw [List.append_assoc] at hscan ⊢
  obtain ⟨p, hp, -⟩ := Rfc8259.scan_split (places.behind_ws (ws_of_blank ha) hscan)
  obtain ⟨w, hw, hconveys⟩ := strict_of_value htext p hp
  exact ⟨w, .mk (ws_of_blank ha) hw (ws_of_blank hb), hconveys⟩

/-- **What the parser accepts**: a document that it accepts is a JSON text with the value it computes
exactly when no string of it has a control byte and no number a leading zero. -/
theorem parse_strict_iff (hutf8 : Rfc8259.IsUtf8 input) (h : (parse input).1 = some v) :
    (∃ w, Rfc8259.IsUtf8 input ∧ Rfc8259.Document input w ∧ Conveys w v) ↔
      Rfc8259.Lexical input := by
  constructor
  · rintro ⟨w, -, hw, -⟩
    exact hw.lexical
  · intro hlexical
    obtain ⟨w, hw, hconveys⟩ := rfcDocument_of_lexical (document_of_parse h) hlexical
    exact ⟨w, hutf8, hw, hconveys⟩

/-- A configuration with the number of threads. -/
def threadsText (ds : Bytes) : Bytes := ch '\x7b' :: (str "\"threads\":" ++ ds) ++ [ch '\x7d']

theorem parse_threadsText {ds : Bytes} (hne : ds ≠ []) (hdigits : ∀ d ∈ ds, isDigit d = true)
    (hrange : digitsValue ds < 2 ^ 64) : (parse (threadsText ds)).1 =
      some (.object [(str "threads", .number (digitsValue ds))]) := by
  have hbody : Body (str "threads") (str "threads") := by
    have hplain : ∀ s : Bytes, ch '"' ∉ s → ch '\\' ∉ s → Body s s := by
      intro s hquote hslash
      induction s with
      | nil => exact .nil
      | cons c s ih =>
        simp only [List.mem_cons, not_or] at hquote hslash
        exact .plain (Ne.symm hquote.1) (Ne.symm hslash.1) (ih hquote.2 hslash.2)
    exact hplain _ (by decide) (by decide)
  have hmember := Member.mk blank_nil hbody blank_nil blank_nil (.number hne hdigits hrange)
    blank_nil
  have hobject := Value.object (.last hmember)
  have htext : threadsText ds = [] ++ (ch '\x7b' :: ([] ++ quoted (str "threads") ++ [] ++
      ch ':' :: [] ++ ds ++ []) ++ [ch '\x7d']) ++ [] := by
    simp [threadsText, quoted, str]
  exact parse_of_document ⟨[], _, [], blank_nil, hobject, blank_nil, htext⟩

theorem utf8_threadsText {ds : Bytes} (hdigits : ∀ d ∈ ds, isDigit d = true) :
    Rfc8259.IsUtf8 (threadsText ds) := by
  have hlow : ∀ d ∈ ds, d < 0x80 := by
    intro d hd
    have hd := (isDigit_iff d).1 (hdigits d hd)
    rw [UInt8.lt_iff_toNat_lt]
    have h80 : (0x80 : UInt8).toNat = 128 := rfl
    omega
  apply Rfc8259.isUtf8_ascii
  simp only [threadsText, List.forall_mem_append, List.forall_mem_cons, List.cons_append]
  exact ⟨by decide, ⟨by decide +kernel, hlow⟩, by decide +kernel⟩

/-- Two threads. -/
theorem parse_strict_iff_threads :
    (∃ w, Rfc8259.IsUtf8 (threadsText (str "2")) ∧ Rfc8259.Document (threadsText (str "2")) w ∧
      Conveys w (.object [(str "threads", .number 2)])) ↔
        Rfc8259.Lexical (threadsText (str "2")) :=
  have hdigits : ∀ d ∈ str "2", isDigit d = true := List.all_eq_true.1 (by decide)
  parse_strict_iff (utf8_threadsText hdigits) (parse_threadsText (by decide) hdigits (by decide))

/-- Two threads with a leading zero are accepted too. -/
theorem parse_not_strict :
    ¬ ∀ (input : Bytes) (v : JsonValue), Rfc8259.IsUtf8 input → (parse input).1 = some v →
      ∃ w, Rfc8259.IsUtf8 input ∧ Rfc8259.Document input w ∧ Conveys w v := by
  intro hall
  have hdigits : ∀ d ∈ str "02", isDigit d = true := List.all_eq_true.1 (by decide)
  obtain ⟨w, -, hw, -⟩ := hall (threadsText (str "02")) _ (utf8_threadsText hdigits)
    (parse_threadsText (by decide) hdigits (by decide))
  exact absurd hw.lexical (by unfold Rfc8259.Lexical; decide)

end Documents

end HermitMiner
