import HermitMiner.Rfc8259.Strings

/-!
# A JSON text denotes one value

Two texts of the grammar at the same place of an input are the same text, and denote the same value.

* `unique_array`, `unique_consMember`, …: one step for each production.
* `Document.unique`: a text denotes one value.
* `Document.not_control`: the control bytes in a text are white space.
-/

namespace Rfc8259

/-! ## Runs of a class of bytes -/

section Classes

variable {α : Type} {p : α → Bool} {a a' r r' : List α}

theorem split_class (ha : ∀ c ∈ a, p c = true) (ha' : ∀ c ∈ a', p c = true)
    (hr : ∀ c ∈ r.head?, p c = false) (hr' : ∀ c ∈ r'.head?, p c = false)
    (h : a ++ r = a' ++ r') : a = a' ∧ r = r' := by
  induction a generalizing a' with
  | nil =>
    cases a' with
    | nil => exact ⟨rfl, h⟩
    | cons c a' =>
      have hc := hr c (by rw [← List.nil_append r, h]; rfl)
      rw [ha' c List.mem_cons_self] at hc
      cases hc
  | cons c a ih =>
    cases a' with
    | nil =>
      have hc := hr' c (by rw [← List.nil_append r', ← h]; rfl)
      rw [ha c List.mem_cons_self] at hc
      cases hc
    | cons c' a' =>
      obtain ⟨rfl, htail⟩ := List.cons.inj h
      obtain ⟨rfl, rfl⟩ := ih (fun d hd => ha d (List.mem_cons_of_mem _ hd))
        (fun d hd => ha' d (List.mem_cons_of_mem _ hd)) htail
      exact ⟨rfl, rfl⟩

end Classes

/-! ## The first byte of a value -/

section Heads

variable {a a' r r' text : Text} {c c' : UInt8} {v v' : Value}

/-- The bytes of numbers. -/
def isNumber (c : UInt8) : Bool :=
  isDigit c || c == 0x2D || c == 0x2B || c == 0x2E || c == 0x65 || c == 0x45

theorem isNumber_of_isDigit (h : isDigit c = true) : isNumber c = true := by
  simp [isNumber, h]

theorem NumberText.mem {minus int frac exp : Text} (h : NumberText minus int frac exp)
    (hc : c ∈ minus ++ int ++ frac ++ exp) : isNumber c = true := by
  have hdigits : ∀ {ds : Text}, Digits ds → c ∈ ds → isNumber c = true := fun hds hmem =>
    isNumber_of_isDigit (hds.2 c hmem)
  simp only [List.mem_append] at hc
  rcases hc with ((hc | hc) | hc) | hc
  · have hminus := h.minus
    simp only [List.mem_cons, List.not_mem_nil, or_false] at hminus
    rcases hminus with rfl | rfl
    · cases hc
    · rw [List.mem_singleton.1 hc]
      rfl
  · exact hdigits h.int.1 hc
  · rcases h.frac with rfl | ⟨ds, hds, rfl⟩
    · cases hc
    · rcases List.mem_cons.1 hc with rfl | hc
      · rfl
      · exact hdigits hds hc
  · rcases h.exp with rfl | ⟨e, sign, ds, he, hsign, hds, rfl⟩
    · cases hc
    · simp only [List.mem_cons, List.not_mem_nil, or_false] at he hsign
      rcases List.mem_cons.1 hc with rfl | hc
      · rcases he with rfl | rfl <;> rfl
      · rcases List.mem_append.1 hc with hc | hc
        · rcases hsign with rfl | rfl | rfl
          · cases hc
          · rw [List.mem_singleton.1 hc]
            rfl
          · rw [List.mem_singleton.1 hc]
            rfl
        · exact hdigits hds hc

/-- The byte starts a text of the value. -/
def Starts : Value → UInt8 → Prop
  | .null, c => c = 0x6E
  | .bool b, c => c = if b then 0x74 else 0x66
  | .number _, c => isNumber c = true
  | .string _, c => c = 0x22
  | .array _, c => c = 0x5B
  | .object _, c => c = 0x7B

theorem ValueText.starts (h : ValueText text v) : ∃ c rest, text = c :: rest ∧ Starts v c := by
  cases h with
  | @number minus int frac exp h =>
    cases htext : minus ++ int ++ frac ++ exp with
    | nil => simp [h.int.1.1] at htext
    | cons c rest => exact ⟨c, rest, rfl, h.mem (by rw [htext]; exact List.mem_cons_self)⟩
  | _ => exact ⟨_, _, rfl, rfl⟩

/-- White space and what closes a value start none. -/
theorem Starts.not_ws (h : Starts v c) : isWs c = false ∧ c ≠ 0x5D ∧ c ≠ 0x7D := by
  cases v with
  | number text =>
    have hne : ∀ d, isNumber d = false → c ≠ d := by
      rintro d hd rfl
      have htrue : isNumber c = true := h
      rw [hd] at htrue
      cases htrue
    simp [isWs, hne 0x20 rfl, hne 0x09 rfl, hne 0x0A rfl, hne 0x0D rfl, hne 0x5D rfl, hne 0x7D rfl]
  | bool b =>
    cases b
    all_goals
      obtain rfl := h
      decide
  | _ =>
    obtain rfl := h
    decide

/-- The kinds of values; the truth values are two of them. -/
inductive Kind where
  | null
  | bool (b : Bool)
  | number
  | string
  | array
  | object

def Value.kind : Value → Kind
  | .null => .null
  | .bool b => .bool b
  | .number _ => .number
  | .string _ => .string
  | .array _ => .array
  | .object _ => .object

/-- The kind of the values that the byte starts. -/
def kindOf (c : UInt8) : Kind :=
  if isNumber c then .number
  else if c = 0x6E then .null
  else if c = 0x74 then .bool true
  else if c = 0x66 then .bool false
  else if c = 0x22 then .string
  else if c = 0x5B then .array
  else .object

theorem Starts.kind_eq (h : Starts v c) : v.kind = kindOf c := by
  cases v with
  | number text => exact (if_pos h).symm
  | bool b =>
    cases b
    all_goals
      obtain rfl := h
      rfl
  | _ =>
    obtain rfl := h
    rfl

/-- Values whose texts stand at the same place are of one kind. -/
theorem ValueText.kind_eq {text' : Text} (h : ValueText text v) (h' : ValueText text' v')
    (heq : text ++ r = text' ++ r') : v.kind = v'.kind := by
  obtain ⟨c, rest, rfl, hc⟩ := h.starts
  obtain ⟨c', rest', rfl, hc'⟩ := h'.starts
  obtain ⟨rfl, -⟩ := List.cons.inj heq
  rw [hc.kind_eq, hc'.kind_eq]

end Heads

/-! ## Values -/

section Values

/-- No number goes on here. -/
def Delimited (r : Text) : Prop := ∀ c ∈ r.head?, isNumber c = false

/-- Neither a number nor white space goes on here. -/
def Closed (r : Text) : Prop := ∀ c ∈ r.head?, isNumber c = false ∧ isWs c = false

theorem isNumber_of_isWs {c : UInt8} (h : isWs c = true) : isNumber c = false := by
  simp only [isWs, Bool.or_eq_true, beq_iff_eq] at h
  rcases h with ((rfl | rfl) | rfl) | rfl <;> rfl

theorem Closed.delimited {b r : Text} (hb : Ws b) (hr : Closed r) : Delimited (b ++ r) := by
  intro c hc
  cases b with
  | nil => exact (hr c hc).1
  | cons d b =>
    obtain rfl : d = c := by simpa using hc
    exact isNumber_of_isWs (hb d List.mem_cons_self)

theorem Closed.cons {c : UInt8} {r : Text} (hc : isNumber c = false ∧ isWs c = false) :
    Closed (c :: r) := by
  intro d hd
  obtain rfl : c = d := by simpa using hd
  exact hc

theorem ws_unique {a a' r r' : Text} (ha : Ws a) (ha' : Ws a') (hr : ∀ c ∈ r.head?, isWs c = false)
    (hr' : ∀ c ∈ r'.head?, isWs c = false) (heq : a ++ r = a' ++ r') : a = a' ∧ r = r' :=
  split_class ha ha' hr hr' heq

theorem head_cons {c : UInt8} {r : Text} (hc : isWs c = false) :
    ∀ d ∈ (c :: r).head?, isWs d = false := by
  intro d hd
  obtain rfl : c = d := by simpa using hd
  exact hc

theorem ValueText.head_not_ws {text r : Text} {v : Value} (h : ValueText text v) :
    ∀ c ∈ (text ++ r).head?, isWs c = false := by
  obtain ⟨c, rest, rfl, hc⟩ := h.starts
  exact head_cons hc.not_ws.1

/-- The first byte of an element, behind its white space. -/
theorem Element.opens {text : Text} {v : Value} (h : Element text v) :
    ∃ a c rest, text = a ++ c :: rest ∧ Ws a ∧ isWs c = false ∧ c ≠ 0x5D := by
  obtain ⟨ha, hvalue, hb⟩ := h
  obtain ⟨c, rest, rfl, hc⟩ := hvalue.starts
  exact ⟨_, c, _, rfl, ha, hc.not_ws.1, hc.not_ws.2.1⟩

theorem Elements.opens {text : Text} {values : List Value} (h : Elements text values) :
    ∃ a c rest, text = a ++ c :: rest ∧ Ws a ∧ isWs c = false ∧ c ≠ 0x5D := by
  cases h with
  | last h => exact h.opens
  | cons h hrest =>
    obtain ⟨a, c, rest, rfl, ha, hc⟩ := h.opens
    exact ⟨a, c, _, List.append_assoc _ _ _, ha, hc⟩

theorem Members.opens {text : Text} {members : List (Text × Value)} (h : Members text members) :
    ∃ a rest, text = a ++ 0x22 :: rest ∧ Ws a := by
  cases h with
  | last h =>
    obtain ⟨ha, -, -, -⟩ := h
    exact ⟨_, _, rfl, ha⟩
  | cons h hrest =>
    obtain ⟨ha, -, -, -⟩ := h
    exact ⟨_, _, List.append_assoc _ _ _, ha⟩

/-- An array with elements is not read as an empty one. -/
theorem Elements.ne_ws {a text r r' : Text} {vs : List Value} (h : Elements text vs) (ha : Ws a) :
    a ++ 0x5D :: r ≠ text ++ 0x5D :: r' := by
  intro heq
  obtain ⟨a', c, rest, rfl, ha', hws, hc⟩ := h.opens
  rw [List.append_assoc, List.cons_append] at heq
  obtain ⟨-, htail⟩ := ws_unique ha ha' (head_cons rfl) (head_cons hws) heq
  exact hc (List.cons.inj htail).1.symm

/-- An object with members is not read as an empty one. -/
theorem Members.ne_ws {a text r r' : Text} {ms : List (Text × Value)} (h : Members text ms)
    (ha : Ws a) : a ++ 0x7D :: r ≠ text ++ 0x7D :: r' := by
  intro heq
  obtain ⟨a', rest, rfl, ha'⟩ := h.opens
  rw [List.append_assoc, List.cons_append] at heq
  obtain ⟨-, htail⟩ := ws_unique ha ha' (head_cons rfl) (head_cons rfl) heq
  exact absurd (List.cons.inj htail).1 (by decide)

/-- No other text of a value stands at the same place. -/
def UniqueValue (text : Text) (v : Value) : Prop :=
  ∀ {text' r r' : Text} {v' : Value}, ValueText text' v' → Delimited r → Delimited r' →
    text ++ r = text' ++ r' → text = text' ∧ v = v'

def UniqueElements (text : Text) (vs : List Value) : Prop :=
  ∀ {text' r r' : Text} {vs' : List Value}, Elements text' vs' →
    text ++ 0x5D :: r = text' ++ 0x5D :: r' → text = text' ∧ vs = vs'

def UniqueElement (text : Text) (v : Value) : Prop :=
  ∀ {text' r r' : Text} {v' : Value}, Element text' v' → Closed r → Closed r' →
    text ++ r = text' ++ r' → text = text' ∧ v = v'

def UniqueMembers (text : Text) (ms : List (Text × Value)) : Prop :=
  ∀ {text' r r' : Text} {ms' : List (Text × Value)}, Members text' ms' →
    text ++ 0x7D :: r = text' ++ 0x7D :: r' → text = text' ∧ ms = ms'

def UniqueMember (text : Text) (m : Text × Value) : Prop :=
  ∀ {text' r r' : Text} {m' : Text × Value}, Member text' m' → Closed r → Closed r' →
    text ++ r = text' ++ r' → text = text' ∧ m = m'

section Steps

variable {a b key k text rest : Text} {v : Value} {vs : List Value} {m : Text × Value}
  {ms : List (Text × Value)}

theorem closed_bracket (r : Text) : Closed (0x5D :: r) := .cons ⟨rfl, rfl⟩

theorem closed_brace (r : Text) : Closed (0x7D :: r) := .cons ⟨rfl, rfl⟩

theorem closed_comma (r : Text) : Closed (0x2C :: r) := .cons ⟨rfl, rfl⟩

theorem unique_null : UniqueValue [0x6E, 0x75, 0x6C, 0x6C] .null := by
  intro text' r r' v' h' _ _ heq
  have hkind := ValueText.nullText.kind_eq h' heq
  cases h' with
  | nullText => exact ⟨rfl, rfl⟩
  | _ => cases hkind

theorem unique_true : UniqueValue [0x74, 0x72, 0x75, 0x65] (.bool true) := by
  intro text' r r' v' h' _ _ heq
  have hkind := ValueText.trueText.kind_eq h' heq
  cases h' with
  | trueText => exact ⟨rfl, rfl⟩
  | _ => cases hkind

theorem unique_false : UniqueValue [0x66, 0x61, 0x6C, 0x73, 0x65] (.bool false) := by
  intro text' r r' v' h' _ _ heq
  have hkind := ValueText.falseText.kind_eq h' heq
  cases h' with
  | falseText => exact ⟨rfl, rfl⟩
  | _ => cases hkind

theorem unique_number {minus int frac exp : Text} (h : NumberText minus int frac exp) :
    UniqueValue (minus ++ int ++ frac ++ exp) (.number (minus ++ int ++ frac ++ exp)) := by
  intro text' r r' v' h' hr hr' heq
  have hkind := (ValueText.number h).kind_eq h' heq
  cases h' with
  | number h' =>
    obtain ⟨htext, -⟩ := split_class (fun _ => h.mem) (fun _ => h'.mem) hr hr' heq
    rw [htext]
    exact ⟨rfl, rfl⟩
  | _ => cases hkind

theorem unique_string {s : Text} (h : Chars text s) : UniqueValue (quoted text) (.string s) := by
  intro text' r r' v' h' _ _ heq
  have hkind := (ValueText.string h).kind_eq h' heq
  cases h' with
  | string h' =>
    simp only [quoted, List.cons_append, List.append_assoc, List.nil_append, List.cons.injEq,
      true_and] at heq
    obtain ⟨rfl, rfl⟩ := h.unique h' heq
    exact ⟨rfl, rfl⟩
  | _ => cases hkind

theorem unique_emptyArray (ha : Ws a) : UniqueValue (0x5B :: (a ++ [0x5D])) (.array []) := by
  intro text' r r' v' h' _ _ heq
  have hkind := (ValueText.emptyArray ha).kind_eq h' heq
  cases h' with
  | emptyArray ha' =>
    simp only [List.cons_append, List.append_assoc, List.nil_append, List.cons.injEq,
      true_and] at heq
    obtain ⟨rfl, -⟩ := ws_unique ha ha' (head_cons rfl) (head_cons rfl) heq
    exact ⟨rfl, rfl⟩
  | array h' =>
    simp only [List.cons_append, List.append_assoc, List.nil_append, List.cons.injEq,
      true_and] at heq
    exact absurd heq (h'.ne_ws ha)
  | _ => cases hkind

theorem unique_array (h : Elements text vs) (ih : UniqueElements text vs) :
    UniqueValue (0x5B :: (text ++ [0x5D])) (.array vs) := by
  intro text' r r' v' h' _ _ heq
  have hkind := (ValueText.array h).kind_eq h' heq
  cases h' with
  | emptyArray ha' =>
    simp only [List.cons_append, List.append_assoc, List.nil_append, List.cons.injEq,
      true_and] at heq
    exact absurd heq.symm (h.ne_ws ha')
  | array h' =>
    simp only [List.cons_append, List.append_assoc, List.nil_append, List.cons.injEq,
      true_and] at heq
    obtain ⟨rfl, rfl⟩ := ih h' heq
    exact ⟨rfl, rfl⟩
  | _ => cases hkind

theorem unique_emptyObject (ha : Ws a) : UniqueValue (0x7B :: (a ++ [0x7D])) (.object []) := by
  intro text' r r' v' h' _ _ heq
  have hkind := (ValueText.emptyObject ha).kind_eq h' heq
  cases h' with
  | emptyObject ha' =>
    simp only [List.cons_append, List.append_assoc, List.nil_append, List.cons.injEq,
      true_and] at heq
    obtain ⟨rfl, -⟩ := ws_unique ha ha' (head_cons rfl) (head_cons rfl) heq
    exact ⟨rfl, rfl⟩
  | object h' =>
    simp only [List.cons_append, List.append_assoc, List.nil_append, List.cons.injEq,
      true_and] at heq
    exact absurd heq (h'.ne_ws ha)
  | _ => cases hkind

theorem unique_object (h : Members text ms) (ih : UniqueMembers text ms) :
    UniqueValue (0x7B :: (text ++ [0x7D])) (.object ms) := by
  intro text' r r' v' h' _ _ heq
  have hkind := (ValueText.object h).kind_eq h' heq
  cases h' with
  | emptyObject ha' =>
    simp only [List.cons_append, List.append_assoc, List.nil_append, List.cons.injEq,
      true_and] at heq
    exact absurd heq.symm (h.ne_ws ha')
  | object h' =>
    simp only [List.cons_append, List.append_assoc, List.nil_append, List.cons.injEq,
      true_and] at heq
    obtain ⟨rfl, rfl⟩ := ih h' heq
    exact ⟨rfl, rfl⟩
  | _ => cases hkind

theorem unique_lastElement (ih : UniqueElement text v) : UniqueElements text [v] := by
  intro text' r r' vs' h' heq
  cases h' with
  | last h' =>
    obtain ⟨rfl, rfl⟩ := ih h' (closed_bracket r) (closed_bracket r') heq
    exact ⟨rfl, rfl⟩
  | cons h' hrest' =>
    rw [List.append_assoc] at heq
    obtain ⟨rfl, rfl⟩ := ih h' (closed_bracket r) (closed_comma _) heq
    exact absurd (List.cons.inj (List.append_cancel_left heq)).1 (by decide)

theorem unique_consElement (ih : UniqueElement text v) (ihrest : UniqueElements rest vs) :
    UniqueElements (text ++ 0x2C :: rest) (v :: vs) := by
  intro text' r r' vs' h' heq
  rw [List.append_assoc] at heq
  cases h' with
  | last h' =>
    obtain ⟨rfl, rfl⟩ := ih h' (closed_comma _) (closed_bracket r') heq
    exact absurd (List.cons.inj (List.append_cancel_left heq)).1 (by decide)
  | cons h' hrest' =>
    rw [List.append_assoc] at heq
    obtain ⟨rfl, rfl⟩ := ih h' (closed_comma _) (closed_comma _) heq
    obtain ⟨rfl, rfl⟩ := ihrest hrest' (List.cons.inj (List.append_cancel_left heq)).2
    exact ⟨rfl, rfl⟩

theorem unique_element (ha : Ws a) (h : ValueText text v) (hb : Ws b) (ih : UniqueValue text v) :
    UniqueElement (a ++ (text ++ b)) v := by
  intro text' r r' v' h' hr hr' heq
  cases h' with
  | mk ha' h' hb' =>
    simp only [List.append_assoc] at heq
    obtain ⟨rfl, htail⟩ := ws_unique ha ha' h.head_not_ws h'.head_not_ws heq
    obtain ⟨rfl, rfl⟩ := ih h' (hr.delimited hb) (hr'.delimited hb') htail
    obtain ⟨rfl, -⟩ := ws_unique hb hb' (fun c hc => (hr c hc).2) (fun c hc => (hr' c hc).2)
      (List.append_cancel_left htail)
    exact ⟨rfl, rfl⟩

theorem unique_lastMember (ih : UniqueMember text m) : UniqueMembers text [m] := by
  intro text' r r' ms' h' heq
  cases h' with
  | last h' =>
    obtain ⟨rfl, rfl⟩ := ih h' (closed_brace r) (closed_brace r') heq
    exact ⟨rfl, rfl⟩
  | cons h' hrest' =>
    rw [List.append_assoc] at heq
    obtain ⟨rfl, rfl⟩ := ih h' (closed_brace r) (closed_comma _) heq
    exact absurd (List.cons.inj (List.append_cancel_left heq)).1 (by decide)

theorem unique_consMember (ih : UniqueMember text m) (ihrest : UniqueMembers rest ms) :
    UniqueMembers (text ++ 0x2C :: rest) (m :: ms) := by
  intro text' r r' ms' h' heq
  rw [List.append_assoc] at heq
  cases h' with
  | last h' =>
    obtain ⟨rfl, rfl⟩ := ih h' (closed_comma _) (closed_brace r') heq
    exact absurd (List.cons.inj (List.append_cancel_left heq)).1 (by decide)
  | cons h' hrest' =>
    rw [List.append_assoc] at heq
    obtain ⟨rfl, rfl⟩ := ih h' (closed_comma _) (closed_comma _) heq
    obtain ⟨rfl, rfl⟩ := ihrest hrest' (List.cons.inj (List.append_cancel_left heq)).2
    exact ⟨rfl, rfl⟩

theorem unique_member (ha : Ws a) (hkey : Chars key k) (hb : Ws b) (ih : UniqueElement text v) :
    UniqueMember (a ++ (quoted key ++ (b ++ 0x3A :: text))) (k, v) := by
  intro text' r r' m' h' hr hr' heq
  cases h' with
  | mk ha' hkey' hb' h' =>
    simp only [quoted, List.cons_append, List.append_assoc, List.nil_append] at heq
    obtain ⟨rfl, htail⟩ := ws_unique ha ha' (head_cons rfl) (head_cons rfl) heq
    obtain ⟨rfl, rfl⟩ := hkey.unique hkey' (List.cons.inj htail).2
    have hcolon := (List.cons.inj (List.append_cancel_left (List.cons.inj htail).2)).2
    obtain ⟨rfl, hvalue⟩ := ws_unique hb hb' (head_cons rfl) (head_cons rfl) hcolon
    obtain ⟨rfl, rfl⟩ := ih h' hr hr' (List.cons.inj hvalue).2
    exact ⟨rfl, rfl⟩

end Steps

mutual

theorem ValueText.unique : ∀ {text : Text} {v : Value}, ValueText text v → UniqueValue text v
  | _, _, .nullText => unique_null
  | _, _, .trueText => unique_true
  | _, _, .falseText => unique_false
  | _, _, .number h => unique_number h
  | _, _, .string h => unique_string h
  | _, _, .emptyArray ha => unique_emptyArray ha
  | _, _, .array h => unique_array h h.unique
  | _, _, .emptyObject ha => unique_emptyObject ha
  | _, _, .object h => unique_object h h.unique

theorem Elements.unique : ∀ {text : Text} {vs : List Value}, Elements text vs →
    UniqueElements text vs
  | _, _, .last h => unique_lastElement h.unique
  | _, _, .cons h hrest => unique_consElement h.unique hrest.unique

theorem Element.unique : ∀ {text : Text} {v : Value}, Element text v → UniqueElement text v
  | _, _, .mk ha h hb => unique_element ha h hb h.unique

theorem Members.unique : ∀ {text : Text} {ms : List (Text × Value)}, Members text ms →
    UniqueMembers text ms
  | _, _, .last h => unique_lastMember h.unique
  | _, _, .cons h hrest => unique_consMember h.unique hrest.unique

theorem Member.unique : ∀ {text : Text} {m : Text × Value}, Member text m → UniqueMember text m
  | _, _, .mk ha hkey hb h => unique_member ha hkey hb h.unique

end

/-- **A JSON text denotes one value.** -/
theorem Document.unique {text : Text} {v v' : Value} (h : Document text v)
    (h' : Document text v') : v = v' := by
  have hnil : Closed [] := fun c hc => by cases hc
  exact (Element.unique h h' hnil hnil rfl).2

end Values

/-! ## Control bytes -/

section Control

/-- No control byte, or one of the white space. -/
def Printable (c : UInt8) : Prop := 0x20 ≤ c ∨ isWs c = true

theorem printable_ws {a : Text} (ha : Ws a) : ∀ c ∈ a, Printable c := fun c hc => .inr (ha c hc)

theorem printable_append {a b : Text} (ha : ∀ c ∈ a, Printable c) (hb : ∀ c ∈ b, Printable c) :
    ∀ c ∈ a ++ b, Printable c := by
  intro c hc
  rcases List.mem_append.1 hc with hc | hc
  · exact ha c hc
  · exact hb c hc

theorem printable_cons {c : UInt8} {a : Text} (hc : Printable c) (ha : ∀ d ∈ a, Printable d) :
    ∀ d ∈ c :: a, Printable d :=
  printable_append (a := [c]) (by simpa using hc) ha

theorem printable_singleton {c : UInt8} (hc : Printable c) : ∀ d ∈ [c], Printable d := by
  simpa using hc

theorem printable_quoted {text s : Text} (h : Chars text s) : ∀ c ∈ quoted text, Printable c :=
  printable_cons (.inl (by decide)) (printable_append (fun _ hc => .inl (h.not_control hc))
    (printable_singleton (.inl (by decide))))

theorem printable_of_isNumber {c : UInt8} (h : isNumber c = true) : Printable c := by
  left
  simp only [isNumber, isDigit, Bool.or_eq_true, Bool.and_eq_true, decide_eq_true_eq,
    beq_iff_eq] at h
  rcases h with ((((h | rfl) | rfl) | rfl) | rfl) | rfl
  · exact UInt8.le_trans (by decide) h.1
  all_goals decide

theorem printable_enclosed {c d : UInt8} {a : Text} (hc : 0x20 ≤ c) (hd : 0x20 ≤ d)
    (ha : ∀ x ∈ a, Printable x) : ∀ x ∈ c :: (a ++ [d]), Printable x :=
  printable_cons (.inl hc) (printable_append ha (printable_singleton (.inl hd)))

mutual

theorem ValueText.printable : ∀ {text : Text} {v : Value}, ValueText text v →
    ∀ c ∈ text, Printable c
  | _, _, .nullText => by simp [Printable]
  | _, _, .trueText => by simp [Printable]
  | _, _, .falseText => by simp [Printable]
  | _, _, .number h => fun _ hc => printable_of_isNumber (h.mem hc)
  | _, _, .string h => printable_quoted h
  | _, _, .emptyArray ha => printable_enclosed (by decide) (by decide) (printable_ws ha)
  | _, _, .array h => printable_enclosed (by decide) (by decide) h.printable
  | _, _, .emptyObject ha => printable_enclosed (by decide) (by decide) (printable_ws ha)
  | _, _, .object h => printable_enclosed (by decide) (by decide) h.printable

theorem Elements.printable : ∀ {text : Text} {vs : List Value}, Elements text vs →
    ∀ c ∈ text, Printable c
  | _, _, .last h => h.printable
  | _, _, .cons h hrest =>
    printable_append h.printable (printable_cons (.inl (by decide)) hrest.printable)

theorem Element.printable : ∀ {text : Text} {v : Value}, Element text v →
    ∀ c ∈ text, Printable c
  | _, _, .mk ha h hb =>
    printable_append (printable_ws ha) (printable_append h.printable (printable_ws hb))

theorem Members.printable : ∀ {text : Text} {ms : List (Text × Value)}, Members text ms →
    ∀ c ∈ text, Printable c
  | _, _, .last h => h.printable
  | _, _, .cons h hrest =>
    printable_append h.printable (printable_cons (.inl (by decide)) hrest.printable)

theorem Member.printable : ∀ {text : Text} {m : Text × Value}, Member text m →
    ∀ c ∈ text, Printable c
  | _, _, .mk ha hkey hb h =>
    printable_append (printable_ws ha) (printable_append (printable_quoted hkey)
      (printable_append (printable_ws hb) (printable_cons (.inl (by decide)) h.printable)))

end

/-- **The control bytes in a JSON text are white space.** -/
theorem Document.not_control {text : Text} {v : Value} (h : Document text v) {c : UInt8}
    (hc : c ∈ text) : 0x20 ≤ c ∨ isWs c = true :=
  Element.printable h c hc

end Control

end Rfc8259
