import HermitMiner.Config.Json

/-!
# The configuration's grammar

What a configuration document is, and the value it denotes. Nothing here speaks of positions.

* `Body`: the text between two quotes, and the string it denotes.
* `Value`, `Members`, `Member`: the texts of values.
* `Document`: a value with white space around it.
* `lookup_objectOf`: an object keeps the last value of a repeated key.
-/

namespace HermitMiner

namespace JsonGrammar

/-- Optional spaces, tabs, carriage returns and line feeds. -/
def Blank (text : Bytes) : Prop := ∀ c ∈ text, c ∈ str " \t\r\n"

/-- The letters of the escapes, with what they stand for. -/
def escapes : List (UInt8 × UInt8) :=
  [(ch '"', ch '"'), (ch '\\', ch '\\'), (ch '/', ch '/'), (ch 'b', 8), (ch 'f', 12),
    (ch 'n', 10), (ch 'r', 13), (ch 't', 9)]

/-- The text between the quotes of a string, and the bytes it denotes. -/
inductive Body : Bytes → Bytes → Prop where
  | nil : Body [] []
  | plain {c : UInt8} {text s : Bytes} (hquote : c ≠ ch '"') (hslash : c ≠ ch '\\')
      (rest : Body text s) : Body (c :: text) (c :: s)
  | escape {esc c : UInt8} {text s : Bytes} (hesc : (esc, c) ∈ escapes) (rest : Body text s) :
      Body (ch '\\' :: esc :: text) (c :: s)

def quoted (body : Bytes) : Bytes := ch '"' :: body ++ [ch '"']

/-- The object with the given members, of which a later one replaces an earlier one of its key. -/
def objectOf (members : List (Bytes × JsonValue)) : JsonObject :=
  members.foldl (fun o m => o.assign m.1 m.2) []

mutual

/-- The texts of a value. -/
inductive Value : Bytes → JsonValue → Prop where
  | null : Value (str "null") .null
  | true : Value (str "true") (.bool Bool.true)
  | false : Value (str "false") (.bool Bool.false)
  | number {digits : Bytes} (hne : digits ≠ []) (hdigits : ∀ d ∈ digits, isDigit d = Bool.true)
      (hrange : digitsValue digits < 2 ^ 64) : Value digits (.number (digitsValue digits))
  | string {body s : Bytes} (hbody : Body body s) : Value (quoted body) (.string s)
  | empty {a : Bytes} (ha : Blank a) : Value (ch '\x7b' :: a ++ [ch '\x7d']) (.object [])
  | object {text : Bytes} {members : List (Bytes × JsonValue)} (h : Members text members) :
      Value (ch '\x7b' :: text ++ [ch '\x7d']) (.object (objectOf members))

/-- The texts of the members of an object that has any. -/
inductive Members : Bytes → List (Bytes × JsonValue) → Prop where
  | last {text : Bytes} {m : Bytes × JsonValue} (h : Member text m) : Members text [m]
  | cons {text rest : Bytes} {m : Bytes × JsonValue} {members : List (Bytes × JsonValue)}
      (h : Member text m) (hrest : Members rest members) :
      Members (text ++ ch ',' :: rest) (m :: members)

/-- The texts of one member. -/
inductive Member : Bytes → Bytes × JsonValue → Prop where
  | mk {a key k b c text d : Bytes} {v : JsonValue} (ha : Blank a) (hkey : Body key k)
      (hb : Blank b) (hc : Blank c) (hvalue : Value text v) (hd : Blank d) :
      Member (a ++ quoted key ++ b ++ ch ':' :: c ++ text ++ d) (k, v)

end

/-- One value, surrounded by optional white space. -/
def Document (input : Bytes) (v : JsonValue) : Prop :=
  ∃ a text b, Blank a ∧ Value text v ∧ Blank b ∧ input = a ++ text ++ b

/-! ## Objects -/

theorem lookup_assign (o : JsonObject) (key key' : Bytes) (value : JsonValue) :
    (o.assign key value).lookup key' = if key' = key then some value else o.lookup key' := by
  have hfilter : key' ≠ key → (o.filter fun m => m.1 ≠ key).lookup key' = o.lookup key' := by
    intro hne
    induction o with
    | nil => rfl
    | cons m o ih =>
      by_cases hm : m.1 = key
      · rw [List.filter_cons_of_neg (by simp [hm]), ih, List.lookup_cons,
          beq_false_of_ne (by rw [hm]; exact hne)]
      · rw [List.filter_cons_of_pos (by simp [hm]), List.lookup_cons, List.lookup_cons, ih]
  rw [JsonObject.assign, List.lookup_cons]
  by_cases h : key' = key
  · simp [h]
  · rw [beq_false_of_ne h, if_neg h]
    exact hfilter h

/-- An object keeps the last value of a repeated key. -/
theorem lookup_objectOf (members : List (Bytes × JsonValue)) (key : Bytes) :
    (objectOf members).lookup key = members.reverse.lookup key := by
  have hfold : ∀ o : JsonObject, (members.foldl (fun o m => o.assign m.1 m.2) o).lookup key =
      (members.reverse ++ o).lookup key := by
    induction members with
    | nil => intro o; rfl
    | cons m members ih =>
      intro o
      rw [List.foldl_cons, ih, List.reverse_cons, List.append_assoc, List.lookup_append,
        List.lookup_append, lookup_assign, List.singleton_append, List.lookup_cons]
      by_cases h : key = m.1
      · simp [h]
      · rw [if_neg h, beq_false_of_ne h]
  have hempty := hfold []
  rw [List.append_nil] at hempty
  exact hempty

end JsonGrammar

end HermitMiner
