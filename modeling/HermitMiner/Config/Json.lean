import HermitMiner.Bytes

/-!
# The configuration's JSON parser

`JsonParser` of `src/lib/miner_config.cpp`. A function takes `pos_` and gives back its result and
the `pos_` it leaves, also when it fails. A loop over the input runs on the bytes from `pos_` on.

* `parseString`, `parseNumber`, `parseBool`, `parseNull`: the scalars.
* `parseValue`, `membersLoop`: values, with a bound on the calls that are open at once.
* `parse`: the whole input; the bound is above the length of the input.
-/

namespace HermitMiner

/-- `JsonValue`. An object is an `unordered_map`: one entry for each of its keys. -/
inductive JsonValue where
  | null
  | bool (b : Bool)
  /-- A `std::uint64_t`. -/
  | number (n : Nat)
  | string (s : Bytes)
  | object (members : List (Bytes × JsonValue))

abbrev JsonObject := List (Bytes × JsonValue)

/-- `members[key] = value`. -/
def JsonObject.assign (members : JsonObject) (key : Bytes) (value : JsonValue) : JsonObject :=
  (key, value) :: members.filter fun m => m.1 ≠ key

namespace JsonParser

/-! ## White space and scalars -/

/-- The characters that `skip_ws` skips. -/
def isBlank (c : UInt8) : Bool := c == ch ' ' || c == ch '\n' || c == ch '\r' || c == ch '\t'

/-- The loop of `skip_ws`. -/
def skipLoop : Bytes → Nat → Nat
  | [], pos => pos
  | c :: left, pos => if isBlank c then skipLoop left (pos + 1) else pos

/-- What the escape `\esc` stands for. -/
def unescape (esc : UInt8) : Option UInt8 :=
  if esc = ch '"' then some (ch '"')
  else if esc = ch '\\' then some (ch '\\')
  else if esc = ch '/' then some (ch '/')
  else if esc = ch 'b' then some 8
  else if esc = ch 'f' then some 12
  else if esc = ch 'n' then some (ch '\n')
  else if esc = ch 'r' then some (ch '\r')
  else if esc = ch 't' then some (ch '\t')
  else none

/-- The loop of `parse_string`, with the text in `oss` so far. -/
def stringLoop : Bytes → Bytes → Nat → Option Bytes × Nat
  | [], _, pos => (none, pos)
  | c :: left, oss, pos =>
    if c = ch '"' then (some oss, pos + 1)
    else if c = ch '\\' then
      match left with
      | [] => (none, pos + 1)
      | esc :: left =>
        match unescape esc with
        | some d => stringLoop left (oss ++ [d]) (pos + 2)
        | none => (none, pos + 2)
    else stringLoop left (oss ++ [c]) (pos + 1)

/-- The loop of `parse_number`. -/
def digitsLoop : Bytes → Nat → Nat
  | [], pos => pos
  | c :: left, pos => if isDigit c then digitsLoop left (pos + 1) else pos

section

variable (input : Bytes)

def skipWs (pos : Nat) : Nat := skipLoop (input.drop pos) pos

def parseString (pos : Nat) : Option Bytes × Nat :=
  if input[pos]? = some (ch '"') then stringLoop (input.drop (pos + 1)) [] (pos + 1)
  else (none, pos)

def parseNumber (pos : Nat) : Option Nat × Nat :=
  if (input[pos]?.map isDigit).getD false then
    let stop := digitsLoop (input.drop pos) pos
    (stoull ((input.drop pos).take (stop - pos)), stop)
  else (none, pos)

/-- `input_.compare(pos_, word.size(), word) == 0`. -/
def compareAt (pos : Nat) (word : Bytes) : Bool := (input.drop pos).take word.length == word

def parseBool (pos : Nat) : Option Bool × Nat :=
  if compareAt input pos (str "true") then (some true, pos + 4)
  else if compareAt input pos (str "false") then (some false, pos + 5)
  else (none, pos)

def parseNull (pos : Nat) : Option JsonValue × Nat :=
  if compareAt input pos (str "null") then (some .null, pos + 4) else (none, pos)

/-! ## Values -/

/-- `parse_object`, over its loop. -/
def parseObject (loop : JsonObject → Nat → Option JsonValue × Nat) (pos : Nat) :
    Option JsonValue × Nat :=
  if input[pos]? = some (ch '\x7b') then
    let pos := skipWs input (pos + 1)
    if input[pos]? = some (ch '\x7d') then (some (.object []), pos + 1)
    else loop [] pos
  else (none, pos)

/-- One member in the loop of `parse_object`, over `parse_value`. -/
def parseMember (value : Nat → Option JsonValue × Nat) (pos : Nat) :
    Option (Bytes × JsonValue) × Nat :=
  match parseString input (skipWs input pos) with
  | (none, pos) => (none, pos)
  | (some key, pos) =>
    let pos := skipWs input pos
    if input[pos]? = some (ch ':') then
      match value (pos + 1) with
      | (none, pos) => (none, pos)
      | (some value, pos) => (some (key, value), pos)
    else (none, pos)

mutual

def parseValue : Nat → Nat → Option JsonValue × Nat
  | 0, pos => (none, pos)
  | n + 1, pos =>
    let pos := skipWs input pos
    match input[pos]? with
    | none => (none, pos)
    | some c =>
      if c = ch '\x7b' then parseObject input (membersLoop n) pos
      else if c = ch '"' then (parseString input pos).map (Option.map .string) id
      else if c = ch 't' ∨ c = ch 'f' then (parseBool input pos).map (Option.map .bool) id
      else if c = ch 'n' then parseNull input pos
      else if isDigit c then (parseNumber input pos).map (Option.map .number) id
      else (none, pos)

/-- The loop of `parse_object`, with the members read so far. -/
def membersLoop : Nat → JsonObject → Nat → Option JsonValue × Nat
  | 0, _, pos => (none, pos)
  | n + 1, members, pos =>
    if pos < input.length then
      match parseMember input (parseValue n) pos with
      | (none, pos) => (none, pos)
      | (some (key, value), pos) =>
        let members := members.assign key value
        let pos := skipWs input pos
        if input[pos]? = some (ch '\x7d') then (some (.object members), pos + 1)
        else if input[pos]? = some (ch ',') then membersLoop n members (pos + 1)
        else (none, pos)
    else (none, pos)

end

/-- `parse` with at most `n` calls open at once: the result, when it is `true`, and the `pos_` it
leaves. -/
def parseWith (n : Nat) : Option JsonValue × Nat :=
  match parseValue input n (skipWs input 0) with
  | (none, pos) => (none, pos)
  | (some value, pos) =>
    let pos := skipWs input pos
    (if pos = input.length then some value else none, pos)

def parse : Option JsonValue × Nat := parseWith input (input.length + 1)

end

end JsonParser

end HermitMiner
