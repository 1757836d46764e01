import HermitMiner.Bytes

/-!
# Stratum messages

The texts `StratumClient` sends and the regular-expression searches it reads them with
(`src/lib/stratum.cpp`).
-/

namespace HermitMiner

open Regex (Pat search)

structure StratumJob where
  jobId : Bytes
  /-- `prefix`. -/
  prefixText : Bytes
  difficultyBits : UInt32
  cleanJob : Bool
  deriving DecidableEq

/-! ## Requests -/

def jsonEscapeByte (c : UInt8) : Bytes :=
  if c = ch '\\' then str "\\\\"
  else if c = ch '"' then str "\\\""
  else if c = ch '\n' then str "\\n"
  else if c = ch '\r' then str "\\r"
  else if c = ch '\t' then str "\\t"
  else [c]

/-- `StratumClient::json_escape`. -/
def jsonEscape (input : Bytes) : Bytes := input.flatMap jsonEscapeByte

/-- `nonce_to_hex`: eight lower-case hexadecimal digits. -/
def nonceToHex (nonce : UInt32) : Bytes :=
  ((Nat.toDigits 16 nonce.toNat).map ch).leftpad 8 (ch '0')

def subscribeRequest (id : Nat) (userAgent : Bytes) : Bytes :=
  str "\x7b\"id\":" ++ dec id ++ str ",\"method\":\"mining.subscribe\""
    ++ str ",\"params\":[\"" ++ jsonEscape userAgent ++ str "\"]\x7d"

def authorizeRequest (id : Nat) (username password : Bytes) : Bytes :=
  str "\x7b\"id\":" ++ dec id ++ str ",\"method\":\"mining.authorize\""
    ++ str ",\"params\":[\"" ++ jsonEscape username ++ str "\",\"" ++ jsonEscape password
    ++ str "\"]\x7d"

def submitRequest (id : Nat) (username jobId : Bytes) (nonce : UInt32) : Bytes :=
  str "\x7b\"id\":" ++ dec id ++ str ",\"method\":\"mining.submit\""
    ++ str ",\"params\":[\"" ++ jsonEscape username ++ str "\",\"" ++ jsonEscape jobId
    ++ str "\",\"" ++ nonceToHex nonce ++ str "\"]\x7d"

/-! ## Patterns -/

/-- Literal text of a pattern. -/
def lit (s : String) : Pat UInt8 := .word ((str s).map fun c d => d == c)

/-- Literal text under `icase`. -/
def litNocase (s : String) : Pat UInt8 := .word ((str s).map fun c d => lower d == lower c)

/-- `\s*` -/
def spaces : Pat UInt8 := .many isSpace

/-- `[0-9]+` -/
def digits : Pat UInt8 := .seq (.one isDigit) (.many isDigit)

/-- `(true|false)` under `icase`. -/
def boolToken : Pat UInt8 := .group (.alt (litNocase "true") (litNocase "false"))

/-- `KEY\s*:\s*VALUE`, the shape of every pattern that looks for a member. -/
def member (key value : Pat UInt8) : Pat UInt8 := .cat [key, spaces, lit ":", spaces, value]

def idPattern : Pat UInt8 := member (lit "\"id\"") (.group digits)

def resultPattern : Pat UInt8 := member (litNocase "\"result\"") boolToken

def errPattern : Pat UInt8 := member (litNocase "\"error\"") (litNocase "null")

def methodPattern : Pat UInt8 := member (lit "\"method\"") (lit "\"mining.notify\"")

def jobPattern : Pat UInt8 :=
  member (litNocase "\"params\"") (.cat [
    lit "[", spaces,
    lit "\"", .group (.seq (.one (· != ch '"')) (.many (· != ch '"'))), lit "\"",
    spaces, lit ",", spaces,
    lit "\"", .group (.many (· != ch '"')), lit "\"",
    spaces, lit ",", spaces,
    .group digits,
    spaces, lit ",", spaces,
    boolToken])

/-! ## Readers -/

def parseMessageId (json : Bytes) : Option Nat :=
  match search idPattern json with
  | some [digits] => stoull digits
  | _ => none

/-- The token is compared with two of its spellings only. -/
def tokenIsTrue (token : Bytes) : Bool := token == str "true" || token == str "TRUE"

def parseBoolResult (json : Bytes) : Option Bool :=
  match search resultPattern json with
  | some [token] => some (tokenIsTrue token)
  | _ => none

def parseErrorIsNull (json : Bytes) : Bool := (search errPattern json).isSome

/-- `parse_u32`. -/
def parseU32 (text : Bytes) (fallback : UInt32) : UInt32 :=
  match stoull text with
  | some value => if 2 ^ 32 ≤ value then fallback else value.toUInt32
  | none => fallback

def parseNotify (json : Bytes) : Option StratumJob :=
  if (search methodPattern json).isNone then none
  else
    match search jobPattern json with
    | some [jobId, prefixText, difficultyBits, clean] =>
      some {
        jobId := jobId
        prefixText := prefixText
        difficultyBits := parseU32 difficultyBits 20
        cleanJob := tokenIsTrue clean }
    | _ => none

end HermitMiner
