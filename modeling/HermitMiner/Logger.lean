import HermitMiner.Env
import HermitMiner.Regex.Replace

/-!
# The logger

`Logger` of `src/lib/logger.cpp`: what is redacted, and the line that is written for an entry.
Its `escape_json_string` is `json_escape` of the client, byte for byte, as is the one of the runtime.

* `redactSensitiveFields`: two passes of replacements.
* `logLine`, `Logger.log`: the line of an entry, and the entries that are written.
-/

namespace HermitMiner

open Regex (Pat replace)

/-! ## Redaction -/

/-- `(?:password|passwd|secret|token|auth_token|username|payout_address)` under `icase`. -/
def protectedKey : Pat UInt8 :=
  .alt (litNocase "password") (.alt (litNocase "passwd") (.alt (litNocase "secret")
    (.alt (litNocase "token") (.alt (litNocase "auth_token") (.alt (litNocase "username")
      (litNocase "payout_address"))))))

/-- `"KEY"\s*:\s*"`, the first group of `quoted_kv`. -/
def quotedPart : Pat UInt8 :=
  .cat [lit "\"", protectedKey, lit "\"", spaces, lit ":", spaces, lit "\""]

def quotedKv : Pat UInt8 :=
  .cat [.group quotedPart, .group (.many (· != ch '"')), .group (lit "\"")]

/-- `KEY\s*[=:]\s*`, the first group of `plain_kv`. -/
def plainPart : Pat UInt8 :=
  .cat [protectedKey, spaces, .one (fun c => c == ch '=' || c == ch ':'), spaces]

/-- `[^,;\s]` -/
def isPlain (c : UInt8) : Bool := !(c == ch ',' || c == ch ';' || isSpace c)

def plainKv : Pat UInt8 :=
  .cat [.group plainPart, .group (.seq (.one isPlain) (.many isPlain))]

/-- `$i` of a replacement. -/
def captured (cs : List Bytes) (i : Nat) : Bytes := cs.getD (i - 1) []

def redactSensitiveFields (input : Bytes) : Bytes :=
  if input = [] then input
  else
    let out := replace quotedKv (fun cs => captured cs 1 ++ str "***" ++ captured cs 3) input
    replace plainKv (fun cs => captured cs 1 ++ str "***") out

/-! ## Lines -/

/-- The UTC time a line is written at, as `gmtime_r` breaks it down, with the milliseconds. -/
structure UtcTime where
  year : Nat
  month : Nat
  day : Nat
  hour : Nat
  minute : Nat
  second : Nat
  millisecond : Nat
  deriving DecidableEq

/-- `std::setfill('0') << std::setw(width)` before a number. -/
def zeroPadded (width n : Nat) : Bytes := (dec n).leftpad width (ch '0')

/-- `get_timestamp`. -/
def UtcTime.timestamp (t : UtcTime) : Bytes :=
  dec t.year ++ str "-" ++ zeroPadded 2 t.month ++ str "-" ++ zeroPadded 2 t.day
    ++ str "T" ++ zeroPadded 2 t.hour ++ str ":" ++ zeroPadded 2 t.minute ++ str ":"
    ++ zeroPadded 2 t.second ++ str "." ++ zeroPadded 6 (t.millisecond * 1000) ++ str "Z"

/-- `level_str`. -/
def LogLevel.name : LogLevel → Bytes
  | .debug => str "DEBUG"
  | .info => str "INFO"
  | .warn => str "WARN"
  | .err => str "ERROR"

/-- The value of the enumerator. -/
def LogLevel.toNat : LogLevel → Nat
  | .debug => 0
  | .info => 1
  | .warn => 2
  | .err => 3

/-- `json_line`. -/
def logLine (now : UtcTime) (entry : LogEntry) : Bytes :=
  let safeMessage := redactSensitiveFields entry.message
  let safeContext := redactSensitiveFields entry.context
  let escComponent := jsonEscape entry.component
  let escNode := jsonEscape entry.nodeId
  let escMessage := jsonEscape safeMessage
  let escContext := jsonEscape safeContext
  str "\x7b"
    ++ str "\"timestamp\":\"" ++ now.timestamp ++ str "\","
    ++ str "\"level\":\"" ++ entry.level.name ++ str "\","
    ++ str "\"component\":\"" ++ escComponent ++ str "\","
    ++ str "\"node_id\":\"" ++ escNode ++ str "\","
    ++ str "\"message\":\"" ++ escMessage ++ str "\""
    ++ (if escContext ≠ [] then str ",\"context\":\"" ++ escContext ++ str "\"" else [])
    ++ str "\x7d"

/-- What `Logger::log` writes, to the file and to standard output, when entries below `threshold`
are left out. -/
def Logger.log (threshold : LogLevel) (now : UtcTime) (entry : LogEntry) : Option Bytes :=
  if entry.level.toNat < threshold.toNat then none
  else some (logLine now entry ++ str "\n")

end HermitMiner
