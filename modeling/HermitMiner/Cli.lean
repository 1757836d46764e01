import HermitMiner.Config.Load
import HermitMiner.Strtoul

/-!
# The command line

`src/lib/miner_cli.cpp`: the options, over the texts of the files they name.

* `stoul`, `parseUint32`: numbers on the command line, for `unsigned long` of 64 bits.
* `parseUint32In`: the same for any width.
* `applyOption`: one option with its value.
* `parseArgs`: all arguments.
-/

namespace HermitMiner

/-! ## Numbers -/

/-- `std::stoul(text, &idx, 10)`: the number, and how many bytes it takes. White space and a sign may
stand before the digits, and a minus negates modulo `2 ^ 64`. It throws without a digit and from
`2 ^ 64` on. -/
def stoul (text : Bytes) : Option (Nat × Nat) :=
  let spaces := text.takeWhile isSpace
  let rest := text.dropWhile isSpace
  let negative := rest.head? == some (ch '-')
  let sign := if negative || rest.head? == some (ch '+') then 1 else 0
  let digits := (rest.drop sign).takeWhile isDigit
  let idx := spaces.length + sign + digits.length
  if digits = [] ∨ 2 ^ 64 ≤ digitsValue digits then none
  else if negative then some ((2 ^ 64 - digitsValue digits) % 2 ^ 64, idx)
  else some (digitsValue digits, idx)

/-- `parse_uint32`: the number it stores, if it returns true. -/
def parseUint32 (text : Bytes) : Option UInt32 :=
  match stoul text with
  | some (value, idx) =>
    if idx ≠ text.length ∨ uint32Max < value then none else some value.toUInt32
  | none => none

/-- `parse_uint32` where `unsigned long` has `width` bits. -/
def parseUint32In (width : Nat) (text : Bytes) : Option UInt32 :=
  match strtoul 10 width text with
  | some (value, idx) =>
    if idx ≠ text.length ∨ uint32Max < value then none else some value.toUInt32
  | none => none

theorem stoul_eq (text : Bytes) : stoul text = strtoul 10 64 text := by
  have hmark : ∀ rest, ¬(10 = 16 ∧ hexMark rest = true) := fun _ h => absurd h.1 (by decide)
  unfold stoul strtoul
  simp only [isDigitIn_ten, if_neg (hmark _), Nat.add_zero,
    valueIn_ten fun d => List.mem_takeWhile_imp]

theorem parseUint32_eq (text : Bytes) : parseUint32 text = parseUint32In 64 text := by
  unfold parseUint32 parseUint32In
  rw [stoul_eq]

/-! ## Options -/

/-- `CliParseResult`, with what is printed on an error. -/
inductive CliParseResult where
  | ok
  | helpShown
  | error (lines : List Bytes)
  deriving DecidableEq

/-- What `parse_args` updates. -/
structure Cli where
  configPath : Bytes
  cfg : MinerConfig
  deriving DecidableEq

/-- `option_requires_value`. -/
def optionRequiresValue (arg : Bytes) : Bool :=
  arg = str "--config" || arg = str "--prefix" || arg = str "--bits" || arg = str "--threads"
    || arg = str "--report-ms"

/-- A numeric option: the field is written before its range is checked. -/
def uintOption (cli : Cli) (value : Bytes) (set : UInt32 → MinerConfig) (allowed : UInt32 → Bool)
    (name expected : Bytes) : Cli × CliParseResult :=
  let invalid := CliParseResult.error
    [str "Invalid " ++ name ++ str " value: " ++ value ++ str " (expected " ++ expected ++ str ")"]
  match parseUint32 value with
  | some n => ({ cli with cfg := set n }, if allowed n then .ok else invalid)
  | none => (cli, invalid)

section

variable (hardwareConcurrency : UInt32) (files : Bytes → Bytes)

/-- What the loop of `parse_args` does for an option and its value, over the text of each file. -/
def applyOption (cli : Cli) (arg value : Bytes) : Cli × CliParseResult :=
  if arg = str "--config" then
    let (loaded, cfg) := loadConfig hardwareConcurrency (files value)
    ({ configPath := value, cfg := cfg },
      if loaded then .ok
      else .error [str "Failed to read config file: " ++ value,
        str "Use --config with a valid JSON file path."])
  else if arg = str "--prefix" then ({ cli with cfg := { cli.cfg with prefixText := value } }, .ok)
  else if arg = str "--bits" then
    uintOption cli value (fun n => { cli.cfg with difficultyBits := n }) (· ≤ 255) (str "--bits")
      (str "integer range 0..255")
  else if arg = str "--threads" then
    uintOption cli value (fun n => { cli.cfg with threadCount := n }) (· ≠ 0) (str "--threads")
      (str "integer >= 1")
  else if arg = str "--report-ms" then
    uintOption cli value (fun n => { cli.cfg with reportIntervalMs := n }) (· ≠ 0)
      (str "--report-ms") (str "integer >= 1")
  else (cli, .ok)

def isHelp (arg : Bytes) : Bool := arg = str "--help" || arg = str "-h"

def unknownOption (arg : Bytes) : CliParseResult :=
  .error [str "Unknown option: " ++ arg, str "Use --help to view supported options."]

def missingValue (arg : Bytes) : CliParseResult :=
  .error [str "Missing value for: " ++ arg, str "Use --help to view expected option values."]

/-- `parse_args` on the arguments behind the program's name. -/
def parseArgs (cli : Cli) : List Bytes → Cli × CliParseResult
  | [] => (cli, .ok)
  | [arg] =>
    if isHelp arg then (cli, .helpShown)
    else if !optionRequiresValue arg then (cli, unknownOption arg)
    else (cli, missingValue arg)
  | arg :: value :: args =>
    if isHelp arg then (cli, .helpShown)
    else if !optionRequiresValue arg then (cli, unknownOption arg)
    else
      match applyOption hardwareConcurrency files cli arg value with
      | (cli, .ok) => parseArgs cli args
      | (cli, result) => (cli, result)

end

end HermitMiner
