import HermitMiner.Config
import HermitMiner.Config.Json

/-!
# Loading the configuration

`load_config` of `src/lib/miner_config.cpp` on the text of the file.

* `readStringField`, `readUintField`, `readBoolField`: one member of an object.
* `stringField`, `uintField`, `boolField`: a field of the configuration, read from its section or
  else from the root, or left as it was.
* `loadFields`, `loadConfig`: all fields, and the whole.
-/

namespace HermitMiner

/-- `object_field`; no object is a null pointer. -/
def objectField (obj : Option JsonValue) (key : Bytes) : Option JsonValue :=
  match obj with
  | some (.object members) => members.lookup key
  | _ => none

/-- The string of a value, when its type is `String`. -/
def JsonValue.asString : JsonValue → Option Bytes
  | .string s => some s
  | _ => none

def JsonValue.asNumber : JsonValue → Option Nat
  | .number n => some n
  | _ => none

def JsonValue.asBool : JsonValue → Option Bool
  | .bool b => some b
  | _ => none

def readStringField (obj : Option JsonValue) (key : Bytes) : Option Bytes :=
  (objectField obj key).bind JsonValue.asString

def readUintField (obj : Option JsonValue) (key : Bytes) : Option Nat :=
  (objectField obj key).bind JsonValue.asNumber

def readBoolField (obj : Option JsonValue) (key : Bytes) : Option Bool :=
  (objectField obj key).bind JsonValue.asBool

section

variable (pool root : Option JsonValue) (key : Bytes)

/-- `if (read_string_field(pool, key, text) || read_string_field(&root, key, text)) field = text`. -/
def stringField (field : Bytes) : Bytes :=
  ((readStringField pool key).or (readStringField root key)).getD field

/-- The same for a bool, which is read in place. -/
def boolField (field : Bool) : Bool :=
  ((readBoolField pool key).or (readBoolField root key)).getD field

/-- The same for a number, which is stored when it is from `low` to `high`. -/
def uintField (low high : Nat) (field : UInt32) : UInt32 :=
  match (readUintField pool key).or (readUintField root key) with
  | some value => if low ≤ value ∧ value ≤ high then value.toUInt32 else field
  | none => field

end

/-- `std::numeric_limits<std::uint32_t>::max()`. -/
def uint32Max : Nat := 2 ^ 32 - 1

/-- The assignments of `load_config`, after the document is parsed. -/
def loadFields (document : JsonValue) (cfg : MinerConfig) : MinerConfig :=
  let root := some document
  let pool := objectField root (str "pool")
  let hashing := objectField root (str "hashing")
  let logging := objectField root (str "logging")
  { nodeId := stringField none root (str "node_id") cfg.nodeId
    workerId := stringField none root (str "worker_id") cfg.workerId
    payoutAddress := stringField none root (str "payout_address") cfg.payoutAddress
    poolUsername := stringField pool root (str "username") cfg.poolUsername
    poolHost := stringField pool root (str "host") cfg.poolHost
    poolPort := uintField pool root (str "port") 1 65535 cfg.poolPort
    poolPassword := stringField pool root (str "password") cfg.poolPassword
    poolPasswordEnv := stringField pool root (str "password_env") cfg.poolPasswordEnv
    poolRequireTls := boolField pool root (str "require_tls") cfg.poolRequireTls
    poolEnabled := boolField pool root (str "enabled") cfg.poolEnabled
    poolNotifyTimeoutSec :=
      uintField pool root (str "notify_timeout_sec") 1 uint32Max cfg.poolNotifyTimeoutSec
    poolMaxCycles := uintField pool root (str "max_cycles") 0 uint32Max cfg.poolMaxCycles
    poolMaxReconnectAttempts :=
      uintField pool root (str "max_reconnect_attempts") 0 uint32Max cfg.poolMaxReconnectAttempts
    poolReconnectInitialSec :=
      uintField pool root (str "reconnect_initial_sec") 1 uint32Max cfg.poolReconnectInitialSec
    poolReconnectMaxSec :=
      uintField pool root (str "reconnect_max_sec") 1 uint32Max cfg.poolReconnectMaxSec
    prefixText := stringField hashing root (str "prefix") cfg.prefixText
    difficultyBits := uintField hashing root (str "difficulty_bits") 0 255 cfg.difficultyBits
    threadCount := uintField hashing root (str "threads") 1 uint32Max cfg.threadCount
    reportIntervalMs :=
      uintField hashing root (str "report_interval_ms") 1 uint32Max cfg.reportIntervalMs
    logOutput := stringField logging root (str "output") cfg.logOutput
    healthOutput := stringField logging root (str "health_output") cfg.healthOutput
    healthEmitEachCycle :=
      boolField logging root (str "health_emit_each_cycle") cfg.healthEmitEachCycle }

/-- `load_config` on the text of the file, which is empty when the file cannot be read: whether it
succeeds, and the configuration it leaves. -/
def loadConfig (hardwareConcurrency : UInt32) (json : Bytes) : Bool × MinerConfig :=
  let cfg := MinerConfig.default hardwareConcurrency
  if json = [] then (false, cfg)
  else
    match (JsonParser.parse json).1 with
    | some (.object members) => (true, loadFields (.object members) cfg)
    | _ => (false, cfg)

end HermitMiner
