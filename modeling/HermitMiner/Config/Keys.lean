import HermitMiner.Config.Grammar
import HermitMiner.Config.Load
import HermitMiner.Stratum.Codec

/-!
# The recognised keys

What a configuration file can say, in terms of its keys: where each key stands, which values it
takes, and which field of the configuration it sets.

* `Key`: the keys, with `Key.home`, `Key.kind` and `Key.get`.
* `Assignment`: values for some of the keys, each of the kind and in the range of its key.
* `Rendering`: the documents that render an assignment.
-/

namespace HermitMiner

open JsonGrammar

/-- A section of the document. -/
inductive Section where
  | pool
  | hashing
  | logging
  deriving DecidableEq

def Section.name : Section → Bytes
  | .pool => str "pool"
  | .hashing => str "hashing"
  | .logging => str "logging"

/-- What a value of the configuration can be. -/
inductive Setting where
  | string (s : Bytes)
  | number (n : UInt32)
  | bool (b : Bool)
  deriving DecidableEq

/-- The type of a key, with the range of a number. -/
inductive Kind where
  | string
  | number (low high : Nat)
  | bool
  deriving DecidableEq

inductive Key where
  | nodeId
  | workerId
  | payoutAddress
  | username
  | host
  | port
  | password
  | passwordEnv
  | requireTls
  | enabled
  | notifyTimeoutSec
  | maxCycles
  | maxReconnectAttempts
  | reconnectInitialSec
  | reconnectMaxSec
  | prefixText
  | difficultyBits
  | threads
  | reportIntervalMs
  | output
  | healthOutput
  | healthEmitEachCycle
  deriving DecidableEq

namespace Key

def all : List Key :=
  [nodeId, workerId, payoutAddress, username, host, port, password, passwordEnv, requireTls,
    enabled, notifyTimeoutSec, maxCycles, maxReconnectAttempts, reconnectInitialSec,
    reconnectMaxSec, prefixText, difficultyBits, threads, reportIntervalMs, output, healthOutput,
    healthEmitEachCycle]

theorem mem_all (k : Key) : k ∈ all := by
  cases k <;> decide

def name : Key → Bytes
  | nodeId => str "node_id"
  | workerId => str "worker_id"
  | payoutAddress => str "payout_address"
  | username => str "username"
  | host => str "host"
  | port => str "port"
  | password => str "password"
  | passwordEnv => str "password_env"
  | requireTls => str "require_tls"
  | enabled => str "enabled"
  | notifyTimeoutSec => str "notify_timeout_sec"
  | maxCycles => str "max_cycles"
  | maxReconnectAttempts => str "max_reconnect_attempts"
  | reconnectInitialSec => str "reconnect_initial_sec"
  | reconnectMaxSec => str "reconnect_max_sec"
  | prefixText => str "prefix"
  | difficultyBits => str "difficulty_bits"
  | threads => str "threads"
  | reportIntervalMs => str "report_interval_ms"
  | output => str "output"
  | healthOutput => str "health_output"
  | healthEmitEachCycle => str "health_emit_each_cycle"

/-- The section of a key; the first three stand at the root only. -/
def home : Key → Option Section
  | nodeId | workerId | payoutAddress => none
  | prefixText | difficultyBits | threads | reportIntervalMs => some .hashing
  | output | healthOutput | healthEmitEachCycle => some .logging
  | _ => some .pool

def kind : Key → Kind
  | requireTls | enabled | healthEmitEachCycle => .bool
  | port => .number 1 65535
  | notifyTimeoutSec | reconnectInitialSec | reconnectMaxSec | threads | reportIntervalMs =>
    .number 1 uint32Max
  | maxCycles | maxReconnectAttempts => .number 0 uint32Max
  | difficultyBits => .number 0 255
  | _ => .string

/-- The field of the configuration that the key sets. -/
def get (cfg : MinerConfig) : Key → Setting
  | nodeId => .string cfg.nodeId
  | workerId => .string cfg.workerId
  | payoutAddress => .string cfg.payoutAddress
  | username => .string cfg.poolUsername
  | host => .string cfg.poolHost
  | port => .number cfg.poolPort
  | password => .string cfg.poolPassword
  | passwordEnv => .string cfg.poolPasswordEnv
  | requireTls => .bool cfg.poolRequireTls
  | enabled => .bool cfg.poolEnabled
  | notifyTimeoutSec => .number cfg.poolNotifyTimeoutSec
  | maxCycles => .number cfg.poolMaxCycles
  | maxReconnectAttempts => .number cfg.poolMaxReconnectAttempts
  | reconnectInitialSec => .number cfg.poolReconnectInitialSec
  | reconnectMaxSec => .number cfg.poolReconnectMaxSec
  | prefixText => .string cfg.prefixText
  | difficultyBits => .number cfg.difficultyBits
  | threads => .number cfg.threadCount
  | reportIntervalMs => .number cfg.reportIntervalMs
  | output => .string cfg.logOutput
  | healthOutput => .string cfg.healthOutput
  | healthEmitEachCycle => .bool cfg.healthEmitEachCycle

end Key

/-! ## Values in a document -/

/-- The value that denotes a setting. -/
def Setting.json : Setting → JsonValue
  | .string s => .string s
  | .number n => .number n.toNat
  | .bool b => .bool b

/-- The value has the type of the key and is in its range. -/
def Kind.Accepts : Kind → JsonValue → Prop
  | .string, .string _ => True
  | .number low high, .number n => low ≤ n ∧ n ≤ high
  | .bool, .bool _ => True
  | _, _ => False

section

variable (document : JsonValue)

/-- The section of a key in a document. -/
def Key.sectionOf (k : Key) : Option JsonValue :=
  k.home.bind fun sec => objectField (some document) sec.name

/-- What a document says of a key: in its section, or at the root when the section does not have
it. -/
def Key.present (k : Key) : Option JsonValue :=
  (objectField (k.sectionOf document) k.name).or (objectField (some document) k.name)

/-- What loading a document makes of the field of a key. -/
def Key.load (k : Key) (field : Setting) : Setting :=
  match k.kind, field with
  | .string, .string s => .string (stringField (k.sectionOf document) (some document) k.name s)
  | .number low high, .number n =>
    .number (uintField (k.sectionOf document) (some document) k.name low high n)
  | .bool, .bool b => .bool (boolField (k.sectionOf document) (some document) k.name b)
  | _, field => field

end

/-! ## Documents -/

/-- The text of a setting; strings are written with `json_escape`. -/
def Setting.text : Setting → Bytes
  | .string s => quoted (jsonEscape s)
  | .number n => dec n.toNat
  | .bool b => if b then str "true" else str "false"

/-- The texts of members in this order, given by their names and the texts of their values. -/
inductive MembersText : Bytes → List (Bytes × Bytes) → Prop where
  | last {a b c d name text : Bytes} (ha : Blank a) (hb : Blank b) (hc : Blank c) (hd : Blank d) :
      MembersText (a ++ quoted name ++ b ++ ch ':' :: c ++ text ++ d) [(name, text)]
  | cons {a b c d name text rest : Bytes} {members : List (Bytes × Bytes)} (ha : Blank a)
      (hb : Blank b) (hc : Blank c) (hd : Blank d) (hrest : MembersText rest members) :
      MembersText (a ++ quoted name ++ b ++ ch ':' :: c ++ text ++ d ++ ch ',' :: rest)
        ((name, text) :: members)

inductive ObjectText : Bytes → List (Bytes × Bytes) → Prop where
  | empty {a : Bytes} (ha : Blank a) : ObjectText (ch '\x7b' :: a ++ [ch '\x7d']) []
  | members {text : Bytes} {members : List (Bytes × Bytes)} (h : MembersText text members) :
      ObjectText (ch '\x7b' :: text ++ [ch '\x7d']) members

/-- Values for some of the keys. -/
structure Assignment where
  value : Key → Option Setting
  accepted : ∀ k s, value k = some s → k.kind.Accepts s.json

/-- The members for those of the assigned keys that `p` holds of. -/
def Assignment.members (σ : Assignment) (p : Key → Bool) : List (Bytes × Bytes) :=
  (Key.all.filter p).filterMap fun k => (σ.value k).map fun s => (k.name, s.text)

/-- A document that renders an assignment: every assigned key stands once, in its section or at the
root, and the members stand in any order with any white space. -/
structure Rendering (σ : Assignment) (input : Bytes) where
  /-- The keys that stand at the root although they have a section. -/
  flat : Key → Bool
  sections : List Section
  sectionMembers : Section → List (Bytes × Bytes)
  sectionText : Section → Bytes
  rootMembers : List (Bytes × Bytes)
  rootText : Bytes
  before : Bytes
  after : Bytes
  sections_nodup : sections.Nodup
  /-- The section of a key that stands in it is there. -/
  sections_of_nested : ∀ k sec, (σ.value k).isSome → flat k = false → k.home = some sec →
    sec ∈ sections
  sectionMembers_perm : ∀ sec ∈ sections, (sectionMembers sec).Perm
    (σ.members fun k => k.home = some sec ∧ flat k = false)
  objectText_section : ∀ sec ∈ sections, ObjectText (sectionText sec) (sectionMembers sec)
  rootMembers_perm : rootMembers.Perm ((σ.members fun k => k.home = none ∨ flat k = true) ++
    sections.map fun sec => (sec.name, sectionText sec))
  objectText_root : ObjectText rootText rootMembers
  blank_before : Blank before
  blank_after : Blank after
  input_eq : input = before ++ rootText ++ after

end HermitMiner
