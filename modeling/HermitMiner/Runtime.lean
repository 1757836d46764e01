import HermitMiner.Mine
import HermitMiner.Stratum.Client

/-!
# The Stratum runtime

`run_stratum_session` and `run_stratum_loop` of `src/lib/miner_runtime.cpp`, with the counters of
`SessionStats` and the health snapshots.

* `runStratumSession`: one connection, from connecting to the return code of the session.
* `runStratumLoop`: sessions, failures, backoff sleeps and the shutdown summary.
* `wp_updateEnv`, `wp_callEnv`: the rules for the client's world.
-/

namespace HermitMiner

open Oracle

/-- What the two loops share: the client's world, `SessionStats` and `cycles_done`. -/
structure Miner where
  env : Env := {}
  stats : SessionStats := {}
  cyclesDone : UInt32 := 0
  deriving DecidableEq

abbrev App (α : Type) : Type := Proc Miner Event α

def Miner.setEnv (e : Env) (w : Miner) : Miner := { w with env := e }

def onEnv {α : Type} (m : Sys α) : App α := Proc.zoom Miner.env Miner.setEnv m

def Miner.setStats (f : SessionStats → SessionStats) (w : Miner) : Miner :=
  { w with stats := f w.stats }

def updateStats (f : SessionStats → SessionStats) : App Unit := Proc.modify (Miner.setStats f)

/-- A call of the session's logger. -/
def logStratum (cfg : MinerConfig) (level : LogLevel) (message context : Bytes) : App Unit :=
  onEnv (log level (str "stratum") cfg.nodeId message context)

/-! ## The counters -/

/-- `++stats.jobs_received`. -/
def SessionStats.jobReceived (stats : SessionStats) : SessionStats :=
  { stats with jobsReceived := stats.jobsReceived + 1 }

/-- `++stats.shares_found; ++stats.submits_attempted`. -/
def SessionStats.shareFound (stats : SessionStats) : SessionStats :=
  { stats with
    sharesFound := stats.sharesFound + 1
    submitsAttempted := stats.submitsAttempted + 1 }

/-- `++stats.submit_failures`. -/
def SessionStats.submitFailed (stats : SessionStats) : SessionStats :=
  { stats with submitFailures := stats.submitFailures + 1 }

/-- `++stats.accepted_count; stats.last_job_id = job.job_id`. -/
def SessionStats.shareAccepted (jobId : Bytes) (stats : SessionStats) : SessionStats :=
  { stats with acceptedCount := stats.acceptedCount + 1, lastJobId := jobId }

/-- `++stats.reconnect_events; ++stats.session_failures; stats.last_failure_rc = rc`. -/
def SessionStats.sessionFailed (rc : Int) (stats : SessionStats) : SessionStats :=
  { stats with
    reconnectEvents := stats.reconnectEvents + 1
    sessionFailures := stats.sessionFailures + 1
    lastFailureRc := rc }

/-- `++cycles_done`. -/
def Miner.cycleDone (w : Miner) : Miner := { w with cyclesDone := w.cyclesDone + 1 }

/-! ## Health snapshots -/

/-- The text of a health snapshot. -/
def healthSnapshot (cfg : MinerConfig) (stats : SessionStats) (readinessStatus : Bytes)
    (durationSec : Nat) (acceptedPerMin : Bytes) : Bytes :=
  str "\x7b\"node_id\":\"" ++ jsonEscape cfg.nodeId ++ str "\","
    ++ str "\"status\":\"" ++ jsonEscape readinessStatus ++ str "\","
    ++ str "\"accepted_count\":" ++ dec stats.acceptedCount ++ str ","
    ++ str "\"jobs_received\":" ++ dec stats.jobsReceived ++ str ","
    ++ str "\"shares_found\":" ++ dec stats.sharesFound ++ str ","
    ++ str "\"submits_attempted\":" ++ dec stats.submitsAttempted ++ str ","
    ++ str "\"submit_failures\":" ++ dec stats.submitFailures ++ str ","
    ++ str "\"reconnect_events\":" ++ dec stats.reconnectEvents ++ str ","
    ++ str "\"session_failures\":" ++ dec stats.sessionFailures ++ str ","
    ++ str "\"session_duration_sec\":" ++ dec durationSec ++ str ","
    ++ str "\"accepted_per_min\":" ++ acceptedPerMin ++ str ","
    ++ str "\"last_job_id\":\"" ++ jsonEscape stats.lastJobId ++ str "\"\x7d"

def writeHealthSnapshot (cfg : MinerConfig) (readinessStatus : Bytes) (durationSec : Nat)
    (acceptedPerMin : Bytes) : App Unit := do
  if cfg.healthOutput = [] then return ()
  else if ← onEnv openFile then
    let w ← Proc.get
    onEnv (observe (.snapshot w.stats w.cyclesDone
      (healthSnapshot cfg w.stats readinessStatus durationSec acceptedPerMin)))
  else onEnv (log .warn (str "health") cfg.nodeId (str "Failed to write health snapshot")
    cfg.healthOutput)

def computeReadinessStatus (stats : SessionStats) : Bytes :=
  if 3 ≤ stats.acceptedCount ∧ stats.submitFailures = 0 ∧ stats.sessionFailures = 0 then
    str "ready"
  else if 0 < stats.acceptedCount then str "degraded"
  else str "not_ready"

def maybeWriteHealthSnapshotIncremental (cfg : MinerConfig) : App Unit := do
  if !cfg.healthEmitEachCycle then return ()
  else
    let (durationSec, acceptedPerMin) ← onEnv clock
    let readinessStatus := computeReadinessStatus (← Proc.get).stats
    writeHealthSnapshot cfg readinessStatus durationSec acceptedPerMin

/-! ## Sessions -/

def startStratumSession (cfg : MinerConfig) (client : StratumClient) : App Bool := do
  let username := poolUsername cfg
  if ← onEnv client.connectToPool then
    if ← onEnv (client.subscribe (str "hermit_miner/stratum-offline-ready")) then
      if ← onEnv (client.authorize username cfg.poolPassword) then
        logStratum cfg .info (str "Stratum session started") (str "user=" ++ username)
        return true
      else return false
    else return false
  else return false

/-- `mining_cfg`: the configuration with the job's prefix, unless it is empty, and difficulty. -/
def miningConfig (cfg : MinerConfig) (job : StratumJob) : MinerConfig :=
  { cfg with
    prefixText := if job.prefixText ≠ [] then job.prefixText else cfg.prefixText
    difficultyBits := job.difficultyBits }

/-- `job_ctx`. -/
def jobContext (job : StratumJob) (miningCfg : MinerConfig) : Bytes :=
  str "job_id=" ++ job.jobId ++ str " prefix=" ++ miningCfg.prefixText ++ str " bits="
    ++ dec miningCfg.difficultyBits.toNat ++ str " clean_job="
    ++ (if job.cleanJob then str "true" else str "false")

/-- `pool_max_cycles == 0U || cycles_done < pool_max_cycles`. -/
def belowCycleLimit (cfg : MinerConfig) (cyclesDone : UInt32) : Bool :=
  cfg.poolMaxCycles = 0 || cyclesDone < cfg.poolMaxCycles

/-- What the loop of `run_stratum_session` does with a share it found. -/
def submitFound (cfg : MinerConfig) (client : StratumClient) (jobId : Bytes) (nonce : UInt32) :
    App (Unit ⊕ Int) := do
  updateStats SessionStats.shareFound
  if ← onEnv (client.submitShare (poolUsername cfg) jobId nonce) then
    Proc.modify Miner.cycleDone
    updateStats (SessionStats.shareAccepted jobId)
    maybeWriteHealthSnapshotIncremental cfg
    logStratum cfg .info (str "Stratum cycle completed") jobId
    return .inl ()
  else
    updateStats SessionStats.submitFailed
    logStratum cfg .warn (str "Submit failed; reconnect required") jobId
    return .inr 8

/-- What the loop of `run_stratum_session` does with a job. -/
def mineJob (cfg : MinerConfig) (client : StratumClient) (job : StratumJob) :
    App (Unit ⊕ Int) := do
  updateStats SessionStats.jobReceived
  let miningCfg := miningConfig cfg job
  logStratum cfg .info (str "Mining on Stratum job") (jobContext job miningCfg)
  let result ← onEnv (mine miningCfg)
  if result.aborted then return .inr 0
  else if !result.found then
    logStratum cfg .warn (str "No valid nonce found for job") job.jobId
    return .inl ()
  else submitFound cfg client job.jobId result.nonce

/-- One round of the loop of `run_stratum_session`. -/
def sessionRound (cfg : MinerConfig) (client : StratumClient) (_ : Unit) : App (Unit ⊕ Int) := do
  let stop ← onEnv loadStop
  let cyclesDone := (← Proc.get).cyclesDone
  if !stop && belowCycleLimit cfg cyclesDone then
    match ← onEnv (client.waitForJob cfg.poolNotifyTimeoutSec) with
    | none =>
      if ← onEnv loadStop then return .inr 0
      else
        logStratum cfg .warn (str "Session lost while waiting for job; reconnect required") []
        return .inr 6
    | some job => mineJob cfg client job
  else
    logStratum cfg .info (str "Stratum session reached cycle limit")
      (str "cycles=" ++ dec cyclesDone.toNat)
    return .inr 0

/-- The client that a session constructs. -/
def newClient (cfg : MinerConfig) : StratumClient where
  host := cfg.poolHost
  port := cfg.poolPort.toUInt16
  nodeId := cfg.nodeId

def runStratumSession (cfg : MinerConfig) : App Int := do
  onEnv (Proc.modify Env.newClient)
  if ← startStratumSession cfg (newClient cfg) then
    Proc.loop (sessionRound cfg (newClient cfg)) ()
  else return 4

/-! ## The loop over sessions -/

/-- The initial value of `backoff_sec`. -/
def backoffInitial (cfg : MinerConfig) : UInt32 := max 1 cfg.poolReconnectInitialSec

/-- `backoff_max`. -/
def backoffMax (cfg : MinerConfig) : UInt32 := max (backoffInitial cfg) cfg.poolReconnectMaxSec

/-- The backoff after a sleep of `backoffSec`, in 32-bit arithmetic. -/
def backoffNext (cfg : MinerConfig) (backoffSec : UInt32) : UInt32 :=
  min (backoffMax cfg) (backoffSec * 2)

/-- What `run_stratum_loop` does after a session that failed with `rc`. -/
def sessionFailed (cfg : MinerConfig) (backoffSec : UInt32) (rc : Int) : App (UInt32 ⊕ Int) := do
  updateStats (SessionStats.sessionFailed rc)
  maybeWriteHealthSnapshotIncremental cfg
  let w ← Proc.get
  if 0 < cfg.poolMaxReconnectAttempts ∧
      cfg.poolMaxReconnectAttempts.toNat ≤ w.stats.sessionFailures then
    logStratum cfg .err (str "Reconnect attempt limit reached")
      (str "rc=" ++ decInt rc ++ str " max_reconnect_attempts="
        ++ dec cfg.poolMaxReconnectAttempts.toNat ++ str " cycles_done="
        ++ dec w.cyclesDone.toNat)
    return .inr rc
  else
    logStratum cfg .warn (str "Stratum cycle failed; reconnecting")
      (str "rc=" ++ decInt rc ++ str " sleep_sec=" ++ dec backoffSec.toNat
        ++ str " cycles_done=" ++ dec w.cyclesDone.toNat)
    if ← onEnv loadStop then return .inr 0
    else
      onEnv (sleepFor backoffSec)
      return .inl (backoffNext cfg backoffSec)

/-- One round of the loop of `run_stratum_loop`; it leaves the loop with `final_rc`. -/
def loopRound (cfg : MinerConfig) (backoffSec : UInt32) : App (UInt32 ⊕ Int) := do
  let stop ← onEnv loadStop
  if !stop && belowCycleLimit cfg (← Proc.get).cyclesDone then
    onEnv (observe .sessionStarted)
    let rc ← runStratumSession cfg
    onEnv (observe (.sessionEnded rc))
    if rc = 0 then return .inl (backoffInitial cfg)
    else sessionFailed cfg backoffSec rc
  else return .inr 0

/-- The context of the shutdown summary. -/
def summaryContext (stats : SessionStats) (durationSec : Nat) (acceptedPerMin : Bytes) : Bytes :=
  str "accepted_count=" ++ dec stats.acceptedCount
    ++ str " jobs_received=" ++ dec stats.jobsReceived
    ++ str " shares_found=" ++ dec stats.sharesFound
    ++ str " submits_attempted=" ++ dec stats.submitsAttempted
    ++ str " submit_failures=" ++ dec stats.submitFailures
    ++ str " reconnect_events=" ++ dec stats.reconnectEvents
    ++ str " session_failures=" ++ dec stats.sessionFailures
    ++ str " last_failure_rc=" ++ decInt stats.lastFailureRc
    ++ str " session_duration_sec=" ++ dec durationSec
    ++ str " accepted_per_min=" ++ acceptedPerMin
    ++ str " last_job_id=" ++ stats.lastJobId

/-- The context of the readiness report. -/
def readinessContext (stats : SessionStats) : Bytes :=
  str "status=" ++ computeReadinessStatus stats
    ++ str " accepted_count=" ++ dec stats.acceptedCount
    ++ str " submit_failures=" ++ dec stats.submitFailures
    ++ str " session_failures=" ++ dec stats.sessionFailures
    ++ str " reconnect_events=" ++ dec stats.reconnectEvents

/-- The end of `run_stratum_loop`, after its loop. -/
def shutdown (cfg : MinerConfig) : App Unit := do
  let (durationSec, acceptedPerMin) ← onEnv clock
  let w ← Proc.get
  onEnv (observe (.summary w.stats w.cyclesDone))
  logStratum cfg .info (str "Shutdown summary") (summaryContext w.stats durationSec acceptedPerMin)
  logStratum cfg .info (str "Readiness report") (readinessContext w.stats)
  writeHealthSnapshot cfg (computeReadinessStatus w.stats) durationSec acceptedPerMin
  logStratum cfg .info (str "Stratum loop finished") (str "cycles=" ++ dec w.cyclesDone.toNat)

def runStratumLoop (cfg : MinerConfig) : App Int := do
  let finalRc ← Proc.loop (loopRound cfg) (backoffInitial cfg)
  shutdown cfg
  return finalRc

/-! ## Rules -/

section Rules

variable {α β : Type} {w : Miner} {Q : α → Miner → Prop} {R : Miner → Prop}

theorem wp_onEnv {m : Sys α}
    (h : wp m (fun a e => Q a (w.setEnv e)) (fun e => R (w.setEnv e)) w.env) :
    wp (onEnv m) Q R w := wp_zoom h

/-- Update the client's world, and go on. -/
theorem wp_updateEnv {g : Env → Env} {f : Unit → App α}
    (h : wp (f ()) Q R (w.setEnv (g w.env))) : wp (onEnv (Proc.modify g) >>= f) Q R w :=
  wp_bind (wp_onEnv (wp_modify h))

/-- Call the client, and go on. -/
theorem wp_callEnv {m : Sys β} {f : β → App α} {P : β → Env → Prop} {R' : Env → Prop}
    (h : wp m P R' w.env) (hf : ∀ b e, P b e → wp (f b) Q R (w.setEnv e))
    (hR : ∀ e, R' e → R (w.setEnv e)) : wp (onEnv m >>= f) Q R w :=
  wp_bind (wp_onEnv (wp_mono h hf hR))

theorem keeps_onEnv {I : Env → Prop} {m : Sys α} (hm : Keeps I m) :
    Keeps (fun w : Miner => I w.env) (onEnv m) :=
  .zoom (fun _ => hm) fun _ => rfl

end Rules

/-! ## The loops of the runtime are not cut short -/

theorem advances_sessionRound (cfg : MinerConfig) (client : StratumClient) :
    Proc.Advances (sessionRound cfg client) :=
  .of_eats fun _ => (eats_loadStop.zoom _ _).bind _

theorem advances_loopRound (cfg : MinerConfig) : Proc.Advances (loopRound cfg) :=
  .of_eats fun _ => (eats_loadStop.zoom _ _).bind _

end HermitMiner
