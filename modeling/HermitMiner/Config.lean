import HermitMiner.Bytes

/-!
# The miner's configuration

`MinerConfig`, its defaults, and `validate_config` of `src/lib/miner_config.cpp`.
-/

namespace HermitMiner

structure MinerConfig where
  nodeId : Bytes
  workerId : Bytes
  payoutAddress : Bytes
  poolUsername : Bytes
  poolHost : Bytes
  poolPort : UInt32
  poolPassword : Bytes
  poolPasswordEnv : Bytes
  poolRequireTls : Bool
  poolEnabled : Bool
  poolNotifyTimeoutSec : UInt32
  poolMaxCycles : UInt32
  poolMaxReconnectAttempts : UInt32
  poolReconnectInitialSec : UInt32
  poolReconnectMaxSec : UInt32
  /-- `prefix`. -/
  prefixText : Bytes
  difficultyBits : UInt32
  threadCount : UInt32
  reportIntervalMs : UInt32
  logOutput : Bytes
  healthOutput : Bytes
  healthEmitEachCycle : Bool
  deriving DecidableEq

/-- `MinerConfig{}` on a machine with the given `std::thread::hardware_concurrency()`. -/
def MinerConfig.default (hardwareConcurrency : UInt32) : MinerConfig where
  nodeId := str "CP-1"
  workerId := str "cp1"
  payoutAddress := []
  poolUsername := []
  poolHost := str "pool.example.com"
  poolPort := 3333
  poolPassword := str "x"
  poolPasswordEnv := []
  poolRequireTls := false
  poolEnabled := false
  poolNotifyTimeoutSec := 30
  poolMaxCycles := 0
  poolMaxReconnectAttempts := 0
  poolReconnectInitialSec := 1
  poolReconnectMaxSec := 30
  prefixText := str "hello-bitcoin"
  difficultyBits := 24
  threadCount := max 1 hardwareConcurrency
  reportIntervalMs := 1000
  logOutput := str "logs/miner.log"
  healthOutput := []
  healthEmitEachCycle := false

def poolUsername (cfg : MinerConfig) : Bytes :=
  if cfg.poolUsername ≠ [] then cfg.poolUsername
  else if cfg.payoutAddress = [] then cfg.workerId
  else cfg.payoutAddress ++ str "." ++ cfg.workerId

/-- `text.find(word) != npos`. -/
def contains (text word : Bytes) : Bool := text.tails.any (word.isPrefixOf ·)

/-- `validate_config`: the error message of the first check that fails. -/
def validateConfig (cfg : MinerConfig) : Except Bytes Unit :=
  if cfg.threadCount = 0 then
    .error (str "hashing.threads must be greater than 0")
  else if cfg.reportIntervalMs = 0 then
    .error (str "hashing.report_interval_ms must be greater than 0")
  else if !cfg.poolEnabled then
    .ok ()
  else if cfg.poolHost = [] then
    .error (str "pool.host must be set when pool.enabled=true")
  else if cfg.poolPort = 0 ∨ 65535 < cfg.poolPort then
    .error (str "pool.port must be in range 1..65535 when pool.enabled=true")
  else if poolUsername cfg = [] then
    .error (str "pool.username (or payout_address+worker_id) must be set when pool.enabled=true")
  else if contains (poolUsername cfg) (str "REPLACE_WITH") then
    .error (str
      "pool.username contains placeholder value; replace before running with pool.enabled=true")
  else if cfg.poolPassword = [] then
    .error (str "pool.password is empty; set pool.password or pool.password_env")
  else if contains cfg.poolPassword (str "REPLACE_WITH") then
    .error (str
      "pool.password contains placeholder value; replace before running with pool.enabled=true")
  else if cfg.poolNotifyTimeoutSec = 0 then
    .error (str "pool.notify_timeout_sec must be greater than 0")
  else if cfg.poolReconnectInitialSec = 0 ∨ cfg.poolReconnectMaxSec = 0 then
    .error (str "pool reconnect backoff values must be greater than 0")
  else if cfg.poolReconnectMaxSec < cfg.poolReconnectInitialSec then
    .error (str
      "pool.reconnect_max_sec must be greater than or equal to pool.reconnect_initial_sec")
  else if cfg.poolRequireTls then
    .error (str ("pool.require_tls=true is not supported yet; use a secure tunnel/proxy and set " ++
      "pool.require_tls=false"))
  else .ok ()

/-! ## What a validated configuration satisfies -/

/-- A check that was passed, and what follows it. -/
theorem passed_of_ite {ε : Type} {c : Prop} [Decidable c] {e : ε} {x : Except ε Unit}
    (h : (if c then .error e else x) = .ok ()) : ¬c ∧ x = .ok () := by
  split at h
  · cases h
  · exact ⟨‹_›, h⟩

theorem reconnect_bounds {cfg : MinerConfig} (h : validateConfig cfg = .ok ())
    (henabled : cfg.poolEnabled = true) :
    0 < cfg.poolReconnectInitialSec ∧ cfg.poolReconnectInitialSec ≤ cfg.poolReconnectMaxSec := by
  unfold validateConfig at h
  replace h := (passed_of_ite (passed_of_ite h).2).2
  rw [if_neg (by simp [henabled])] at h
  -- the host, the port, the user name twice, the password twice and the timeout
  replace h := (passed_of_ite (passed_of_ite (passed_of_ite (passed_of_ite h).2).2).2).2
  replace h := (passed_of_ite (passed_of_ite (passed_of_ite h).2).2).2
  obtain ⟨hzero, h⟩ := passed_of_ite h
  obtain ⟨hless, -⟩ := passed_of_ite h
  exact ⟨UInt32.pos_iff_ne_zero.2 fun h0 => hzero (Or.inl h0), UInt32.not_lt.1 hless⟩

end HermitMiner
