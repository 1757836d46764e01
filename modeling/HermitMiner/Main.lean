import HermitMiner.Cli
import HermitMiner.Logger
import HermitMiner.Runtime

/-!
# The program

`main` of `src/miner.cpp`, with `apply_secret_overrides_from_env` of `src/lib/miner_config.cpp`.

* `startup`: the configuration the program runs on, or the code it exits with before.
* `runMiner`: the rest of `main`, from the secrets to the exit code.
-/

namespace HermitMiner

open Oracle

/-! ## Before the logger -/

def defaultConfigPath : Bytes := str "config/miner-local-stratum.json"

/-- What `main` comes to before it constructs the logger. -/
inductive Startup where
  /-- It exits with a code, after lines on the standard error. -/
  | exit (rc : Int) (lines : List Bytes)
  | run (cfg : MinerConfig)
  deriving DecidableEq

/-- The beginning of `main`, on the arguments behind the program's name and the texts of the files;
the text of a file that cannot be read is empty. -/
def startup (hardwareConcurrency : UInt32) (files : Bytes → Bytes) (args : List Bytes) : Startup :=
  let (loaded, cfg) := loadConfig hardwareConcurrency (files defaultConfigPath)
  match parseArgs hardwareConcurrency files { configPath := defaultConfigPath, cfg := cfg } args with
  | (_, .helpShown) => .exit 0 []
  | (_, .error lines) => .exit 1 lines
  | (cli, .ok) =>
    if cli.configPath = defaultConfigPath ∧ loaded = false then
      .exit 1 [str "Failed to read default config file: " ++ cli.configPath]
    else .run cli.cfg

/-! ## Secrets -/

/-- `c_str()`: the text up to its first NUL. -/
def cString (text : Bytes) : Bytes := text.takeWhile (· ≠ 0)

/-- `apply_secret_overrides_from_env`, over the environment's variables. -/
def applySecretOverridesFromEnv (getenv : Bytes → Option Bytes) (cfg : MinerConfig) :
    App MinerConfig := do
  if cfg.poolPasswordEnv = [] then return cfg
  else
    let value := (getenv (cString cfg.poolPasswordEnv)).getD []
    if value = [] then
      onEnv (log .warn (str "config") cfg.nodeId
        (str "pool.password_env is set but environment variable is missing") cfg.poolPasswordEnv)
      return cfg
    else
      onEnv (log .info (str "config") cfg.nodeId
        (str "Loaded pool password from environment variable") cfg.poolPasswordEnv)
      return { cfg with poolPassword := value }

/-! ## The run -/

def isLocalPoolHost (host : Bytes) : Bool :=
  host = str "127.0.0.1" || host = str "localhost" || host = str "::1"

/-- The context of the first line of a run. -/
def startupContext (cfg : MinerConfig) : Bytes :=
  str "worker_id=" ++ cfg.workerId
    ++ str " threads=" ++ dec cfg.threadCount.toNat
    ++ str " bits=" ++ dec cfg.difficultyBits.toNat
    ++ str " pool_enabled=" ++ (if cfg.poolEnabled then str "true" else str "false")
    ++ str " pool_user=" ++ poolUsername cfg
    ++ str " pool_host=" ++ cfg.poolHost ++ str ":" ++ dec cfg.poolPort.toNat

/-- A call of the logger in `main`. -/
def logMiner (cfg : MinerConfig) (level : LogLevel) (message context : Bytes) : App Unit :=
  onEnv (log level (str "miner") cfg.nodeId message context)

/-- The elapsed seconds and the hashes a second, as they are printed. -/
def measure : Sys (Bytes × Bytes) := do
  match ← await with
  | .reporter elapsed rate => return (elapsed, rate)
  | _ => Proc.halt

/-- The end of `main` without a pool. -/
def runSolo (cfg : MinerConfig) : App Int := do
  let result ← onEnv (mine cfg)
  if result.aborted then
    logMiner cfg .info (str "Graceful shutdown complete") (str "reason=signal")
    return 0
  else if !result.found then
    logMiner cfg .warn (str "No valid nonce found in 32-bit nonce space") []
    return 2
  else
    let (elapsed, rate) ← onEnv measure
    logMiner cfg .info (str "Proof-of-work complete")
      (str "nonce=" ++ dec result.nonce.toNat ++ str " hash=" ++ hashToHex result.hash
        ++ str " tries=" ++ dec result.hashesTried ++ str " elapsed_seconds=" ++ elapsed
        ++ str " rate_hps=" ++ rate)
    return 0

/-- The end of `main` with a pool. -/
def runPool (cfg : MinerConfig) : App Int := do
  let rc ← runStratumLoop cfg
  if rc ≠ 0 then return rc
  else if ← onEnv loadStop then
    logMiner cfg .info (str "Graceful shutdown complete") (str "reason=signal")
    return 0
  else return 0

/-- `main` after the logger is constructed, on what `startup` has come to. -/
def runMiner (getenv : Bytes → Option Bytes) (loaded : MinerConfig) : App Int := do
  let cfg ← applySecretOverridesFromEnv getenv loaded
  match validateConfig cfg with
  | .error configError =>
    onEnv (log .err (str "config") cfg.nodeId (str "Invalid configuration") configError)
    return 1
  | .ok () =>
    logMiner cfg .info (str "Independent miner starting") (startupContext cfg)
    if cfg.poolEnabled && !cfg.poolRequireTls && !isLocalPoolHost cfg.poolHost then
      onEnv (log .warn (str "security") cfg.nodeId (str "Pool transport is plaintext TCP")
        (str "consider secure tunnel/proxy for non-local pool host"))
    if cfg.poolEnabled then runPool cfg else runSolo cfg

end HermitMiner
