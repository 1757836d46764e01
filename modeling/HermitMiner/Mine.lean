import HermitMiner.Config
import HermitMiner.Env
import HermitMiner.Job
import Mathlib.Logic.Function.Basic

/-!
# Mining on several threads

`mine` of `src/lib/miner_runtime.cpp`: the worker threads and the reporting loop, interleaved by
the scheduler one atomic access at a time. What a thread does between two accesses to shared state
belongs to the step of the first one.

* `Worker.loopHead`, `workerStep`: the nonce loop of a worker.
* `mainStep`: starting the workers, the reporting loop, and joining the workers.
* `mineWith`, `mine`: the two together, for any hash function and for the double SHA-256.
-/

namespace HermitMiner

open Oracle

/-- `std::numeric_limits<std::uint32_t>::max()`. -/
def maxNonce : Nat := 2 ^ 32 - 1

/-- `MiningResult`, without the elapsed time. -/
structure MiningResult where
  found : Bool := false
  aborted : Bool := false
  nonce : UInt32 := 0
  hash : Hash256 := Vector.replicate 32 0
  hashesTried : Nat := 0
  deriving DecidableEq

/-- Where a worker stands. -/
inductive WorkerPc where
  | notStarted
  /-- At `stop_requested->load()`. -/
  | loadRequest
  /-- At `stop.load()`. -/
  | loadStop
  | hashing
  /-- At `stop.compare_exchange_strong`. -/
  | exchange (nonce : UInt32) (hash : Hash256)
  /-- About to store the result under the mutex. -/
  | recording (nonce : UInt32) (hash : Hash256)
  /-- At `total_hashes.fetch_add`. -/
  | exiting
  | done
  deriving DecidableEq

/-- The locals of a worker; `nonce64` and `local_hashes` are 64-bit. -/
structure Worker where
  pc : WorkerPc := .notStarted
  payload : Bytes := []
  nonce64 : Nat := 0
  localHashes : Nat := 0
  deriving DecidableEq

/-- Where the calling thread stands. -/
inductive MainPc where
  /-- The workers below `tid` are started. -/
  | spawning (tid : Nat)
  /-- At the test of the reporting loop. -/
  | whileTest
  | loadRequest
  /-- At the stores after a stop request. -/
  | storeAbort
  /-- In `sleep_for`, to read `total_hashes` next. -/
  | sleeping
  /-- At the store after the nonce space is exhausted. -/
  | storeStop
  /-- The workers below `tid` are joined. -/
  | joining (tid : Nat)
  deriving DecidableEq

structure Machine where
  workers : Nat → Worker := fun _ => {}
  main : MainPc := .spawning 0
  stop : Bool := false
  totalHashes : Nat := 0
  result : MiningResult := {}

namespace Machine

def setWorker (m : Machine) (tid : Nat) (w : Worker) : Machine :=
  { m with workers := Function.update m.workers tid w }

end Machine

/-! ## Workers -/

/-- The four stores of a nonce behind the prefix. -/
def writeNonce (payload : Bytes) (nonce : UInt32) : Bytes :=
  let base := payload.length - 4
  (((payload.set base (nonce &&& 0xff).toUInt8).set (base + 1)
    ((nonce >>> 8) &&& 0xff).toUInt8).set (base + 2) ((nonce >>> 16) &&& 0xff).toUInt8).set
    (base + 3) ((nonce >>> 24) &&& 0xff).toUInt8

/-- The test of the nonce loop. -/
def Worker.loopHead (w : Worker) : Worker :=
  { w with pc := if w.nonce64 ≤ maxNonce then .loadRequest else .exiting }

/-- A worker that has come to the test of its nonce loop for the first time. -/
def startWorker (cfg : MinerConfig) (tid : Nat) : Worker :=
  Worker.loopHead { payload := cfg.prefixText ++ [0, 0, 0, 0], nonce64 := tid }

/-- `nonce64 += cfg.thread_count`. -/
def Worker.advance (w : Worker) (cfg : MinerConfig) : Worker :=
  { w with nonce64 := (w.nonce64 + cfg.threadCount.toNat) % 2 ^ 64 }

/-- The nonce written into the payload that is hashed next, and the hash counted. -/
def Worker.hashNext (w : Worker) : Worker :=
  { w with
    payload := writeNonce w.payload w.nonce64.toUInt32
    localHashes := (w.localHashes + 1) % 2 ^ 64 }

section

variable (hash256 : Bytes → Hash256) (cfg : MinerConfig)

/-- The next step of worker `tid`. -/
def workerStep (tid : Nat) (m : Machine) : Sys Machine := do
  let w := m.workers tid
  match w.pc with
  | .loadRequest =>
    if (← Proc.get).stopRequested then return m.setWorker tid { w with pc := .exiting }
    else return m.setWorker tid { w with pc := .loadStop }
  | .loadStop =>
    if m.stop then return m.setWorker tid { w with pc := .exiting }
    else return m.setWorker tid { w with pc := .hashing }
  | .hashing =>
    let nonce := w.nonce64.toUInt32
    let w := w.hashNext
    let hash := hash256 w.payload
    observe (.hashed tid nonce)
    if meetsDifficulty hash cfg.difficultyBits then
      return m.setWorker tid { w with pc := .exchange nonce hash }
    else return m.setWorker tid (w.advance cfg).loopHead
  | .exchange nonce hash =>
    if m.stop then return m.setWorker tid { w with pc := .exiting }
    else return { m with stop := true }.setWorker tid { w with pc := .recording nonce hash }
  | .recording nonce hash =>
    let m := { m with result := { m.result with found := true, nonce := nonce, hash := hash } }
    return m.setWorker tid { w with pc := .exiting }
  | .exiting =>
    let m := { m with totalHashes := (m.totalHashes + w.localHashes) % 2 ^ 64 }
    return m.setWorker tid { w with pc := .done }
  | .notStarted | .done => Proc.halt

/-- The next step of the calling thread, which may end in the result. -/
def mainStep (sec hps : Bytes) (m : Machine) : Sys (Machine ⊕ MiningResult) := do
  match m.main with
  | .spawning tid =>
    if tid < cfg.threadCount.toNat then
      return .inl { m.setWorker tid (startWorker cfg tid) with main := .spawning (tid + 1) }
    else return .inl { m with main := .whileTest }
  | .whileTest =>
    if m.stop then return .inl { m with main := .joining 0 }
    else return .inl { m with main := .loadRequest }
  | .loadRequest =>
    if (← Proc.get).stopRequested then return .inl { m with main := .storeAbort }
    else return .inl { m with main := .sleeping }
  | .storeAbort =>
    return .inl { m with
      stop := true, result := { m.result with aborted := true }, main := .joining 0 }
  | .sleeping =>
    let hashes := m.totalHashes
    observe (.counted hashes (← Proc.get).stopRequested)
    log .info (str "miner") cfg.nodeId (str "Progress")
      (str "hashes=" ++ dec hashes ++ str " elapsed=" ++ sec ++ str "s h/s=" ++ hps)
    if maxNonce ≤ hashes then return .inl { m with main := .storeStop }
    else return .inl { m with main := .whileTest }
  | .storeStop => return .inl { m with stop := true, main := .joining 0 }
  | .joining tid =>
    if tid < cfg.threadCount.toNat then
      if (m.workers tid).pc = .done then return .inl { m with main := .joining (tid + 1) }
      else Proc.halt
    else return .inr { m.result with hashesTried := m.totalHashes }

/-- One step of the whole, of the thread that the scheduler picks. -/
def mineRound (m : Machine) : Sys (Machine ⊕ MiningResult) := do
  match ← await with
  | .worker tid => return .inl (← workerStep hash256 cfg tid m)
  | .reporter sec hps => mainStep cfg sec hps m
  | _ => Proc.halt

/-- `mine` over any hash function. -/
def mineWith : Sys MiningResult := Proc.loop (mineRound hash256 cfg) {}

end

/-- `mine(cfg, logger, &stop_requested)`. -/
def mine (cfg : MinerConfig) : Sys MiningResult := mineWith doubleSha256 cfg

theorem advances_mineRound (hash256 : Bytes → Hash256) (cfg : MinerConfig) :
    Proc.Advances (mineRound hash256 cfg) :=
  .of_eats fun _ => eats_await.bind _

end HermitMiner
