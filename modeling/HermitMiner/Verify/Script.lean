import HermitMiner.Runtime

/-!
# Scripts

Events for runs against a cooperative pool: one that accepts the connection, answers every request
at once, and announces jobs that any hash satisfies.
-/

namespace HermitMiner

/-- The client reads so many bytes that are there. -/
def readScript (count : Nat) : List Event :=
  (List.replicate count [.tick false, .select .ready, .recv true]).flatten

/-- The pool sends a line. -/
def sayScript (line : Bytes) : List Event := [.arrive (line ++ [ch '\n'])]

/-- A request is sent in one piece, and the pool answers it with a line. -/
def answerScript (request line : Bytes) : List Event :=
  [.send (request.length + 1)] ++ sayScript line ++ [.tick false] ++ readScript (line.length + 1)

/-- `wait_for_job` reads a line that is there. -/
def waitScript (line : Bytes) : List Event := [.tick false, .load] ++ readScript (line.length + 1)

/-- A positive response. -/
def okResponse (id : Nat) : Bytes :=
  str "\x7b\"id\":" ++ dec id ++ str ",\"result\":true,\"error\":null\x7d"

/-- The line that announces the job `j`, of difficulty 0 and without a prefix. -/
def easyNotify : Bytes :=
  str "\x7b\"id\":null,\"method\":\"mining.notify\",\"params\":[\"j\",\"\",0,true]\x7d"

def userAgent : Bytes := str "hermit_miner/stratum-offline-ready"

/-- A session connects, subscribes and is authorized. -/
def startScript (cfg : MinerConfig) : List Event :=
  [.resolve 1, .dial true] ++ answerScript (subscribeRequest 1 userAgent) (okResponse 1)
    ++ answerScript (authorizeRequest 2 (poolUsername cfg) cfg.poolPassword) (okResponse 2)

/-- One worker is started, and its first nonce meets the difficulty. -/
def mineScript : List Event :=
  List.replicate 2 (.reporter [] []) ++ List.replicate 6 (.worker 0)
    ++ List.replicate 3 (.reporter [] [])

/-- A round of a session in which the share for the job `j` is accepted, as request `id`. -/
def cycleScript (cfg : MinerConfig) (id : Nat) : List Event :=
  [.load] ++ sayScript easyNotify ++ waitScript easyNotify ++ mineScript
    ++ answerScript (submitRequest id (poolUsername cfg) (str "j") 0) (okResponse id)

/-- A round of a session in which the connection is lost before a job arrives. -/
def lostScript : List Event :=
  [.load, .tick false, .load, .tick false, .select .ready, .recv false, .load]

/-- A valid configuration with one thread. -/
def scriptConfig : MinerConfig :=
  { MinerConfig.default 1 with
    poolEnabled := true
    payoutAddress := str "a" }

/-- Two threads on a puzzle that nonce 2 is the first to solve. -/
def puzzleConfig : MinerConfig :=
  { scriptConfig with prefixText := str "offline-job-9", difficultyBits := 8, threadCount := 2 }

/-- Both workers miss with their first nonces while the calling thread reports once; then worker 0
finds its second nonce and worker 1 sees `stop`. -/
def puzzleScript : List Event :=
  List.replicate 6 (.reporter [] []) ++ List.replicate 3 (.worker 1) ++ List.replicate 9 (.worker 0)
    ++ List.replicate 3 (.worker 1) ++ List.replicate 4 (.reporter [] [])

theorem validateConfig_scriptConfig : validateConfig scriptConfig = .ok () := by decide +kernel

end HermitMiner
