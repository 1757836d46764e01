import HermitMiner.Framing.Lines
import HermitMiner.Oracle.History
import HermitMiner.Stratum.Codec

/-!
# What a run leaves behind

The observations of a run, in order, and what they say of the current connection. The history is
a ghost: no function of the miner reads it.

* `Obs`: one observation.
* `Dealings`, `Connection`, `connection`: everything seen since the client last connected.
* `Sessions`, `sessions`: the sessions of the run, their failures and the sleeps between them.
-/

namespace HermitMiner

/-- `SessionStats`, whose 64-bit counters are taken not to wrap. -/
structure SessionStats where
  jobsReceived : Nat := 0
  sharesFound : Nat := 0
  submitsAttempted : Nat := 0
  submitFailures : Nat := 0
  acceptedCount : Nat := 0
  reconnectEvents : Nat := 0
  sessionFailures : Nat := 0
  lastFailureRc : Int := 0
  lastJobId : Bytes := str "none"
  deriving DecidableEq

/-- The deadlines of the client, with the seconds they are set to. -/
inductive Deadline where
  | line (timeoutSec : UInt32)
  | request (timeoutSec : UInt32)
  | job (timeoutSec : UInt32)
  deriving DecidableEq

inductive Obs where
  /-- A signal handler set the stop flag. -/
  | signal
  /-- The pool put bytes on the connection. -/
  | arrived (bytes : Bytes)
  /-- No address of the pool was resolved, or none accepted a connection. -/
  | unreachable
  | connected
  | wrote (bytes : Bytes)
  | sendFailed
  /-- A request was above the size limit, or its id above 64 bits. -/
  | unsendable
  /-- A line was written to its end. -/
  | sent (line : Bytes)
  | expired (deadline : Deadline)
  | selectFailed
  | recvFailed
  | received (c : UInt8)
  /-- An incoming line was above the size limit. -/
  | overlong
  /-- `receive_line` returned a line. -/
  | handed (line : Bytes)
  /-- `request_response` returned this line for this request. -/
  | answered (request line : Bytes)
  /-- `wait_for_job` returned a job. -/
  | delivered (job : StratumJob)
  /-- `submit_share` returned true. -/
  | accepted (id : Nat) (jobId : Bytes) (nonce : UInt32)
  /-- A worker computed the hash of a nonce. -/
  | hashed (tid : Nat) (nonce : UInt32)
  /-- The reporting loop read the counter of hashes, while the stop flag was as given. -/
  | counted (hashes : Nat) (stopRequested : Bool)
  | sessionStarted
  | sessionEnded (rc : Int)
  /-- The backoff sleep, in seconds. -/
  | slept (sec : UInt32)
  /-- A health snapshot was written. -/
  | snapshot (stats : SessionStats) (cyclesDone : UInt32) (text : Bytes)
  /-- The shutdown summary was logged. -/
  | summary (stats : SessionStats) (cyclesDone : UInt32)
  deriving DecidableEq

/-! ## The current connection -/

/-- A line the client has read to its end. -/
structure Reading where
  /-- The line the pool sent, without `\r`. -/
  whole : Bytes
  /-- What `receive_line` had in hand of it. -/
  held : Bytes
  /-- A request was waiting for its response. -/
  awaiting : Bool
  deriving DecidableEq

/-- What the client has done with whole lines since it last connected. -/
structure Dealings where
  delivered : List StratumJob := []
  sent : List Bytes := []
  /-- Requests with their responses. -/
  answered : List (Bytes × Bytes) := []
  /-- Accepted shares: request id, job id, nonce. -/
  accepted : List (Nat × Bytes × UInt32) := []
  deriving DecidableEq

/-- Everything seen since the client last connected. -/
structure Connection extends Dealings where
  /-- What the pool put on the connection, piece by piece. -/
  arrived : List Bytes := []
  /-- The bytes received, and the `receive_line` deadlines that expired between them. -/
  rx : List (Framing.Rx UInt8) := []
  /-- The line that is being received, without `\r`. -/
  whole : Bytes := []
  /-- What `receive_line` has in hand of it. -/
  held : Bytes := []
  /-- A request waits for its response. -/
  awaiting : Bool := false
  readings : List Reading := []
  handed : List Bytes := []
  deriving DecidableEq

/-- One more byte of the stream. -/
def Connection.receive (k : Connection) (c : UInt8) : Connection :=
  let k := { k with rx := k.rx ++ [.item c] }
  if c = ch '\n' then
    { k with whole := [], held := [], readings := k.readings ++ [⟨k.whole, k.held, k.awaiting⟩] }
  else if c = ch '\r' then k
  else { k with whole := k.whole ++ [c], held := k.held ++ [c] }

def Connection.step (k : Connection) : Obs → Connection
  | .connected => {}
  | .arrived bytes => { k with arrived := k.arrived ++ [bytes] }
  | .received c => k.receive c
  | .expired (.line _) => { k with rx := k.rx ++ [.cut], held := [] }
  | .expired (.request _) => { k with awaiting := false }
  | .handed line => { k with handed := k.handed ++ [line] }
  | .sent line => { k with sent := k.sent ++ [line], awaiting := true }
  | .answered request line =>
    { k with answered := k.answered ++ [(request, line)], awaiting := false }
  | .delivered job => { k with delivered := k.delivered ++ [job] }
  | .accepted id jobId nonce => { k with accepted := k.accepted ++ [(id, jobId, nonce)] }
  | _ => k

/-- What a history says of the current connection. -/
def connection (t : List Obs) : Connection := t.foldl Connection.step {}

@[simp] theorem connection_nil : connection [] = {} := rfl

@[simp] theorem connection_concat (t : List Obs) (o : Obs) :
    connection (t ++ [o]) = (connection t).step o := by
  simp [connection]

/-- The bytes the client has received. -/
def Connection.received (k : Connection) : Bytes := Framing.items k.rx

/-- The byte that `receive_line` drops. -/
def isCR (c : UInt8) : Bool := c == ch '\r'

/-- The pool's stream, as lines without `\r`. -/
def streamLines (s : Bytes) : List Bytes := Framing.lines (ch '\n') isCR s

/-! ## The sessions of the run -/

/-- The sessions so far. -/
structure Sessions where
  started : Nat := 0
  /-- The return codes of the sessions that failed. -/
  failures : List Int := []
  /-- How many sessions returned 0. -/
  finished : Nat := 0
  sleeps : List UInt32 := []
  /-- The accepted shares of the run: request id, job id, nonce. -/
  accepted : List (Nat × Bytes × UInt32) := []
  /-- How many of them the last session had accepted. -/
  acceptedHere : Nat := 0
  /-- The last thing that happened to a session was its failure. -/
  justFailed : Bool := false
  /-- The last thing that happened to a session was the sleep after its failure. -/
  justSlept : Bool := false
  /-- Failed sessions that were followed by a sleep and a new session. -/
  reconnects : Nat := 0
  /-- The counters of the shutdown summary. -/
  summary : Option SessionStats := none
  deriving DecidableEq

def Sessions.step (s : Sessions) : Obs → Sessions
  | .sessionStarted =>
    { s with
      started := s.started + 1, acceptedHere := 0, justFailed := false, justSlept := false
      reconnects := s.reconnects + s.justSlept.toNat }
  | .sessionEnded rc =>
    if rc = 0 then { s with finished := s.finished + 1, justFailed := false, justSlept := false }
    else { s with failures := s.failures ++ [rc], justFailed := true, justSlept := false }
  | .slept sec =>
    { s with sleeps := s.sleeps ++ [sec], justFailed := false, justSlept := s.justFailed }
  | .accepted id jobId nonce =>
    { s with
      accepted := s.accepted ++ [(id, jobId, nonce)], acceptedHere := s.acceptedHere + 1 }
  | .summary stats _ => { s with summary := some stats }
  | _ => s

/-- What a history says of the sessions of the run. -/
def sessions (t : List Obs) : Sessions := t.foldl Sessions.step {}

@[simp] theorem sessions_nil : sessions [] = {} := rfl

@[simp] theorem sessions_concat (t : List Obs) (o : Obs) :
    sessions (t ++ [o]) = (sessions t).step o := by
  simp [sessions]

end HermitMiner
