import HermitMiner.Oracle.Final
import HermitMiner.Verify.Frame

/-!
# What a run has not used does not matter

Every function of the client and of a session is causal: the events behind those it used do not
change what it did. So a run over more events goes on from where the run over fewer stands.

* `causal_sendLine`, …, `causal_submitShare`: the functions of the client.
* `causal_workerStep`, …, `causal_mine`: the search.
* `causal_startStratumSession`, `causal_sessionRound`: the session.
-/

namespace HermitMiner

open Oracle Proc

/-! ## Operations -/

section Operations

theorem causal_loadStop : Causal loadStop := by
  refine (Causal.await async).bind fun ev => ?_
  cases ev with
  | load => exact Causal.get.bind fun _ => .pure
  | _ => exact .halt

theorem causal_resolve : Causal resolve := by
  refine (Causal.await async).bind fun ev => ?_
  cases ev with
  | resolve addresses => exact .pure
  | _ => exact .halt

theorem causal_dial : Causal dial := by
  refine (Causal.await async).bind fun ev => ?_
  cases ev with
  | dial ok => exact .pure
  | _ => exact .halt

theorem causal_send (bytes : Bytes) : Causal (send bytes) := by
  refine (Causal.await async).bind fun ev => ?_
  cases ev with
  | send count =>
    exact .ite (Causal.modify.bind fun _ => .pure) (.ite (Causal.modify.bind fun _ => .pure) .halt)
  | _ => exact .halt

theorem causal_tick (deadline : Deadline) : Causal (tick deadline) := by
  refine (Causal.await async).bind fun ev => ?_
  cases ev with
  | tick expired => exact .ite (Causal.modify.bind fun _ => .pure) .pure
  | _ => exact .halt

theorem causal_select : Causal select := by
  refine (Causal.await async).bind fun ev => ?_
  cases ev with
  | select result =>
    cases result with
    | failed => exact Causal.modify.bind fun _ => .pure
    | _ => exact .pure
  | _ => exact .halt

theorem causal_recv : Causal recv := by
  refine (Causal.await async).bind fun ev => ?_
  cases ev with
  | recv ok =>
    cases ok with
    | false => exact Causal.modify.bind fun _ => .pure
    | true =>
      refine Causal.get.bind fun e => ?_
      cases e.inbox with
      | nil => exact .halt
      | cons c rest => exact Causal.modify.bind fun _ => .pure
  | _ => exact .halt

theorem causal_clock : Causal clock := by
  refine (Causal.await async).bind fun ev => ?_
  cases ev with
  | clock durationSec acceptedPerMin => exact .pure
  | _ => exact .halt

theorem causal_sleepFor (sec : UInt32) : Causal (sleepFor sec) := by
  refine (Causal.await async).bind fun ev => ?_
  cases ev with
  | wake => exact .modify
  | _ => exact .halt

theorem causal_openFile : Causal openFile := by
  refine (Causal.await async).bind fun ev => ?_
  cases ev with
  | openFile ok => exact .pure
  | _ => exact .halt

end Operations

/-! ## The client -/

section Client

open StratumClient

variable (self : StratumClient)

theorem causal_logLine (level : LogLevel) (message context : Bytes) :
    Causal (self.logLine level message context) := .modify

theorem causal_dialLoop (addresses : Nat) : Causal (dialLoop addresses) := by
  induction addresses with
  | zero => exact .pure
  | succ n ih => exact causal_dial.bind fun _ => .ite .pure ih

theorem causal_connectToPool : Causal self.connectToPool := by
  have hlost : ∀ message context, Causal (do
      observe .unreachable
      self.logLine .err message context
      return false) := fun message context =>
    Causal.modify.bind fun _ => (causal_logLine self _ _ _).bind fun _ => .pure
  refine causal_resolve.bind fun addrs => .ite (hlost _ _) ?_
  refine (causal_dialLoop addrs).bind fun ok => .ite ?_ (hlost _ _)
  exact Causal.modify.bind fun _ => (causal_logLine self _ _ _).bind fun _ => .pure

theorem causal_sendRound (line left : Bytes) : Causal (sendRound line left) := by
  refine .ite (Causal.modify.bind fun _ => .pure) ?_
  exact (causal_send left).bind fun sent => .ite (Causal.modify.bind fun _ => .pure) .pure

theorem causal_sendLine (line : Bytes) : Causal (self.sendLine line) := by
  refine Causal.get.bind fun e => .ite .pure (.ite ?_ (.loop (advances_sendRound line)
    (causal_sendRound line) _))
  exact Causal.modify.bind fun _ => (causal_logLine self _ _ _).bind fun _ =>
    Causal.modify.bind fun _ => .pure

theorem causal_receiveRound (timeoutSec : UInt32) (outLine : Bytes) :
    Causal (self.receiveRound timeoutSec outLine) := by
  refine (causal_tick _).bind fun on => .ite (causal_select.bind ?_) .pure
  intro r
  cases r with
  | failed => exact Causal.modify.bind fun _ => .pure
  | idle => exact .pure
  | ready =>
    apply causal_recv.bind
    intro rc
    cases rc with
    | none => exact Causal.modify.bind fun _ => .pure
    | some c =>
      refine .ite (Causal.modify.bind fun _ => .pure) (.ite .pure (.ite ?_ .pure))
      exact Causal.modify.bind fun _ => (causal_logLine self _ _ _).bind fun _ =>
        Causal.modify.bind fun _ => .pure

theorem causal_receiveLine (timeoutSec : UInt32) : Causal (self.receiveLine timeoutSec) :=
  Causal.get.bind fun _ => .ite .pure (.loop (advances_receiveRound self timeoutSec)
    (causal_receiveRound self timeoutSec) _)

theorem causal_responseRound (request : Bytes) (requestId : Nat) (timeoutSec : UInt32) (u : Unit) :
    Causal (self.responseRound request requestId timeoutSec u) := by
  refine (causal_tick _).bind fun on => .ite ((causal_receiveLine self 1).bind ?_) .pure
  intro line
  cases line with
  | none => exact Causal.get.bind fun e => .ite .pure .pure
  | some line =>
    refine .ite (Causal.modify.bind fun _ => .pure) ?_
    cases parseNotify line with
    | none => exact .pure
    | some job => exact (causal_logLine self _ _ _).bind fun _ => .pure

theorem causal_requestResponse (request : Bytes) (timeoutSec : UInt32) :
    Causal (self.requestResponse request timeoutSec) := by
  unfold requestResponse
  cases parseMessageId request with
  | none => exact Causal.modify.bind fun _ => .pure
  | some requestId =>
    exact (causal_sendLine self request).bind fun ok => .ite
      (.loop (advances_responseRound self _ _ _) (causal_responseRound self _ _ _) _) .pure

theorem causal_takeId : Causal takeId :=
  Causal.get.bind fun _ => Causal.modify.bind fun _ => .pure

theorem causal_subscribe (userAgent : Bytes) : Causal (self.subscribe userAgent) := by
  refine causal_takeId.bind fun id => (causal_requestResponse self _ _).bind ?_
  intro resp
  cases resp with
  | none => exact (causal_logLine self _ _ _).bind fun _ => .pure
  | some resp =>
    exact .ite ((causal_logLine self _ _ _).bind fun _ => .pure)
      ((causal_logLine self _ _ _).bind fun _ => .pure)

theorem causal_authorize (username password : Bytes) :
    Causal (self.authorize username password) := by
  refine causal_takeId.bind fun id => (causal_requestResponse self _ _).bind ?_
  intro resp
  cases resp with
  | none => exact (causal_logLine self _ _ _).bind fun _ => .pure
  | some resp =>
    exact .ite ((causal_logLine self _ _ _).bind fun _ => .pure)
      ((causal_logLine self _ _ _).bind fun _ => .pure)

theorem causal_submitShare (username jobId : Bytes) (nonce : UInt32) :
    Causal (self.submitShare username jobId nonce) := by
  refine causal_takeId.bind fun id => (causal_requestResponse self _ _).bind ?_
  intro resp
  cases resp with
  | none => exact (causal_logLine self _ _ _).bind fun _ => .pure
  | some resp =>
    dsimp only
    cases parseBoolResult resp with
    | none => exact (causal_logLine self _ _ _).bind fun _ => .pure
    | some b =>
      cases b with
      | false => exact (causal_logLine self _ _ _).bind fun _ => .pure
      | true =>
        exact Causal.modify.bind fun _ => (causal_logLine self _ _ _).bind fun _ => .pure

theorem causal_jobRound (timeoutSec : UInt32) (u : Unit) : Causal (self.jobRound timeoutSec u) := by
  have hlog : ∀ level message, Causal (do
      self.logLine level message []
      return .inr none : Sys (Unit ⊕ Option StratumJob)) :=
    fun level message => (causal_logLine self _ _ _).bind fun _ => .pure
  refine (causal_tick _).bind fun on => .ite (causal_loadStop.bind fun stop => .ite (hlog _ _) ?_)
    (hlog _ _)
  apply (causal_receiveLine self 1).bind
  intro line
  cases line with
  | none => exact Causal.get.bind fun e => .ite (hlog _ _) .pure
  | some line =>
    dsimp only
    cases parseNotify line with
    | none => exact .pure
    | some job => exact Causal.modify.bind fun _ => (causal_logLine self _ _ _).bind fun _ => .pure

theorem causal_waitForJob (timeoutSec : UInt32) : Causal (self.waitForJob timeoutSec) :=
  .loop (advances_jobRound self timeoutSec) (causal_jobRound self timeoutSec) _

end Client

/-! ## Mining -/

section Mining

variable (hash256 : Bytes → Hash256) (cfg : MinerConfig)

theorem causal_workerStep (tid : Nat) (m : Machine) :
    Causal (workerStep hash256 cfg tid m) := by
  unfold workerStep
  dsimp only
  cases (m.workers tid).pc with
  | loadRequest => exact Causal.get.bind fun _ => .ite .pure .pure
  | loadStop | exchange => exact .ite .pure .pure
  | hashing => exact Causal.modify.bind fun _ => .ite .pure .pure
  | recording | exiting => exact .pure
  | notStarted | done => exact .halt

theorem causal_mainStep (sec hps : Bytes) (m : Machine) : Causal (mainStep cfg sec hps m) := by
  unfold mainStep
  cases m.main with
  | spawning | whileTest => exact .ite .pure .pure
  | loadRequest => exact Causal.get.bind fun _ => .ite .pure .pure
  | storeAbort | storeStop => exact .pure
  | sleeping =>
    exact Causal.get.bind fun _ => Causal.modify.bind fun _ => Causal.modify.bind fun _ =>
      .ite .pure .pure
  | joining => exact .ite (.ite .pure .halt) .pure

theorem causal_mineRound (m : Machine) : Causal (mineRound hash256 cfg m) := by
  refine (Causal.await async).bind fun ev => ?_
  cases ev with
  | worker tid => exact (causal_workerStep hash256 cfg tid m).bind fun _ => .pure
  | reporter sec hps => exact causal_mainStep cfg sec hps m
  | _ => exact .halt

theorem causal_mineWith : Causal (mineWith hash256 cfg) :=
  .loop (advances_mineRound hash256 cfg) (causal_mineRound hash256 cfg) _

end Mining

/-! ## The session -/

section Session

variable (cfg : MinerConfig) (client : StratumClient)

theorem causal_logStratum (level : LogLevel) (message context : Bytes) :
    Causal (logStratum cfg level message context) := .zoom .modify

theorem causal_writeHealthSnapshot (readinessStatus : Bytes) (durationSec : Nat)
    (acceptedPerMin : Bytes) :
    Causal (writeHealthSnapshot cfg readinessStatus durationSec acceptedPerMin) := by
  refine .ite .pure ((Causal.zoom causal_openFile).bind fun ok => .ite ?_ (.zoom .modify))
  exact Causal.get.bind fun w => .zoom .modify

theorem causal_maybeWriteHealthSnapshotIncremental :
    Causal (maybeWriteHealthSnapshotIncremental cfg) :=
  .ite .pure ((Causal.zoom causal_clock).bind fun _ => Causal.get.bind fun _ =>
    causal_writeHealthSnapshot cfg _ _ _)

theorem causal_startStratumSession : Causal (startStratumSession cfg client) := by
  refine (Causal.zoom (causal_connectToPool client)).bind fun ok => .ite ?_ .pure
  refine (Causal.zoom (causal_subscribe client _)).bind fun ok => .ite ?_ .pure
  refine (Causal.zoom (causal_authorize client _ _)).bind fun ok => .ite ?_ .pure
  exact (causal_logStratum cfg _ _ _).bind fun _ => .pure

theorem causal_submitFound (jobId : Bytes) (nonce : UInt32) :
    Causal (submitFound cfg client jobId nonce) := by
  refine Causal.modify.bind fun _ => (Causal.zoom (causal_submitShare client _ _ _)).bind fun ok =>
    .ite ?_ ?_
  · exact Causal.modify.bind fun _ => Causal.modify.bind fun _ =>
      (causal_maybeWriteHealthSnapshotIncremental cfg).bind fun _ =>
        (causal_logStratum cfg _ _ _).bind fun _ => .pure
  · exact Causal.modify.bind fun _ => (causal_logStratum cfg _ _ _).bind fun _ => .pure

theorem causal_mineJob (job : StratumJob) : Causal (mineJob cfg client job) := by
  refine Causal.modify.bind fun _ => (causal_logStratum cfg _ _ _).bind fun _ =>
    (Causal.zoom (causal_mineWith _ _)).bind fun result => .ite .pure (.ite ?_ ?_)
  · exact (causal_logStratum cfg _ _ _).bind fun _ => .pure
  · exact causal_submitFound cfg client _ _

theorem causal_sessionRound (u : Unit) : Causal (sessionRound cfg client u) := by
  refine (Causal.zoom causal_loadStop).bind fun stop => Causal.get.bind fun w => .ite ?_ ?_
  · apply (Causal.zoom (causal_waitForJob client _)).bind
    intro job
    cases job with
    | none =>
      exact (Causal.zoom causal_loadStop).bind fun stop => .ite .pure
        ((causal_logStratum cfg _ _ _).bind fun _ => .pure)
    | some job => exact causal_mineJob cfg client job
  · exact (causal_logStratum cfg _ _ _).bind fun _ => .pure

theorem causal_runStratumSession : Causal (runStratumSession cfg) :=
  (Causal.zoom .modify).bind fun _ => (causal_startStratumSession cfg _).bind fun _ =>
    .ite (.loop (advances_sessionRound cfg _) (causal_sessionRound cfg _) _) .pure

theorem causal_sessionFailed (backoffSec : UInt32) (rc : Int) :
    Causal (sessionFailed cfg backoffSec rc) := by
  refine Causal.modify.bind fun _ => (causal_maybeWriteHealthSnapshotIncremental cfg).bind fun _ =>
    Causal.get.bind fun w => .ite ((causal_logStratum cfg _ _ _).bind fun _ => .pure) ?_
  exact (causal_logStratum cfg _ _ _).bind fun _ => (Causal.zoom causal_loadStop).bind fun _ =>
    .ite .pure ((Causal.zoom (causal_sleepFor _)).bind fun _ => .pure)

theorem causal_loopRound (backoffSec : UInt32) : Causal (loopRound cfg backoffSec) := by
  refine (Causal.zoom causal_loadStop).bind fun stop => Causal.get.bind fun w => .ite ?_ .pure
  exact (Causal.zoom .modify).bind fun _ => (causal_runStratumSession cfg).bind fun rc =>
    (Causal.zoom .modify).bind fun _ => .ite .pure (causal_sessionFailed cfg _ _)

theorem causal_shutdown : Causal (shutdown cfg) :=
  (Causal.zoom causal_clock).bind fun _ => Causal.get.bind fun _ => (Causal.zoom .modify).bind fun _ =>
    (causal_logStratum cfg _ _ _).bind fun _ => (causal_logStratum cfg _ _ _).bind fun _ =>
      (causal_writeHealthSnapshot cfg _ _ _).bind fun _ => causal_logStratum cfg _ _ _

end Session

end HermitMiner
