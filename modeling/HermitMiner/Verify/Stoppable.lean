import HermitMiner.Main
import HermitMiner.Oracle.Drain
import HermitMiner.Verify.Script
import HermitMiner.Verify.SearchEnds

/-!
# The program can always be stopped

Wherever a run of the program stands, a stop request and events that need nobody else bring it to its
end: the pool can be silent and the network dead from there on.

* `Event.isUnaided`: the events that need nobody else.
* `ends_…`, `drains_…`: each function of the client and of the runtime, from its start and from
  wherever it stands.
* `can_always_be_stopped`: every run of the program.
-/

namespace HermitMiner

open Oracle StratumClient

/-- The events that need nobody but the one who asks for the stop: the clock goes on, the threads
step, and every call to the network fails or times out. -/
def Event.isUnaided : Event → Bool
  | .arrive _ => false
  | .resolve addresses => addresses = 0
  | .dial ok | .recv ok => !ok
  | .send count => count = 0
  | .tick expired => expired
  | .select result => result = .idle
  | _ => true

section

variable {α : Type}

/-- Events that need nobody else lead the call to its end. -/
abbrev Quits (m : Sys α) (Q : α → Prop) (e : Env) : Prop :=
  EndsAt (fun ev => Event.isUnaided ev = true) (fun e => e.stopRequested = true) m Q e

/-- A call that a stop request can end. -/
abbrev Stoppable (m : Sys α) : Prop :=
  Interruptible (fun ev => Event.isUnaided ev = true) (fun e => e.stopRequested = true) m

/-- The same for the runtime. -/
abbrev AppStoppable (m : App α) : Prop :=
  Interruptible (fun ev => Event.isUnaided ev = true) (fun w => w.env.stopRequested = true) m

theorem Stoppable.onEnv {m : Sys α} (h : Stoppable m) : AppStoppable (onEnv m) :=
  .zoom h (fun _ h => h) fun _ _ h => h

/-! ## Operations -/

/-- The stop request comes while the program waits, and then an answer that needs nobody else. -/
theorem stoppable_wait {f : Event → Sys α} (ev : Event) (hev : Event.isUnaided ev = true)
    (hanswer : async ev = none)
    (hends : ∀ e, e.stopRequested = true → Quits (f ev) (fun _ => True) e)
    (hf : ∀ ev e, Drains (fun ev => Event.isUnaided ev = true) (fun e => e.stopRequested = true)
      (f ev) e) : Stoppable (await >>= f) := by
  refine ⟨fun e h => .await hev hanswer (hends e h), fun e => ?_⟩
  refine .await (K := fun _ => True) (fun _ _ _ _ _ => trivial) (fun e _ => ?_)
    (fun ev e _ => hf ev e) trivial
  have hslip : async .signal = some Env.signal := rfl
  exact .slip rfl hslip (.await hev hanswer (hends _ rfl))

theorem stoppable_loadStop : Stoppable loadStop := by
  refine stoppable_wait .load rfl rfl (fun e h => .read (.pure h trivial)) fun ev e => ?_
  cases ev with
  | load => exact .read .pure
  | _ => exact .halt

theorem stoppable_resolve : Stoppable resolve := by
  refine stoppable_wait (.resolve 0) rfl rfl (fun e h => .pure h trivial) fun ev e => ?_
  cases ev with
  | resolve n => exact .pure
  | _ => exact .halt

theorem stoppable_dial : Stoppable dial := by
  refine stoppable_wait (.dial false) rfl rfl (fun e h => .pure h trivial) fun ev e => ?_
  cases ev with
  | dial ok => exact .pure
  | _ => exact .halt

theorem stoppable_send (bytes : Bytes) : Stoppable (send bytes) := by
  refine stoppable_wait (.send 0) rfl rfl (fun e h => .update (.pure h trivial)) fun ev e => ?_
  cases ev with
  | send count =>
    exact .ite (fun _ => .update .pure) fun _ => .ite (fun _ => .update .pure) fun _ => .halt
  | _ => exact .halt

theorem stoppable_tick (deadline : Deadline) : Stoppable (tick deadline) := by
  refine stoppable_wait (.tick true) rfl rfl (fun e h => .update (.pure h trivial)) fun ev e => ?_
  cases ev with
  | tick expired => exact .ite (fun _ => .update .pure) fun _ => .pure
  | _ => exact .halt

theorem stoppable_select : Stoppable select := by
  refine stoppable_wait (.select .idle) rfl rfl (fun e h => .pure h trivial) fun ev e => ?_
  cases ev with
  | select result =>
    cases result with
    | failed => exact .update .pure
    | _ => exact .pure
  | _ => exact .halt

theorem stoppable_recv : Stoppable recv := by
  refine stoppable_wait (.recv false) rfl rfl (fun e h => .update (.pure h trivial)) fun ev e => ?_
  cases ev with
  | recv ok =>
    cases ok with
    | false => exact .update .pure
    | true =>
      refine .read ?_
      cases e.inbox with
      | nil => exact .halt
      | cons c rest => exact .update .pure
  | _ => exact .halt

theorem stoppable_clock : Stoppable clock := by
  refine stoppable_wait (.clock 0 []) rfl rfl (fun e h => .pure h trivial) fun ev e => ?_
  cases ev with
  | clock durationSec acceptedPerMin => exact .pure
  | _ => exact .halt

theorem stoppable_openFile : Stoppable openFile := by
  refine stoppable_wait (.openFile false) rfl rfl (fun e h => .pure h trivial) fun ev e => ?_
  cases ev with
  | openFile ok => exact .pure
  | _ => exact .halt

theorem stoppable_sleepFor (sec : UInt32) : Stoppable (sleepFor sec) := by
  refine stoppable_wait .wake rfl rfl (fun e h => .modify h trivial) fun ev e => ?_
  cases ev with
  | wake => exact .modify
  | _ => exact .halt

theorem stoppable_measure : Stoppable measure := by
  refine stoppable_wait (.reporter [] []) rfl rfl (fun e h => .pure h trivial) fun ev e => ?_
  cases ev with
  | reporter elapsed rate => exact .pure
  | _ => exact .halt

/-- A tick of an expired deadline. -/
theorem quits_tick {deadline : Deadline} {f : Bool → Sys α} {Q : α → Prop} {e : Env}
    (h : e.stopRequested = true) (hf : ∀ e, e.stopRequested = true → Quits (f false) Q e) :
    Quits (tick deadline >>= f) Q e := by
  have htick : async (.tick true) = none := rfl
  have hexpired : Quits (tick deadline) (fun on => on = false) e :=
    .await rfl htick (.update (.pure h rfl))
  refine .bind (causal_tick deadline) hexpired ?_
  rintro _ e h rfl
  exact hf e h

/-- A load of the stop flag. -/
theorem quits_loadStop {e : Env} (h : e.stopRequested = true) :
    Quits loadStop (fun stop => stop = true) e := by
  have hload : async .load = none := rfl
  exact .await rfl hload (.read (.pure h h))

end

/-! ## The client -/

section Client

variable (self : StratumClient)

theorem stoppable_dialLoop : ∀ addresses, Stoppable (dialLoop addresses)
  | 0 => .pure
  | addresses + 1 =>
    .bind causal_dial stoppable_dial fun _ => .ite .pure (stoppable_dialLoop addresses)

theorem stoppable_connectToPool : Stoppable self.connectToPool := by
  have hlost : ∀ message, Stoppable (do
      observe .unreachable
      self.logLine .err message self.endpoint
      return false) := fun message => .update (fun _ h => h) (.update (fun _ h => h) .pure)
  refine .bind causal_resolve stoppable_resolve fun addresses => .ite (hlost _)
    (.bind (causal_dialLoop _) (stoppable_dialLoop _) fun ok => .ite ?_ (hlost _))
  exact .update (fun _ h => h) (.update (fun _ h => h) .pure)

theorem quits_sendRound (line left : Bytes) (e : Env) (h : e.stopRequested = true) :
    Quits (sendRound line left) (fun r => ∃ ok, r = .inr ok) e := by
  have hanswer : async (.send 0) = none := rfl
  have hsend : Quits (send left) (fun sent => sent = 0) e :=
    .await rfl hanswer (.update (.pure h rfl))
  refine .ite (fun _ => .update (.pure h ⟨true, rfl⟩)) fun _ => .bind (causal_send _) hsend ?_
  rintro _ e h rfl
  exact .update (.pure h ⟨false, rfl⟩)

theorem stoppable_sendLine (line : Bytes) : Stoppable (self.sendLine line) := by
  have hround : ∀ left, Stoppable (sendRound line left) := fun left =>
    .ite (.update (fun _ h => h) .pure) (.bind (causal_send left) (stoppable_send left) fun _ =>
      .ite (.update (fun _ h => h) .pure) .pure)
  refine .read fun e => .ite .pure (.ite (.update (fun _ h => h) (.update (fun _ h => h)
    (.update (fun _ h => h) .pure))) ?_)
  exact .loop (advances_sendRound line) (causal_sendRound line) hround (quits_sendRound line) _

theorem stoppable_receiveRound (timeoutSec : UInt32) (outLine : Bytes) :
    Stoppable (self.receiveRound timeoutSec outLine) := by
  refine .bind (causal_tick _) (stoppable_tick _) fun on => .ite (.bind causal_select
    stoppable_select fun result => ?_) .pure
  cases result with
  | failed => exact .update (fun _ h => h) .pure
  | idle => exact .pure
  | ready =>
    refine .bind causal_recv stoppable_recv fun rc => ?_
    cases rc with
    | none => exact .update (fun _ h => h) .pure
    | some c =>
      exact .ite (.update (fun _ h => h) .pure) (.ite .pure (.ite (.update (fun _ h => h)
        (.update (fun _ h => h) (.update (fun _ h => h) .pure))) .pure))

theorem stoppable_receiveLine (timeoutSec : UInt32) : Stoppable (self.receiveLine timeoutSec) :=
  .read fun _ => .ite .pure (.loop (advances_receiveRound self timeoutSec)
    (causal_receiveRound self timeoutSec) (stoppable_receiveRound self timeoutSec)
    (fun _ _ h => quits_tick h fun _ h => .pure h ⟨none, rfl⟩) _)

theorem stoppable_responseRound (request : Bytes) (id : Nat) (timeoutSec : UInt32) (u : Unit) :
    Stoppable (self.responseRound request id timeoutSec u) := by
  refine .bind (causal_tick _) (stoppable_tick _) fun on => .ite (.bind (causal_receiveLine self 1)
    (stoppable_receiveLine self 1) fun got => ?_) .pure
  cases got with
  | none => exact .read fun e => .ite .pure .pure
  | some line =>
    refine .ite (.update (fun _ h => h) .pure) ?_
    cases parseNotify line with
    | none => exact .pure
    | some job => exact .update (fun _ h => h) .pure

theorem stoppable_requestResponse (request : Bytes) (timeoutSec : UInt32) :
    Stoppable (self.requestResponse request timeoutSec) := by
  unfold requestResponse
  cases parseMessageId request with
  | none => exact .update (fun _ h => h) .pure
  | some id =>
    refine .bind (causal_sendLine self request) (stoppable_sendLine self request) fun ok =>
      .ite (.loop (advances_responseRound self request id timeoutSec)
        (causal_responseRound self request id timeoutSec)
        (stoppable_responseRound self request id timeoutSec) ?_ ()) .pure
    exact fun _ _ h => quits_tick h fun _ h => .pure h ⟨none, rfl⟩

theorem stoppable_takeId : Stoppable takeId := .read fun _ => .update (fun _ h => h) .pure

theorem stoppable_subscribe (userAgent : Bytes) : Stoppable (self.subscribe userAgent) := by
  refine .bind causal_takeId stoppable_takeId fun id => .bind (causal_requestResponse self _ _)
    (stoppable_requestResponse self _ _) fun response => ?_
  cases response with
  | none => exact .update (fun _ h => h) .pure
  | some resp => exact .ite (.update (fun _ h => h) .pure) (.update (fun _ h => h) .pure)

theorem stoppable_authorize (username password : Bytes) :
    Stoppable (self.authorize username password) := by
  refine .bind causal_takeId stoppable_takeId fun id => .bind (causal_requestResponse self _ _)
    (stoppable_requestResponse self _ _) fun response => ?_
  cases response with
  | none => exact .update (fun _ h => h) .pure
  | some resp => exact .ite (.update (fun _ h => h) .pure) (.update (fun _ h => h) .pure)

theorem stoppable_submitShare (username jobId : Bytes) (nonce : UInt32) :
    Stoppable (self.submitShare username jobId nonce) := by
  refine .bind causal_takeId stoppable_takeId fun id => .bind (causal_requestResponse self _ _)
    (stoppable_requestResponse self _ _) fun response => ?_
  cases response with
  | none => exact .update (fun _ h => h) .pure
  | some resp =>
    dsimp only
    cases parseBoolResult resp with
    | none => exact .update (fun _ h => h) .pure
    | some result =>
      cases result with
      | false => exact .update (fun _ h => h) .pure
      | true => exact .update (fun _ h => h) (.update (fun _ h => h) .pure)

theorem stoppable_jobRound (timeoutSec : UInt32) (u : Unit) :
    Stoppable (self.jobRound timeoutSec u) := by
  refine .bind (causal_tick _) (stoppable_tick _) fun on => .ite (.bind causal_loadStop
    stoppable_loadStop fun stop => .ite (.update (fun _ h => h) .pure) ?_)
    (.update (fun _ h => h) .pure)
  refine .bind (causal_receiveLine self 1) (stoppable_receiveLine self 1) fun got => ?_
  cases got with
  | none => exact .read fun e => .ite (.update (fun _ h => h) .pure) .pure
  | some line =>
    dsimp only
    cases parseNotify line with
    | none => exact .pure
    | some job => exact .update (fun _ h => h) (.update (fun _ h => h) .pure)

theorem stoppable_waitForJob (timeoutSec : UInt32) : Stoppable (self.waitForJob timeoutSec) :=
  .loop (advances_jobRound self timeoutSec) (causal_jobRound self timeoutSec)
    (stoppable_jobRound self timeoutSec)
    (fun _ _ h => quits_tick h fun _ h => .update (.pure h ⟨none, rfl⟩)) ()

end Client

/-! ## Mining -/

section Mining

variable (hash256 : Bytes → Hash256) (cfg : MinerConfig)

/-- Wherever a run of the call stands, a stop request can end it. -/
abbrev Drained {α : Type} (m : Sys α) (e : Env) : Prop :=
  Drains (fun ev => Event.isUnaided ev = true) (fun e => e.stopRequested = true) m e

theorem drains_workerStep (tid : Nat) (m : Machine) (e : Env) :
    Drained (workerStep hash256 cfg tid m) e := by
  unfold workerStep
  dsimp only
  cases (m.workers tid).pc with
  | loadRequest => exact .read (.ite (fun _ => .pure) fun _ => .pure)
  | loadStop | exchange => exact .ite (fun _ => .pure) fun _ => .pure
  | hashing => exact .update (.ite (fun _ => .pure) fun _ => .pure)
  | recording | exiting => exact .pure
  | notStarted | done => exact .halt

theorem drains_mainStep (sec hps : Bytes) (m : Machine) (e : Env) :
    Drained (mainStep cfg sec hps m) e := by
  unfold mainStep
  cases m.main with
  | spawning | whileTest => exact .ite (fun _ => .pure) fun _ => .pure
  | loadRequest => exact .read (.ite (fun _ => .pure) fun _ => .pure)
  | storeAbort | storeStop => exact .pure
  | sleeping => exact .read (.update (.update (.ite (fun _ => .pure) fun _ => .pure)))
  | joining => exact .ite (fun _ => .ite (fun _ => .pure) fun _ => .halt) fun _ => .pure

theorem Event.isUnaided_of_isThread {ev : Event} (h : Event.isThread ev = true) :
    Event.isUnaided ev = true := by
  cases ev with
  | worker | reporter => rfl
  | _ => cases h

section Search

variable {hash256 cfg} {e₀ e : Env} {m : Machine}

/-- After a stop request the threads end the search. -/
theorem ends_search (hdealt : DealtInv hash256 cfg e₀ m e) (h : e.stopRequested = true) :
    Quits (Proc.loop (mineRound hash256 cfg) m) (fun _ => True) e := by
  refine .loop (J := DealtInv hash256 cfg e₀) (advances_mineRound hash256 cfg)
    (causal_mineRound hash256 cfg) (fun m _ => toReturn cfg true m) ?_ h hdealt
  intro m e h hdealt
  obtain ⟨ev, r, e', hthread, hrun, hstop, hless⟩ := exists_less hdealt (.inr h)
  rw [h] at hstop hless
  exact ⟨[ev], r, e', List.forall_mem_singleton.2 (Event.isUnaided_of_isThread hthread), hrun,
    hstop, hless⟩

theorem drains_mineRound (hdealt : DealtInv hash256 cfg e₀ m e) :
    Drained (mineRound hash256 cfg m) e := by
  have hstable : Stable (DealtInv hash256 cfg e₀ m) := stepInvariant_dealt.stable m
  have hslip : async .signal = some Env.signal := rfl
  have hends : ∀ e, DealtInv hash256 cfg e₀ m e → e.stopRequested = true →
      Quits (mineRound hash256 cfg m) (fun _ => True) e := by
    intro e hdealt h
    obtain ⟨ev, r, e', hthread, hrun, hstop, -⟩ := exists_less hdealt (.inr h)
    exact ⟨[ev], r, e', List.forall_mem_singleton.2 (Event.isUnaided_of_isThread hthread), hrun,
      hstop.trans h, trivial⟩
  refine .await (K := DealtInv hash256 cfg e₀ m) ?_
    (fun e hdealt => .slip rfl hslip (hends _ (hstable.signal hdealt) rfl)) ?_ hdealt
  · intro ev g hg e hdealt
    cases ev with
    | signal =>
      obtain rfl : Env.signal = g := by simpa [async] using hg
      exact hstable.signal hdealt
    | arrive bytes =>
      obtain rfl : (fun e => Env.arrive e bytes) = g := by simpa [async] using hg
      exact hstable.arrive bytes hdealt
    | _ => simp [async] at hg
  · intro ev e _
    cases ev with
    | worker tid =>
      exact .bind (causal_workerStep hash256 cfg tid m) (drains_workerStep hash256 cfg tid m e)
        (fun _ _ h => .pure h trivial) fun _ _ => .pure
    | reporter sec hps => exact drains_mainStep cfg sec hps m e
    | _ => exact .halt

end Search

theorem stoppable_mineWith : Stoppable (mineWith hash256 cfg) := by
  refine ⟨fun e h => ends_search .initial h, fun e => ?_⟩
  refine .loop (J := DealtInv hash256 cfg e) (advances_mineRound hash256 cfg)
    (causal_mineRound hash256 cfg) ?_ (fun m e' hdealt h => ends_search hdealt h)
    (fun m e' hdealt => drains_mineRound hdealt) .initial
  intro m e' h
  exact wp_mineRound (stepInvariant_dealt.stable m) h
    (fun h _ _ _ _ hstep hfollows => stepInvariant_dealt.worker h hstep hfollows)
    fun h _ _ _ hstep hfollows => stepInvariant_dealt.main h hstep hfollows

end Mining

/-! ## The runtime -/

section Runtime

variable (cfg : MinerConfig) (client : StratumClient)

theorem stoppable_logStratum (level : LogLevel) (message context : Bytes) :
    AppStoppable (logStratum cfg level message context) :=
  Stoppable.onEnv (.modify fun _ h => h)

theorem stoppable_writeHealthSnapshot (readinessStatus : Bytes) (durationSec : Nat)
    (acceptedPerMin : Bytes) :
    AppStoppable (writeHealthSnapshot cfg readinessStatus durationSec acceptedPerMin) :=
  .ite .pure (.bind (.zoom causal_openFile) stoppable_openFile.onEnv fun _ =>
    .ite (.read fun _ => Stoppable.onEnv (.modify fun _ h => h))
      (Stoppable.onEnv (.modify fun _ h => h)))

theorem stoppable_maybeWriteHealthSnapshotIncremental :
    AppStoppable (maybeWriteHealthSnapshotIncremental cfg) :=
  .ite .pure (.bind (.zoom causal_clock) stoppable_clock.onEnv fun _ =>
    .read fun _ => stoppable_writeHealthSnapshot cfg _ _ _)

theorem stoppable_startStratumSession : AppStoppable (startStratumSession cfg client) := by
  refine .bind (.zoom (causal_connectToPool client)) (stoppable_connectToPool client).onEnv fun _ =>
    .ite ?_ .pure
  refine .bind (.zoom (causal_subscribe client _)) (stoppable_subscribe client _).onEnv fun _ =>
    .ite ?_ .pure
  refine .bind (.zoom (causal_authorize client _ _)) (stoppable_authorize client _ _).onEnv
    fun _ => .ite ?_ .pure
  exact .bind (causal_logStratum cfg _ _ _) (stoppable_logStratum cfg _ _ _) fun _ => .pure

theorem stoppable_submitFound (jobId : Bytes) (nonce : UInt32) :
    AppStoppable (submitFound cfg client jobId nonce) := by
  refine .update (fun _ h => h) (.bind (.zoom (causal_submitShare client _ _ _))
    (stoppable_submitShare client _ _ _).onEnv fun _ => .ite ?_ ?_)
  · exact .update (fun _ h => h) (.update (fun _ h => h)
      (.bind (causal_maybeWriteHealthSnapshotIncremental cfg)
        (stoppable_maybeWriteHealthSnapshotIncremental cfg) fun _ =>
          .bind (causal_logStratum cfg _ _ _) (stoppable_logStratum cfg _ _ _) fun _ => .pure))
  · exact .update (fun _ h => h) (.bind (causal_logStratum cfg _ _ _)
      (stoppable_logStratum cfg _ _ _) fun _ => .pure)

theorem stoppable_mineJob (job : StratumJob) : AppStoppable (mineJob cfg client job) := by
  refine .update (fun _ h => h) (.bind (causal_logStratum cfg _ _ _)
    (stoppable_logStratum cfg _ _ _) fun _ => ?_)
  refine .bind (.zoom (causal_mineWith _ _)) (stoppable_mineWith _ _).onEnv fun result =>
    .ite .pure (.ite ?_ (stoppable_submitFound cfg client _ _))
  exact .bind (causal_logStratum cfg _ _ _) (stoppable_logStratum cfg _ _ _) fun _ => .pure

theorem stoppable_sessionRound (u : Unit) : AppStoppable (sessionRound cfg client u) := by
  have hlog : ∀ {α : Type} level message context (r : α), AppStoppable (do
      logStratum cfg level message context
      return r) := fun _ _ _ _ =>
    .bind (causal_logStratum cfg _ _ _) (stoppable_logStratum cfg _ _ _) fun _ => .pure
  refine .bind (.zoom causal_loadStop) stoppable_loadStop.onEnv fun stop => .read fun w =>
    .ite ?_ (hlog _ _ _ _)
  refine .bind (.zoom (causal_waitForJob client _)) (stoppable_waitForJob client _).onEnv fun job => ?_
  cases job with
  | none =>
    exact .bind (.zoom causal_loadStop) stoppable_loadStop.onEnv fun _ => .ite .pure (hlog _ _ _ _)
  | some job => exact stoppable_mineJob cfg client job

/-- A loop of the runtime that tests the stop flag leaves it after a stop request. -/
theorem quits_stopped {α β : Type} {f : Bool → App (β ⊕ α)} {w : Miner}
    (h : w.env.stopRequested = true)
    (hf : ∀ w : Miner, w.env.stopRequested = true →
      EndsAt (fun ev => Event.isUnaided ev = true) (fun w => w.env.stopRequested = true) (f true)
        (fun r => ∃ a, r = .inr a) w) :
    EndsAt (fun ev => Event.isUnaided ev = true) (fun w => w.env.stopRequested = true)
      (onEnv loadStop >>= f) (fun r => ∃ a, r = .inr a) w := by
  refine .bind (.zoom causal_loadStop) (.zoom (quits_loadStop h) fun _ h => h) ?_
  rintro _ w h rfl
  exact hf w h

theorem stoppable_runStratumSession : AppStoppable (runStratumSession cfg) := by
  refine .bind (.zoom .modify) (Stoppable.onEnv (.modify fun _ h => h)) fun _ =>
    .bind (causal_startStratumSession cfg _) (stoppable_startStratumSession cfg _) fun _ =>
      .ite (.loop (advances_sessionRound cfg _) (causal_sessionRound cfg _)
        (stoppable_sessionRound cfg _) (fun _ w h => quits_stopped h fun w h => ?_) _) .pure
  exact .read (.bind (causal_logStratum cfg _ _ _) ((stoppable_logStratum cfg _ _ _).ends w h)
    fun _ _ h _ => .pure h ⟨0, rfl⟩)

theorem stoppable_sessionFailed (backoffSec : UInt32) (rc : Int) :
    AppStoppable (sessionFailed cfg backoffSec rc) := by
  refine .update (fun _ h => h) (.bind (causal_maybeWriteHealthSnapshotIncremental cfg)
    (stoppable_maybeWriteHealthSnapshotIncremental cfg) fun _ => .read fun w => .ite ?_ ?_)
  · exact .bind (causal_logStratum cfg _ _ _) (stoppable_logStratum cfg _ _ _) fun _ => .pure
  · refine .bind (causal_logStratum cfg _ _ _) (stoppable_logStratum cfg _ _ _) fun _ =>
      .bind (.zoom causal_loadStop) stoppable_loadStop.onEnv fun _ => .ite .pure ?_
    exact .bind (.zoom (causal_sleepFor _)) (stoppable_sleepFor _).onEnv fun _ => .pure

theorem stoppable_loopRound (backoffSec : UInt32) : AppStoppable (loopRound cfg backoffSec) := by
  have hobserve : ∀ o, AppStoppable (onEnv (observe o)) :=
    fun o => Stoppable.onEnv (.modify fun _ h => h)
  refine .bind (.zoom causal_loadStop) stoppable_loadStop.onEnv fun stop => .read fun w =>
    .ite (.bind (.zoom .modify) (hobserve _) fun _ => ?_) .pure
  exact .bind (causal_runStratumSession cfg) (stoppable_runStratumSession cfg) fun rc =>
    .bind (.zoom .modify) (hobserve _) fun _ => .ite .pure (stoppable_sessionFailed cfg _ _)

theorem stoppable_shutdown : AppStoppable (shutdown cfg) := by
  have hlog := stoppable_logStratum cfg
  refine .bind (.zoom causal_clock) stoppable_clock.onEnv fun _ => .read fun w =>
    .bind (.zoom .modify) (Stoppable.onEnv (.modify fun _ h => h)) fun _ =>
    .bind (causal_logStratum cfg _ _ _) (hlog _ _ _) fun _ =>
    .bind (causal_logStratum cfg _ _ _) (hlog _ _ _) fun _ => ?_
  exact .bind (causal_writeHealthSnapshot cfg _ _ _) (stoppable_writeHealthSnapshot cfg _ _ _)
    fun _ => hlog _ _ _

theorem stoppable_runStratumLoop : AppStoppable (runStratumLoop cfg) := by
  refine .bind (.loop (advances_loopRound cfg) (causal_loopRound cfg) _)
    (.loop (advances_loopRound cfg) (causal_loopRound cfg) (stoppable_loopRound cfg)
      (fun _ w h => quits_stopped h fun w h => .read (.pure h ⟨0, rfl⟩)) _) fun rc => ?_
  exact .bind (causal_shutdown cfg) (stoppable_shutdown cfg) fun _ => .pure

end Runtime

/-! ## The program -/

section Program

variable (cfg : MinerConfig)

theorem causal_applySecretOverridesFromEnv (getenv : Bytes → Option Bytes) :
    (applySecretOverridesFromEnv getenv cfg).Causal := by
  refine .ite .pure (.ite ?_ ?_)
  · exact .bind (.zoom .modify) fun _ => .pure
  · exact .bind (.zoom .modify) fun _ => .pure

theorem stoppable_applySecretOverridesFromEnv (getenv : Bytes → Option Bytes) :
    AppStoppable (applySecretOverridesFromEnv getenv cfg) := by
  refine .ite .pure (.ite ?_ ?_)
  · exact .bind (.zoom .modify) (Stoppable.onEnv (.modify fun _ h => h)) fun _ => .pure
  · exact .bind (.zoom .modify) (Stoppable.onEnv (.modify fun _ h => h)) fun _ => .pure

theorem causal_logMiner (level : LogLevel) (message context : Bytes) :
    (logMiner cfg level message context).Causal := .zoom .modify

theorem stoppable_logMiner (level : LogLevel) (message context : Bytes) :
    AppStoppable (logMiner cfg level message context) :=
  Stoppable.onEnv (.modify fun _ h => h)

theorem causal_measure : measure.Causal := by
  refine .bind (.await async) fun ev => ?_
  cases ev with
  | reporter elapsed rate => exact .pure
  | _ => exact .halt

theorem stoppable_runSolo : AppStoppable (runSolo cfg) := by
  have hlog : ∀ level message context (rc : Int), AppStoppable (do
      logMiner cfg level message context
      return rc) := fun _ _ _ _ =>
    .bind (causal_logMiner cfg _ _ _) (stoppable_logMiner cfg _ _ _) fun _ => .pure
  exact .bind (.zoom (causal_mineWith _ _)) (stoppable_mineWith _ _).onEnv fun result =>
    .ite (hlog _ _ _ _) (.ite (hlog _ _ _ _)
      (.bind (.zoom causal_measure) stoppable_measure.onEnv fun _ => hlog _ _ _ _))

theorem causal_runStratumLoop : (runStratumLoop cfg).Causal :=
  .bind (.loop (advances_loopRound cfg) (causal_loopRound cfg) _) fun _ =>
    (causal_shutdown cfg).bind fun _ => .pure

theorem stoppable_runPool : AppStoppable (runPool cfg) := by
  refine .bind (causal_runStratumLoop cfg) (stoppable_runStratumLoop cfg) fun rc => .ite .pure
    (.bind (.zoom causal_loadStop) stoppable_loadStop.onEnv fun stop => .ite ?_ .pure)
  exact .bind (causal_logMiner cfg _ _ _) (stoppable_logMiner cfg _ _ _) fun _ => .pure

theorem stoppable_runMiner (getenv : Bytes → Option Bytes) : AppStoppable (runMiner getenv cfg) := by
  refine .bind (causal_applySecretOverridesFromEnv cfg getenv)
    (stoppable_applySecretOverridesFromEnv cfg getenv) fun cfg => ?_
  cases validateConfig cfg with
  | error configError =>
    exact .bind (.zoom .modify) (Stoppable.onEnv (.modify fun _ h => h)) fun _ => .pure
  | ok =>
    have hend : AppStoppable (if cfg.poolEnabled then runPool cfg else runSolo cfg) :=
      .ite (stoppable_runPool cfg) (stoppable_runSolo cfg)
    refine .bind (causal_logMiner cfg _ _ _) (stoppable_logMiner cfg _ _ _) fun _ => .ite ?_ hend
    exact .bind (.zoom .modify) (Stoppable.onEnv (.modify fun _ h => h)) fun _ => hend

/-- **The program can always be stopped.** Wherever a run of the program stands, unless it was given
an event that answers another operation: with a stop request and events that need nobody else (the
clock, the steps of the threads, the file, calls to the network that fail or time out) it can go on
to its exit. A program that waits is not stuck, whatever it waits for, since a stop request still
reaches it: so no wait hangs, and no thread is joined for ever. -/
theorem can_always_be_stopped (getenv : Bytes → Option Bytes) (events : List Event)
    (hgo : ¬(runMiner getenv cfg).Stuck {} events) :
    ∃ more, (∀ ev ∈ more, Event.isUnaided ev = true) ∧
      ∃ rc, ((runMiner getenv cfg).run {} (events ++ more)).value = some rc := by
  cases hr : (runMiner getenv cfg).run {} events with
  | done rc w rest =>
    refine ⟨[], List.forall_mem_nil _, rc, ?_⟩
    rw [List.append_nil, hr]
    rfl
  | pending w =>
    obtain ⟨more, rc, w', hmore, hr', -⟩ :=
      (stoppable_runMiner cfg getenv).drains {} events w hr hgo
    exact ⟨more, hmore, rc, by rw [hr']; rfl⟩

/-- A run up to where the program mines on its first job. -/
def miningScript (cfg : MinerConfig) : List Event :=
  [.load] ++ startScript cfg ++ [.load] ++ sayScript easyNotify ++ waitScript easyNotify
    ++ mineScript.take 5

/-- From there it can be stopped. -/
theorem can_always_be_stopped_mining :
    ∃ more, (∀ ev ∈ more, Event.isUnaided ev = true) ∧ ∃ rc,
      ((runMiner (fun _ => none) scriptConfig).run {} (miningScript scriptConfig ++ more)).value =
        some rc := by
  refine can_always_be_stopped scriptConfig (fun _ => none) (miningScript scriptConfig)
    (Proc.not_stuck_of_state [.signal] fun hsame => ?_)
  have hbefore : ((runMiner (fun _ => none) scriptConfig).run {}
      (miningScript scriptConfig)).state.env.stopRequested = false := by decide +kernel
  have hafter : ((runMiner (fun _ => none) scriptConfig).run {}
      (miningScript scriptConfig ++ [.signal])).state.env.stopRequested = true := by decide +kernel
  rw [hsame, hbefore] at hafter
  cases hafter

end Program

end HermitMiner
