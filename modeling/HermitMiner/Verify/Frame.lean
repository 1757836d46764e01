import HermitMiner.Runtime

/-!
# What the client and the workers leave alone

An invariant that the client's own observations do not touch is kept by every call a session makes
on its client, and by `mine`. Only `submit_share` has one more observation, of an accepted share.

* `Inert`, `InertFor`, `Aloof`: the invariants that neither the client nor `mine` can touch, or only
  the client through a line it sends, or only not `mine`.
* `keeps_connectToPool`, …, `keeps_mineWith`: one lemma for each function.
* `wp_submitShare_sent`, `wp_submitShare_frame`: the one call that also observes an accepted share.
-/

namespace HermitMiner

open Oracle

/-- The observations of the client, `submit_share`'s result apart, and of the workers. -/
def Obs.isInert : Obs → Bool
  | .accepted .. | .sessionStarted | .sessionEnded _ | .slept _ | .snapshot .. | .summary .. => false
  | _ => true

/-- Nothing the client or a worker does touches `I`. -/
structure Inert (I : Env → Prop) : Prop extends Stable I where
  observe : ∀ {e} o, Obs.isInert o = true → I e → I (e.observe o)
  pop : ∀ {e} c rest, I e → I (e.pop c rest)
  connect : ∀ {e}, I e → I e.connect
  disconnect : ∀ {e}, I e → I e.disconnect
  takeId : ∀ {e}, I e → I e.takeId
  newClient : ∀ {e}, I e → I e.newClient
  addLog : ∀ {e} entry, I e → I (e.addLog entry)

/-- Nothing the client or a worker does touches `I`, as long as the lines that are sent are in `S`. -/
structure InertFor (S : Bytes → Prop) (I : Env → Prop) : Prop extends Stable I where
  observe : ∀ {e} o, Obs.isInert o = true → (∀ line, o = .sent line → S line) → I e →
    I (e.observe o)
  pop : ∀ {e} c rest, I e → I (e.pop c rest)
  connect : ∀ {e}, I e → I e.connect
  disconnect : ∀ {e}, I e → I e.disconnect
  takeId : ∀ {e}, I e → I e.takeId
  newClient : ∀ {e}, I e → I e.newClient
  addLog : ∀ {e} entry, I e → I (e.addLog entry)

/-- No step of the threads of `mine` touches `I`. -/
structure Unmined (I : Env → Prop) : Prop where
  hashed : ∀ {e} tid nonce, I e → I (e.observe (.hashed tid nonce))
  counted : ∀ {e} hashes stopRequested, I e → I (e.observe (.counted hashes stopRequested))
  addLog : ∀ {e} entry, I e → I (e.addLog entry)

/-- Nothing `mine` does touches `I`. -/
structure Aloof (I : Env → Prop) : Prop extends Stable I, Unmined I

variable {I : Env → Prop} {S : Bytes → Prop}

/-- Whatever the lines are. -/
theorem Inert.all (hI : Inert I) : InertFor (fun _ => True) I where
  toStable := hI.toStable
  observe o ho _ h := hI.observe o ho h
  pop := hI.pop
  connect := hI.connect
  disconnect := hI.disconnect
  takeId := hI.takeId
  newClient := hI.newClient
  addLog := hI.addLog

def Obs.isSent : Obs → Bool
  | .sent _ => true
  | _ => false

theorem InertFor.other (hI : InertFor S I) {e : Env} {o : Obs} (ho : o.isInert = true)
    (hsent : o.isSent = false) (h : I e) : I (e.observe o) :=
  hI.observe o ho (fun _ hline => by rw [hline] at hsent; cases hsent) h

theorem InertFor.sent (hI : InertFor S I) {e : Env} {line : Bytes} (hline : S line) (h : I e) :
    I (e.observe (.sent line)) :=
  hI.observe _ rfl (fun _ hx => Obs.sent.inj hx ▸ hline) h

theorem InertFor.aloof (hI : InertFor S I) : Aloof I where
  toStable := hI.toStable
  hashed _ _ h := hI.other rfl rfl h
  counted _ _ h := hI.other rfl rfl h
  addLog := hI.addLog

/-- An invariant of the history that every observation keeps, unless it is of a line outside `S`. -/
theorem InertFor.of_history {P : List Obs → Prop}
    (h : ∀ t o, (∀ line, o = .sent line → S line) → P t → P (t ++ [o])) :
    InertFor S fun e => P e.trace where
  signal := h _ _ nofun
  arrive _ := h _ _ nofun
  observe o _ hS := h _ o hS
  pop _ _ := h _ _ nofun
  connect := h _ _ nofun
  disconnect h := h
  takeId h := h
  newClient h := h
  addLog _ h := h

section Inert

variable (hI : InertFor S I)
include hI

/-! ## Operations -/

section Operations

theorem keeps_observe {o : Obs} (ho : o.isInert = true) (hsent : o.isSent = false) :
    Keeps I (observe o) := .modify fun _ h => hI.other ho hsent h

theorem keeps_disconnect : Keeps I disconnect := .modify fun _ h => hI.disconnect h

theorem keeps_log (level : LogLevel) (component nodeId message context : Bytes) :
    Keeps I (log level component nodeId message context) := .modify fun _ h => hI.addLog _ h

theorem keeps_loadStop : Keeps I loadStop :=
  fun _ h => wp_loadStop hI.toStable h (fun _ h => h) fun _ h => h

theorem keeps_resolve : Keeps I resolve :=
  fun _ h => wp_resolve hI.toStable h (fun _ h => h) fun _ _ h => h

theorem keeps_dial : Keeps I dial :=
  fun _ h => wp_dial hI.toStable h (fun _ h => h) fun _ _ h => h

theorem keeps_send (bytes : Bytes) : Keeps I (send bytes) :=
  fun _ h => wp_send hI.toStable h (fun _ h => h) (fun _ h => hI.other rfl rfl h)
    fun _ _ h _ _ => hI.other rfl rfl h

theorem keeps_tick (deadline : Deadline) : Keeps I (tick deadline) :=
  fun _ h => wp_tick hI.toStable h (fun _ h => h) (fun _ h => h) fun _ h => hI.other rfl rfl h

theorem keeps_select : Keeps I select :=
  fun _ h => wp_select hI.toStable h (fun _ h => h) (fun _ h => hI.other rfl rfl h)
    (fun _ h => h) fun _ h => h

theorem keeps_recv : Keeps I recv :=
  fun _ h => wp_recv hI.toStable h (fun _ h => h) (fun _ h => hI.other rfl rfl h)
    fun c rest _ h _ => hI.pop c rest h

theorem keeps_clock : Keeps I clock :=
  fun _ h => wp_clock hI.toStable h (fun _ h => h) fun _ _ h => h

theorem keeps_openFile : Keeps I openFile :=
  fun _ h => wp_openFile hI.toStable h (fun _ h => h) fun _ _ h => h

end Operations

/-! ## The client -/

section Client

open StratumClient

variable (self : StratumClient)

theorem keeps_logLine (level : LogLevel) (message context : Bytes) :
    Keeps I (self.logLine level message context) := keeps_log hI _ _ _ _ _

theorem keeps_dialLoop (addresses : Nat) : Keeps I (dialLoop addresses) := by
  induction addresses with
  | zero => exact .pure
  | succ n ih => exact (keeps_dial hI).bind fun ok => .ite .pure ih

theorem keeps_connectToPool : Keeps I self.connectToPool := by
  have hlost : ∀ message context, Keeps I (do
      observe .unreachable
      self.logLine .err message context
      return false) := fun message context =>
    (keeps_observe hI rfl rfl).bind fun _ => (keeps_logLine hI self _ _ _).bind fun _ => .pure
  refine (keeps_resolve hI).bind fun addrs => .ite (hlost _ _) ?_
  refine (keeps_dialLoop hI addrs).bind fun ok => .ite ?_ (hlost _ _)
  exact (Keeps.modify fun _ h => hI.connect h).bind fun _ =>
    (keeps_logLine hI self _ _ _).bind fun _ => .pure

/-- `send_line` touches `I` only through the line it has sent. -/
theorem wp_sendLine_frame {Q : Bool → Env → Prop} {line : Bytes} {e : Env} (h : I e)
    (hfalse : ∀ e, I e → Q false e) (htrue : ∀ e, I e → Q true (e.observe (.sent line))) :
    wp (self.sendLine line) Q I e := by
  refine wp_read (wp_ite (fun _ => wp_pure (hfalse e h)) fun _ => wp_ite ?_ fun _ => ?_)
  · exact fun _ => wp_update (wp_update (wp_update (wp_pure
      (hfalse _ (hI.disconnect (hI.addLog _ (hI.other rfl rfl h)))))))
  · refine wp_loop (I := fun _ => I) h ?_ fun _ _ h => h
    intro left e h
    refine wp_ite (fun _ => wp_update (wp_leave (htrue e h))) fun _ => ?_
    refine wp_call (keeps_send hI left e h) ?_ fun _ h => h
    intro sent e h
    exact wp_ite (fun _ => wp_update (wp_leave (hfalse _ (hI.disconnect h)))) fun _ => wp_again h

theorem keeps_receiveLine (timeoutSec : UInt32) : Keeps I (self.receiveLine timeoutSec) := by
  have hlost : ∀ α (a : α), Keeps I (do disconnect; return a) := fun α a =>
    (keeps_disconnect hI).bind fun _ => .pure
  refine Keeps.get.bind fun e => .ite .pure (.loop ?_ _)
  intro outLine
  refine (keeps_tick hI _).bind fun on => .ite ((keeps_select hI).bind ?_) .pure
  intro r
  cases r with
  | failed => exact hlost _ _
  | idle => exact .pure
  | ready =>
    apply (keeps_recv hI).bind
    intro rc
    cases rc with
    | none => exact hlost _ _
    | some c =>
      refine .ite ((keeps_observe hI rfl rfl).bind fun _ => .pure) (.ite .pure (.ite ?_ .pure))
      exact (keeps_observe hI rfl rfl).bind fun _ => (keeps_logLine hI self _ _ _).bind fun _ =>
        hlost _ _

theorem keeps_responseLoop (request : Bytes) (requestId : Nat) (timeoutSec : UInt32) :
    Keeps I (Proc.loop (self.responseRound request requestId timeoutSec) ()) := by
  refine .loop (fun _ => (keeps_tick hI _).bind fun on => .ite ?_ .pure) _
  apply (keeps_receiveLine hI self 1).bind
  intro line
  cases line with
  | none => exact Keeps.get.bind fun e => .ite .pure .pure
  | some line =>
    refine .ite ((keeps_observe hI rfl rfl).bind fun _ => .pure) ?_
    cases parseNotify line with
    | none => exact .pure
    | some job => exact (keeps_logLine hI self _ _ _).bind fun _ => .pure

/-- `request_response` makes `J` of `I` when it sends the request. -/
theorem wp_requestResponse_frame {J : Env → Prop} {T : Bytes → Prop} (hJ : InertFor T J)
    {request : Bytes} {timeoutSec : UInt32} {e : Env} (h : I e) (hIJ : ∀ e, I e → J e)
    (hsent : ∀ e, I e → J (e.observe (.sent request))) :
    wp (self.requestResponse request timeoutSec) (fun _ => J) J e := by
  unfold requestResponse
  cases parseMessageId request with
  | none => exact wp_update (wp_pure (hIJ _ (hI.other rfl rfl h)))
  | some requestId =>
    refine wp_call (wp_sendLine_frame hI self h (Q := fun _ => J) hIJ hsent) ?_ hIJ
    intro ok e h
    exact wp_ite (fun _ => keeps_responseLoop hJ self _ _ _ e h) fun _ => wp_pure h

theorem keeps_requestResponse {request : Bytes} (hrequest : S request) (timeoutSec : UInt32) :
    Keeps I (self.requestResponse request timeoutSec) :=
  fun _ h => wp_requestResponse_frame hI self hI h (fun _ h => h)
    fun _ h => hI.sent hrequest h

theorem keeps_takeId : Keeps I takeId :=
  Keeps.get.bind fun _ => (Keeps.modify fun _ h => hI.takeId h).bind fun _ => .pure

theorem keeps_subscribe {userAgent : Bytes} (hS : ∀ id, S (subscribeRequest id userAgent)) :
    Keeps I (self.subscribe userAgent) := by
  refine (keeps_takeId hI).bind fun id => (keeps_requestResponse hI self (hS id) _).bind ?_
  intro resp
  cases resp with
  | none => exact (keeps_logLine hI self _ _ _).bind fun _ => .pure
  | some resp =>
    exact .ite ((keeps_logLine hI self _ _ _).bind fun _ => .pure)
      ((keeps_logLine hI self _ _ _).bind fun _ => .pure)

theorem keeps_authorize {username password : Bytes}
    (hS : ∀ id, S (authorizeRequest id username password)) :
    Keeps I (self.authorize username password) := by
  refine (keeps_takeId hI).bind fun id => (keeps_requestResponse hI self (hS id) _).bind ?_
  intro resp
  cases resp with
  | none => exact (keeps_logLine hI self _ _ _).bind fun _ => .pure
  | some resp =>
    exact .ite ((keeps_logLine hI self _ _ _).bind fun _ => .pure)
      ((keeps_logLine hI self _ _ _).bind fun _ => .pure)

/-- What `wait_for_job` returns, it has observed. -/
theorem wp_waitForJob_frame {Q : Option StratumJob → Env → Prop} {timeoutSec : UInt32} {e : Env}
    (h : I e) (hnone : ∀ e, I e → Q none e)
    (hsome : ∀ job e, I e → Q (some job) (e.observe (.delivered job)))
    (hlog : ∀ r entry e, Q r e → Q r (e.addLog entry)) :
    wp (self.waitForJob timeoutSec) Q I e := by
  refine wp_loop (I := fun _ => I) h ?_ fun _ _ h => h
  intro _ e h
  refine wp_call (keeps_tick hI _ e h) ?_ fun _ h => h
  intro on e h
  refine wp_ite (fun _ => ?_) fun _ => wp_update (wp_leave (hlog _ _ _ (hnone e h)))
  refine wp_call (keeps_loadStop hI e h) ?_ fun _ h => h
  intro stop e h
  refine wp_ite (fun _ => wp_update (wp_leave (hlog _ _ _ (hnone e h)))) fun _ => ?_
  refine wp_call (keeps_receiveLine hI self 1 e h) ?_ fun _ h => h
  intro line e h
  cases line with
  | none =>
    exact wp_read (wp_ite (fun _ => wp_update (wp_leave (hlog _ _ _ (hnone e h)))) fun _ =>
      wp_again h)
  | some line =>
    dsimp only
    cases parseNotify line with
    | none => exact wp_again h
    | some job => exact wp_update (wp_update (wp_leave (hlog _ _ _ (hsome job e h))))

theorem keeps_waitForJob (timeoutSec : UInt32) : Keeps I (self.waitForJob timeoutSec) :=
  fun _ h => wp_waitForJob_frame hI self h (fun _ h => h)
    (fun _ _ h => hI.other rfl rfl h) fun _ entry _ h => hI.addLog entry h

/-- `submit_share` makes `J` of `I` when it sends the share, and then touches it only through the
share it sees accepted. -/
theorem wp_submitShare_sent {J : Env → Prop} {T : Bytes → Prop} (hJ : InertFor T J)
    {Q : Bool → Env → Prop} {username jobId : Bytes} {nonce : UInt32} {e : Env} (h : I e)
    (hIJ : ∀ e, I e → J e)
    (hsent : ∀ id e, I e → J (e.observe (.sent (submitRequest id username jobId nonce))))
    (hfalse : ∀ e, J e → Q false e)
    (htrue : ∀ id e, J e → Q true (e.observe (.accepted id jobId nonce)))
    (hlog : ∀ b entry e, Q b e → Q b (e.addLog entry)) :
    wp (self.submitShare username jobId nonce) Q J e := by
  refine wp_call (keeps_takeId hI e h) ?_ hIJ
  intro id e he
  refine wp_call (wp_requestResponse_frame hI self hJ he hIJ (hsent id)) ?_ fun _ he => he
  intro resp e he
  cases resp with
  | none => exact wp_update (wp_pure (hlog _ _ _ (hfalse e he)))
  | some resp =>
    dsimp only
    cases parseBoolResult resp with
    | none => exact wp_update (wp_pure (hlog _ _ _ (hfalse e he)))
    | some b =>
      cases b with
      | false => exact wp_update (wp_pure (hlog _ _ _ (hfalse e he)))
      | true => exact wp_update (wp_update (wp_pure
          (hlog _ _ _ (htrue id e he))))

end Client

end Inert

/-- `submit_share` touches `I` only through the share it sees accepted. -/
theorem wp_submitShare_frame (hI : Inert I) (self : StratumClient) {Q : Bool → Env → Prop}
    {username jobId : Bytes} {nonce : UInt32} {e : Env} (h : I e) (hfalse : ∀ e, I e → Q false e)
    (htrue : ∀ id e, I e → Q true (e.observe (.accepted id jobId nonce)))
    (hlog : ∀ b entry e, Q b e → Q b (e.addLog entry)) :
    wp (self.submitShare username jobId nonce) Q I e :=
  wp_submitShare_sent hI.all self hI.all h (fun _ h => h) (fun _ _ h => hI.observe _ rfl h) hfalse
    htrue hlog

/-! ## Mining -/

section Mining

variable (hI : Unmined I) (hash256 : Bytes → Hash256) (cfg : MinerConfig)
include hI

theorem keeps_workerStep (tid : Nat) (m : Machine) : Keeps I (workerStep hash256 cfg tid m) := by
  unfold workerStep
  dsimp only
  cases (m.workers tid).pc with
  | notStarted => exact .halt
  | loadRequest => exact Keeps.get.bind fun e => .ite .pure .pure
  | loadStop => exact .ite .pure .pure
  | hashing =>
    exact (Keeps.modify fun _ h => hI.hashed tid _ h).bind fun _ => .ite .pure .pure
  | exchange nonce hash => exact .ite .pure .pure
  | recording nonce hash => exact .pure
  | exiting => exact .pure
  | done => exact .halt

theorem keeps_mainStep (sec hps : Bytes) (m : Machine) : Keeps I (mainStep cfg sec hps m) := by
  unfold mainStep
  cases m.main with
  | spawning tid => exact .ite .pure .pure
  | whileTest => exact .ite .pure .pure
  | loadRequest => exact Keeps.get.bind fun e => .ite .pure .pure
  | storeAbort => exact .pure
  | sleeping =>
    exact Keeps.get.bind fun e => (Keeps.modify fun _ h => hI.counted _ _ h).bind fun _ =>
      (Keeps.modify fun _ h => hI.addLog _ h).bind fun _ => .ite .pure .pure
  | storeStop => exact .pure
  | joining tid => exact .ite (.ite .pure .halt) .pure

end Mining

theorem keeps_mineWith (hI : Aloof I) (hash256 : Bytes → Hash256) (cfg : MinerConfig) :
    Keeps I (mineWith hash256 cfg) := by
  have hawait : Keeps I await :=
    fun _ h => wp_awaitEvent hI.toStable h (fun _ h => h) fun _ _ h => h
  refine .loop (fun m => hawait.bind ?_) _
  intro ev
  cases ev with
  | worker tid => exact (keeps_workerStep hI.toUnmined hash256 cfg tid m).bind fun _ => .pure
  | reporter sec hps => exact keeps_mainStep hI.toUnmined cfg sec hps m
  | _ => exact .halt

end HermitMiner
