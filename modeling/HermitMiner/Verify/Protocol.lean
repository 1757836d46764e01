import HermitMiner.Oracle.Path
import HermitMiner.Verify.Attribution
import HermitMiner.Verify.Script

/-!
# The protocol of a session

What a session does on its connection, as an automaton of its own: the handshake, then jobs, and
for a job hashes and one share at most, with one request at a time. Every run of the program makes
a path of this automaton, whatever the pool sends and however the connection fails.

* `Phase`, `Move`: the automaton.
* `Silent`: what nothing of its steps can touch, with a rule for each function of the client.
* `wp_startStratumSession_follows`, …, `wp_loopRound_follows`: the functions of the program.
* `run_follows_protocol`: the runs, and what follows from the automaton alone.
-/

namespace HermitMiner

open Oracle StratumClient

/-! ## The automaton -/

/-- Where a session stands on its connection. -/
inductive Phase where
  /-- There is no connection, or none any more. -/
  | idle
  | connected
  | subscribing
  | subscribed
  | authorizing
  /-- The handshake has failed. -/
  | refused
  /-- Waiting for a job, with the id of the next request. -/
  | ready (id : Nat)
  | working (id : Nat) (job : StratumJob)
  | submitting (id : Nat) (job : StratumJob) (nonce : UInt32)
  /-- The share is accepted. -/
  | credited (id : Nat) (job : StratumJob) (nonce : UInt32)
  /-- The share is not accepted. -/
  | rejected

/-- The codes with which a session can end. -/
def Phase.codes : Phase → List Int
  | .idle | .connected | .subscribing | .subscribed | .authorizing | .refused => [4]
  | .ready _ => [0, 6]
  | .working .. => [0, 6, 8]
  | .submitting .. | .rejected => [8]
  | .credited .. => []

/-- The observations that move a session, and a stop request. -/
def Obs.isStep : Obs → Bool
  | .signal | .connected | .sent _ | .answered .. | .delivered _ | .hashed .. | .accepted ..
  | .sessionStarted | .sessionEnded _ | .slept _ => true
  | _ => false

/-- The moves of a session. -/
inductive Move (cfg : MinerConfig) : Phase → Obs → Phase → Prop where
  | quiet {p : Phase} {o : Obs} (h : o.isStep = false) : Move cfg p o p
  | stop {p : Phase} : Move cfg p .signal p
  | start : Move cfg .idle .sessionStarted .idle
  | sleep {sec : UInt32} : Move cfg .idle (.slept sec) .idle
  | connect : Move cfg .idle .connected .connected
  | subscribe : Move cfg .connected (.sent (subscribeRequest 1 userAgent)) .subscribing
  | subscribed {line : Bytes} : Move cfg .subscribing
      (.answered (subscribeRequest 1 userAgent) line)
      (if parseErrorIsNull line then .subscribed else .refused)
  | authorize : Move cfg .subscribed
      (.sent (authorizeRequest 2 (poolUsername cfg) cfg.poolPassword)) .authorizing
  | authorized {line : Bytes} : Move cfg .authorizing
      (.answered (authorizeRequest 2 (poolUsername cfg) cfg.poolPassword) line)
      (if parseBoolResult line = some true then .ready 3 else .refused)
  | deliver {id : Nat} {job : StratumJob} : Move cfg (.ready id) (.delivered job) (.working id job)
  | hash {id : Nat} {job : StratumJob} {tid : Nat} {nonce : UInt32} :
      Move cfg (.working id job) (.hashed tid nonce) (.working id job)
  /-- No nonce solved the puzzle of the job before. -/
  | redeliver {id : Nat} {job job' : StratumJob} :
      Move cfg (.working id job) (.delivered job') (.working id job')
  | submit {id : Nat} {job : StratumJob} {nonce : UInt32} (hvalid : ValidShare cfg job nonce) :
      Move cfg (.working id job) (.sent (submitRequest id (poolUsername cfg) job.jobId nonce))
        (.submitting id job nonce)
  | judged {id : Nat} {job : StratumJob} {nonce : UInt32} {line : Bytes} :
      Move cfg (.submitting id job nonce)
        (.answered (submitRequest id (poolUsername cfg) job.jobId nonce) line)
        (if parseBoolResult line = some true then .credited id job nonce else .rejected)
  | accept {id : Nat} {job : StratumJob} {nonce : UInt32} :
      Move cfg (.credited id job nonce) (.accepted id job.jobId nonce) (.ready (id + 1))
  | ends {p : Phase} {rc : Int} (h : rc ∈ p.codes) : Move cfg p (.sessionEnded rc) .idle

/-! ### What follows from the automaton -/

/-- The request that a session waits to be answered. -/
def Phase.pending (cfg : MinerConfig) : Phase → Option Bytes
  | .subscribing => some (subscribeRequest 1 userAgent)
  | .authorizing => some (authorizeRequest 2 (poolUsername cfg) cfg.poolPassword)
  | .submitting id job nonce => some (submitRequest id (poolUsername cfg) job.jobId nonce)
  | _ => none

/-- All requests are answered, in their order, but for the one that the session waits for. -/
def Answered (cfg : MinerConfig) (t : List Obs) (p : Phase) : Prop :=
  p ≠ .idle → (connection t).sent =
    (connection t).answered.map Prod.fst ++ (p.pending cfg).toList

/-- A request is sent when all before it are answered. -/
def OneAtATime (t : List Obs) (o : Obs) : Prop :=
  ∀ line, o = .sent line → (connection t).sent = (connection t).answered.map Prod.fst

variable {cfg : MinerConfig}

theorem answered_quiet {t : List Obs} {o : Obs} (ho : o.isStep = false) :
    (connection (t ++ [o])).sent = (connection t).sent ∧
      (connection (t ++ [o])).answered = (connection t).answered := by
  rw [connection_concat]
  cases o with
  | signal | connected | sent | answered | delivered | hashed | accepted | sessionStarted
  | sessionEnded | slept => cases ho
  | received c =>
    rw [Connection.step, (Connection.receive_frame (connection t) c).2.2]
    exact ⟨rfl, rfl⟩
  | expired deadline => cases deadline <;> exact ⟨rfl, rfl⟩
  | _ => exact ⟨rfl, rfl⟩

/-- A request is sent. -/
theorem Answered.sends {t : List Obs} {p p' : Phase} {line : Bytes} (h : Answered cfg t p)
    (hp : p ≠ .idle) (hnone : p.pending cfg = none) (hsome : p'.pending cfg = some line) :
    Answered cfg (t ++ [.sent line]) p' := by
  intro _
  have hall := h hp
  rw [hnone, Option.toList_none, List.append_nil] at hall
  rw [connection_concat, hsome]
  exact congrArg (· ++ [line]) hall

/-- The request is answered. -/
theorem Answered.answers {t : List Obs} {p p' : Phase} {request line : Bytes}
    (h : Answered cfg t p) (hp : p ≠ .idle) (hsome : p.pending cfg = some request)
    (hnone : p'.pending cfg = none) : Answered cfg (t ++ [.answered request line]) p' := by
  intro _
  have hall := h hp
  rw [hsome] at hall
  rw [connection_concat, hnone, Option.toList_none, List.append_nil]
  have happend := (@List.map_append _ _ Prod.fst (connection t).answered [(request, line)]).symm
  exact hall.trans happend

theorem Answered.same {t : List Obs} {p p' : Phase} {o : Obs} (h : Answered cfg t p)
    (hp : p ≠ .idle) (hpending : p'.pending cfg = p.pending cfg)
    (hsent : (connection (t ++ [o])).sent = (connection t).sent)
    (hanswered : (connection (t ++ [o])).answered = (connection t).answered) :
    Answered cfg (t ++ [o]) p' := by
  intro _
  rw [hsent, hanswered, hpending]
  exact h hp

theorem Answered.move {t : List Obs} {p p' : Phase} {o : Obs} (h : Answered cfg t p)
    (hmove : Move cfg p o p') : Answered cfg (t ++ [o]) p' := by
  cases hmove with
  | quiet ho => exact fun hp => h.same hp rfl (answered_quiet ho).1 (answered_quiet ho).2 hp
  | connect => exact fun _ => by rw [connection_concat]; rfl
  | subscribe | authorize | submit => exact h.sends nofun rfl rfl
  | subscribed | authorized | judged => exact h.answers nofun rfl (by split <;> rfl)
  | deliver | redeliver | accept | hash =>
    exact h.same nofun rfl (by rw [connection_concat]; rfl) (by rw [connection_concat]; rfl)
  | start | sleep | ends => exact fun hidle => absurd rfl hidle
  | stop =>
    exact fun hp => h.same hp rfl (by rw [connection_concat]; rfl) (by rw [connection_concat]; rfl) hp

theorem oneAtATime_of_path {t : List Obs} {p : Phase} (h : Path (Move cfg) .idle t p) :
    Along OneAtATime t := by
  refine (h.along (I := Answered cfg) (fun hidle => absurd rfl hidle)
    (fun t p o p' h hmove => h.move hmove) ?_).2
  rintro t p o p' h hmove line rfl
  have hall : p ≠ .idle → p.pending cfg = none →
      (connection t).sent = (connection t).answered.map Prod.fst := by
    intro hp hnone
    have hall := h hp
    rwa [hnone, Option.toList_none, List.append_nil] at hall
  cases hmove with
  | quiet ho => cases ho
  | subscribe | authorize | submit => exact hall nofun rfl

/-! ## The client -/

/-- Only the steps of a session touch `I`. -/
structure Silent (I : Env → Prop) : Prop extends Stable I where
  observe : ∀ {e} o, Obs.isStep o = false → I e → I (e.observe o)
  pop : ∀ {e} c rest, I e → I (e.pop c rest)
  disconnect : ∀ {e}, I e → I e.disconnect
  addLog : ∀ {e} entry, I e → I (e.addLog entry)

namespace Silent

variable {I J : Env → Prop} (hI : Silent I) (self : StratumClient)
include hI

theorem dialLoop (addresses : Nat) : Keeps I (StratumClient.dialLoop addresses) := by
  induction addresses with
  | zero => exact .pure
  | succ addresses ih =>
    have hdial : Keeps I dial := fun _ h => wp_dial hI.toStable h (fun _ h => h) fun _ _ h => h
    exact hdial.bind fun ok => .ite .pure ih

theorem tick (deadline : Deadline) : Keeps I (HermitMiner.tick deadline) :=
  fun _ h => wp_tick hI.toStable h (fun _ h => h) (fun _ h => h) fun _ h => hI.observe _ rfl h

theorem receiveLine (timeoutSec : UInt32) : Keeps I (self.receiveLine timeoutSec) := by
  have hlost : ∀ α (a : α), Keeps I (do HermitMiner.disconnect; return a) := fun α a =>
    (Keeps.modify fun _ h => hI.disconnect h).bind fun _ => .pure
  have hselect : Keeps I select := fun _ h => wp_select hI.toStable h (fun _ h => h)
    (fun _ h => hI.observe _ rfl h) (fun _ h => h) fun _ h => h
  have hrecv : Keeps I recv := fun _ h => wp_recv hI.toStable h (fun _ h => h)
    (fun _ h => hI.observe _ rfl h) fun c rest _ h _ => hI.pop c rest h
  have hobserve : ∀ o, Obs.isStep o = false → Keeps I (HermitMiner.observe o) :=
    fun o ho => .modify fun _ h => hI.observe o ho h
  have hlog : ∀ message, Keeps I (self.logLine .err message []) :=
    fun _ => .modify fun _ h => hI.addLog _ h
  refine Keeps.get.bind fun e => .ite .pure (.loop (fun outLine => ?_) _)
  refine (hI.tick _).bind fun on => .ite (hselect.bind fun r => ?_) .pure
  cases r with
  | failed => exact hlost _ _
  | idle => exact .pure
  | ready =>
    refine hrecv.bind fun rc => ?_
    cases rc with
    | none => exact hlost _ _
    | some c =>
      refine .ite ((hobserve _ rfl).bind fun _ => .pure) (.ite .pure (.ite ?_ .pure))
      exact (hobserve _ rfl).bind fun _ => (hlog _).bind fun _ => hlost _ _

/-- `send_line` makes `J` of `I` when it has sent its line. -/
theorem sendLine {line : Bytes} {e : Env} (h : I e)
    (hsent : ∀ e, I e → J (e.observe (.sent line))) :
    wp (self.sendLine line) (fun ok e => if ok then J e else I e) I e := by
  refine wp_read (wp_ite (fun _ => wp_pure h) fun _ => wp_ite (fun _ => ?_) fun _ => ?_)
  · exact wp_update (wp_update (wp_update (wp_pure
      (hI.disconnect (hI.addLog _ (hI.observe _ rfl h))))))
  · refine wp_loop (I := fun _ => I) h (fun left e h => ?_) fun _ _ h => h
    refine wp_ite (fun _ => wp_update (wp_leave (hsent e h))) fun _ => ?_
    refine wp_bind (wp_send hI.toStable h (fun _ h => h) (fun e h => ?_) fun n e h hn _ => ?_)
    · exact wp_ite (fun _ => wp_update (wp_leave (hI.disconnect (hI.observe _ rfl h))))
        fun h0 => absurd rfl h0
    · exact wp_ite (fun h0 => absurd h0 (Nat.ne_of_gt hn)) fun _ => wp_again (hI.observe _ rfl h)

/-- `request_response` makes `J` of `I` when it has sent the request, and `K` of `J` when it has got
the response. -/
theorem requestResponse (hJ : Silent J) {K : Bytes → Env → Prop} {request : Bytes}
    {timeoutSec : UInt32} {e : Env} (h : I e) (hsent : ∀ e, I e → J (e.observe (.sent request)))
    (hanswered : ∀ line e, J e → K line (e.observe (.answered request line))) :
    wp (self.requestResponse request timeoutSec)
      (fun response e => response.elim (I e ∨ J e) fun line => K line e) (fun e => I e ∨ J e) e := by
  unfold StratumClient.requestResponse
  cases parseMessageId request with
  | none => exact wp_update (wp_pure (Or.inl (hI.observe _ rfl h)))
  | some requestId =>
    refine wp_call (hI.sendLine self h hsent) ?_ fun _ h => Or.inl h
    intro ok e h
    refine wp_ite (fun hok => ?_) fun hok => wp_pure (Or.inl ?_)
    · rw [hok, if_pos rfl] at h
      refine wp_loop (I := fun _ => J) h (fun _ e h => ?_) fun _ _ h => Or.inr h
      refine wp_call (hJ.tick _ e h) (fun on e h => ?_) fun _ h => Or.inr h
      refine wp_ite (fun _ => ?_) fun _ => wp_leave (Or.inr h)
      refine wp_call (hJ.receiveLine self 1 e h) (fun line e h => ?_) fun _ h => Or.inr h
      cases line with
      | none => exact wp_read (wp_ite (fun _ => wp_leave (Or.inr h)) fun _ => wp_again h)
      | some line =>
        refine wp_ite (fun _ => wp_update (wp_leave (hanswered line e h))) fun _ => ?_
        cases parseNotify line with
        | none => exact wp_again h
        | some job => exact wp_update (wp_again (hJ.addLog _ h))
    · rwa [if_neg hok] at h

/-- `wait_for_job` makes `J` of `I` when it delivers a job. -/
theorem waitForJob {J : StratumJob → Env → Prop} (hJ : ∀ job, Silent (J job)) {timeoutSec : UInt32}
    {e : Env} (h : I e) (hdelivered : ∀ job e, I e → J job (e.observe (.delivered job))) :
    wp (self.waitForJob timeoutSec) (fun r e => r.elim (I e) fun job => J job e) I e := by
  refine wp_loop (I := fun _ => I) h (fun _ e h => ?_) fun _ _ h => h
  refine wp_call (hI.tick _ e h) (fun on e h => ?_) fun _ h => h
  refine wp_ite (fun _ => ?_) fun _ => wp_update (wp_leave (hI.addLog _ h))
  refine wp_bind (wp_loadStop hI.toStable h (fun _ h => h) fun e h => ?_)
  refine wp_ite (fun _ => wp_update (wp_leave (hI.addLog _ h))) fun _ => ?_
  refine wp_call (hI.receiveLine self 1 e h) (fun line e h => ?_) fun _ h => h
  cases line with
  | none =>
    exact wp_read (wp_ite (fun _ => wp_update (wp_leave (hI.addLog _ h))) fun _ => wp_again h)
  | some line =>
    dsimp only
    cases parseNotify line with
    | none => exact wp_again h
    | some job => exact wp_update (wp_update (wp_leave ((hJ job).addLog _ (hdelivered job e h))))

theorem loadStop : Keeps (fun w : Miner => I w.env) (onEnv HermitMiner.loadStop) :=
  keeps_onEnv fun _ h => wp_loadStop hI.toStable h (fun _ h => h) fun _ h => h

theorem writeHealthSnapshot (cfg : MinerConfig) (readinessStatus : Bytes) (durationSec : Nat)
    (acceptedPerMin : Bytes) : Keeps (fun w : Miner => I w.env)
      (HermitMiner.writeHealthSnapshot cfg readinessStatus durationSec acceptedPerMin) := by
  have hopen : Keeps (fun w : Miner => I w.env) (onEnv openFile) :=
    keeps_onEnv fun _ h => wp_openFile hI.toStable h (fun _ h => h) fun _ _ h => h
  refine .ite .pure (hopen.bind fun ok => .ite (Keeps.get.bind fun w => ?_) ?_)
  · exact keeps_onEnv (.modify fun _ h => hI.observe _ rfl h)
  · exact keeps_onEnv (.modify fun _ h => hI.addLog _ h)

theorem clock : Keeps (fun w : Miner => I w.env) (onEnv HermitMiner.clock) :=
  keeps_onEnv fun _ h => wp_clock hI.toStable h (fun _ h => h) fun _ _ h => h

theorem maybeWriteHealthSnapshotIncremental (cfg : MinerConfig) :
    Keeps (fun w : Miner => I w.env) (HermitMiner.maybeWriteHealthSnapshotIncremental cfg) :=
  .ite .pure (hI.clock.bind fun _ => Keeps.get.bind fun _ => hI.writeHealthSnapshot cfg _ _ _)

end Silent

/-! ## Phases -/

/-- The history has brought the session to this phase, with this id for its next request. -/
structure InPhase (cfg : MinerConfig) (p : Phase) (n : Nat) (e : Env) : Prop where
  path : Path (Move cfg) .idle e.trace p
  nextId : e.nextId = n

section InPhase

variable {p p' : Phase} {n : Nat} {e : Env}

theorem InPhase.move (h : InPhase cfg p n e) {o : Obs} (hmove : Move cfg p o p') :
    InPhase cfg p' n (e.observe o) := ⟨h.path.snoc hmove, h.nextId⟩

variable (cfg p n) in
theorem silent_inPhase : Silent (InPhase cfg p n) where
  signal h := ⟨h.path.snoc .stop, h.nextId⟩
  arrive _ h := ⟨h.path.snoc (.quiet rfl), h.nextId⟩
  observe _ ho h := h.move (.quiet ho)
  pop _ _ h := ⟨h.path.snoc (.quiet rfl), h.nextId⟩
  disconnect h := ⟨h.path, h.nextId⟩
  addLog _ h := ⟨h.path, h.nextId⟩

theorem InPhase.takeId (h : InPhase cfg p n e) : InPhase cfg p (n + 1) e.takeId :=
  ⟨h.path, congrArg (· + 1) h.nextId⟩

/-- The history makes a path. -/
def Conforms (cfg : MinerConfig) (e : Env) : Prop := ∃ p, Path (Move cfg) .idle e.trace p

/-- The history makes a path, after which the session may end with this code. -/
def MayEnd (cfg : MinerConfig) (rc : Int) (e : Env) : Prop :=
  ∃ p, rc ∈ p.codes ∧ Path (Move cfg) .idle e.trace p

theorem InPhase.conforms (h : InPhase cfg p n e) : Conforms cfg e := ⟨p, h.path⟩

theorem InPhase.mayEnd (h : InPhase cfg p n e) {rc : Int} (hrc : rc ∈ p.codes) :
    MayEnd cfg rc e := ⟨p, hrc, h.path⟩

theorem MayEnd.conforms {rc : Int} (h : MayEnd cfg rc e) : Conforms cfg e :=
  h.imp fun _ h => h.2

theorem MayEnd.addLog {rc : Int} (h : MayEnd cfg rc e) (entry : LogEntry) :
    MayEnd cfg rc (e.addLog entry) := h

variable (self : StratumClient)

/-- A request, from the phase it is made in to the one that its response leads to. -/
theorem InPhase.ask {q : Bytes → Phase} {request : Bytes} {timeoutSec : UInt32} {c : Int}
    (h : InPhase cfg p n e) (hsend : Move cfg p (.sent request) p')
    (hanswer : ∀ line, Move cfg p' (.answered request line) (q line)) (hp : c ∈ p.codes)
    (hp' : c ∈ p'.codes) :
    wp (self.requestResponse request timeoutSec)
      (fun r e => r.elim (MayEnd cfg c e) fun line => InPhase cfg (q line) n e)
      (Conforms cfg) e := by
  refine wp_mono ((silent_inPhase cfg p n).requestResponse self (silent_inPhase cfg p' n)
    (K := fun line => InPhase cfg (q line) n) h (fun _ h => h.move hsend)
    fun line _ h => h.move (hanswer line)) ?_ ?_
  · intro response e h
    cases response with
    | none => exact h.elim (fun h => h.mayEnd hp) fun h => h.mayEnd hp'
    | some line => exact h
  · exact fun e h => h.elim InPhase.conforms InPhase.conforms

theorem wp_connectToPool_follows (h : InPhase cfg .idle 1 e) :
    wp self.connectToPool
      (fun ok e => if ok then InPhase cfg .connected 1 e else MayEnd cfg 4 e) (Conforms cfg) e := by
  have hI := silent_inPhase cfg .idle 1
  have hlost : ∀ message context e, InPhase cfg .idle 1 e → wp (do
      observe .unreachable
      self.logLine .err message context
      return false) (fun ok e => if ok then InPhase cfg .connected 1 e else MayEnd cfg 4 e)
      (Conforms cfg) e := fun message context e h =>
    wp_update (wp_update (wp_pure ((hI.addLog _ (hI.observe _ rfl h)).mayEnd (.head _))))
  refine wp_bind (wp_resolve hI.toStable h (fun _ h => h.conforms) fun addresses e h => ?_)
  refine wp_ite (fun _ => hlost _ _ e h) fun _ => wp_call (hI.dialLoop addresses e h)
    (fun ok e h => ?_) fun _ h => h.conforms
  refine wp_ite (fun _ => wp_update (wp_update (wp_pure ?_))) fun _ => hlost _ _ e h
  have hconnected : InPhase cfg .connected 1 e.connect := ⟨h.path.snoc .connect, h.nextId⟩
  exact (silent_inPhase cfg .connected 1).addLog _ hconnected

theorem wp_subscribe_follows (h : InPhase cfg .connected 1 e) :
    wp (self.subscribe userAgent)
      (fun ok e => if ok then InPhase cfg .subscribed 2 e else MayEnd cfg 4 e)
      (Conforms cfg) e := by
  refine wp_bind (wp_read (wp_update (wp_pure ?_)))
  rw [h.nextId]
  refine wp_call (h.takeId.ask self (c := 4) .subscribe (fun _ => .subscribed) (.head _) (.head _))
    ?_ fun _ h => h
  intro response e h
  cases response with
  | none => exact wp_update (wp_pure (MayEnd.addLog h _))
  | some line =>
    have h : InPhase cfg (if parseErrorIsNull line then .subscribed else .refused) 2 e := h
    refine wp_ite (fun hbad => wp_update (wp_pure ?_)) fun hgood => wp_update (wp_pure ?_)
    · have hnot : ¬parseErrorIsNull line = true := by simpa using hbad
      rw [if_neg hnot] at h
      exact (h.mayEnd (.head _)).addLog _
    · have hnull : parseErrorIsNull line = true := by simpa using hgood
      rw [if_pos hnull] at h
      exact (silent_inPhase cfg .subscribed 2).addLog _ h

theorem wp_authorize_follows (h : InPhase cfg .subscribed 2 e) :
    wp (self.authorize (poolUsername cfg) cfg.poolPassword)
      (fun ok e => if ok then InPhase cfg (.ready 3) 3 e else MayEnd cfg 4 e)
      (Conforms cfg) e := by
  refine wp_bind (wp_read (wp_update (wp_pure ?_)))
  rw [h.nextId]
  refine wp_call (h.takeId.ask self (c := 4) .authorize (fun _ => .authorized) (.head _) (.head _))
    ?_ fun _ h => h
  intro response e h
  cases response with
  | none => exact wp_update (wp_pure (MayEnd.addLog h _))
  | some line =>
    have h : InPhase cfg (if parseBoolResult line = some true then .ready 3 else .refused) 3 e := h
    refine wp_ite (fun htrue => wp_update (wp_pure ?_)) fun hnot => wp_update (wp_pure ?_)
    · rw [if_pos htrue] at h
      exact (silent_inPhase cfg (.ready 3) 3).addLog _ h
    · rw [if_neg hnot] at h
      exact (h.mayEnd (.head _)).addLog _

theorem wp_submitShare_follows {job : StratumJob} {nonce : UInt32}
    (hvalid : ValidShare cfg job nonce) (h : InPhase cfg (.working n job) n e) :
    wp (self.submitShare (poolUsername cfg) job.jobId nonce)
      (fun ok e => if ok then InPhase cfg (.ready (n + 1)) (n + 1) e else MayEnd cfg 8 e)
      (Conforms cfg) e := by
  refine wp_bind (wp_read (wp_update (wp_pure ?_)))
  rw [h.nextId]
  refine wp_call (h.takeId.ask self (c := 8) (.submit hvalid) (fun _ => .judged) ?_ (.head _))
    ?_ fun _ h => h
  · exact .tail _ (.tail _ (.head _))
  intro response e h
  cases response with
  | none => exact wp_update (wp_pure (MayEnd.addLog h _))
  | some line =>
    have h : InPhase cfg (if parseBoolResult line = some true then .credited n job nonce
      else .rejected) (n + 1) e := h
    have hrejected : ¬parseBoolResult line = some true → MayEnd cfg 8 e := by
      intro hnot
      rw [if_neg hnot] at h
      exact h.mayEnd (.head _)
    dsimp only
    cases hresult : parseBoolResult line with
    | none => exact wp_update (wp_pure ((hrejected (by rw [hresult]; nofun)).addLog _))
    | some ok =>
      cases ok with
      | false => exact wp_update (wp_pure ((hrejected (by rw [hresult]; nofun)).addLog _))
      | true =>
        rw [if_pos hresult] at h
        exact wp_update (wp_update (wp_pure
          ((silent_inPhase cfg _ _).addLog _ (h.move .accept))))

end InPhase

/-! ## Sessions -/

/-- The handshake is done, and no share is on its way. -/
def AtJobs (cfg : MinerConfig) (e : Env) : Prop :=
  ∃ p n, (p = .ready n ∨ ∃ job, p = .working n job) ∧ InPhase cfg p n e

/-- The session goes on, or ends. -/
def RoundConforms (cfg : MinerConfig) (r : Unit ⊕ Int) (w : Miner) : Prop :=
  Sum.elim (fun _ => AtJobs cfg w.env) (fun rc => MayEnd cfg rc w.env) r

section Session

variable {client : StratumClient} {n : Nat} {e : Env} {w : Miner}

theorem AtJobs.mayEnd (h : AtJobs cfg e) {rc : Int} (hrc : rc = 0 ∨ rc = 6) : MayEnd cfg rc e := by
  obtain ⟨p, n, rfl | ⟨job, rfl⟩, h⟩ := h
  · exact h.mayEnd (by rcases hrc with rfl | rfl <;> simp [Phase.codes])
  · exact h.mayEnd (by rcases hrc with rfl | rfl <;> simp [Phase.codes])

theorem AtJobs.conforms (h : AtJobs cfg e) : Conforms cfg e := (h.mayEnd (Or.inl rfl)).conforms

theorem InPhase.atJobs (h : InPhase cfg (.ready n) n e) : AtJobs cfg e := ⟨_, n, Or.inl rfl, h⟩

theorem silent_atJobs : Silent (AtJobs cfg) where
  signal := fun ⟨p, n, hp, h⟩ => ⟨p, n, hp, (silent_inPhase cfg p n).signal h⟩
  arrive bytes := fun ⟨p, n, hp, h⟩ => ⟨p, n, hp, (silent_inPhase cfg p n).arrive bytes h⟩
  observe o ho := fun ⟨p, n, hp, h⟩ => ⟨p, n, hp, (silent_inPhase cfg p n).observe o ho h⟩
  pop c rest := fun ⟨p, n, hp, h⟩ => ⟨p, n, hp, (silent_inPhase cfg p n).pop c rest h⟩
  disconnect := fun ⟨p, n, hp, h⟩ => ⟨p, n, hp, (silent_inPhase cfg p n).disconnect h⟩
  addLog entry := fun ⟨p, n, hp, h⟩ => ⟨p, n, hp, (silent_inPhase cfg p n).addLog entry h⟩

theorem aloof_working (job : StratumJob) : Aloof (InPhase cfg (.working n job) n) where
  toStable := (silent_inPhase cfg _ _).toStable
  hashed _ _ h := h.move .hash
  counted _ _ h := h.move (.quiet rfl)
  addLog := (silent_inPhase cfg _ _).addLog

theorem wp_startStratumSession_follows (h : InPhase cfg .idle 1 w.env) :
    wp (startStratumSession cfg client)
      (fun ok w => if ok then InPhase cfg (.ready 3) 3 w.env else MayEnd cfg 4 w.env)
      (fun w => Conforms cfg w.env) w := by
  refine wp_callEnv (wp_connectToPool_follows client h) (fun ok e h => ?_) fun _ h => h
  refine wp_ite (fun hok => ?_) fun hok => wp_pure (by rwa [if_neg hok] at h)
  rw [if_pos hok] at h
  refine wp_callEnv (wp_subscribe_follows client h) (fun ok e h => ?_) fun _ h => h
  refine wp_ite (fun hok => ?_) fun hok => wp_pure (by rwa [if_neg hok] at h)
  rw [if_pos hok] at h
  refine wp_callEnv (wp_authorize_follows client h) (fun ok e h => ?_) fun _ h => h
  refine wp_ite (fun hok => ?_) fun hok => wp_pure (by rwa [if_neg hok] at h)
  rw [if_pos hok] at h
  exact wp_updateEnv (wp_pure ((silent_inPhase cfg _ _).addLog _ h))

theorem wp_submitFound_follows {job : StratumJob} {nonce : UInt32}
    (hvalid : ValidShare cfg job nonce) (h : InPhase cfg (.working n job) n w.env) :
    wp (submitFound cfg client job.jobId nonce) (RoundConforms cfg)
      (fun w => Conforms cfg w.env) w := by
  refine wp_update (wp_callEnv (wp_submitShare_follows client hvalid h) (fun ok e h => ?_)
    fun _ h => h)
  refine wp_ite (fun hok => ?_) fun hok => ?_
  · rw [if_pos hok] at h
    refine wp_update (wp_update (wp_call
      (silent_atJobs.maybeWriteHealthSnapshotIncremental cfg _ h.atJobs) ?_
      fun _ hw => hw.conforms))
    exact fun _ w hw => wp_updateEnv (wp_pure (silent_atJobs.addLog _ hw))
  · rw [if_neg hok] at h
    exact wp_update (wp_updateEnv (wp_pure (h.addLog _)))

theorem wp_mineJob_follows {job : StratumJob} (h : InPhase cfg (.working n job) n w.env) :
    wp (mineJob cfg client job) (RoundConforms cfg) (fun w => Conforms cfg w.env) w := by
  have hjobs : ∀ {e}, InPhase cfg (.working n job) n e → AtJobs cfg e :=
    fun h => ⟨_, n, Or.inr ⟨job, rfl⟩, h⟩
  refine wp_update (wp_updateEnv (wp_callEnv (wp_and (keeps_mineWith (aloof_working job)
    doubleSha256 _ _ ((aloof_working job).addLog _ h)) wp_mineWith_found) ?_
    fun _ h => h.1.conforms))
  rintro result e ⟨h, hfound⟩
  refine wp_ite (fun _ => wp_pure ((hjobs h).mayEnd (Or.inl rfl))) fun _ => wp_ite (fun _ => ?_)
    fun hf => ?_
  · exact wp_updateEnv (wp_pure (silent_atJobs.addLog _ (hjobs h)))
  · refine wp_submitFound_follows (validShare_iff.2 (hfound ?_)) h
    simpa using hf

theorem wp_sessionRound_follows (h : AtJobs cfg w.env) :
    wp (sessionRound cfg client ()) (RoundConforms cfg) (fun w => Conforms cfg w.env) w := by
  refine wp_call (silent_atJobs.loadStop w h) ?_ fun w hw => hw.conforms
  rintro stop w ⟨p, n, hp, h⟩
  have hjobs : ∀ {e}, InPhase cfg p n e → AtJobs cfg e := fun h => ⟨p, n, hp, h⟩
  refine wp_read (wp_ite (fun _ => ?_) fun _ => ?_)
  · refine wp_callEnv ((silent_inPhase cfg p n).waitForJob client
      (fun job => silent_inPhase cfg (.working n job) n) h fun job e h => h.move ?_) ?_
      fun _ h => h.conforms
    · rcases hp with rfl | ⟨_, rfl⟩
      · exact .deliver
      · exact .redeliver
    intro r e h
    cases r with
    | none =>
      refine wp_call (silent_atJobs.loadStop _ (hjobs h)) ?_ fun _ hw => hw.conforms
      intro stop w hw
      exact wp_ite (fun _ => wp_pure (hw.mayEnd (Or.inl rfl))) fun _ =>
        wp_updateEnv (wp_pure ((hw.mayEnd (Or.inr rfl)).addLog _))
    | some job => exact wp_mineJob_follows h
  · exact wp_updateEnv (wp_pure (((hjobs h).mayEnd (Or.inl rfl)).addLog _))

theorem wp_runStratumSession_follows (h : Path (Move cfg) .idle w.env.trace .idle) :
    wp (runStratumSession cfg) (fun rc w => MayEnd cfg rc w.env) (fun w => Conforms cfg w.env) w := by
  have hnew : InPhase cfg .idle 1 (w.setEnv w.env.newClient).env := ⟨h, rfl⟩
  refine wp_updateEnv (wp_call (wp_startStratumSession_follows hnew) (fun ok w h => ?_)
    fun _ h => h)
  refine wp_ite (fun hok => ?_) fun hok => wp_pure (by rwa [if_neg hok] at h)
  rw [if_pos hok] at h
  refine wp_loop (I := fun _ w => AtJobs cfg w.env) h.atJobs (fun _ w h => ?_) fun _ _ h => h.conforms
  exact wp_mono (wp_sessionRound_follows h) (fun r w h => by cases r <;> exact h) fun _ h => h

end Session

/-! ## Runs -/

/-- Between two sessions. -/
def Apart (cfg : MinerConfig) (e : Env) : Prop := Path (Move cfg) .idle e.trace .idle

theorem Apart.conforms {e : Env} (h : Apart cfg e) : Conforms cfg e := ⟨_, h⟩

theorem bystander_apart : Bystander (Apart cfg) where
  signal h := h.snoc .stop
  arrive _ h := h.snoc (.quiet rfl)
  report {_ o} ho h := by
    cases o with
    | sessionStarted => exact h.snoc .start
    | slept sec => exact h.snoc .sleep
    | snapshot stats cyclesDone text => exact h.snoc (.quiet rfl)
    | summary stats cyclesDone => exact h.snoc (.quiet rfl)
    | _ => cases ho
  addLog _ h := h

theorem wp_loopRound_follows {w : Miner} (backoffSec : UInt32) (h : Apart cfg w.env) :
    wp (loopRound cfg backoffSec) (fun _ w => Apart cfg w.env) (fun w => Conforms cfg w.env) w := by
  refine wp_call (keeps_loadStopAside bystander_apart w h) ?_ fun _ h => h.conforms
  intro stop w h
  refine wp_read (wp_ite (fun _ => ?_) fun _ => wp_pure h)
  refine wp_updateEnv (wp_call (wp_runStratumSession_follows (bystander_apart.report rfl h)) ?_
    fun _ h => h)
  rintro rc w ⟨p, hrc, h⟩
  have hended : Apart cfg (w.env.observe (.sessionEnded rc)) := h.snoc (.ends hrc)
  refine wp_updateEnv (wp_ite (fun _ => wp_pure hended) fun _ => ?_)
  exact wp_mono (keeps_sessionFailed bystander_apart cfg backoffSec rc _ hended) (fun _ _ h => h)
    fun _ h => h.conforms

theorem wp_runStratumLoop_follows (cfg : MinerConfig) :
    wp (runStratumLoop cfg) (fun _ w => Apart cfg w.env) (fun w => Conforms cfg w.env) {} := by
  have hstart : Apart cfg ({} : Miner).env := .nil
  have hloop : wp (Proc.loop (loopRound cfg) (backoffInitial cfg)) (fun _ w => Apart cfg w.env)
      (fun w => Conforms cfg w.env) {} := by
    refine wp_loop (I := fun _ w => Apart cfg w.env) hstart (fun backoffSec w h => ?_)
      fun _ _ h => h.conforms
    exact wp_mono (wp_loopRound_follows backoffSec h) (fun r w h => by cases r <;> exact h)
      fun _ h => h
  refine wp_call hloop (fun rc w h => ?_) fun _ h => h
  exact wp_call (keeps_shutdown bystander_apart cfg w h) (fun _ _ h => wp_pure h)
    fun _ h => h.conforms

/-- **Every run follows the protocol**, whatever the pool sends and whatever becomes of its
connections: its history is a path of the automaton, which is back at its start when the run
returns; and so no request is sent before all others on its connection are answered, in their
order. -/
theorem run_follows_protocol (cfg : MinerConfig) (events : List Event) :
    (∃ p, Path (Move cfg) .idle ((runStratumLoop cfg).run {} events).state.env.trace p) ∧
    (∀ rc, ((runStratumLoop cfg).run {} events).value = some rc →
      Path (Move cfg) .idle ((runStratumLoop cfg).run {} events).state.env.trace .idle) ∧
    Along OneAtATime ((runStratumLoop cfg).run {} events).state.env.trace := by
  have hrun := wp_runStratumLoop_follows cfg
  have hpath : Conforms cfg ((runStratumLoop cfg).run {} events).state.env :=
    (wp_mono hrun (fun _ _ h => h.conforms) fun _ h => h).state events
  refine ⟨hpath, fun rc hrc => hrun.done (Outcome.eq_done_of_value hrc), ?_⟩
  obtain ⟨p, hp⟩ := hpath
  exact oneAtATime_of_path hp

end HermitMiner
