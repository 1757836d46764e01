import HermitMiner.Verify.Bookkeeping
import HermitMiner.Verify.Counters
import HermitMiner.Verify.Script

/-!
# A stop is not a failure

Runs against a pool that accepts the connection and answers every request positively, over sockets
that work, but for a `select` that the stop signal interrupts.

* `Fair`, `Cooperative`: such runs.
* `Undisturbed`: those of them in which the signal interrupts no request.
* `Steady`, `Serving`: what holds in them.
* `graceful_stop_of_undisturbed`: no session of an undisturbed run fails.
-/

namespace HermitMiner

open Oracle

/-! ## Cooperative runs -/

/-- A response that the client takes as a positive one. -/
structure Positive (request line : Bytes) : Prop where
  subscribe : ∀ id userAgent, request = subscribeRequest id userAgent →
    parseErrorIsNull line = true
  authorize : ∀ id username password, request = authorizeRequest id username password →
    parseBoolResult line = some true
  submit : ∀ id username jobId nonce, request = submitRequest id username jobId nonce →
    parseBoolResult line = some true

/-- The pool accepts the connection, answers requests and announces jobs in time; lines and request
ids are within their limits; and every socket call succeeds, except that the stop signal may
interrupt a `select`. -/
def Fair (t : List Obs) : Obs → Prop
  | .unreachable | .sendFailed | .unsendable | .recvFailed | .overlong => False
  | .expired (.request _) => False
  | .expired (.job _) => .signal ∈ t
  | .selectFailed => .signal ∈ t
  | _ => True

instance (t : List Obs) (o : Obs) : Decidable (Fair t o) := by
  cases o with
  | expired deadline => cases deadline <;> unfold Fair <;> infer_instance
  | _ => unfold Fair; infer_instance

/-- A fair run in which the pool answers every request positively. -/
def Cooperative (t : List Obs) (o : Obs) : Prop :=
  Fair t o ∧ ∀ request line, o = .answered request line → Positive request line

/-- No `select` is interrupted while a request waits for its response. -/
def Undisturbed (t : List Obs) (o : Obs) : Prop :=
  o = .selectFailed → (connection t).awaiting = false

instance (t : List Obs) (o : Obs) : Decidable (Undisturbed t o) :=
  inferInstanceAs (Decidable (o = .selectFailed → _))

/-- A cooperative run in which no request is disturbed. -/
def Smooth (t : List Obs) (o : Obs) : Prop := Cooperative t o ∧ Undisturbed t o

/-- What holds of the environment as long as the run was smooth. -/
def WhileSmooth (P : Env → Prop) (e : Env) : Prop := Along Smooth e.trace → P e

section WhileSmooth

variable {P Q : Env → Prop} {e e' : Env}

theorem WhileSmooth.mono (h : WhileSmooth P e) (htrace : e'.trace = e.trace)
    (hstep : P e → Q e') : WhileSmooth Q e' := by
  intro hsmooth
  rw [htrace] at hsmooth
  exact hstep (h hsmooth)

/-- One more observation. -/
theorem WhileSmooth.concat {o : Obs} (h : WhileSmooth P e) (htrace : e'.trace = e.trace ++ [o])
    (hstep : Smooth e.trace o → P e → Q e') : WhileSmooth Q e' := by
  intro hsmooth
  rw [htrace, along_concat] at hsmooth
  exact hstep hsmooth.2 (h hsmooth.1)

/-- An observation that no smooth run makes. -/
theorem WhileSmooth.rough {o : Obs} (htrace : e'.trace = e.trace ++ [o])
    (hrough : ¬Fair e.trace o) : WhileSmooth Q e' := by
  intro hsmooth
  rw [htrace, along_concat] at hsmooth
  exact absurd hsmooth.2.1.1 hrough

end WhileSmooth

/-- A signal that has arrived is seen, and no session has failed. -/
structure Steady (e : Env) : Prop where
  heard : .signal ∈ e.trace → e.stopRequested = true
  unfailed : ∀ rc, .sessionEnded rc ∈ e.trace → rc = 0

/-- The client is connected, and `b` says whether a request waits for its response. -/
structure Serving (b : Bool) (e : Env) : Prop extends Steady e where
  connected : e.connected = true
  awaiting : e.conn.awaiting = b

/-- The stop signal has cut the connection. -/
structure Interrupted (e : Env) : Prop extends Steady e where
  stop : e.stopRequested = true
  disconnected : e.connected = false

section Steady

variable {b : Bool} {e e' : Env} {o : Obs}

theorem Steady.concat (h : Steady e) (htrace : e'.trace = e.trace ++ [o])
    (hstop : e.stopRequested = true → e'.stopRequested = true)
    (hsignal : o = .signal → e'.stopRequested = true) (hended : ∀ rc, o = .sessionEnded rc → rc = 0) :
    Steady e' := by
  constructor
  · intro hmem
    rw [htrace, List.mem_append, List.mem_singleton] at hmem
    exact hmem.elim (fun hmem => hstop (h.heard hmem)) fun ho => hsignal ho.symm
  · intro rc hmem
    rw [htrace, List.mem_append, List.mem_singleton] at hmem
    exact hmem.elim (h.unfailed rc) fun ho => hended rc ho.symm

theorem Steady.inert (h : Steady e) (htrace : e'.trace = e.trace ++ [o])
    (hstop : e'.stopRequested = e.stopRequested) (ho : o.isInert = true) (hsignal : o ≠ .signal) :
    Steady e' :=
  h.concat htrace (fun hs => hstop.trans hs) (fun h' => absurd h' hsignal) fun rc h' => by
    rw [h'] at ho
    cases ho

theorem Steady.same (h : Steady e) (htrace : e'.trace = e.trace)
    (hstop : e'.stopRequested = e.stopRequested) : Steady e' :=
  ⟨fun hmem => hstop.trans (h.heard (htrace ▸ hmem)), fun rc hmem => h.unfailed rc (htrace ▸ hmem)⟩

theorem Steady.signal (h : Steady e) : Steady e.signal :=
  h.concat rfl (fun _ => rfl) (fun _ => rfl) nofun

theorem stable_steady : Stable (WhileSmooth Steady) where
  signal h := h.concat rfl fun _ h => h.signal
  arrive _ h := h.concat rfl fun _ h => h.inert rfl rfl rfl nofun

theorem aloof_serving : Aloof (WhileSmooth (Serving b)) where
  signal h := h.concat rfl fun _ h =>
    ⟨h.toSteady.signal, h.connected, by rw [Env.conn_signal]; exact h.awaiting⟩
  arrive bytes h := h.concat rfl fun _ h =>
    ⟨h.toSteady.inert rfl rfl rfl nofun, h.connected, by rw [Env.conn_arrive]; exact h.awaiting⟩
  hashed _ _ h := h.concat rfl fun _ h =>
    ⟨h.toSteady.inert rfl rfl rfl nofun, h.connected, by rw [Env.conn_observe]; exact h.awaiting⟩
  counted _ _ h := h.concat rfl fun _ h =>
    ⟨h.toSteady.inert rfl rfl rfl nofun, h.connected, by rw [Env.conn_observe]; exact h.awaiting⟩
  addLog _ h := h.mono rfl fun h =>
    ⟨h.toSteady.same rfl rfl, h.connected, by rw [Env.conn_addLog]; exact h.awaiting⟩

theorem WhileSmooth.steady (h : WhileSmooth (Serving b) e) : WhileSmooth Steady e :=
  fun hsmooth => (h hsmooth).toSteady

/-- An observation that says nothing of the current request. -/
theorem Serving.observe (h : Serving b e) (ho : o.isInert = true) (hsignal : o ≠ .signal)
    (hstep : (e.conn.step o).awaiting = e.conn.awaiting) : Serving b (e.observe o) :=
  ⟨h.toSteady.inert rfl rfl ho hsignal, h.connected, by
    rw [Env.conn_observe, hstep]
    exact h.awaiting⟩

end Steady

theorem Connection.awaiting_receive (k : Connection) (c : UInt8) :
    (k.receive c).awaiting = k.awaiting := by
  unfold Connection.receive
  dsimp only
  split
  · rfl
  · split <;> rfl

/-! ## The client in a smooth run -/

namespace StratumClient

variable (self : StratumClient) {b : Bool} {e : Env}

theorem wp_connectToPool_smooth (h : WhileSmooth Steady e) :
    wp self.connectToPool (fun ok => WhileSmooth fun e => ok = true ∧ Serving false e)
      (WhileSmooth Steady) e := by
  have hdial : ∀ n, Keeps (WhileSmooth Steady) (dialLoop n) := by
    intro n
    induction n with
    | zero => exact .pure
    | succ n ih =>
      have hone : Keeps (WhileSmooth Steady) dial :=
        fun _ h => wp_dial stable_steady h (fun _ h => h) fun _ _ h => h
      exact hone.bind fun ok => .ite .pure ih
  refine wp_bind (wp_resolve stable_steady h (fun _ h => h) ?_)
  intro n e h
  refine wp_ite (fun _ => wp_update (wp_update (wp_pure ?_))) fun _ => ?_
  · exact WhileSmooth.rough (e := e) rfl id
  refine wp_call (hdial n e h) ?_ fun _ h => h
  intro ok e h
  refine wp_ite (fun _ => wp_update (wp_update (wp_pure ?_))) fun _ =>
    wp_update (wp_update (wp_pure ?_))
  · refine h.concat rfl fun _ h => ⟨rfl, h.inert rfl rfl rfl nofun, rfl, ?_⟩
    rw [Env.conn_addLog, Env.conn_connect]
  · exact WhileSmooth.rough (e := e) rfl id

theorem wp_sendLine_smooth {line : Bytes} (h : WhileSmooth (Serving b) e) :
    wp (self.sendLine line) (fun ok => WhileSmooth fun e => ok = true ∧ Serving true e)
      (WhileSmooth Steady) e := by
  refine wp_read (wp_ite (fun hdown => wp_pure ?_) fun _ => ?_)
  · intro hsmooth
    rw [(h hsmooth).connected] at hdown
    cases hdown
  refine wp_ite (fun _ => wp_update (wp_update (wp_update (wp_pure ?_)))) fun _ => ?_
  · exact WhileSmooth.rough (e := e) rfl id
  refine wp_loop (I := fun _ => WhileSmooth (Serving b)) h ?_ fun _ _ h => h.steady
  intro left e h
  refine wp_ite (fun _ => wp_update (wp_leave ?_)) fun _ => ?_
  · refine h.concat rfl fun _ h => ⟨rfl, h.toSteady.inert rfl rfl rfl nofun, h.connected, ?_⟩
    rw [Env.conn_observe]
    rfl
  refine wp_bind (wp_send aloof_serving.toStable h (fun _ h => h.steady) ?_ ?_)
  · intro e h
    refine wp_ite (fun _ => wp_update (wp_leave ?_)) fun h0 => absurd rfl h0
    exact WhileSmooth.rough (e := e) rfl id
  · intro n e h hn _
    refine wp_ite (fun h0 => absurd h0 (by omega)) fun _ => wp_again ?_
    exact h.concat rfl fun _ h => h.observe rfl nofun rfl

/-- `receive_line` fails for good only when the stop signal interrupts it, and not in a request. -/
theorem wp_receiveLine_smooth {timeoutSec : UInt32} (h : WhileSmooth (Serving b) e) :
    wp (self.receiveLine timeoutSec)
      (fun r => WhileSmooth fun e => Serving b e ∨
        (r = none ∧ b = false ∧ Interrupted e))
      (WhileSmooth Steady) e := by
  refine wp_read (wp_ite (fun _ => wp_pure fun hsmooth => Or.inl (h hsmooth)) fun _ => ?_)
  refine wp_loop (I := fun _ => WhileSmooth (Serving b)) h ?_ fun _ _ h => h.steady
  intro outLine e h
  refine wp_bind (wp_tick aloof_serving.toStable h (fun _ h => h.steady) ?_
    fun e h => wp_leave (h.concat rfl fun _ h => Or.inl (h.observe rfl nofun rfl)))
  intro e h
  refine wp_bind (wp_select aloof_serving.toStable h (fun _ h => h.steady) ?_
    (fun e h => wp_again h) ?_)
  · intro e h
    refine wp_update (wp_leave (h.concat rfl fun hsmooth h => Or.inr ⟨rfl, ?_, ?_, ?_, rfl⟩))
    · exact h.awaiting.symm.trans (hsmooth.2 rfl)
    · exact h.toSteady.inert rfl rfl rfl nofun
    · exact h.heard hsmooth.1.1
  intro e h
  refine wp_bind (wp_recv aloof_serving.toStable h (fun _ h => h.steady) ?_ ?_)
  · intro e h
    exact wp_update (wp_leave (WhileSmooth.rough (e := e) rfl id))
  intro c rest e h _
  have hpop : WhileSmooth (Serving b) (e.pop c rest) := by
    refine h.concat rfl fun _ h => ⟨h.toSteady.inert rfl rfl rfl nofun, h.connected, ?_⟩
    rw [Env.conn_pop, Connection.awaiting_receive]
    exact h.awaiting
  refine wp_ite (fun _ => wp_update (wp_leave ?_)) fun _ =>
    wp_ite (fun _ => wp_again hpop) fun _ => wp_ite (fun _ => ?_) fun _ => wp_again hpop
  · exact hpop.concat rfl fun _ h => Or.inl (h.observe rfl nofun rfl)
  · exact wp_update (wp_update (wp_update
      (wp_leave (WhileSmooth.rough (e := e.pop c rest) rfl id))))

/-- A request is answered, and positively. -/
theorem wp_requestResponse_smooth {request : Bytes} {timeoutSec : UInt32}
    (h : WhileSmooth (Serving b) e) :
    wp (self.requestResponse request timeoutSec)
      (fun r => WhileSmooth fun e => Serving false e ∧ ∃ line, r = some line ∧ Positive request line)
      (WhileSmooth Steady) e := by
  unfold requestResponse
  cases parseMessageId request with
  | none => exact wp_update (wp_pure (WhileSmooth.rough (e := e) rfl id))
  | some requestId =>
    refine wp_call (wp_sendLine_smooth self h) ?_ fun _ h => h
    intro ok e h
    refine wp_ite ?_ fun hok => wp_pure fun hsmooth => absurd (h hsmooth).1 hok
    intro hok
    have hsent : WhileSmooth (Serving true) e := fun hsmooth => (h hsmooth).2
    refine wp_loop (I := fun _ => WhileSmooth (Serving true)) hsent ?_ fun _ _ h => h.steady
    intro _ e h
    refine wp_bind (wp_tick aloof_serving.toStable h (fun _ h => h.steady) ?_
      fun e h => wp_leave (WhileSmooth.rough (e := e) rfl id))
    intro e h
    refine wp_call (wp_receiveLine_smooth self h) ?_ fun _ h => h
    intro r e h
    have hserving : WhileSmooth (Serving true) e :=
      fun hsmooth => (h hsmooth).resolve_right fun hcut => by simp at hcut
    cases r with
    | none =>
      refine wp_read (wp_ite (fun hdown => wp_leave ?_) fun _ => wp_again hserving)
      intro hsmooth
      rw [(hserving hsmooth).connected] at hdown
      cases hdown
    | some line =>
      refine wp_ite (fun _ => wp_update (wp_leave ?_)) fun _ => ?_
      · refine hserving.concat rfl fun hsmooth h => ⟨⟨h.toSteady.inert rfl rfl rfl nofun, h.connected,
          ?_⟩, line, rfl, hsmooth.1.2 _ _ rfl⟩
        rw [Env.conn_observe]
        rfl
      · cases parseNotify line with
        | none => exact wp_again hserving
        | some job => exact wp_update (wp_again (aloof_serving.addLog _ hserving))

/-- A request with the next id. -/
theorem wp_request_smooth {α : Type} {makeRequest : Nat → Bytes} {timeoutSec : UInt32}
    {next : Nat → Option Bytes → Sys α} {Q : α → Env → Prop} (h : WhileSmooth (Serving false) e)
    (hnone : ∀ id e, WhileSmooth (fun _ => False) e → wp (next id none) Q (WhileSmooth Steady) e)
    (hsome : ∀ id line e,
      WhileSmooth (fun e => Positive (makeRequest id) line ∧ Serving false e) e →
        wp (next id (some line)) Q (WhileSmooth Steady) e) :
    wp (do
      let id ← takeId
      let response ← self.requestResponse (makeRequest id) timeoutSec
      next id response) Q (WhileSmooth Steady) e := by
  have hid : WhileSmooth (Serving false) e.takeId :=
    h.mono rfl fun h => ⟨h.toSteady.same rfl rfl, h.connected, h.awaiting⟩
  refine wp_bind (wp_read (wp_update (wp_pure ?_)))
  refine wp_call (wp_requestResponse_smooth self hid) ?_ fun _ h => h
  intro r e h
  cases r with
  | none => exact hnone _ e (h.mono rfl fun h => by simp at h)
  | some line =>
    refine hsome _ line e (h.mono rfl ?_)
    intro h
    obtain ⟨hserving, line', hline, hpositive⟩ := h
    cases hline
    exact ⟨hpositive, hserving⟩

theorem wp_subscribe_smooth {userAgent : Bytes} (h : WhileSmooth (Serving false) e) :
    wp (self.subscribe userAgent) (fun ok => WhileSmooth fun e => ok = true ∧ Serving false e)
      (WhileSmooth Steady) e := by
  refine wp_request_smooth self h ?_ ?_
  · intro id e h
    exact wp_update (wp_pure (h.mono rfl False.elim))
  · intro id line e h
    refine wp_ite (fun herror => wp_update (wp_pure ?_)) fun _ => wp_update (wp_pure ?_)
    · refine h.mono rfl ?_
      intro h
      rw [h.1.subscribe _ _ rfl] at herror
      cases herror
    · exact fun hsmooth => ⟨rfl, aloof_serving.addLog _ (fun hsmooth => (h hsmooth).2) hsmooth⟩

theorem wp_authorize_smooth {username password : Bytes} (h : WhileSmooth (Serving false) e) :
    wp (self.authorize username password)
      (fun ok => WhileSmooth fun e => ok = true ∧ Serving false e) (WhileSmooth Steady) e := by
  refine wp_request_smooth self h ?_ ?_
  · intro id e h
    exact wp_update (wp_pure (h.mono rfl False.elim))
  · intro id line e h
    refine wp_ite (fun _ => wp_update (wp_pure ?_)) fun hresult => wp_update (wp_pure ?_)
    · exact fun hsmooth => ⟨rfl, aloof_serving.addLog _ (fun hsmooth => (h hsmooth).2) hsmooth⟩
    · exact h.mono rfl fun h => absurd (h.1.authorize _ _ _ rfl) hresult

theorem wp_submitShare_smooth {username jobId : Bytes} {nonce : UInt32}
    (h : WhileSmooth (Serving false) e) :
    wp (self.submitShare username jobId nonce)
      (fun ok => WhileSmooth fun e => ok = true ∧ Serving false e) (WhileSmooth Steady) e := by
  refine wp_request_smooth self h ?_ ?_
  · intro id e h
    exact wp_update (wp_pure (h.mono rfl False.elim))
  · intro id line e h
    dsimp only
    cases hresult : parseBoolResult line with
    | none =>
      refine wp_update (wp_pure (h.mono rfl ?_))
      intro h
      have hpositive := h.1.submit _ _ _ _ rfl
      rw [hresult] at hpositive
      cases hpositive
    | some ok =>
      cases ok with
      | true =>
        refine wp_update (wp_update (wp_pure ?_))
        refine h.concat (o := .accepted id jobId nonce) rfl fun _ h => ⟨rfl, ?_, h.2.connected, ?_⟩
        · exact h.2.toSteady.concat rfl (fun hstop => hstop) nofun nofun
        · rw [Env.conn_addLog, Env.conn_observe]
          exact h.2.awaiting
      | false =>
        refine wp_update (wp_pure (h.mono rfl ?_))
        intro h
        have hpositive := h.1.submit _ _ _ _ rfl
        rw [hresult] at hpositive
        cases hpositive

theorem wp_waitForJob_smooth {timeoutSec : UInt32} (h : WhileSmooth (Serving false) e) :
    wp (self.waitForJob timeoutSec)
      (fun r => WhileSmooth fun e =>
        r.elim (Steady e ∧ e.stopRequested = true) fun _ => Serving false e)
      (WhileSmooth Steady) e := by
  refine wp_loop (I := fun _ => WhileSmooth (Serving false)) h ?_ fun _ _ h => h.steady
  intro _ e h
  refine wp_bind (wp_tick aloof_serving.toStable h (fun _ h => h.steady) (fun e h => ?_)
    fun e h => wp_update (wp_leave ?_))
  case refine_2 =>
    exact h.concat rfl fun hsmooth h =>
      ⟨h.toSteady.inert rfl rfl rfl nofun, h.heard hsmooth.1.1⟩
  refine wp_bind (wp_loadStop aloof_serving.toStable h (fun _ h => h.steady) ?_)
  intro e h
  refine wp_ite (fun hstop => wp_update (wp_leave ?_)) fun _ => ?_
  · exact h.mono rfl fun h => ⟨h.toSteady.same rfl rfl, hstop⟩
  refine wp_call (wp_receiveLine_smooth self h) ?_ fun _ h => h
  intro r e h
  cases r with
  | none =>
    refine wp_read (wp_ite (fun hdown => wp_update (wp_leave ?_)) fun hup => wp_again ?_)
    · refine h.mono rfl ?_
      intro h
      rcases h with h | ⟨-, -, h⟩
      · rw [h.connected] at hdown
        cases hdown
      · exact ⟨h.toSteady.same rfl rfl, h.stop⟩
    · intro hsmooth
      rcases h hsmooth with h | ⟨-, -, h⟩
      · exact h
      · rw [h.disconnected] at hup
        exact absurd rfl hup
  | some line =>
    have hserving : WhileSmooth (Serving false) e :=
      fun hsmooth => (h hsmooth).resolve_right fun hcut => by simp at hcut
    dsimp only
    cases parseNotify line with
    | none => exact wp_again hserving
    | some job =>
      refine wp_update (wp_update (wp_leave ?_))
      refine WhileSmooth.concat hserving (o := .delivered job) rfl ?_
      intro _ h
      exact ⟨h.toSteady.inert rfl rfl rfl nofun, h.connected, by
        rw [Env.conn_addLog, Env.conn_observe]
        exact h.awaiting⟩

end StratumClient

/-! ## Sessions of a smooth run -/

theorem bystander_steady : Bystander (WhileSmooth Steady) where
  toStable := stable_steady
  report {_ o} ho h := h.concat rfl fun _ h => h.concat rfl (fun hstop => hstop)
    (fun hsignal => by rw [hsignal] at ho; cases ho) fun rc hended => by rw [hended] at ho; cases ho
  addLog _ h := h.mono rfl fun h => h.same rfl rfl

theorem bystander_serving {b : Bool} : Bystander (WhileSmooth (Serving b)) where
  toStable := aloof_serving.toStable
  report {_ o} ho h := by
    have hsignal : o ≠ .signal := fun hsignal => by rw [hsignal] at ho; cases ho
    refine h.concat rfl fun _ h => ⟨h.toSteady.concat rfl (fun hstop => hstop)
      (fun ho' => absurd ho' hsignal) (fun rc hended => by rw [hended] at ho; cases ho),
      h.connected, ?_⟩
    rw [Env.conn_observe, Connection.step_of_isAside (Obs.isAside_of_isReport ho)]
    exact h.awaiting
  addLog := aloof_serving.addLog

section Session

variable {cfg : MinerConfig} {client : StratumClient} {w : Miner}

theorem wp_startStratumSession_smooth (h : WhileSmooth Steady w.env) :
    wp (startStratumSession cfg client)
      (fun ok w => WhileSmooth (fun e => ok = true ∧ Serving false e) w.env)
      (fun w => WhileSmooth Steady w.env) w := by
  refine wp_callEnv (client.wp_connectToPool_smooth h) ?_ fun _ h => h
  intro ok e h
  refine wp_ite (fun _ => ?_) fun hok => wp_pure fun hsmooth => absurd (h hsmooth).1 hok
  refine wp_callEnv (client.wp_subscribe_smooth fun hsmooth => (h hsmooth).2) ?_ fun _ h => h
  intro ok e h
  refine wp_ite (fun _ => ?_) fun hok => wp_pure fun hsmooth => absurd (h hsmooth).1 hok
  refine wp_callEnv (client.wp_authorize_smooth fun hsmooth => (h hsmooth).2) ?_ fun _ h => h
  intro ok e h
  refine wp_ite (fun _ => ?_) fun hok => wp_pure fun hsmooth => absurd (h hsmooth).1 hok
  exact wp_updateEnv (wp_pure fun hsmooth =>
    ⟨rfl, bystander_serving.addLog _ (fun hsmooth => (h hsmooth).2) hsmooth⟩)

/-- A round of a session in a smooth run. -/
def RoundSmooth (r : Unit ⊕ Int) (w : Miner) : Prop :=
  WhileSmooth (fun e => r.elim (fun _ => Serving false e) fun rc => rc = 0 ∧ Steady e) w.env

theorem wp_submitFound_smooth {jobId : Bytes} {nonce : UInt32}
    (h : WhileSmooth (Serving false) w.env) :
    wp (submitFound cfg client jobId nonce) RoundSmooth (fun w => WhileSmooth Steady w.env) w := by
  refine wp_update (wp_callEnv (client.wp_submitShare_smooth h) ?_ fun _ h => h)
  intro ok e h
  have hserving : WhileSmooth (Serving false) e := fun hsmooth => (h hsmooth).2
  refine wp_ite (fun _ => ?_) ?_
  · refine wp_update (wp_update ?_)
    refine wp_call (keeps_maybeWriteHealthSnapshotIncremental bystander_serving cfg _ hserving)
      (fun _ w h => wp_updateEnv (wp_pure ?_)) fun _ h => h.steady
    exact bystander_serving.addLog _ h
  · intro hok
    exact wp_update (wp_updateEnv (wp_pure (h.mono rfl fun h => absurd h.1 hok)))

theorem wp_sessionRound_smooth (h : WhileSmooth (Serving false) w.env) :
    wp (sessionRound cfg client ()) RoundSmooth (fun w => WhileSmooth Steady w.env) w := by
  refine wp_call (keeps_loadStopAside bystander_serving w h) ?_ fun _ h => h.steady
  intro stop w h
  refine wp_read (wp_ite (fun _ => ?_) fun _ => ?_)
  · refine wp_callEnv (client.wp_waitForJob_smooth h) ?_ fun _ h => h
    intro job e h
    cases job with
    | none =>
      refine wp_bind (wp_onEnv (wp_loadStop (I := WhileSmooth fun e =>
        Steady e ∧ e.stopRequested = true) ?_ h (fun _ h hsmooth => (h hsmooth).1) ?_))
      · exact ⟨fun h => h.concat rfl fun _ h => ⟨h.1.signal, rfl⟩,
          fun _ h => h.concat rfl fun _ h => ⟨h.1.inert rfl rfl rfl nofun, h.2⟩⟩
      · intro e h
        refine wp_ite (fun _ => wp_pure fun hsmooth => ⟨rfl, (h hsmooth).1⟩) ?_
        intro hstop
        exact wp_updateEnv (wp_pure (h.mono rfl fun h => absurd h.2 hstop))
    | some job =>
      refine wp_update (wp_updateEnv ?_)
      refine wp_callEnv (keeps_mineWith aloof_serving doubleSha256 _ _ (aloof_serving.addLog _ h))
        ?_ fun e h => h.steady
      intro result e h
      refine wp_ite (fun _ => wp_pure fun hsmooth => ⟨rfl, (h hsmooth).toSteady⟩) fun _ =>
        wp_ite (fun _ => ?_) fun _ => wp_submitFound_smooth h
      exact wp_updateEnv (wp_pure (aloof_serving.addLog _ h))
  · exact wp_updateEnv (wp_pure (h.mono rfl fun h => ⟨rfl, h.toSteady.same rfl rfl⟩))

/-- **No session of a smooth run fails.** -/
theorem wp_runStratumSession_smooth (h : WhileSmooth Steady w.env) :
    wp (runStratumSession cfg) (fun rc w => WhileSmooth (fun e => rc = 0 ∧ Steady e) w.env)
      (fun w => WhileSmooth Steady w.env) w := by
  have hnew : WhileSmooth Steady (w.setEnv w.env.newClient).env :=
    h.mono rfl fun h => h.same rfl rfl
  refine wp_updateEnv (wp_call (wp_startStratumSession_smooth hnew) ?_ fun _ h => h)
  intro ok w h
  refine wp_ite (fun _ => ?_) fun hok => wp_pure fun hsmooth => absurd (h hsmooth).1 hok
  refine wp_loop (I := fun _ w => WhileSmooth (Serving false) w.env) (fun hsmooth => (h hsmooth).2)
    ?_ fun _ w h => h.steady
  intro _ w h
  refine wp_mono (wp_sessionRound_smooth h) ?_ fun _ h => h
  intro r w h
  cases r with
  | inl _ => exact h
  | inr rc => exact h

end Session

/-- In every state of every smooth run, no session has failed. -/
theorem keeps_runStratumLoop_steady (cfg : MinerConfig) :
    Keeps (fun w => WhileSmooth Steady w.env) (runStratumLoop cfg) := by
  refine (Keeps.loop ?_ _).bind fun rc => (keeps_shutdown bystander_steady cfg).bind fun _ => .pure
  intro backoffSec w h
  refine wp_call (keeps_loadStopAside bystander_steady w h) ?_ fun _ h => h
  intro stop w h
  refine wp_read (wp_ite (fun _ => ?_) fun _ => wp_pure h)
  refine wp_updateEnv (wp_call
    (wp_runStratumSession_smooth (bystander_steady.report rfl h)) ?_ fun _ h => h)
  intro rc w h
  have hended : WhileSmooth Steady (w.env.observe (.sessionEnded rc)) :=
    h.concat rfl fun _ h => h.2.concat rfl (fun hstop => hstop) nofun fun rc' hrc' => by
      cases hrc'
      exact h.1
  exact wp_updateEnv (wp_ite (fun _ => wp_pure hended) fun _ =>
    keeps_sessionFailed bystander_steady cfg backoffSec rc _ hended)

/-! ## A graceful stop -/

/-- A response that is positive to any request. -/
def Obs.isPositive : Obs → Bool
  | .answered _ line => parseErrorIsNull line && decide (parseBoolResult line = some true)
  | _ => true

/-- The counters shown have no failures. -/
def ShowsNoFailure (_ : List Obs) : Obs → Prop
  | .snapshot stats _ _ | .summary stats _ => stats.submitFailures = 0 ∧ stats.sessionFailures = 0
  | _ => True

/-- The run returned 0, and its summary has no failures. -/
def EndsWell (rc : Int) (w : Miner) : Prop :=
  rc = 0 ∧ ∃ stats, (sessions w.env.trace).summary = some stats ∧ stats.submitFailures = 0 ∧
    stats.sessionFailures = 0

theorem failures_eq_nil {t : List Obs} (h : ∀ rc, .sessionEnded rc ∈ t → rc = 0) :
    (sessions t).failures = [] := by
  induction t using List.reverseRecOn with
  | nil => rfl
  | append_singleton t o ih =>
    have ht := ih fun rc hmem => h rc (List.mem_append_left _ hmem)
    rw [sessions_concat]
    cases o with
    | sessionEnded rc =>
      have hrc : rc = 0 := h rc (List.mem_append_right _ List.mem_cons_self)
      simp [Sessions.step, hrc, ht]
    | _ => exact ht

theorem Tallied.noFailure {cfg : MinerConfig} {s : Sessions} {stats : SessionStats} {c : UInt32}
    (h : Tallied cfg 0 s stats c) (hnone : s.failures = []) :
    stats.submitFailures = 0 ∧ stats.sessionFailures = 0 := by
  have hsessions : stats.sessionFailures = 0 := by rw [h.failures, hnone, List.length_nil]
  have hsubmits := h.submitFailures
  omega

/-- **A graceful stop is not a failure**: wherever the stop signal reaches a cooperative run, if it
interrupts no request the run returns 0, and no summary or snapshot shows a failure. -/
theorem graceful_stop_of_undisturbed (cfg : MinerConfig) (events : List Event)
    (hcooperative : Along Cooperative ((runStratumLoop cfg).run {} events).state.env.trace)
    (hundisturbed : Along Undisturbed ((runStratumLoop cfg).run {} events).state.env.trace) :
    (∀ rc w rest, (runStratumLoop cfg).run {} events = .done rc w rest → EndsWell rc w) ∧
      Along ShowsNoFailure ((runStratumLoop cfg).run {} events).state.env.trace := by
  have hinit : WhileSmooth Steady ({} : Miner).env := fun _ => ⟨nofun, nofun⟩
  have hsteady := (keeps_runStratumLoop_steady cfg {} hinit).state events
    (hcooperative.and hundisturbed)
  constructor
  · intro rc w rest hrun
    rw [hrun] at hsteady
    have hend := (wp_runStratumLoop cfg).done hrun
    have hnone : (sessions w.env.trace).failures = [] := failures_eq_nil hsteady.unfailed
    refine ⟨?_, _, hend.summary, hend.tallied.noFailure hnone⟩
    by_contra hrc
    obtain ⟨-, -, hlast, -⟩ := hend.toLoopEnd.honest.failure hrc
    rw [hnone] at hlast
    cases hlast
  · intro before o after htrace
    have hdisciplined := run_disciplined cfg events before o after htrace
    have hnone : (sessions before).failures = [] := failures_eq_nil fun rc hmem =>
      hsteady.unfailed rc (by rw [htrace]; exact List.mem_append_left _ hmem)
    cases o with
    | snapshot stats cyclesDone text => exact Tallied.noFailure hdisciplined hnone
    | summary stats cyclesDone => exact Tallied.noFailure hdisciplined hnone
    | _ => trivial

theorem along_cooperative {t : List Obs} (hfair : Along Fair t)
    (hanswered : ∀ o ∈ t, o.isPositive = true) : Along Cooperative t := by
  intro before o after ht
  refine ⟨hfair before o after ht, ?_⟩
  intro request line ho
  have hline := hanswered o (by rw [ht]; exact List.mem_append_right _ List.mem_cons_self)
  rw [ho, Obs.isPositive, Bool.and_eq_true, decide_eq_true_eq] at hline
  exact ⟨fun _ _ _ => hline.1, fun _ _ _ _ => hline.2, fun _ _ _ _ _ => hline.2⟩

/-- The signal interrupts the wait for the response to subscribe. -/
def stopScript : List Event :=
  [.load, .resolve 1, .dial true, .send ((subscribeRequest 1 userAgent).length + 1), .tick false,
    .tick false, .signal, .select .failed, .load, .clock 0 []]

theorem value_stopScript : ((runStratumLoop scriptConfig).run {} stopScript).value = some 0 := by
  decide +kernel

/-- A stop is counted as a failed session. -/
theorem graceful_stop_failed :
    ¬∀ cfg events rc w rest, validateConfig cfg = .ok () →
      (runStratumLoop cfg).run {} events = .done rc w rest →
      Along Cooperative w.env.trace → EndsWell rc w := by
  intro h
  have hfair : Along Fair ((runStratumLoop scriptConfig).run {} stopScript).state.env.trace := by
    decide +kernel
  obtain ⟨-, stats, hsummary, -, hnone⟩ := h scriptConfig stopScript 0 _ _
    validateConfig_scriptConfig (Outcome.eq_done_of_value value_stopScript)
    (along_cooperative hfair (by decide +kernel))
  have hcount : (sessions ((runStratumLoop scriptConfig).run {}
      stopScript).state.env.trace).summary.map SessionStats.sessionFailures = some 1 := by
    decide +kernel
  rw [hsummary, Option.map_some, hnone] at hcount
  cases hcount

/-- The signal interrupts the wait for a job, after an accepted share. -/
def gracefulScript : List Event :=
  [.load] ++ startScript scriptConfig ++ cycleScript scriptConfig 3
    ++ [.load, .tick false, .load, .tick false, .signal, .select .failed, .load, .load, .clock 0 []]

/-- The run returns 0, and is smooth. -/
theorem smooth_gracefulScript :
    ((runStratumLoop scriptConfig).run {} gracefulScript).value = some 0 ∧
      Along (fun t o => Fair t o ∧ Undisturbed t o)
        ((runStratumLoop scriptConfig).run {} gracefulScript).state.env.trace ∧
      ∀ o ∈ ((runStratumLoop scriptConfig).run {} gracefulScript).state.env.trace,
        o.isPositive = true := by
  decide +kernel

theorem graceful_stop_of_undisturbed_script :
    EndsWell 0 ((runStratumLoop scriptConfig).run {} gracefulScript).state ∧
      Along ShowsNoFailure ((runStratumLoop scriptConfig).run {} gracefulScript).state.env.trace := by
  obtain ⟨hvalue, hsmooth, hpositive⟩ := smooth_gracefulScript
  have hfair := hsmooth.mono fun _ _ h => h.1
  obtain ⟨hend, hshows⟩ := graceful_stop_of_undisturbed scriptConfig gracefulScript
    (along_cooperative hfair hpositive) (hsmooth.mono fun _ _ h => h.2)
  exact ⟨hend 0 _ _ (Outcome.eq_done_of_value hvalue), hshows⟩

end HermitMiner
