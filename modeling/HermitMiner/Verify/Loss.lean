import HermitMiner.Verify.Wire

/-!
# The loss of a connection

A connection that is lost stays lost: the client writes and reads nothing more, its calls return
false, and a session that lost it returns.

* `Submitted`, `InSession`: what a session has written between two of its calls.
* `freezes_runStratumSession`, `exits_runStratumSession`: what happens to a session that lost its
  connection.
* `connection_loss_final`: the same for a session and for any calls of a client.
-/

namespace HermitMiner

open Oracle StratumClient

/-! ## A session -/

/-- What the history says of the traffic, and the flag, decide `I`. -/
theorem bystander_of_traffic {I : Env → Prop} (h : ∀ e e' : Env, e'.connected = e.connected →
    traffic e'.trace = traffic e.trace → I e → I e') : Bystander I where
  signal := h _ _ rfl (traffic_concat rfl _)
  arrive _ := h _ _ rfl (traffic_concat rfl _)
  report ho := h _ _ rfl (traffic_concat (Obs.isTraffic_of_isReport ho) _)
  addLog _ := h _ _ rfl rfl

/-- The calls of a session that has found shares, each with the id of its job and a nonce. -/
def sessionCalls (cfg : MinerConfig) (shares : List (Bytes × UInt32)) : List Call :=
  [.request (.subscribe userAgent), .request (.authorize (poolUsername cfg) cfg.poolPassword)] ++
    shares.map fun share => .request (.submit (poolUsername cfg) share.1 share.2)

/-- The lines of their requests. -/
def sessionLines (cfg : MinerConfig) (shares : List (Bytes × UInt32)) : List Bytes :=
  requestLines 1 (sessionCalls cfg shares)

/-- The client lost a connection, after `k` others. -/
def Lost (k : Nat) (e : Env) : Prop := e.connected = false ∧ k < connects e.trace

section Session

variable {cfg : MinerConfig} {e : Env} {shares : List (Bytes × UInt32)}

theorem length_requestLines_requests (n : Nat) (requests : List Request) :
    (requestLines n (requests.map .request)).length = requests.length := by
  induction requests generalizing n with
  | nil => rfl
  | cons r requests ih => simp [requestLines, Call.lines, ih]

theorem sessionLines_concat (share : Bytes × UInt32) :
    sessionLines cfg (shares ++ [share]) = sessionLines cfg shares ++
      [Request.line (shares.length + 3) (.submit (poolUsername cfg) share.1 share.2)] := by
  have hlength : (sessionLines cfg shares).length = shares.length + 2 := by
    have h := length_requestLines_requests 1
      ([.subscribe userAgent, .authorize (poolUsername cfg) cfg.poolPassword] ++
        shares.map fun share => .submit (poolUsername cfg) share.1 share.2)
    simp [Function.comp_def] at h
    simp [sessionLines, sessionCalls, h]
  have hcalls : sessionCalls cfg (shares ++ [share]) = sessionCalls cfg shares ++
      [.request (.submit (poolUsername cfg) share.1 share.2)] := by
    simp [sessionCalls]
  rw [sessionLines, hcalls, requestLines_append, ← sessionLines, hlength]
  simp [requestLines, Call.lines, Nat.add_comm 1]

/-- The session has submitted `shares`. -/
def Submitted (cfg : MinerConfig) (shares : List (Bytes × UInt32)) (e : Env) : Prop :=
  Wired (sessionLines cfg shares) e ∧ e.nextId = shares.length + 3

theorem unmoved_submitted : Unmoved (Submitted cfg shares) where
  signal h := ⟨(unmoved_wired _).signal h.1, h.2⟩
  arrive bytes h := ⟨(unmoved_wired _).arrive bytes h.1, h.2⟩
  observe o ho h := ⟨(unmoved_wired _).observe o ho h.1, h.2⟩
  disconnect h := ⟨(unmoved_wired _).disconnect h.1, h.2⟩
  addLog entry h := ⟨(unmoved_wired _).addLog entry h.1, h.2⟩

/-- What the session wrote is the lines of its requests, up to some byte. -/
def Submitting (cfg : MinerConfig) (e : Env) : Prop :=
  ∃ shares, written e.trace <+: wire (sessionLines cfg shares)

/-- Between two calls of the session. -/
def InSession (cfg : MinerConfig) (w : Miner) : Prop :=
  ∃ shares, Submitted cfg shares w.env ∧ Up w.env

/-- In one of them. -/
def Underway (cfg : MinerConfig) (w : Miner) : Prop := Submitting cfg w.env ∧ Up w.env

theorem Submitted.submitting (h : Submitted cfg shares e) : Submitting cfg e :=
  ⟨shares, h.1.within⟩

theorem InSession.underway {w : Miner} (h : InSession cfg w) : Underway cfg w := by
  obtain ⟨shares, h, hup⟩ := h
  exact ⟨h.submitting, hup⟩

/-- A round that goes on is between two calls; one that ends the session may have lost the
connection. -/
def RoundWired (cfg : MinerConfig) (r : Unit ⊕ Int) (w : Miner) : Prop :=
  Sum.elim (fun _ => InSession cfg w) (fun _ => Submitting cfg w.env) r

variable {client : StratumClient} {w : Miner}

theorem wp_submitFound_wired {jobId : Bytes} {nonce : UInt32} (h : InSession cfg w) :
    wp (submitFound cfg client jobId nonce) (RoundWired cfg) (Underway cfg) w := by
  obtain ⟨shares, h, hup⟩ := h
  have hlines := @sessionLines_concat cfg shares (jobId, nonce)
  refine wp_update (wp_callEnv (wp_call_up client (.request (.submit _ jobId nonce)) h.1 h.2 hup)
    ?_ ?_)
  · intro ok e h'
    rw [Call.lines, ← hlines] at h'
    have hsubmitted : Submitted cfg (shares ++ [(jobId, nonce)]) e :=
      ⟨h'.1, by simpa [Call.lines, Nat.add_right_comm] using h'.2.1⟩
    refine wp_ite (fun hok => wp_update (wp_update ?_)) fun _ =>
      wp_update (wp_updateEnv (wp_pure ?_))
    · have hin := bystander_up (@unmoved_submitted cfg (shares ++ [(jobId, nonce)]))
      refine wp_call (keeps_maybeWriteHealthSnapshotIncremental hin cfg _
        ⟨hsubmitted, h'.2.2 hok⟩) ?_ fun w h => InSession.underway ⟨_, h⟩
      intro _ w h
      exact wp_updateEnv (wp_pure ⟨_, hin.addLog _ h⟩)
    · exact hsubmitted.submitting
  · intro e h'
    rw [Call.lines, ← hlines] at h'
    exact ⟨⟨_, h'.1⟩, h'.2⟩

theorem wp_mineJob_wired {job : StratumJob} (h : InSession cfg w) :
    wp (mineJob cfg client job) (RoundWired cfg) (Underway cfg) w := by
  obtain ⟨shares, h⟩ := h
  have hin := aloof_up (@unmoved_submitted cfg shares)
  refine wp_update (wp_updateEnv ?_)
  refine wp_callEnv (keeps_mineWith hin doubleSha256 _ _ (hin.addLog _ h)) ?_
    fun e h => InSession.underway ⟨_, h⟩
  intro result e h
  refine wp_ite (fun _ => wp_pure h.1.submitting) fun _ => wp_ite (fun _ => ?_) fun _ =>
    wp_submitFound_wired ⟨shares, h⟩
  exact wp_updateEnv (wp_pure ⟨shares, hin.addLog _ h⟩)

/-- The job that `wait_for_job` returns, if the connection is not lost. -/
def Waited (cfg : MinerConfig) (job : Option StratumJob) (w : Miner) : Prop :=
  if job.isSome then InSession cfg w else Submitting cfg w.env

theorem wp_waitForJob_wired {timeoutSec : UInt32} (h : InSession cfg w) :
    wp (onEnv (client.waitForJob timeoutSec)) (Waited cfg) (Underway cfg) w := by
  obtain ⟨shares, h, hup⟩ := h
  refine wp_onEnv (wp_mono (wp_waitForJob_up (@unmoved_submitted cfg shares)
    (fun c rest h => ⟨h.1.pop c rest, h.2⟩) client h hup) ?_ ?_)
  · intro job e h
    cases job with
    | none => exact h.1.submitting
    | some job => exact ⟨shares, h.1, h.2 rfl⟩
  · exact fun e h => InSession.underway ⟨shares, h⟩

theorem keeps_loadStop_inSession : Keeps (InSession cfg) (onEnv loadStop) := by
  rintro w ⟨shares, h⟩
  refine wp_mono (keeps_loadStopAside (bystander_up unmoved_submitted) w h) ?_ ?_
  · exact fun _ w h => ⟨shares, h⟩
  · exact fun w h => ⟨shares, h⟩

theorem wp_sessionRound_wired (h : InSession cfg w) : wp (sessionRound cfg client ())
    (RoundWired cfg) (fun w => Submitting cfg w.env) w := by
  have hbystander : Bystander (Submitting cfg) := by
    refine bystander_of_traffic fun e e' _ htraffic ⟨shares, h⟩ => ⟨shares, ?_⟩
    rw [← written_traffic, htraffic, written_traffic]
    exact h
  refine wp_call (keeps_loadStop_inSession w h) ?_ fun _ h => h.underway.1
  intro stop w h
  refine wp_read (wp_ite (fun _ => ?_) fun _ => ?_)
  · refine wp_call (wp_waitForJob_wired h) ?_ fun _ h => h.1
    intro job w h
    cases job with
    | none =>
      refine wp_call (keeps_loadStopAside hbystander w h) ?_ fun _ h => h
      intro stop w h
      exact wp_ite (fun _ => wp_pure h) fun _ => wp_updateEnv (wp_pure h)
    | some job => exact wp_mono (wp_mineJob_wired h) (fun _ _ h => h) fun _ h => h.1
  · exact wp_updateEnv (wp_pure h.underway.1)

/-! ## The loss of the connection ends a session -/

theorem Lost.same {k : Nat} {e e' : Env} (hconnected : e'.connected = e.connected)
    (htraffic : traffic e'.trace = traffic e.trace) : Lost k e' ↔ Lost k e := by
  rw [Lost, Lost, hconnected, ← connects_traffic e'.trace, htraffic, connects_traffic]

/-- Once a session has lost its connection, no byte is moved. -/
abbrev SessionFreezes (k : Nat) {α : Type} (m : App α) (w : Miner) : Prop :=
  Freezes (fun w => Lost k w.env) (fun w => traffic w.env.trace) m w

/-- Where a session stands without its connection, it returns when the stop flag is loaded. -/
abbrev SessionExits (k : Nat) (R : α → Prop) (m : App α) (w : Miner) : Prop :=
  Exits (fun w => Lost k w.env) (fun ev => (async ev).isSome = true) .load R m w

variable {k : Nat}

theorem Underway.not_lost (h : Underway cfg w) : ¬Lost k w.env := by
  intro hlost
  have hup := h.2
  rw [Up, hlost.1] at hup
  cases hup

theorem InSession.not_lost (h : InSession cfg w) : ¬Lost k w.env := h.underway.not_lost

theorem bystander_not_lost : Bystander fun e => ¬Lost k e :=
  bystander_of_traffic fun _ _ hc ht h h' => h ((Lost.same hc ht).1 h')

/-- What is not about the connection. -/
def Aside {α : Type} (m : App α) : Prop :=
  ∀ I : Env → Prop, Bystander I → Keeps (fun w : Miner => I w.env) m

theorem aside_end (level : LogLevel) (message context : Bytes) {α : Type} (a : α) :
    Aside (do logStratum cfg level message context; return a) :=
  fun _ hI => (keeps_logStratum hI cfg _ _ _).bind fun _ => .pure

theorem freezes_aside {α : Type} {m : App α} (h : Aside m) : SessionFreezes k m w := by
  refine freezes_of_still (fun x => ?_) (h _ bystander_not_lost)
  exact h (fun e => Lost k e ∧ traffic e.trace = x) (bystander_of_traffic
    fun e e' hc ht h => ⟨(Lost.same hc ht).2 h.1, ht.trans h.2⟩)

theorem freezes_sessionRound (h : InSession cfg w) :
    SessionFreezes k (sessionRound cfg client ()) w := by
  refine .bind (.zoom causal_loadStop) (freezes_of_wp h.not_lost (keeps_loadStop_inSession w h)
    fun _ h => h.not_lost) (wp_mono (keeps_loadStop_inSession w h) ?_ fun _ _ => trivial)
  intro stop w h
  refine .bind .get (freezes_of_still (fun _ => .get) .get) (wp_get ?_)
  refine .ite (fun _ => ?_) fun _ => ?_
  · refine .bind (.zoom (causal_waitForJob client _)) (freezes_of_wp h.not_lost
      (wp_waitForJob_wired h) fun _ h => h.not_lost) (wp_mono (wp_waitForJob_wired h) ?_
        fun _ _ => trivial)
    intro job w h
    cases job with
    | none =>
      exact freezes_aside fun I hI => (keeps_loadStopAside hI).bind fun stop => .ite .pure
        (aside_end _ _ _ _ I hI)
    | some job =>
      have h : InSession cfg w := h
      exact freezes_of_wp h.not_lost (wp_mineJob_wired h) fun _ h => h.not_lost
  · exact freezes_aside (aside_end _ _ _ _)

theorem exits_sessionRound (h : InSession cfg w) :
    SessionExits k (fun r => ∃ rc, r = .inr rc ∧ (rc = 0 ∨ rc = 6)) (sessionRound cfg client ())
      w := by
  refine .bind (.zoom causal_loadStop) (wp_mono (keeps_loadStop_inSession w h) ?_
    fun _ h => h.not_lost)
  intro stop w h
  refine .bind .get (wp_get ?_)
  refine .ite (fun _ => ?_) fun _ => ?_
  · refine .bind (.zoom (causal_waitForJob client _)) (wp_mono (wp_waitForJob_wired h) ?_
      fun _ h => h.not_lost)
    intro job w h
    cases job with
    | none =>
      have hload : SessionExits k (fun _ => True) (onEnv loadStop) w := by
        have hstop : Exits (Lost k) (fun ev => (async ev).isSome = true) .load (fun _ => True)
            loadStop w.env := exits_await rfl fun e after => ⟨e.stopRequested, e, rfl, trivial⟩
        exact hstop.zoom fun _ h => h
      have htrue := Keeps.const (p := True) (onEnv loadStop) w trivial
      refine .andThen hload (fun stop w after _ => ?_) htrue
      cases stop with
      | true => exact ⟨.inr 0, w, rfl, 0, rfl, Or.inl rfl⟩
      | false => exact ⟨.inr 6, _, rfl, 6, rfl, Or.inr rfl⟩
    | some job => exact exits_of_wp (wp_mineJob_wired h) fun _ h => h.not_lost
  · exact exits_of_wp (aside_end _ _ _ _ _ bystander_not_lost w h.not_lost) fun _ h => h

/-- Before the session connects, or in one of its calls. -/
def Opening (cfg : MinerConfig) (k : Nat) (w : Miner) : Prop :=
  connects w.env.trace = k ∨ Underway cfg w

theorem Opening.not_lost (h : Opening cfg k w) : ¬Lost k w.env := by
  rcases h with h | h
  · exact fun hlost => absurd hlost.2 (by rw [h]; exact Nat.lt_irrefl k)
  · exact h.not_lost

/-- How `start_stratum_session` ends. -/
def Started (cfg : MinerConfig) (k : Nat) (ok : Bool) (w : Miner) : Prop :=
  if ok then InSession cfg w else connects w.env.trace = k ∨ Submitting cfg w.env

theorem connects_observe {o : Obs} (ho : o.isTraffic = false) (t : List Obs) :
    connects (t ++ [o]) = connects t := by
  rw [← connects_traffic, traffic_concat ho, connects_traffic]

theorem wp_connectToPool_wired {self : StratumClient} {n : Nat} (hk : connects e.trace = k)
    (hn : e.nextId = n) : wp self.connectToPool
      (fun ok e => if ok then (Wired [] e ∧ e.nextId = n) ∧ Up e else connects e.trace = k)
      (fun e => connects e.trace = k) e := by
  have hI : Stable fun e => connects e.trace = k ∧ e.nextId = n :=
    ⟨fun h => ⟨(connects_observe rfl _).trans h.1, h.2⟩,
      fun bytes h => ⟨(connects_observe rfl _).trans h.1, h.2⟩⟩
  have hlost : ∀ message context e, connects e.trace = k → wp (do
      observe .unreachable
      self.logLine .err message context
      return false : Sys Bool)
      (fun ok e => if ok then (Wired [] e ∧ e.nextId = n) ∧ Up e else connects e.trace = k)
      (fun e => connects e.trace = k) e := by
    intro message context e h
    exact wp_update (wp_update (wp_pure ((connects_observe rfl _).trans h)))
  have hdial : ∀ addrs e, connects e.trace = k ∧ e.nextId = n →
      wp (dialLoop addrs) (fun _ e => connects e.trace = k ∧ e.nextId = n)
        (fun e => connects e.trace = k) e := by
    intro addrs
    induction addrs with
    | zero => exact fun e h => wp_pure h
    | succ addrs ih =>
      intro e h
      refine wp_bind (wp_dial hI h (fun _ h => h.1) ?_)
      intro ok e h
      exact wp_ite (fun _ => wp_pure h) fun _ => ih e h
  refine wp_bind (wp_resolve hI ⟨hk, hn⟩ (fun _ h => h.1) fun addrs e h => ?_)
  refine wp_ite (fun _ => hlost _ _ e h.1) fun _ => ?_
  refine wp_call (hdial addrs e h) (fun ok e h => ?_) fun _ h => h
  refine wp_ite (fun _ => wp_update (wp_update (wp_pure ⟨⟨?_, h.2⟩, rfl⟩))) fun _ =>
    hlost _ _ e h.1
  have hempty : written (e.connect.trace) = [] := written_concat _ .connected
  exact ⟨hempty ▸ List.nil_prefix, fun _ _ => hempty⟩

theorem wp_startStratumSession_wired (hk : connects w.env.trace = k) (hn : w.env.nextId = 1) :
    wp (startStratumSession cfg client) (Started cfg k) (Opening cfg k) w := by
  refine wp_callEnv (wp_connectToPool_wired hk hn)
    (fun ok e h => wp_ite (fun hok => ?_) fun hok => ?_) fun _ h => Or.inl h
  · subst hok
    refine wp_callEnv (wp_call_up client (.request (.subscribe userAgent)) h.1.1 h.1.2 h.2)
      (fun ok e h => wp_ite (fun hok => ?_) fun _ => ?_) ?_
    · refine wp_callEnv (wp_call_up client
        (.request (.authorize (poolUsername cfg) cfg.poolPassword)) h.1 h.2.1 (h.2.2 hok))
        (fun ok e h => wp_ite (fun hok => ?_) fun _ => ?_) ?_
      · exact wp_updateEnv (wp_pure ⟨[], unmoved_submitted.addLog _ ⟨h.1, h.2.1⟩, h.2.2 hok⟩)
      · exact wp_pure (Or.inr ⟨[], h.1.within⟩)
      · exact fun e h => Or.inr ⟨⟨[], h.1⟩, h.2⟩
    · exact wp_pure (Or.inr ⟨[], h.1.within.trans (wire_mono (List.prefix_append _ _))⟩)
    · exact fun e h => Or.inr ⟨⟨[], h.1.trans (wire_mono (List.prefix_append _ _))⟩, h.2⟩
  · cases ok with
    | true => exact absurd rfl hok
    | false => exact wp_pure (Or.inl h)

theorem wp_sessionLoop_wired (h : InSession cfg w) : wp (Proc.loop (sessionRound cfg client) ())
    (fun _ w => Submitting cfg w.env) (fun w => Submitting cfg w.env) w := by
  refine wp_loop (I := fun _ => InSession cfg) h (fun _ w h => ?_) fun _ _ h => h.underway.1
  refine wp_mono (wp_sessionRound_wired h) ?_ fun _ h => h
  intro r w h
  cases r with
  | inl u => exact h
  | inr rc => exact h

theorem sessionRound_continues (h : InSession cfg w) : wp (sessionRound cfg client ())
    (fun r w => Sum.elim (fun _ => InSession cfg w) (fun _ => True) r) (fun _ => True) w := by
  refine wp_mono (wp_sessionRound_wired h) ?_ fun _ _ => trivial
  intro r w h
  cases r with
  | inl u => exact h
  | inr rc => trivial

theorem wp_runStratumSession_wired (cfg : MinerConfig) (w : Miner) :
    wp (runStratumSession cfg)
      (fun _ w' => connects w.env.trace < connects w'.env.trace → Submitting cfg w'.env)
      (fun w' => connects w.env.trace < connects w'.env.trace → Submitting cfg w'.env) w := by
  refine wp_updateEnv (wp_call (@wp_startStratumSession_wired cfg (newClient cfg) _ _ rfl rfl)
    (fun ok w' h => wp_ite (fun hok => ?_) fun hok => ?_) fun w' h hlt => ?_)
  · subst hok
    exact wp_mono (wp_sessionLoop_wired h) (fun _ _ h _ => h) fun _ h _ => h
  · cases ok with
    | true => exact absurd rfl hok
    | false =>
      refine wp_pure fun hlt => ?_
      rcases h with h | h
      · exact absurd hlt (by rw [h]; exact Nat.lt_irrefl _)
      · exact h
  · rcases h with h | h
    · exact absurd hlt (by rw [h]; exact Nat.lt_irrefl _)
    · exact h.1

theorem freezes_runStratumSession (cfg : MinerConfig) (w : Miner) :
    SessionFreezes (connects w.env.trace) (runStratumSession cfg) w := by
  have hnot : ∀ {w' : Miner}, w'.env.trace = w.env.trace →
      ¬Lost (connects w.env.trace) w'.env := fun ht hlost => by
    exact absurd hlost.2 (by rw [ht]; exact Nat.lt_irrefl _)
  refine .bind (.zoom .modify) (freezes_of_wp (hnot rfl) (wp_onEnv (wp_modify trivial) :
    wp _ (fun _ _ => True) (fun _ => False) w) nofun) (wp_onEnv (wp_modify ?_))
  have hstart := @wp_startStratumSession_wired cfg (newClient cfg) (w.setEnv w.env.newClient)
    (connects w.env.trace) rfl rfl
  refine .bind (causal_startStratumSession cfg _) (freezes_of_wp (hnot rfl) hstart
    fun _ h => h.not_lost) (wp_mono hstart ?_ fun _ _ => trivial)
  intro ok w' h
  refine .ite (fun hok => ?_) fun _ => freezes_of_still (fun _ => .pure) .pure
  subst hok
  exact .loop (I := fun _ => InSession cfg) h (advances_sessionRound cfg _)
    (causal_sessionRound cfg _) fun _ w h => ⟨freezes_sessionRound h, sessionRound_continues h⟩

theorem exits_runStratumSession (cfg : MinerConfig) (w : Miner) :
    SessionExits (connects w.env.trace) (fun rc => rc = 0 ∨ rc = 6) (runStratumSession cfg) w := by
  refine .bind (.zoom .modify) (wp_onEnv (wp_modify ?_))
  have hstart := @wp_startStratumSession_wired cfg (newClient cfg) (w.setEnv w.env.newClient)
    (connects w.env.trace) rfl rfl
  refine .bind (causal_startStratumSession cfg _) (wp_mono hstart ?_ fun _ h => h.not_lost)
  intro ok w' h
  refine .ite (fun hok => ?_) fun _ => exits_of_wp (wp_pure trivial : wp _ (fun _ _ => True)
    (fun _ => False) w') nofun
  subst hok
  exact .loop (I := fun _ => InSession cfg) h (advances_sessionRound cfg _)
    (causal_sessionRound cfg _) fun _ w h => ⟨exits_sessionRound h, sessionRound_continues h⟩

end Session

/-- **The loss of a connection is final, and does not corrupt the wire.** For any calls of a client
after it has connected, and any events: the bytes written are those of the lines of its requests, in
the order of the calls, up to some byte; and when the connection is lost, it stays lost and no byte
is written or read any more. Each call of a client that has lost its connection returns false: a
request at once, and `wait_for_job` as soon as its clock and the stop flag are read. A session
writes its requests in the same way; when it has lost its connection it moves no byte any more, so
it submits nothing, and where it has not returned yet, it returns when the stop flag is read. -/
theorem connection_loss_final :
    (∀ (self : StratumClient) (before e : Env) (opening rest : List Event),
      self.connectToPool.run before opening = .done true e rest →
      ∀ (calls : List Call) (events : List Event),
        written ((runCalls self calls).run e events).state.trace <+:
          wire (requestLines e.nextId calls) ∧
        (((runCalls self calls).run e events).state.connected = false → ∀ more,
          ((runCalls self calls).run e (events ++ more)).state.connected = false ∧
          traffic ((runCalls self calls).run e (events ++ more)).state.trace =
            traffic ((runCalls self calls).run e events).state.trace)) ∧
    (∀ (self : StratumClient) (e : Env), e.connected = false →
      (∀ r, ∃ e', Down (traffic e.trace) e' ∧
        ∀ events, ((Call.request r).run self).run e events = .done false e' events) ∧
      ∀ timeoutSec, wp (self.waitForJob timeoutSec)
          (fun job e' => job = none ∧ Down (traffic e.trace) e') (Down (traffic e.trace)) e ∧
        ∀ between after, Spontaneous between →
          (∃ e', (self.waitForJob timeoutSec).run e (between ++ .tick true :: after) =
            .done none e' after) ∧
          ∀ between', Spontaneous between' → ∃ e', (self.waitForJob timeoutSec).run e
            (between ++ .tick false :: (between' ++ .load :: after)) = .done none e' after) ∧
    ∀ (cfg : MinerConfig) (w : Miner) (events : List Event),
      connects w.env.trace < connects ((runStratumSession cfg).run w events).state.env.trace →
      (∃ shares, written ((runStratumSession cfg).run w events).state.env.trace <+:
        wire (sessionLines cfg shares)) ∧
      (((runStratumSession cfg).run w events).state.env.connected = false →
        (∀ more, ((runStratumSession cfg).run w (events ++ more)).state.env.connected = false ∧
          traffic ((runStratumSession cfg).run w (events ++ more)).state.env.trace =
            traffic ((runStratumSession cfg).run w events).state.env.trace) ∧
        ∀ w', (runStratumSession cfg).run w events = .pending w' →
          ∃ past rest, events = past ++ rest ∧ ∀ between after, Spontaneous between →
            ∃ rc w'', (runStratumSession cfg).run w (past ++ between ++ .load :: after) =
              .done rc w'' after ∧ (rc = 0 ∨ rc = 6)) := by
  refine ⟨?_, ?_, ?_⟩
  · intro self before e opening rest hconnect calls events
    have hwired : Wired [] e :=
      ((@wp_connectToPool_wired before _ self _ rfl rfl).done hconnect).1.1
    refine ⟨(wp_runCalls self calls hwired fun _ => rfl).state events, fun hlost => ?_⟩
    exact (freezes_runCalls self calls hwired fun _ => rfl).final (causal_runCalls self calls) hlost
  · intro self e hdown
    refine ⟨request_down self ⟨hdown, rfl⟩, fun timeoutSec => ⟨?_, ?_⟩⟩
    · exact wp_waitForJob_down self ⟨hdown, rfl⟩
    · exact fun between after hbetween =>
        waitForJob_returns self ⟨hdown, rfl⟩ timeoutSec hbetween after
  · intro cfg w events hlt
    refine ⟨(wp_runStratumSession_wired cfg w).state events hlt, fun hdown => ⟨fun more => ?_, ?_⟩⟩
    · have hlost : Lost (connects w.env.trace) ((runStratumSession cfg).run w events).state.env :=
        ⟨hdown, hlt⟩
      have hfinal :=
        (freezes_runStratumSession cfg w).final (causal_runStratumSession cfg) hlost more
      exact ⟨hfinal.1.1, hfinal.2⟩
    · intro w' hrun
      rw [hrun] at hdown hlt
      exact exits_runStratumSession cfg w events w' hrun ⟨hdown, hlt⟩

/-- The calls of a session before its first share. -/
def partialCalls : List Call := sessionCalls scriptConfig []

/-- Five bytes of the first request are written, and then the connection is lost. -/
def partialScript : List Event := [.send 5, .send 0]

theorem connection_loss_final_script :
    ∃ e, (newClient scriptConfig).connectToPool.run {} [.resolve 1, .dial true] =
        .done true e [] ∧
      ∀ more, traffic ((runCalls (newClient scriptConfig) partialCalls).run e
        (partialScript ++ more)).state.trace =
          [.connected, .wrote ((subscribeRequest 1 userAgent).take 5)] := by
  refine ⟨_, rfl, fun more => ?_⟩
  have hfinal := ((connection_loss_final.1 (newClient scriptConfig) {} _ [.resolve 1, .dial true] []
    rfl partialCalls partialScript).2 rfl more).2
  exact hfinal.trans rfl

end HermitMiner
