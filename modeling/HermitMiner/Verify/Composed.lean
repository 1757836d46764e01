import HermitMiner.Verify.Attribution
import HermitMiner.Verify.PoolJobs

/-!
# The miner and the fake pool

The miner on connections of which the other end is the fake pool, whatever happens to them: writes
that stop half-way, deadlines that expire in the middle of a line, stop requests, connections that
are lost and made again.

* `FromPool`: whatever arrives is what the pool has to send by then.
* `Between`, `Midway`: where a session stands between two of its calls, and in one of them.
* `pool_and_miner_in_step`: the two never come apart by more than one job.
-/

namespace HermitMiner

open Oracle StratumClient FakePool

/-! ## What arrives -/

/-- Whatever arrives is what the pool has to send by then, in its order. -/
def FromPool (t : List Obs) (o : Obs) : Prop :=
  ∀ bytes, o = .arrived bytes →
    (connection t).arrived.flatten ++ bytes <+: poolOutput (written t)

theorem arrived_fromPool {t : List Obs} (h : Along FromPool t) :
    (connection t).arrived.flatten <+: poolOutput (written t) := by
  induction t using List.reverseRecOn with
  | nil => exact List.nil_prefix
  | append_singleton t o ih =>
    obtain ⟨ht, ho⟩ := along_concat.1 h
    rw [connection_concat, written_concat]
    cases o with
    | connected => exact List.nil_prefix
    | arrived bytes =>
      have hmore := ho bytes rfl
      rwa [← List.flatten_concat] at hmore
    | wrote bytes => exact (ih ht).trans (poolOutput_mono (List.prefix_append _ _))
    | received c =>
      rw [Connection.step, (Connection.receive_frame _ _).1]
      exact ih ht
    | expired deadline => cases deadline <;> exact ih ht
    | _ => exact ih ht

/-! ## What only a new connection touches -/

/-- Only a new connection or a new client touches `I`. -/
structure PerConnection (I : Env → Prop) : Prop extends Unmoved I where
  pop : ∀ {e} c rest, I e → I (e.pop c rest)
  wrote : ∀ {e} bytes, I e → I (e.observe (.wrote bytes))
  takeId : ∀ {e}, I e → I e.takeId

theorem PerConnection.of_history {P : List Obs → Prop}
    (h : ∀ t o, o ≠ .connected → P t → P (t ++ [o])) : PerConnection fun e => P e.trace where
  signal := h _ _ nofun
  arrive _ := h _ _ nofun
  observe o ho := h _ o fun hc => by rw [hc] at ho; cases ho
  disconnect h := h
  addLog _ h := h
  pop _ _ := h _ _ nofun
  wrote _ := h _ _ nofun
  takeId h := h

section PerConnection

variable {I : Env → Prop} {e : Env} (self : StratumClient)

theorem wp_sendLine_kept (hI : PerConnection I) {line : Bytes} (h : I e) (hup : Up e) :
    wp (self.sendLine line) (fun ok e => I e ∧ (ok = true → Up e)) I e := by
  refine wp_read (wp_ite (fun _ => wp_pure ⟨h, nofun⟩) fun _ => wp_ite (fun _ => ?_) fun _ => ?_)
  · exact wp_update (wp_update (wp_update (wp_pure
      ⟨hI.disconnect (hI.addLog _ (hI.observe _ rfl h)), nofun⟩)))
  refine wp_loop (I := fun _ e => I e ∧ Up e) ⟨h, hup⟩ (fun left e h => ?_) fun _ _ h => h.1
  refine wp_ite (fun _ => ?_) fun _ => ?_
  · exact wp_update (wp_leave ⟨hI.observe _ rfl h.1, fun _ => h.2⟩)
  · refine wp_bind (wp_send (stable_up hI.toUnmoved) h (fun _ h => h.1) (fun e h => ?_)
      fun n e h hn _ => ?_)
    · exact wp_ite (fun _ => wp_update (wp_leave
        ⟨hI.disconnect (hI.observe _ rfl h.1), nofun⟩)) fun h0 => absurd rfl h0
    · exact wp_ite (fun h0 => absurd h0 (Nat.ne_of_gt hn)) fun _ => wp_again ⟨hI.wrote _ h.1, h.2⟩

/-- A request of the session. -/
theorem wp_request_kept (hI : PerConnection I) (r : Request) (h : I e) (hup : Up e) :
    wp ((Call.request r).run self) (fun _ => I) I e := by
  obtain ⟨next, hnext, hrun⟩ := request_run self r
  rw [hrun]
  refine wp_bind (wp_read (wp_update (wp_pure ?_)))
  have hresponse : wp (self.requestResponse (r.line e.nextId) 10) (fun _ => I) I e.takeId := by
    unfold requestResponse
    cases parseMessageId (r.line e.nextId) with
    | none => exact wp_update (wp_pure (hI.observe _ rfl (hI.takeId h)))
    | some id =>
      refine wp_call (wp_sendLine_kept self hI (hI.takeId h) hup) (fun ok e h => ?_) fun _ h => h
      refine wp_ite (fun hok => ?_) fun _ => wp_pure h.1
      exact wp_mono (wp_responseLoop_up hI.toUnmoved hI.pop self h.1 (h.2 hok))
        (fun _ _ h => h.1) fun _ h => h.1
  refine wp_call hresponse (fun response e' h' => ?_) fun _ h => h
  exact (hnext _).wp fun ok e'' hkeeps _ _ => hkeeps _ hI.toUnmoved h'

theorem wp_connectToPool_kept (hI : Unmoved I) (h : I e) :
    wp self.connectToPool (fun ok e => ok = false → I e) I e := by
  have hlost : ∀ message context e, I e → wp (do
      observe .unreachable
      self.logLine .err message context
      return false) (fun ok e => ok = false → I e) I e := fun message context e h =>
    wp_update (wp_update (wp_pure fun _ => hI.addLog _ (hI.observe _ rfl h)))
  have hdial : ∀ addresses, Keeps I (dialLoop addresses) := by
    intro addresses
    induction addresses with
    | zero => exact .pure
    | succ addresses ih =>
      exact Keeps.bind (fun _ h => wp_dial hI.toStable h (fun _ h => h) fun _ _ h => h)
        fun ok => .ite .pure ih
  refine wp_bind (wp_resolve hI.toStable h (fun _ h => h) fun addresses e h => ?_)
  refine wp_ite (fun _ => hlost _ _ e h) fun _ => wp_call (hdial addresses e h) (fun ok e h => ?_)
    fun _ h => h
  exact wp_ite (fun _ => wp_update (wp_update (wp_pure nofun))) fun _ => hlost _ _ e h

end PerConnection

/-! ## Where a session stands -/

/-- The first `n` jobs of the pool have been delivered. -/
def Told (n : Nat) (t : List Obs) : Prop :=
  Along FromPool t → poolJobs n <+: (connection t).delivered

/-- The shares are for the first jobs of the pool, one for each. -/
def ForJobs (shares : List (Bytes × UInt32)) : Prop :=
  shares.map Prod.fst = (poolJobs shares.length).map StratumJob.jobId

/-- The shares are for jobs of the pool, if it is the pool. -/
def Served (shares : List (Bytes × UInt32)) (t : List Obs) : Prop :=
  Along FromPool t → ForJobs shares

theorem told_zero (t : List Obs) : Told 0 t := fun _ => List.nil_prefix

theorem Told.concat {n : Nat} {t : List Obs} {o : Obs} (ho : o ≠ .connected) (h : Told n t) :
    Told n (t ++ [o]) := by
  intro hpool
  refine (h (along_concat.1 hpool).1).trans ?_
  rw [connection_concat]
  cases o with
  | connected => exact absurd rfl ho
  | delivered job => exact List.prefix_append _ _
  | received c =>
    rw [Connection.step, (Connection.receive_frame (connection t) c).2.2]
  | expired deadline => cases deadline <;> exact List.prefix_refl _
  | _ => exact List.prefix_refl _

theorem perConnection_told (n : Nat) (shares : List (Bytes × UInt32)) :
    PerConnection fun e => Told n e.trace ∧ Served shares e.trace := by
  refine @PerConnection.of_history (fun t => Told n t ∧ Served shares t) ?_
  exact fun _ _ ho h => ⟨h.1.concat ho, fun hpool => h.2 (along_concat.1 hpool).1⟩

/-- Between two calls of a session. -/
structure Between (cfg : MinerConfig) (n : Nat) (shares : List (Bytes × UInt32)) (e : Env) :
    Prop where
  submitted : Submitted cfg shares e
  told : Told n e.trace ∧ Served shares e.trace
  up : Up e

/-- In one of them, or after the session. -/
structure Midway (cfg : MinerConfig) (n : Nat) (shares : List (Bytes × UInt32)) (e : Env) :
    Prop where
  booked : Booked cfg e
  within : written e.trace <+: wire (sessionLines cfg shares)
  told : Told n e.trace ∧ Served shares e.trace

section InStep

variable {cfg : MinerConfig} {n : Nat} {shares : List (Bytes × UInt32)} {e : Env}

theorem inLine_sessionLines {line : Bytes} (h : line ∈ sessionLines cfg shares) : InLine line := by
  induction shares using List.reverseRecOn with
  | nil =>
    have hlines : sessionLines cfg [] = [Request.line 1 (.subscribe userAgent),
        Request.line 2 (.authorize (poolUsername cfg) cfg.poolPassword)] := rfl
    rw [hlines, List.mem_cons, List.mem_singleton] at h
    rcases h with rfl | rfl <;> exact inLine_line _ _
  | append_singleton shares share ih =>
    rw [sessionLines_concat, List.mem_append, List.mem_singleton] at h
    rcases h with h | rfl
    · exact ih h
    · exact inLine_line _ _

/-- What is received of lines is the first of them. -/
theorem streamLines_prefix {received : Bytes} {lines : List Bytes} (hlines : ∀ l ∈ lines, InLine l)
    (h : received <+: wire lines) : streamLines received <+: lines := by
  obtain ⟨rest, hrest⟩ := h
  have hfirst : streamLines received <+: streamLines (received ++ rest) :=
    Framing.lines_prefix received rest
  rwa [hrest, streamLines_wire hlines] at hfirst

/-- The lines that the client has received are the first ones that the pool has sent. -/
theorem Midway.lines (h : Midway cfg n shares e) (hpool : Along FromPool e.trace) :
    streamLines e.conn.received <+: (serveAll {} (sessionLines cfg shares)).2 := by
  have hoffered : poolOutput (written e.trace) <+: wire (serveAll {} (sessionLines cfg shares)).2 := by
    have hwire := @poolOutput_wire (sessionLines cfg shares) (fun l => inLine_sessionLines) [] nofun
    rw [List.append_nil] at hwire
    exact hwire ▸ poolOutput_mono h.within
  have hreceived : e.conn.received <+: e.conn.arrived.flatten :=
    h.booked.stream ▸ List.prefix_append _ _
  exact streamLines_prefix (fun l hl => (inLine_serveAll hl).1)
    (hreceived.trans ((arrived_fromPool hpool).trans hoffered))

/-- **In step**: what the client has got of the pool's jobs is the first ones, and no more of them
than it has submitted shares and one. -/
theorem Midway.inStep (h : Midway cfg n shares e) (hle : shares.length ≤ n)
    (hpool : Along FromPool e.trace) :
    e.conn.delivered = poolJobs e.conn.delivered.length ∧ n ≤ e.conn.delivered.length ∧
      e.conn.delivered.length ≤ shares.length + 1 := by
  have hread := e.wellRead
  have hdelivered := h.booked.delivered
  rw [List.append_nil] at hdelivered
  have hsub : e.conn.delivered.Sublist (poolJobs (shares.length + 1)) := by
    rw [hdelivered, ← (notices_session cfg shares).2]
    exact notices_sublist (hread.lines ▸ h.lines hpool) hread.suffixes
      fun l hl => (inLine_serveAll hl).2
  have htold : poolJobs n <+: e.conn.delivered := h.told.1 hpool
  have hmost := hsub.length_le
  have hleast := htold.length_le
  rw [length_poolJobs] at hmost hleast
  refine ⟨?_, hleast, hmost⟩
  rcases Nat.lt_or_ge shares.length e.conn.delivered.length with hlt | hge
  · have hlength : e.conn.delivered.length = shares.length + 1 := by omega
    rw [hlength]
    exact hsub.eq_of_length (by rw [hlength, length_poolJobs])
  · have hlength : e.conn.delivered.length = n := by omega
    rw [hlength]
    exact (htold.eq_of_length (by rw [hlength, length_poolJobs])).symm

end InStep

/-! ## Calls -/

theorem Unmoved.and {I J : Env → Prop} (hI : Unmoved I) (hJ : Unmoved J) :
    Unmoved fun e => I e ∧ J e where
  toStable := hI.toStable.and hJ.toStable
  observe o ho h := ⟨hI.observe o ho h.1, hJ.observe o ho h.2⟩
  disconnect h := ⟨hI.disconnect h.1, hJ.disconnect h.2⟩
  addLog entry h := ⟨hI.addLog entry h.1, hJ.addLog entry h.2⟩

theorem Settled.booked {cfg : MinerConfig} {ok : Bool} {e : Env}
    (h : Settled (poolUsername cfg) (ValidShare cfg) ok e) : Booked cfg e := by
  cases ok with
  | true => exact h.choose_spec.ledger
  | false => exact h

section Calls

variable {cfg : MinerConfig} {n : Nat} {shares : List (Bytes × UInt32)} {e : Env}
  (self : StratumClient)

/-- A request of a session, of which the lines `L` have been sent. -/
theorem wp_request_composed {L : List Bytes} {m : Nat} (r : Request) (hwired : Wired L e)
    (hn : e.nextId = m) (hup : Up e) (htold : Told n e.trace ∧ Served shares e.trace)
    (hlines : L ++ [r.line m] <+: sessionLines cfg shares)
    (hbooks : wp ((Call.request r).run self) (Settled (poolUsername cfg) (ValidShare cfg))
      (Booked cfg) e) :
    wp ((Call.request r).run self) (fun ok e' => Midway cfg n shares e' ∧
        Wired (L ++ [r.line m]) e' ∧ e'.nextId = m + 1 ∧ (ok = true → Up e') ∧
        Settled (poolUsername cfg) (ValidShare cfg) ok e') (Midway cfg n shares) e := by
  have hkept := wp_request_kept self (perConnection_told n shares) r htold hup
  refine wp_mono (wp_and hbooks (wp_and (wp_call_up self (.request r) hwired hn hup) hkept)) ?_ ?_
  · rintro ok e' ⟨hsettled, ⟨hwired', hn', hup'⟩, htold'⟩
    exact ⟨⟨hsettled.booked, hwired'.within.trans (wire_mono hlines), htold'⟩, hwired', hn', hup',
      hsettled⟩
  · rintro e' ⟨hbooked, ⟨hwithin, -⟩, htold'⟩
    exact ⟨hbooked, hwithin.trans (wire_mono hlines), htold'⟩

/-- What `wait_for_job` leaves: the next job of the pool, if it is the pool. -/
def Handed (cfg : MinerConfig) (n : Nat) (shares : List (Bytes × UInt32)) (d : Dealings)
    (job : Option StratumJob) (e : Env) : Prop :=
  match job with
  | none => Midway cfg n shares e
  | some job => Between cfg (n + 1) shares e ∧
    Idle (poolUsername cfg) (ValidShare cfg) { d with delivered := d.delivered ++ [job] } e ∧
      ∀ nonce, Served (shares ++ [(job.jobId, nonce)]) e.trace

theorem wp_waitForJob_composed {d : Dealings} {timeoutSec : UInt32} (hle : shares.length ≤ n)
    (h : Between cfg n shares e) (hidle : Idle (poolUsername cfg) (ValidShare cfg) d e) :
    wp (self.waitForJob timeoutSec) (Handed cfg n shares d) (Midway cfg n shares) e := by
  -- what has been delivered before is what the pool had announced
  have hbefore : Along FromPool e.trace → n ≤ d.delivered.length := by
    intro hpool
    obtain ⟨m, hon, -⟩ := hidle
    have hlength := (h.told.1 hpool).length_le
    have hdealings : (connection e.trace).delivered = d.delivered :=
      congrArg Dealings.delivered hon.dealings
    rwa [length_poolJobs, hdealings] at hlength
  have hhistory : PerConnection fun e => (Told n e.trace ∧ Served shares e.trace) ∧
      (Along FromPool e.trace → n ≤ d.delivered.length) := by
    refine @PerConnection.of_history (fun t => (Told n t ∧ Served shares t) ∧
      (Along FromPool t → n ≤ d.delivered.length)) ?_
    exact fun _ _ ho h => ⟨⟨h.1.1.concat ho, fun hpool => h.1.2 (along_concat.1 hpool).1⟩,
      fun hpool => h.2 (along_concat.1 hpool).1⟩
  have hI := (@unmoved_submitted cfg shares).and hhistory.toUnmoved
  refine wp_mono (wp_and (wp_waitForJob self hidle) (wp_waitForJob_up hI
    (fun c rest h => ⟨⟨h.1.1.pop c rest, h.1.2⟩, hhistory.pop c rest h.2⟩) self
      ⟨h.submitted, h.told, hbefore⟩ h.up)) ?_ ?_
  · rintro (_ | job) e' ⟨hbooks, ⟨hsubmitted, htold, hbefore⟩, hup⟩
    · exact ⟨hbooks, hsubmitted.1.within, htold⟩
    have hidle' : Idle (poolUsername cfg) (ValidShare cfg)
      { d with delivered := d.delivered ++ [job] } e' := hbooks
    have hmidway : Midway cfg n shares e' := ⟨hidle'.ledger, hsubmitted.1.within, htold⟩
    have hdelivered : e'.conn.delivered = d.delivered ++ [job] := by
      obtain ⟨m, hon, -⟩ := hidle'
      exact congrArg Dealings.delivered hon.dealings
    have hnext : Along FromPool e'.trace →
        shares.length = n ∧ d.delivered ++ [job] = poolJobs (n + 1) := by
      intro hpool
      obtain ⟨hjobs, -, hmost⟩ := hmidway.inStep hle hpool
      have hleast := hbefore hpool
      have hlength : e'.conn.delivered.length = d.delivered.length + 1 := by
        rw [hdelivered, List.length_append, List.length_singleton]
      have hn : e'.conn.delivered.length = n + 1 := by omega
      rw [hn, hdelivered] at hjobs
      exact ⟨by omega, hjobs⟩
    refine ⟨⟨hsubmitted, ⟨fun hpool => ?_, htold.2⟩, hup rfl⟩, hidle', fun nonce hpool => ?_⟩
    · have hconn : (connection e'.trace).delivered = d.delivered ++ [job] := hdelivered
      rw [hconn, (hnext hpool).2]
    · obtain ⟨hs, hjobs⟩ := hnext hpool
      have hlast : job = announced (.ofNat (n + 1)) := by
        rw [poolJobs_succ] at hjobs
        exact List.singleton_inj.1 (List.append_inj' hjobs rfl).2
      rw [ForJobs, List.map_append, htold.2 hpool, List.length_append, List.length_singleton,
        poolJobs_succ, List.map_append, hs, ← hlast]
      rfl
  · rintro e' ⟨hbooked, ⟨hsubmitted, htold, -⟩, -⟩
    exact ⟨hbooked, hsubmitted.1.within, htold⟩

end Calls

/-! ## Sessions -/

/-- In any state: no more shares than the jobs that have been delivered. -/
def Composed (cfg : MinerConfig) (e : Env) : Prop :=
  ∃ n shares, shares.length ≤ n ∧ Midway cfg n shares e

/-- Between two calls, with the books open. -/
def Ready (cfg : MinerConfig) (n : Nat) (shares : List (Bytes × UInt32)) (d : Dealings) (e : Env) :
    Prop :=
  Between cfg n shares e ∧ Idle (poolUsername cfg) (ValidShare cfg) d e

/-- The session goes on, or ends. -/
def RoundComposed (cfg : MinerConfig) (r : Unit ⊕ Int) (w : Miner) : Prop :=
  Sum.elim (fun _ => ∃ n shares d, shares.length ≤ n ∧ Ready cfg n shares d w.env)
    (fun _ => Composed cfg w.env) r

section Session

variable {cfg : MinerConfig} {n : Nat} {shares : List (Bytes × UInt32)} {d : Dealings} {e : Env}

theorem Ready.composed (h : Ready cfg n shares d e) (hle : shares.length ≤ n) : Composed cfg e :=
  ⟨n, shares, hle, h.2.ledger, h.1.submitted.1.within, h.1.told⟩

theorem bystander_ready : Bystander (Ready cfg n shares d) where
  signal h := ⟨⟨unmoved_submitted.signal h.1.submitted,
    (perConnection_told n shares).signal h.1.told, h.1.up⟩, bystander_idle.signal h.2⟩
  arrive bytes h := ⟨⟨unmoved_submitted.arrive bytes h.1.submitted,
    (perConnection_told n shares).arrive bytes h.1.told, h.1.up⟩, bystander_idle.arrive bytes h.2⟩
  report ho h := ⟨⟨unmoved_submitted.observe _ (Obs.isTraffic_of_isReport ho) h.1.submitted,
    (perConnection_told n shares).observe _ (Obs.isTraffic_of_isReport ho) h.1.told, h.1.up⟩,
    bystander_idle.report ho h.2⟩
  addLog entry h := ⟨⟨unmoved_submitted.addLog entry h.1.submitted, h.1.told, h.1.up⟩,
    bystander_idle.addLog entry h.2⟩

theorem aloof_ready : Aloof (Ready cfg n shares d) where
  toStable := bystander_ready.toStable
  hashed _ _ h := ⟨⟨unmoved_submitted.observe _ rfl h.1.submitted,
    (perConnection_told n shares).observe _ rfl h.1.told, h.1.up⟩, aloof_idle.hashed _ _ h.2⟩
  counted _ _ h := ⟨⟨unmoved_submitted.observe _ rfl h.1.submitted,
    (perConnection_told n shares).observe _ rfl h.1.told, h.1.up⟩, aloof_idle.counted _ _ h.2⟩
  addLog := bystander_ready.addLog

theorem bystander_midway : Bystander (Midway cfg n shares) where
  signal {e} h := ⟨h.booked.signal, (written_signal e).symm ▸ h.within,
    (perConnection_told n shares).signal h.told⟩
  arrive {e} bytes h := ⟨h.booked.arrive bytes, (written_arrive e bytes).symm ▸ h.within,
    (perConnection_told n shares).arrive bytes h.told⟩
  report {e o} ho h := by
    have htraffic : o.isTraffic = false := Obs.isTraffic_of_isReport ho
    have hwritten : written (e.observe o).trace = written e.trace := written_observe htraffic _
    exact ⟨bystander_ledger.report ho h.booked, hwritten ▸ h.within,
      (perConnection_told n shares).observe o htraffic h.told⟩
  addLog entry h := ⟨h.booked.addLog entry, h.within, h.told⟩

theorem bystander_composed : Bystander (Composed cfg) where
  signal := fun ⟨n, shares, hle, h⟩ => ⟨n, shares, hle, bystander_midway.signal h⟩
  arrive bytes := fun ⟨n, shares, hle, h⟩ => ⟨n, shares, hle, bystander_midway.arrive bytes h⟩
  report := fun ho ⟨n, shares, hle, h⟩ => ⟨n, shares, hle, bystander_midway.report ho h⟩
  addLog entry := fun ⟨n, shares, hle, h⟩ => ⟨n, shares, hle, bystander_midway.addLog entry h⟩

variable {client : StratumClient} {w : Miner}

theorem wp_submitFound_composed {job : StratumJob} {nonce : UInt32}
    (h : Ready cfg (n + 1) shares d w.env) (hle : shares.length ≤ n)
    (hjob : d.delivered.getLast? = some job) (hvalid : ValidShare cfg job nonce)
    (hserved : Served (shares ++ [(job.jobId, nonce)]) w.env.trace) :
    wp (submitFound cfg client job.jobId nonce) (RoundComposed cfg)
      (fun w => Composed cfg w.env) w := by
  have hle' : (shares ++ [(job.jobId, nonce)]).length ≤ n + 1 := by
    rw [List.length_append, List.length_singleton]
    omega
  have hlines := @sessionLines_concat cfg shares (job.jobId, nonce)
  have hcall := wp_request_composed client (.submit (poolUsername cfg) job.jobId nonce)
    h.1.submitted.1 h.1.submitted.2 h.1.up ⟨h.1.told.1, hserved⟩
    (hlines ▸ List.prefix_refl _) (wp_submitShare client h.2 hjob hvalid)
  refine wp_update (wp_callEnv hcall ?_ fun e he => ⟨_, _, hle', he⟩)
  rintro ok e ⟨hmidway, hwired, hn, hup, hsettled⟩
  refine wp_ite (fun hok => ?_) fun _ => ?_
  · subst hok
    obtain ⟨d', hidle⟩ := hsettled
    have hsubmitted : Submitted cfg (shares ++ [(job.jobId, nonce)]) e := by
      refine ⟨hlines ▸ hwired, ?_⟩
      rw [hn, List.length_append, List.length_singleton, Nat.add_right_comm]
    have hready : Ready cfg (n + 1) (shares ++ [(job.jobId, nonce)]) d' e :=
      ⟨⟨hsubmitted, hmidway.told, hup rfl⟩, hidle⟩
    refine wp_update (wp_update (wp_call
      (keeps_maybeWriteHealthSnapshotIncremental bystander_ready cfg _ hready) ?_
      fun w hw => hw.composed hle'))
    exact fun _ w hw => wp_updateEnv (wp_pure ⟨_, _, d', hle', bystander_ready.addLog _ hw⟩)
  · exact wp_update (wp_updateEnv (wp_pure ⟨_, _, hle', bystander_midway.addLog _ hmidway⟩))

theorem wp_mineJob_composed {job : StratumJob} (h : Ready cfg (n + 1) shares d w.env)
    (hle : shares.length ≤ n) (hjob : d.delivered.getLast? = some job)
    (hserved : ∀ nonce, Served (shares ++ [(job.jobId, nonce)]) w.env.trace) :
    wp (mineJob cfg client job) (RoundComposed cfg) (fun w => Composed cfg w.env) w := by
  have hle' : shares.length ≤ n + 1 := Nat.le_succ_of_le hle
  have haloof : Aloof fun e => Ready cfg (n + 1) shares d e ∧
      ∀ nonce, Served (shares ++ [(job.jobId, nonce)]) e.trace := by
    have hserved : PerConnection fun e =>
        ∀ nonce, Served (shares ++ [(job.jobId, nonce)]) e.trace := by
      refine @PerConnection.of_history
        (fun t => ∀ nonce, Served (shares ++ [(job.jobId, nonce)]) t) ?_
      exact fun _ _ _ h nonce hpool => h nonce (along_concat.1 hpool).1
    exact { toStable := aloof_ready.toStable.and hserved.toStable
            hashed := fun _ _ h => ⟨aloof_ready.hashed _ _ h.1, hserved.observe _ rfl h.2⟩
            counted := fun _ _ h => ⟨aloof_ready.counted _ _ h.1, hserved.observe _ rfl h.2⟩
            addLog := fun entry h => ⟨aloof_ready.addLog entry h.1, h.2⟩ }
  refine wp_update (wp_updateEnv (wp_callEnv (wp_and (keeps_mineWith haloof doubleSha256 _ _
    (haloof.addLog _ ⟨h, hserved⟩)) wp_mineWith_found) ?_ fun e he => he.1.1.composed hle'))
  rintro result e ⟨⟨hready, hserved⟩, hfound⟩
  refine wp_ite (fun _ => wp_pure (hready.composed hle')) fun _ => wp_ite (fun _ => ?_) fun hf => ?_
  · exact wp_updateEnv (wp_pure ⟨_, _, d, hle', bystander_ready.addLog _ hready⟩)
  · refine wp_submitFound_composed hready hle hjob (validShare_iff.2 (hfound ?_)) (hserved _)
    simpa using hf

theorem wp_sessionRound_composed (h : Ready cfg n shares d w.env) (hle : shares.length ≤ n) :
    wp (sessionRound cfg client ()) (RoundComposed cfg) (fun w => Composed cfg w.env) w := by
  refine wp_call (keeps_loadStopAside bystander_ready w h) ?_ fun w hw => hw.composed hle
  intro stop w h
  refine wp_read (wp_ite (fun _ => ?_) fun _ => ?_)
  · refine wp_callEnv (wp_waitForJob_composed client hle h.1 h.2) ?_
      fun e he => ⟨n, shares, hle, he⟩
    intro job e he
    cases job with
    | none =>
      have hmidway : Composed cfg (w.setEnv e).env := ⟨n, shares, hle, he⟩
      refine wp_call (keeps_loadStopAside bystander_composed _ hmidway) ?_ fun _ hw => hw
      intro stop w hw
      exact wp_ite (fun _ => wp_pure hw) fun _ =>
        wp_updateEnv (wp_pure (bystander_composed.addLog _ hw))
    | some job => exact wp_mineJob_composed ⟨he.1, he.2.1⟩ hle List.getLast?_concat he.2.2
  · exact wp_updateEnv (wp_pure (bystander_composed.addLog _ (h.composed hle)))

/-- What a history says of what was written and of what the pool told, apart from the books. -/
def WithinStep (cfg : MinerConfig) (e : Env) : Prop :=
  ∃ n shares, shares.length ≤ n ∧ written e.trace <+: wire (sessionLines cfg shares) ∧
    Told n e.trace ∧ Served shares e.trace

theorem composed_iff : Composed cfg e ↔ Booked cfg e ∧ WithinStep cfg e := by
  constructor
  · rintro ⟨n, shares, hle, h⟩
    exact ⟨h.booked, n, shares, hle, h.within, h.told⟩
  · rintro ⟨hbooked, n, shares, hle, hwithin, htold⟩
    exact ⟨n, shares, hle, hbooked, hwithin, htold⟩

theorem unmoved_withinStep : Unmoved (WithinStep cfg) := by
  have hobserve : ∀ {e : Env} {o : Obs}, o ≠ .connected → written (e.observe o).trace =
      written e.trace → WithinStep cfg e → WithinStep cfg (e.observe o) := by
    rintro e o ho hwritten ⟨n, shares, hle, hwithin, htold, hserved⟩
    exact ⟨n, shares, hle, hwritten ▸ hwithin, htold.concat ho,
      fun hpool => hserved (along_concat.1 hpool).1⟩
  exact {
    signal := fun h => hobserve nofun (written_signal _) h
    arrive := fun bytes h => hobserve nofun (written_arrive _ bytes) h
    observe := fun o ho h => hobserve (fun hc => by rw [hc] at ho; cases ho)
      (written_observe ho _) h
    disconnect := fun h => h
    addLog := fun _ h => h }

/-- A connection that has just been made. -/
structure Fresh (cfg : MinerConfig) (e : Env) : Prop where
  idle : Idle (poolUsername cfg) (ValidShare cfg) {} e
  wired : Wired [] e
  nextId : e.nextId = 1
  up : Up e

theorem wp_connectToPool_composed (h : Composed cfg e) (hn : e.nextId = 1) :
    wp client.connectToPool (fun ok e => if ok then Fresh cfg e else Composed cfg e)
      (Composed cfg) e := by
  have h' := composed_iff.1 h
  have hbooks : wp client.connectToPool (fun ok e => if ok then
      Idle (poolUsername cfg) (ValidShare cfg) {} e else Booked cfg e) (Booked cfg) e := by
    refine wp_connectToPool client h'.1 hn (fun _ h => h) fun e h => ?_
    exact ⟨1, h, .init _⟩
  have hkept := wp_connectToPool_kept client unmoved_withinStep h'.2
  refine wp_mono (wp_and hbooks (wp_and (wp_connectToPool_wired rfl hn) hkept)) ?_ ?_
  · rintro (_ | _) e' ⟨hbooked, hwired, hwithinStep⟩
    · exact composed_iff.2 ⟨hbooked, hwithinStep rfl⟩
    · exact ⟨hbooked, hwired.1.1, hwired.1.2, hwired.2⟩
  · exact fun e' h => composed_iff.2 ⟨h.1, h.2.2⟩

theorem wp_startStratumSession_composed (h : Composed cfg w.env) (hn : w.env.nextId = 1) :
    wp (startStratumSession cfg client)
      (fun ok w => if ok then ∃ d, Ready cfg 0 [] d w.env else Composed cfg w.env)
      (fun w => Composed cfg w.env) w := by
  have htold : ∀ t, Told 0 t ∧ Served [] t := fun t => ⟨told_zero t, fun _ => rfl⟩
  have hlines : sessionLines cfg [] = [Request.line 1 (.subscribe userAgent),
      Request.line 2 (.authorize (poolUsername cfg) cfg.poolPassword)] := rfl
  have hcomposed : ∀ {e}, Midway cfg 0 [] e → Composed cfg e := fun h => ⟨0, [], le_rfl, h⟩
  refine wp_callEnv (wp_connectToPool_composed h hn) ?_ fun _ h => h
  intro ok e h
  refine wp_ite (fun hok => ?_) fun hok => ?_
  · subst hok
    have h : Fresh cfg e := h
    refine wp_callEnv (wp_request_composed client (.subscribe userAgent) h.wired h.nextId h.up
      (htold _) (hlines ▸ List.prefix_append _ _) (wp_subscribe client h.idle)) ?_
      fun _ h => hcomposed h
    rintro ok e ⟨hmidway, hwired, hn, hup, hsettled⟩
    refine wp_ite (fun hok => ?_) fun _ => wp_pure (hcomposed hmidway)
    subst hok
    obtain ⟨d, hidle⟩ := hsettled
    refine wp_callEnv (wp_request_composed client (.authorize (poolUsername cfg) cfg.poolPassword)
      hwired hn (hup rfl) (htold _) (hlines ▸ List.prefix_refl _) (wp_authorize client hidle)) ?_
      fun _ h => hcomposed h
    rintro ok e ⟨hmidway, hwired, hn, hup, hsettled⟩
    refine wp_ite (fun hok => ?_) fun _ => wp_pure (hcomposed hmidway)
    subst hok
    obtain ⟨d, hidle⟩ := hsettled
    have hready : Ready cfg 0 [] d e := ⟨⟨⟨hlines ▸ hwired, hn⟩, htold _, hup rfl⟩, hidle⟩
    exact wp_updateEnv (wp_pure ⟨d, bystander_ready.addLog _ hready⟩)
  · rw [Bool.eq_false_of_not_eq_true hok] at h
    exact wp_pure h

theorem keeps_runStratumSession_composed :
    Keeps (fun w => Composed cfg w.env) (runStratumSession cfg) := by
  intro w h
  have hnew : Composed cfg w.env.newClient := by
    obtain ⟨n, shares, hle, hmidway⟩ := h
    exact ⟨n, shares, hle, hmidway.booked.newClient, hmidway.within, hmidway.told⟩
  refine wp_updateEnv (wp_call (wp_startStratumSession_composed hnew rfl) ?_ fun _ hR => hR)
  intro ok w h
  refine wp_ite (fun hok => ?_) fun hok => wp_pure ?_
  · subst hok
    obtain ⟨d, hready⟩ := h
    refine wp_loop (I := fun _ w => ∃ n shares d, shares.length ≤ n ∧ Ready cfg n shares d w.env)
      ⟨0, [], d, le_rfl, hready⟩ ?_ ?_
    · rintro _ w ⟨n, shares, d, hle, h⟩
      refine wp_mono (wp_sessionRound_composed h hle) (fun r w h => ?_) fun _ hR => hR
      cases r with
      | inl _ => exact h
      | inr rc => exact h
    · rintro _ w ⟨n, shares, d, hle, h⟩
      exact h.composed hle
  · rw [Bool.eq_false_of_not_eq_true hok] at h
    exact h

end Session

/-! ## Runs -/

theorem composed_init (cfg : MinerConfig) : Composed cfg {} :=
  ⟨0, [], le_rfl, Ledger.init, List.nil_prefix, told_zero _, fun _ => rfl⟩

theorem run_composed (cfg : MinerConfig) (events : List Event) :
    Composed cfg ((runStratumLoop cfg).run {} events).state.env := by
  refine (keeps_runStratumLoop bystander_composed cfg keeps_runStratumSession_composed ?_ {}
    (composed_init cfg)).state events
  rintro e rc ⟨n, shares, hle, h⟩
  have hwritten : written (e.observe (.sessionEnded rc)).trace = written e.trace :=
    written_observe rfl _
  exact ⟨n, shares, hle, h.booked.aside rfl, hwritten ▸ h.within,
    (perConnection_told n shares).observe _ rfl h.told⟩

/-- **The miner and the fake pool, in step.** In every state of every run in which the other end of
each connection is the fake pool: the jobs that have been delivered on the current connection are
the first ones that the pool announces, without a gap or a repetition; what has been written is the
beginning of the lines of a session, up to some byte; its shares are for those jobs, one for each
and in their order; and the pool is never ahead of them by more than one job. -/
theorem pool_and_miner_in_step (cfg : MinerConfig) (events : List Event)
    (hpool : Along FromPool ((runStratumLoop cfg).run {} events).state.env.trace) :
    ∃ shares, written ((runStratumLoop cfg).run {} events).state.env.trace <+:
        wire (sessionLines cfg shares) ∧
      ForJobs shares ∧
      ((runStratumLoop cfg).run {} events).state.env.conn.delivered = poolJobs
        ((runStratumLoop cfg).run {} events).state.env.conn.delivered.length ∧
      shares.length ≤ ((runStratumLoop cfg).run {} events).state.env.conn.delivered.length ∧
      ((runStratumLoop cfg).run {} events).state.env.conn.delivered.length ≤ shares.length + 1 := by
  obtain ⟨n, shares, hle, h⟩ := run_composed cfg events
  obtain ⟨hjobs, hleast, hmost⟩ := h.inStep hle hpool
  exact ⟨shares, h.within, h.told.2 hpool, hjobs, hle.trans hleast, hmost⟩

/-- The bytes that arrived, if some did. -/
def Obs.arrival : Obs → Option Bytes
  | .arrived bytes => some bytes
  | _ => none

instance (t : List Obs) (o : Obs) : Decidable (FromPool t o) :=
  decidable_of_iff (∀ bytes ∈ o.arrival,
    (connection t).arrived.flatten ++ bytes <+: poolOutput (written t)) (by
      cases o <;> simp [FromPool, Obs.arrival])

/-- A session with the pool, up to the delivery of the first job. -/
def firstJobScript : List Event :=
  [.load, .resolve 1, .dial true]
    ++ answerScript (subscribeRequest 1 userAgent) (jsonResp 1 subscription)
    ++ answerScript (authorizeRequest 2 (poolUsername scriptConfig) scriptConfig.poolPassword)
      (jsonResp 2 (str "true"))
    ++ [.load] ++ sayScript (notify 1) ++ waitScript (notify 1)

theorem pool_and_miner_in_step_firstJob :
    ∃ shares, written ((runStratumLoop scriptConfig).run {} firstJobScript).state.env.trace <+:
        wire (sessionLines scriptConfig shares) ∧
      ForJobs shares ∧ shares.length ≤ 1 ∧
      ((runStratumLoop scriptConfig).run {} firstJobScript).state.env.conn.delivered =
        [poolJob 1] := by
  have hrun : Along FromPool
        ((runStratumLoop scriptConfig).run {} firstJobScript).state.env.trace ∧
      ((runStratumLoop scriptConfig).run {} firstJobScript).state.env.conn.delivered =
        [poolJob 1] := by
    decide +kernel
  obtain ⟨shares, hwithin, hfor, -, hle, -⟩ :=
    pool_and_miner_in_step scriptConfig firstJobScript hrun.1
  rw [hrun.2] at hle
  exact ⟨shares, hwithin, hfor, hle, hrun.2⟩

end HermitMiner
