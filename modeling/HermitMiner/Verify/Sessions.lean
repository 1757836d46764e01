import HermitMiner.Verify.Mine

/-!
# The loop over sessions

What `run_stratum_session` and `run_stratum_loop` do to the counters, the backoff and the history
of sessions, whatever the pool, the clock, the scheduler and the stop signal do.

* `Tallied`: the counters agree with the history of sessions.
* `Disciplined`: what is known when a session starts, sleeps are slept and counters are shown.
* `wp_runStratumSession`: one session, by its return code.
* `LoopInv`, `wp_loopRound`: one round of the loop over sessions.
* `wp_runStratumLoop`: a whole run.
-/

namespace HermitMiner

open Oracle

/-! ## Calm stretches -/

/-- From `e₀` to `e` only the client and the workers were at work. -/
structure Calm (e₀ e : Env) : Prop where
  sessions : sessions e.trace = sessions e₀.trace
  stop : e₀.stopRequested = true → e.stopRequested = true
  along : ∀ P : List Obs → Obs → Prop, (∀ t o, Obs.isInert o = true → P t o) →
    Along P e₀.trace → Along P e.trace

theorem Sessions.step_of_isInert {o : Obs} (ho : o.isInert = true) (s : Sessions) :
    s.step o = s := by
  cases o with
  | accepted id jobId nonce => cases ho
  | sessionStarted => cases ho
  | sessionEnded rc => cases ho
  | slept sec => cases ho
  | summary stats cyclesDone => cases ho
  | _ => rfl

theorem Calm.refl (e : Env) : Calm e e := ⟨rfl, id, fun _ _ h => h⟩

theorem Calm.concat {e₀ e e' : Env} {o : Obs} (h : Calm e₀ e) (ho : o.isInert = true)
    (htrace : e'.trace = e.trace ++ [o]) (hstop : e.stopRequested = true → e'.stopRequested = true) :
    Calm e₀ e' where
  sessions := by rw [htrace, sessions_concat, Sessions.step_of_isInert ho, h.sessions]
  stop := fun h₀ => hstop (h.stop h₀)
  along := fun P hP h₀ => by
    rw [htrace, along_concat]
    exact ⟨h.along P hP h₀, hP _ _ ho⟩

theorem inert_calm (e₀ : Env) : Inert (Calm e₀) where
  signal h := h.concat rfl rfl fun _ => rfl
  arrive _ h := h.concat rfl rfl id
  observe _ ho h := h.concat ho rfl id
  pop _ _ h := h.concat rfl rfl id
  connect h := h.concat rfl rfl id
  disconnect h := ⟨h.sessions, h.stop, h.along⟩
  takeId h := ⟨h.sessions, h.stop, h.along⟩
  newClient h := ⟨h.sessions, h.stop, h.along⟩
  addLog _ h := ⟨h.sessions, h.stop, h.along⟩

section Rules

variable {α : Type} {w : Miner}

/-- A call of the client. -/
theorem wp_calm {m : Sys α} {Q : α → Miner → Prop} {R : Miner → Prop}
    (hm : Keeps (Calm w.env) m) (hR : ∀ e, Calm w.env e → R (w.setEnv e))
    (hQ : ∀ a e, Calm w.env e → Q a (w.setEnv e)) : wp (onEnv m) Q R w :=
  wp_onEnv (wp_mono (hm w.env (Calm.refl _)) hQ hR)

theorem wp_calmLoadStop {Q : Bool → Miner → Prop} {R : Miner → Prop}
    (hR : ∀ e, Calm w.env e → R (w.setEnv e))
    (hQ : ∀ e, Calm w.env e → Q e.stopRequested (w.setEnv e)) : wp (onEnv loadStop) Q R w :=
  wp_onEnv (wp_loadStop (inert_calm w.env).toStable (Calm.refl _) hR hQ)

theorem wp_logStratum {cfg : MinerConfig} {level : LogLevel} {message context : Bytes}
    {Q : Unit → Miner → Prop} {R : Miner → Prop}
    (hQ : ∀ entry, Q () (w.setEnv (w.env.addLog entry))) :
    wp (logStratum cfg level message context) Q R w :=
  wp_onEnv (wp_modify (hQ _))

end Rules

/-! ## The counters -/

/-- The counters agree with the history of sessions, of which `unreported` submits have failed in
a session that has not returned yet. -/
structure Tallied (cfg : MinerConfig) (unreported : Nat) (s : Sessions) (stats : SessionStats)
    (cyclesDone : UInt32) : Prop where
  shares : stats.sharesFound = stats.submitsAttempted
  submits : stats.submitsAttempted = stats.acceptedCount + stats.submitFailures
  jobs : stats.sharesFound ≤ stats.jobsReceived
  events : stats.reconnectEvents = stats.sessionFailures
  submitFailures : stats.submitFailures ≤ stats.sessionFailures + unreported
  failures : stats.sessionFailures = s.failures.length
  codes : ∀ rc ∈ s.failures, rc = 4 ∨ rc = 6 ∨ rc = 8
  lastRc : stats.lastFailureRc = s.failures.getLast?.getD 0
  accepted : stats.acceptedCount = s.accepted.length
  lastJob : stats.lastJobId = (s.accepted.getLast?.map (·.2.1)).getD (str "none")
  cycles : cyclesDone.toNat = stats.acceptedCount % 2 ^ 32
  limit : 0 < cfg.poolMaxCycles →
    stats.acceptedCount = cyclesDone.toNat ∧ cyclesDone ≤ cfg.poolMaxCycles

/-- The stop was requested, or the cycles are done: no loop starts another round. -/
def Over (cfg : MinerConfig) (w : Miner) : Prop :=
  w.env.stopRequested = true ∨ belowCycleLimit cfg w.cyclesDone = false

/-- The backoff after `k` failed sessions in a row. -/
def backoffAfter (cfg : MinerConfig) (k : Nat) : UInt32 := (backoffNext cfg)^[k] (backoffInitial cfg)

/-- What each observation about sessions says of the history before it. -/
def Disciplined (cfg : MinerConfig) (t : List Obs) : Obs → Prop
  | .sessionStarted =>
    (sessions t).finished = 0 ∧
      (0 < cfg.poolMaxReconnectAttempts →
        (sessions t).started < cfg.poolMaxReconnectAttempts.toNat)
  | .slept sec =>
    (sessions t).failures ≠ [] ∧ sec = backoffAfter cfg ((sessions t).failures.length - 1)
  | .snapshot stats cyclesDone _ | .summary stats cyclesDone =>
    Tallied cfg 0 (sessions t) stats cyclesDone
  | _ => True

theorem disciplined_of_isInert {cfg : MinerConfig} (t : List Obs) (o : Obs)
    (ho : o.isInert = true) : Disciplined cfg t o := by
  cases o with
  | sessionStarted => cases ho
  | slept sec => cases ho
  | snapshot stats cyclesDone text => cases ho
  | summary stats cyclesDone => cases ho
  | _ => trivial

namespace Tallied

variable {cfg : MinerConfig} {n : Nat} {s : Sessions} {stats : SessionStats} {c : UInt32}

theorem init : Tallied cfg 0 {} {} 0 where
  shares := rfl
  submits := rfl
  jobs := Nat.le_refl _
  events := rfl
  submitFailures := Nat.le_refl _
  failures := rfl
  codes := fun _ h => by simp at h
  lastRc := rfl
  accepted := rfl
  lastJob := rfl
  cycles := rfl
  limit := fun _ => ⟨rfl, UInt32.zero_le⟩

theorem jobReceived (h : Tallied cfg n s stats c) :
    Tallied cfg n s stats.jobReceived c :=
  { h with jobs := Nat.le_succ_of_le h.jobs }

/-- A share that was found and accepted. -/
theorem shareAccepted (h : Tallied cfg n s stats c) (hjobs : stats.sharesFound < stats.jobsReceived)
    (hlimit : belowCycleLimit cfg c = true) (id : Nat) (jobId : Bytes) (nonce : UInt32) :
    Tallied cfg n (s.step (.accepted id jobId nonce)) (stats.shareFound.shareAccepted jobId)
      (c + 1) where
  shares := congrArg Nat.succ h.shares
  submits := by
    have := h.submits
    simp only [SessionStats.shareFound, SessionStats.shareAccepted]
    omega
  jobs := hjobs
  events := h.events
  submitFailures := h.submitFailures
  failures := h.failures
  codes := h.codes
  lastRc := h.lastRc
  accepted := by simp [Sessions.step, SessionStats.shareFound, SessionStats.shareAccepted, h.accepted]
  lastJob := by simp [Sessions.step, SessionStats.shareAccepted]
  cycles := by
    have := h.cycles
    simp only [SessionStats.shareFound, SessionStats.shareAccepted, UInt32.toNat_add,
      UInt32.reduceToNat]
    omega
  limit := by
    intro hmax
    obtain ⟨hc, -⟩ := h.limit hmax
    have hlt : c < cfg.poolMaxCycles := by
      have hne : cfg.poolMaxCycles ≠ 0 := fun h0 => by simp [h0] at hmax
      simpa [belowCycleLimit, hne] using hlimit
    have hlt' := UInt32.lt_iff_toNat_lt.1 hlt
    have hbound := cfg.poolMaxCycles.toNat_lt
    refine ⟨?_, UInt32.le_iff_toNat_le.2 ?_⟩
    · simp only [SessionStats.shareFound, SessionStats.shareAccepted, UInt32.toNat_add,
        UInt32.reduceToNat, hc]
      omega
    · simp only [UInt32.toNat_add, UInt32.reduceToNat]
      omega

/-- A share that was found and not accepted. -/
theorem submitFailed (h : Tallied cfg n s stats c)
    (hjobs : stats.sharesFound < stats.jobsReceived) :
    Tallied cfg (n + 1) s stats.shareFound.submitFailed c :=
  { h with
    shares := congrArg Nat.succ h.shares
    submits := by
      have := h.submits
      simp only [SessionStats.shareFound, SessionStats.submitFailed]
      omega
    jobs := hjobs
    submitFailures := Nat.succ_le_succ h.submitFailures }

theorem weaken (h : Tallied cfg n s stats c) : Tallied cfg (n + 1) s stats c :=
  { h with submitFailures := Nat.le_succ_of_le h.submitFailures }

/-- A session that returned a failure. -/
theorem sessionFailed (h : Tallied cfg 1 s stats c) {rc : Int} (hrc : rc = 4 ∨ rc = 6 ∨ rc = 8) :
    Tallied cfg 0 (s.step (.sessionEnded rc)) (stats.sessionFailed rc) c := by
  have hne : rc ≠ 0 := by omega
  have hstep : s.step (.sessionEnded rc) =
      { s with failures := s.failures ++ [rc], justFailed := true, justSlept := false } := by
    simp [Sessions.step, hne]
  rw [hstep]
  exact { h with
    events := congrArg Nat.succ h.events
    failures := by simp [SessionStats.sessionFailed, h.failures]
    codes := by
      intro rc' hrc'
      rcases List.mem_append.1 hrc' with hmem | hmem
      · exact h.codes rc' hmem
      · rw [List.mem_singleton.1 hmem]
        exact hrc
    lastRc := by simp [SessionStats.sessionFailed] }

theorem sessionStarted (h : Tallied cfg n s stats c) :
    Tallied cfg n (s.step .sessionStarted) stats c := { h with }

theorem sessionFinished (h : Tallied cfg n s stats c) :
    Tallied cfg n (s.step (.sessionEnded 0)) stats c := { h with }

theorem slept (h : Tallied cfg n s stats c) (sec : UInt32) :
    Tallied cfg n (s.step (.slept sec)) stats c := { h with }

end Tallied

/-! ## One session -/

/-- In every state of a run the history is disciplined, and every accepted share is counted. -/
structure Tracked (cfg : MinerConfig) (w : Miner) : Prop where
  along : Along (Disciplined cfg) w.env.trace
  accepted : w.stats.acceptedCount = (sessions w.env.trace).accepted.length

/-- From `e₀` to `e` nothing happened to a session, and the history stayed disciplined. -/
structure Quiet (cfg : MinerConfig) (e₀ e : Env) : Prop where
  sessions : sessions e.trace = sessions e₀.trace
  stop : e₀.stopRequested = true → e.stopRequested = true
  along : Along (Disciplined cfg) e.trace

theorem Calm.quiet {cfg : MinerConfig} {e₀ e : Env} (h : Calm e₀ e)
    (h₀ : Along (Disciplined cfg) e₀.trace) : Quiet cfg e₀ e :=
  ⟨h.sessions, h.stop, h.along _ disciplined_of_isInert h₀⟩

theorem Quiet.refl {cfg : MinerConfig} {e : Env} (h : Along (Disciplined cfg) e.trace) :
    Quiet cfg e e := ⟨rfl, id, h⟩

theorem Tracked.quiet {cfg : MinerConfig} {w : Miner} {e : Env} (h : Tracked cfg w)
    (he : Quiet cfg w.env e) : Tracked cfg (w.setEnv e) :=
  ⟨he.along, h.accepted.trans (by rw [← he.sessions]; rfl)⟩

theorem Tracked.calm {cfg : MinerConfig} {w : Miner} {e : Env} (h : Tracked cfg w)
    (he : Calm w.env e) : Tracked cfg (w.setEnv e) := h.quiet (he.quiet h.along)

/-- During a session: `s₀` is the history of sessions when it started. -/
structure AtWork (cfg : MinerConfig) (s₀ : Sessions) (unreported : Nat) (w : Miner) : Prop where
  along : Along (Disciplined cfg) w.env.trace
  within : sessions w.env.trace = { s₀ with
    accepted := (sessions w.env.trace).accepted
    acceptedHere := (sessions w.env.trace).acceptedHere }
  tallied : Tallied cfg unreported (sessions w.env.trace) w.stats w.cyclesDone

theorem AtWork.tracked {cfg : MinerConfig} {s₀ : Sessions} {n : Nat} {w : Miner}
    (h : AtWork cfg s₀ n w) : Tracked cfg w := ⟨h.along, h.tallied.accepted⟩

theorem AtWork.quiet {cfg : MinerConfig} {s₀ : Sessions} {n : Nat} {w : Miner} {e : Env}
    (h : AtWork cfg s₀ n w) (he : Quiet cfg w.env e) : AtWork cfg s₀ n (w.setEnv e) where
  along := he.along
  within := by
    have := h.within
    rw [← he.sessions] at this
    exact this
  tallied := by
    have := h.tallied
    rw [← he.sessions] at this
    exact this

/-- How a session ends. -/
def SessionEnd (cfg : MinerConfig) (s₀ : Sessions) (rc : Int) (w : Miner) : Prop :=
  (rc = 0 ∧ AtWork cfg s₀ 0 w ∧ Over cfg w) ∨
    ((rc = 4 ∨ rc = 6 ∨ rc = 8) ∧ AtWork cfg s₀ 1 w ∧ belowCycleLimit cfg w.cyclesDone = true)

/-- How a round of a session ends. -/
def RoundEnd (cfg : MinerConfig) (s₀ : Sessions) (r : Unit ⊕ Int) (w : Miner) : Prop :=
  Sum.elim (fun _ => AtWork cfg s₀ 0 w) (fun rc => SessionEnd cfg s₀ rc w) r

section Session

variable {cfg : MinerConfig} {s₀ : Sessions} {w : Miner}

theorem wp_quiet {α : Type} {m : Sys α} {Q : α → Miner → Prop}
    (hm : Keeps (Calm w.env) m) (h : Tracked cfg w)
    (hQ : ∀ a e, Quiet cfg w.env e → Q a (w.setEnv e)) : wp (onEnv m) Q (Tracked cfg) w :=
  wp_calm hm (fun _ he => h.calm he) fun a e he => hQ a e (he.quiet h.along)

theorem quiet_addLog {e₀ e : Env} (h : Quiet cfg e₀ e) (entry : LogEntry) :
    Quiet cfg e₀ (e.addLog entry) := ⟨h.sessions, h.stop, h.along⟩

theorem Quiet.trans {e₁ e₂ e₃ : Env} (h : Quiet cfg e₁ e₂) (h' : Quiet cfg e₂ e₃) :
    Quiet cfg e₁ e₃ := ⟨h'.sessions.trans h.sessions, fun h₁ => h'.stop (h.stop h₁), h'.along⟩

/-- A snapshot shows counters that agree with the sessions. -/
theorem wp_writeHealthSnapshot {readinessStatus : Bytes} {durationSec : Nat}
    {acceptedPerMin : Bytes} {Q : Unit → Miner → Prop} (h : Tracked cfg w)
    (ht : Tallied cfg 0 (sessions w.env.trace) w.stats w.cyclesDone)
    (hQ : ∀ e, Quiet cfg w.env e → Q () (w.setEnv e)) :
    wp (writeHealthSnapshot cfg readinessStatus durationSec acceptedPerMin) Q (Tracked cfg) w := by
  refine wp_ite (fun _ => wp_pure (hQ w.env (Quiet.refl h.along))) fun _ => ?_
  refine wp_bind (wp_quiet (keeps_openFile (inert_calm _).all) h ?_)
  intro ok e he
  refine wp_ite (fun _ => ?_) fun _ => ?_
  · refine wp_read (wp_onEnv (wp_modify (hQ _ ⟨?_, he.stop, ?_⟩)))
    · exact (sessions_concat _ _).trans he.sessions
    · refine along_concat.2 ⟨he.along, ?_⟩
      have ht' := ht
      rw [← he.sessions] at ht'
      exact ht'
  · exact wp_onEnv (wp_modify (hQ _ (quiet_addLog he _)))

theorem wp_maybeWriteHealthSnapshotIncremental {Q : Unit → Miner → Prop} (h : Tracked cfg w)
    (ht : Tallied cfg 0 (sessions w.env.trace) w.stats w.cyclesDone)
    (hQ : ∀ e, Quiet cfg w.env e → Q () (w.setEnv e)) :
    wp (maybeWriteHealthSnapshotIncremental cfg) Q (Tracked cfg) w := by
  refine wp_ite (fun _ => wp_pure (hQ w.env (Quiet.refl h.along))) fun _ => ?_
  refine wp_bind (wp_quiet (keeps_clock (inert_calm _).all) h fun p e he => wp_read ?_)
  refine wp_writeHealthSnapshot (h.quiet he) ?_ fun e' he' => hQ e' (he.trans he')
  have ht' := ht
  rw [← he.sessions] at ht'
  exact ht'

theorem wp_startStratumSession {client : StratumClient} (h : AtWork cfg s₀ 0 w) :
    wp (startStratumSession cfg client)
      (fun _ w' => AtWork cfg s₀ 0 w' ∧ w'.cyclesDone = w.cyclesDone) (Tracked cfg) w := by
  refine wp_bind (wp_quiet (keeps_connectToPool (inert_calm _).all client) h.tracked ?_)
  intro ok e he
  refine wp_ite (fun _ => ?_) fun _ => wp_pure ⟨h.quiet he, rfl⟩
  refine wp_bind (wp_quiet (keeps_subscribe (inert_calm _).all client fun _ => trivial) (h.quiet he).tracked ?_)
  intro ok e' he'
  refine wp_ite (fun _ => ?_) fun _ => wp_pure ⟨(h.quiet he).quiet he', rfl⟩
  refine wp_bind (wp_quiet (keeps_authorize (inert_calm _).all client fun _ => trivial)
    ((h.quiet he).quiet he').tracked ?_)
  intro ok e'' he''
  have hdone := ((h.quiet he).quiet he').quiet he''
  refine wp_ite (fun _ => ?_) fun _ => wp_pure ⟨hdone, rfl⟩
  exact wp_bind (wp_logStratum fun entry =>
    wp_pure ⟨hdone.quiet (quiet_addLog (Quiet.refl hdone.along) entry), rfl⟩)

/-- A found share is accepted and counted, or its submit fails and ends the session. -/
theorem wp_submitFound {client : StratumClient} {jobId : Bytes} {nonce : UInt32}
    (h : AtWork cfg s₀ 0 w) (hjobs : w.stats.sharesFound < w.stats.jobsReceived)
    (hlimit : belowCycleLimit cfg w.cyclesDone = true) :
    wp (submitFound cfg client jobId nonce) (RoundEnd cfg s₀) (Tracked cfg) w := by
  refine wp_update (wp_callEnv (wp_submitShare_frame
    (inert_calm w.env) client (Calm.refl _) (Q := fun b e => ∃ e₁, Quiet cfg w.env e₁ ∧ if b = true
        then ∃ id, e.trace = e₁.trace ++ [.accepted id jobId nonce] ∧
          e.stopRequested = e₁.stopRequested
        else e.trace = e₁.trace ∧ e.stopRequested = e₁.stopRequested)
    (fun e he => ⟨e, he.quiet h.along, by simp⟩)
    (fun id e he => ⟨e, he.quiet h.along, by simp⟩) ?_) ?_ ?_)
  · intro b entry e he
    exact he
  · rintro b e ⟨e₁, he₁, hb⟩
    have h₁ := h.quiet he₁
    refine wp_ite ?_ ?_
    · intro htrue
      -- accepted: the history of sessions grows by the share before the counters follow
      rw [if_pos htrue] at hb
      obtain ⟨id, htrace, hstop⟩ := hb
      have hsessions : sessions e.trace = (sessions e₁.trace).step (.accepted id jobId nonce) := by
        rw [htrace, sessions_concat]
      have halong : Along (Disciplined cfg) e.trace := by
        rw [htrace]
        exact along_concat.2 ⟨he₁.along, trivial⟩
      have htallied : Tallied cfg 0 (sessions e.trace) (w.stats.shareFound.shareAccepted jobId)
          (w.cyclesDone + 1) := by
        rw [hsessions]
        exact h₁.tallied.shareAccepted hjobs hlimit id jobId nonce
      have hwork : AtWork cfg s₀ 0
          ⟨e, w.stats.shareFound.shareAccepted jobId, w.cyclesDone + 1⟩ := by
        refine ⟨halong, ?_, htallied⟩
        have hwithin := h₁.within
        dsimp only [Miner.setEnv] at hwithin
        dsimp only
        rw [hsessions, Sessions.step, hwithin]
      refine wp_update (wp_update (wp_bind
        (wp_maybeWriteHealthSnapshotIncremental hwork.tracked hwork.tallied fun e' he' =>
          wp_bind (wp_logStratum fun entry => wp_pure ?_))))
      exact (hwork.quiet he').quiet (quiet_addLog (Quiet.refl he'.along) entry)
    · intro hfalse
      rw [if_neg hfalse] at hb
      have hquiet : Quiet cfg w.env e :=
        ⟨by rw [hb.1]; exact he₁.sessions, fun h₀ => by rw [hb.2]; exact he₁.stop h₀,
          by rw [hb.1]; exact he₁.along⟩
      have h₂ := h.quiet hquiet
      refine wp_update (wp_bind (wp_logStratum fun entry => wp_pure ?_))
      refine Or.inr ⟨by omega, ?_, hlimit⟩
      exact ⟨h₂.along, h₂.within, h₂.tallied.submitFailed hjobs⟩
  · have hfound : Tracked cfg (w.setStats SessionStats.shareFound) := ⟨h.along, h.tallied.accepted⟩
    exact fun e he => hfound.calm he

theorem wp_mineJob {client : StratumClient} {job : StratumJob} (h : AtWork cfg s₀ 0 w)
    (hlimit : belowCycleLimit cfg w.cyclesDone = true) :
    wp (mineJob cfg client job) (RoundEnd cfg s₀) (Tracked cfg) w := by
  have hjob : AtWork cfg s₀ 0 (w.setStats SessionStats.jobReceived) :=
    ⟨h.along, h.within, h.tallied.jobReceived⟩
  have hjobs : w.stats.sharesFound < w.stats.jobsReceived + 1 := Nat.lt_succ_of_le h.tallied.jobs
  refine wp_update (wp_bind (wp_logStratum fun entry => wp_bind ?_))
  have hlogged := hjob.quiet (quiet_addLog (Quiet.refl h.along) entry)
  refine wp_onEnv (wp_mono (wp_and (keeps_mineWith (inert_calm _).all.aloof doubleSha256 _ _
    (Calm.refl _)) wp_mineWith_aborted) ?_ fun e he => hlogged.tracked.calm he.1)
  rintro result e ⟨he, habort⟩
  have hmined := hlogged.quiet (he.quiet h.along)
  refine wp_ite ?_ fun _ => wp_ite (fun _ => ?_) fun _ => ?_
  · intro ha
    exact wp_pure (Or.inl ⟨rfl, hmined, Or.inl (habort ha)⟩)
  · exact wp_bind (wp_logStratum fun entry =>
      wp_pure (hmined.quiet (quiet_addLog (Quiet.refl hmined.along) entry)))
  · exact wp_submitFound hmined hjobs hlimit

theorem wp_sessionRound {client : StratumClient} (h : AtWork cfg s₀ 0 w) :
    wp (sessionRound cfg client ()) (RoundEnd cfg s₀) (Tracked cfg) w := by
  refine wp_bind (wp_calmLoadStop (fun e he => h.tracked.calm he) ?_)
  intro e he
  have hquiet : Quiet cfg w.env e := he.quiet h.along
  have h₁ := h.quiet hquiet
  refine wp_read (wp_ite ?_ ?_)
  · intro hgo
    have hlimit : belowCycleLimit cfg w.cyclesDone = true := (Bool.and_eq_true_iff.1 hgo).2
    refine wp_bind (wp_quiet (keeps_waitForJob (inert_calm _).all client _) h₁.tracked ?_)
    intro job e' he'
    have h₂ := h₁.quiet he'
    cases job with
    | none =>
      refine wp_bind (wp_calmLoadStop (fun e he => h₂.tracked.calm he) ?_)
      intro e'' he''
      have h₃ := h₂.quiet (he''.quiet h₂.along)
      refine wp_ite (fun hs => wp_pure (Or.inl ⟨rfl, h₃, Or.inl hs⟩)) fun _ => ?_
      refine wp_bind (wp_logStratum fun entry => wp_pure (Or.inr ⟨by omega, ?_, hlimit⟩))
      have h₄ := h₃.quiet (quiet_addLog (Quiet.refl h₃.along) entry)
      exact ⟨h₄.along, h₄.within, h₄.tallied.weaken⟩
    | some job => exact wp_mineJob h₂ hlimit
  · intro hstop
    refine wp_bind (wp_logStratum fun entry => wp_pure (Or.inl ⟨rfl, ?_, ?_⟩))
    · exact h₁.quiet (quiet_addLog (Quiet.refl h₁.along) entry)
    · cases hs : e.stopRequested with
      | true => exact Or.inl hs
      | false => exact Or.inr (by simpa [hs, Miner.setEnv] using hstop)

/-- **One session**: it returns 0 only when no loop goes on, and else 4, 6 or 8 before the limit of
cycles. -/
theorem wp_runStratumSession (h : AtWork cfg s₀ 0 w)
    (hlimit : belowCycleLimit cfg w.cyclesDone = true) :
    wp (runStratumSession cfg) (SessionEnd cfg s₀) (Tracked cfg) w := by
  have hnew : Quiet cfg w.env w.env.newClient := ⟨rfl, id, h.along⟩
  refine wp_updateEnv (wp_call (wp_startStratumSession (h.quiet hnew)) ?_ fun _ hR => hR)
  rintro ok w' ⟨h', hcycles⟩
  refine wp_ite (fun _ => ?_) fun _ => wp_pure (Or.inr ⟨Or.inl rfl, ?_, ?_⟩)
  · exact wp_loop (I := fun _ => AtWork cfg s₀ 0) h' (fun _ _ hI => wp_sessionRound hI)
      fun _ _ hI => hI.tracked
  · exact ⟨h'.along, h'.within, h'.tallied.weaken⟩
  · rw [hcycles]
    exact hlimit

end Session

/-! ## Rounds of the loop over sessions -/

/-- Between two rounds of the loop, with the backoff that the next failure will sleep. -/
structure LoopInv (cfg : MinerConfig) (backoffSec : UInt32) (w : Miner) : Prop where
  along : Along (Disciplined cfg) w.env.trace
  tallied : Tallied cfg 0 (sessions w.env.trace) w.stats w.cyclesDone
  started : (sessions w.env.trace).started =
    (sessions w.env.trace).failures.length + (sessions w.env.trace).finished
  cap : 0 < cfg.poolMaxReconnectAttempts →
    (sessions w.env.trace).failures.length < cfg.poolMaxReconnectAttempts.toNat
  slept : (sessions w.env.trace).sleeps.length = (sessions w.env.trace).failures.length
  rested : (sessions w.env.trace).justFailed = false
  reconnects : (sessions w.env.trace).reconnects + (sessions w.env.trace).justSlept.toNat =
    (sessions w.env.trace).sleeps.length
  next : ((sessions w.env.trace).finished = 0 ∧ belowCycleLimit cfg w.cyclesDone = true ∧
      backoffSec = backoffAfter cfg (sessions w.env.trace).failures.length) ∨
    ((sessions w.env.trace).finished = 1 ∧ Over cfg w)

/-- After a session failed with `rc`, before the loop decides whether to sleep. -/
structure Failed (cfg : MinerConfig) (backoffSec : UInt32) (rc : Int) (w : Miner) : Prop where
  along : Along (Disciplined cfg) w.env.trace
  tallied : Tallied cfg 0 (sessions w.env.trace) w.stats w.cyclesDone
  started : (sessions w.env.trace).started = (sessions w.env.trace).failures.length
  finished : (sessions w.env.trace).finished = 0
  last : (sessions w.env.trace).failures.getLast? = some rc
  cap : 0 < cfg.poolMaxReconnectAttempts →
    (sessions w.env.trace).failures.length ≤ cfg.poolMaxReconnectAttempts.toNat
  slept : (sessions w.env.trace).sleeps.length + 1 = (sessions w.env.trace).failures.length
  justFailed : (sessions w.env.trace).justFailed = true
  justSlept : (sessions w.env.trace).justSlept = false
  reconnects : (sessions w.env.trace).reconnects = (sessions w.env.trace).sleeps.length
  below : belowCycleLimit cfg w.cyclesDone = true
  backoff : backoffSec = backoffAfter cfg (sessions w.env.trace).sleeps.length

/-- How the loop is left. -/
structure LoopEnd (cfg : MinerConfig) (rc : Int) (w : Miner) : Prop where
  along : Along (Disciplined cfg) w.env.trace
  tallied : Tallied cfg 0 (sessions w.env.trace) w.stats w.cyclesDone
  success : rc = 0 → Over cfg w
  stopped : rc = 0 → (sessions w.env.trace).finished = 0 → w.env.stopRequested = true
  capped : rc ≠ 0 → 0 < cfg.poolMaxReconnectAttempts ∧
    (sessions w.env.trace).failures.length = cfg.poolMaxReconnectAttempts.toNat ∧
    (sessions w.env.trace).failures.getLast? = some rc ∧
    (sessions w.env.trace).justFailed = true
  slept : (sessions w.env.trace).sleeps.length + (sessions w.env.trace).justFailed.toNat =
    (sessions w.env.trace).failures.length
  reconnects : (sessions w.env.trace).reconnects + (sessions w.env.trace).justSlept.toNat =
    (sessions w.env.trace).sleeps.length

section Loop

variable {cfg : MinerConfig} {backoffSec : UInt32} {rc : Int} {w : Miner}

theorem LoopInv.init : LoopInv cfg (backoffInitial cfg) {} where
  along := along_nil
  tallied := .init
  started := rfl
  cap h := UInt32.lt_iff_toNat_lt.1 h
  slept := rfl
  rested := rfl
  reconnects := rfl
  next := Or.inl ⟨rfl, by
    by_cases h : cfg.poolMaxCycles = 0
    · simp [belowCycleLimit, h]
    · simp [belowCycleLimit, h, UInt32.pos_iff_ne_zero], rfl⟩

theorem LoopInv.tracked (h : LoopInv cfg backoffSec w) : Tracked cfg w :=
  ⟨h.along, h.tallied.accepted⟩

theorem Failed.tracked (h : Failed cfg backoffSec rc w) : Tracked cfg w :=
  ⟨h.along, h.tallied.accepted⟩

theorem LoopEnd.tracked (h : LoopEnd cfg rc w) : Tracked cfg w := ⟨h.along, h.tallied.accepted⟩

theorem LoopInv.quiet (h : LoopInv cfg backoffSec w) {e : Env} (he : Quiet cfg w.env e) :
    LoopInv cfg backoffSec (w.setEnv e) := by
  obtain ⟨-, htallied, hstarted, hcap, hslept, hrested, hreconnects, hnext⟩ := h
  rw [← he.sessions] at htallied hstarted hcap hslept hrested hreconnects hnext
  refine ⟨he.along, htallied, hstarted, hcap, hslept, hrested, hreconnects, ?_⟩
  rcases hnext with hnext | ⟨hfinished, hover⟩
  · exact Or.inl hnext
  · exact Or.inr ⟨hfinished, hover.imp_left he.stop⟩

theorem Failed.quiet (h : Failed cfg backoffSec rc w) {e : Env} (he : Quiet cfg w.env e) :
    Failed cfg backoffSec rc (w.setEnv e) := by
  obtain ⟨-, h₁, h₂, h₃, h₄, h₅, h₆, h₇, h₈, h₉, hbelow, hbackoff⟩ := h
  rw [← he.sessions] at h₁ h₂ h₃ h₄ h₅ h₆ h₇ h₈ h₉ hbackoff
  exact ⟨he.along, h₁, h₂, h₃, h₄, h₅, h₆, h₇, h₈, h₉, hbelow, hbackoff⟩

theorem LoopEnd.quiet (h : LoopEnd cfg rc w) {e : Env} (he : Quiet cfg w.env e) :
    LoopEnd cfg rc (w.setEnv e) := by
  obtain ⟨-, htallied, hover, hstopped, hcapped, hslept, hreconnects⟩ := h
  rw [← he.sessions] at htallied hstopped hcapped hslept hreconnects
  exact ⟨he.along, htallied, fun hrc => (hover hrc).imp_left he.stop,
    fun hrc hf => he.stop (hstopped hrc hf), hcapped, hslept, hreconnects⟩

/-- The loop is left at the cap of failed sessions. -/
theorem Failed.capped (h : Failed cfg backoffSec rc w) (hrc : rc ≠ 0)
    (hpos : 0 < cfg.poolMaxReconnectAttempts)
    (hcap : cfg.poolMaxReconnectAttempts.toNat ≤ w.stats.sessionFailures) : LoopEnd cfg rc w where
  along := h.along
  tallied := h.tallied
  success h0 := absurd h0 hrc
  stopped h0 := absurd h0 hrc
  capped _ :=
    ⟨hpos, Nat.le_antisymm (h.cap hpos) (hcap.trans_eq h.tallied.failures), h.last, h.justFailed⟩
  slept := by
    rw [h.justFailed]
    exact h.slept
  reconnects := by
    rw [h.justSlept, h.reconnects]
    rfl

/-- The loop is left for a stop request. -/
theorem Failed.stopped (h : Failed cfg backoffSec rc w) (hstop : w.env.stopRequested = true) :
    LoopEnd cfg 0 w where
  along := h.along
  tallied := h.tallied
  success _ := Or.inl hstop
  stopped _ _ := hstop
  capped h0 := absurd rfl h0
  slept := by
    rw [h.justFailed]
    exact h.slept
  reconnects := by
    rw [h.justSlept, h.reconnects]
    rfl

/-- The loop goes on after a sleep, and the backoff grows. -/
theorem Failed.slept' (h : Failed cfg backoffSec rc w)
    (hcap : 0 < cfg.poolMaxReconnectAttempts →
      w.stats.sessionFailures < cfg.poolMaxReconnectAttempts.toNat) :
    LoopInv cfg (backoffNext cfg backoffSec) (w.setEnv (w.env.observe (.slept backoffSec))) := by
  have hsessions : sessions (w.env.observe (.slept backoffSec)).trace =
      { sessions w.env.trace with
        sleeps := (sessions w.env.trace).sleeps ++ [backoffSec]
        justFailed := false, justSlept := true } := by
    rw [Env.observe_trace, sessions_concat, Sessions.step, h.justFailed]
  have hlen := h.slept
  have hnil : (sessions w.env.trace).failures ≠ [] := fun h0 => by simp [h0] at hlen
  constructor
  all_goals dsimp only [Miner.setEnv]
  · refine along_concat.2 ⟨h.along, hnil, ?_⟩
    rw [h.backoff, ← hlen, Nat.add_sub_cancel]
  · rw [hsessions]
    exact { h.tallied with }
  · rw [hsessions]
    exact h.started.trans (by rw [h.finished]; rfl)
  · rw [hsessions]
    intro hpos
    exact h.tallied.failures ▸ hcap hpos
  · rw [hsessions]
    simpa using hlen
  · rw [hsessions]
  · rw [hsessions]
    simp [h.reconnects]
  · rw [hsessions]
    refine Or.inl ⟨h.finished, h.below, ?_⟩
    rw [h.backoff, ← hlen, backoffAfter, backoffAfter, Function.iterate_succ_apply']

/-- The reconnect cap or a stop request ends the loop; else it sleeps and the backoff grows. -/
theorem wp_sessionFailed (h : Failed cfg backoffSec rc (w.setStats (SessionStats.sessionFailed rc)))
    (hrc : rc ≠ 0) :
    wp (sessionFailed cfg backoffSec rc)
      (fun r w' => Sum.elim (fun b => LoopInv cfg b w') (fun rc' => LoopEnd cfg rc' w') r)
      (Tracked cfg) w := by
  refine wp_update (wp_bind (wp_maybeWriteHealthSnapshotIncremental h.tracked h.tallied
    fun e he => wp_read ?_))
  have h₁ := h.quiet he
  refine wp_ite ?_ ?_
  · intro hcap
    refine wp_bind (wp_logStratum fun entry => wp_pure ?_)
    have h₂ := h₁.quiet (quiet_addLog (Quiet.refl h₁.along) entry)
    exact h₂.capped hrc hcap.1 hcap.2
  · intro hcap
    refine wp_bind (wp_logStratum fun entry => wp_bind ?_)
    have h₂ := h₁.quiet (quiet_addLog (Quiet.refl h₁.along) entry)
    refine wp_calmLoadStop (fun e he => h₂.tracked.calm he) ?_
    intro e' he'
    have h₃ := h₂.quiet (he'.quiet h₂.along)
    refine wp_ite (fun hstop => wp_pure (h₃.stopped hstop)) fun _ => wp_bind ?_
    refine wp_onEnv (wp_sleepFor (inert_calm _).toStable (Calm.refl _)
      (fun e he => h₃.tracked.calm he) fun e'' he'' => wp_pure ?_)
    have h₄ := h₃.quiet (he''.quiet h₃.along)
    exact h₄.slept' fun hpos => Nat.lt_of_not_le fun hle => hcap ⟨hpos, hle⟩

/-- The history of sessions at the start of one, and that it may start. -/
theorem LoopInv.sessionStarted (h : LoopInv cfg backoffSec w)
    (hstop : w.env.stopRequested = false) (hbelow : belowCycleLimit cfg w.cyclesDone = true) :
    (sessions w.env.trace).finished = 0 ∧
      backoffSec = backoffAfter cfg (sessions w.env.trace).failures.length ∧
      AtWork cfg ((sessions w.env.trace).step .sessionStarted) 0
        (w.setEnv (w.env.observe .sessionStarted)) := by
  obtain ⟨hfinished, hbackoff⟩ : (sessions w.env.trace).finished = 0 ∧
      backoffSec = backoffAfter cfg (sessions w.env.trace).failures.length := by
    rcases h.next with ⟨hf, -, hb⟩ | ⟨-, hover | hover⟩
    · exact ⟨hf, hb⟩
    · rw [hstop] at hover
      cases hover
    · rw [hbelow] at hover
      cases hover
  have hsessions : sessions (w.env.observe .sessionStarted).trace =
      (sessions w.env.trace).step .sessionStarted := sessions_concat _ _
  refine ⟨hfinished, hbackoff, ?_, ?_, ?_⟩
  · refine along_concat.2 ⟨h.along, hfinished, ?_⟩
    intro hpos
    have hcap := h.cap hpos
    rw [h.started, hfinished]
    exact hcap
  · dsimp only [Miner.setEnv]
    rw [hsessions]
  · dsimp only [Miner.setEnv]
    rw [hsessions]
    exact h.tallied.sessionStarted

/-- The session returned 0. -/
theorem LoopInv.sessionFinished (h : LoopInv cfg backoffSec w)
    (hfinished : (sessions w.env.trace).finished = 0) {w' : Miner}
    (hwork : AtWork cfg ((sessions w.env.trace).step .sessionStarted) 0 w') (hover : Over cfg w')
    (b : UInt32) : LoopInv cfg b (w'.setEnv (w'.env.observe (.sessionEnded 0))) := by
  have hsessions : sessions (w'.env.observe (.sessionEnded 0)).trace =
      (sessions w'.env.trace).step (.sessionEnded 0) := sessions_concat _ _
  have hwithin := hwork.within
  have hstarted := h.started
  have hreconnects := h.reconnects
  constructor
  all_goals dsimp only [Miner.setEnv]
  · exact along_concat.2 ⟨hwork.along, trivial⟩
  · rw [hsessions]
    exact hwork.tallied.sessionFinished
  · rw [hsessions, hwithin]
    simp only [Sessions.step, if_pos]
    omega
  · rw [hsessions, hwithin]
    exact h.cap
  · rw [hsessions, hwithin]
    exact h.slept
  · rw [hsessions, hwithin]
    rfl
  · rw [hsessions, hwithin]
    exact hreconnects
  · rw [hsessions, hwithin]
    exact Or.inr ⟨by simp [Sessions.step, hfinished], hover⟩

/-- The session returned a failure. -/
theorem LoopInv.sessionFailed (h : LoopInv cfg backoffSec w)
    (hfinished : (sessions w.env.trace).finished = 0)
    (hbackoff : backoffSec = backoffAfter cfg (sessions w.env.trace).failures.length) {w' : Miner}
    (hwork : AtWork cfg ((sessions w.env.trace).step .sessionStarted) 1 w')
    (hrc : rc = 4 ∨ rc = 6 ∨ rc = 8) (hbelow : belowCycleLimit cfg w'.cyclesDone = true) :
    Failed cfg backoffSec rc
      ((w'.setEnv (w'.env.observe (.sessionEnded rc))).setStats (SessionStats.sessionFailed rc)) := by
  have hne : rc ≠ 0 := by omega
  have hsessions : sessions (w'.env.observe (.sessionEnded rc)).trace =
      (sessions w'.env.trace).step (.sessionEnded rc) := sessions_concat _ _
  have hwithin := hwork.within
  have hstarted := h.started
  constructor
  all_goals dsimp only [Miner.setEnv, Miner.setStats]
  · exact along_concat.2 ⟨hwork.along, trivial⟩
  · rw [hsessions]
    exact hwork.tallied.sessionFailed hrc
  · rw [hsessions, hwithin]
    simp only [Sessions.step, hne, if_false, List.length_append, List.length_singleton]
    omega
  · rw [hsessions, hwithin]
    simp [Sessions.step, hne, hfinished]
  · rw [hsessions, hwithin]
    simp [Sessions.step, hne]
  · rw [hsessions, hwithin]
    simp only [Sessions.step, hne, if_false, List.length_append, List.length_singleton]
    exact h.cap
  · rw [hsessions, hwithin]
    simp [Sessions.step, hne, h.slept]
  · rw [hsessions, hwithin]
    simp [Sessions.step, hne]
  · rw [hsessions, hwithin]
    simp [Sessions.step, hne]
  · rw [hsessions, hwithin]
    simp only [Sessions.step, hne, if_false]
    exact h.reconnects
  · exact hbelow
  · rw [hsessions, hwithin]
    simp only [Sessions.step, hne, if_false]
    rw [h.slept]
    exact hbackoff

/-- The test of the loop fails. -/
theorem LoopInv.loopEnd (h : LoopInv cfg backoffSec w)
    (htest : ¬(!w.env.stopRequested && belowCycleLimit cfg w.cyclesDone) = true) :
    LoopEnd cfg 0 w where
  along := h.along
  tallied := h.tallied
  success _ := by
    cases hs : w.env.stopRequested with
    | true => exact Or.inl hs
    | false => exact Or.inr (by simpa [hs] using htest)
  stopped _ hf := by
    rcases h.next with ⟨-, hbelow, -⟩ | ⟨hf', -⟩
    · simpa [hbelow] using htest
    · omega
  capped h0 := absurd rfl h0
  slept := by
    rw [h.rested]
    exact h.slept
  reconnects := h.reconnects

theorem wp_loopRound (h : LoopInv cfg backoffSec w) :
    wp (loopRound cfg backoffSec)
      (fun r w' => Sum.elim (fun b => LoopInv cfg b w') (fun rc' => LoopEnd cfg rc' w') r)
      (Tracked cfg) w := by
  refine wp_bind (wp_calmLoadStop (fun e he => h.tracked.calm he) ?_)
  intro e he
  have h₁ := h.quiet (he.quiet h.along)
  refine wp_read (wp_ite ?_ fun hstop => wp_pure ?_)
  · intro hgo
    simp only [Bool.and_eq_true, Bool.not_eq_true'] at hgo
    obtain ⟨hfinished, hbackoff, hwork⟩ := h₁.sessionStarted hgo.1 hgo.2
    apply wp_updateEnv
    refine wp_call (wp_runStratumSession hwork hgo.2) ?_ fun _ hR => hR
    intro rc w' hend
    refine wp_updateEnv (wp_ite (fun hrc => wp_pure ?_) ?_)
    · subst hrc
      rcases hend with ⟨-, hdone, hover⟩ | ⟨hrc, -⟩
      · exact h₁.sessionFinished hfinished hdone hover _
      · omega
    · intro hrc
      rcases hend with ⟨h0, -⟩ | ⟨hcode, hdone, hbelow⟩
      · exact absurd h0 hrc
      · exact wp_sessionFailed (h₁.sessionFailed hfinished hbackoff hdone hcode hbelow) hrc
  · exact h₁.loopEnd hstop

/-! ## A whole run -/

/-- The end of a run that returned `rc`: how its loop was left, and the summary. -/
structure RunEnd (cfg : MinerConfig) (rc : Int) (w : Miner) : Prop extends LoopEnd cfg rc w where
  summary : (sessions w.env.trace).summary = some w.stats

theorem RunEnd.quiet (h : RunEnd cfg rc w) {e : Env} (he : Quiet cfg w.env e) :
    RunEnd cfg rc (w.setEnv e) :=
  ⟨h.toLoopEnd.quiet he, (congrArg Sessions.summary he.sessions).trans h.summary⟩

theorem RunEnd.addLog (h : RunEnd cfg rc w) (entry : LogEntry) :
    RunEnd cfg rc (w.setEnv (w.env.addLog entry)) :=
  h.quiet (quiet_addLog (Quiet.refl h.along) entry)

theorem wp_shutdown (h : LoopEnd cfg rc w) :
    wp (shutdown cfg) (fun _ w' => RunEnd cfg rc w') (Tracked cfg) w := by
  refine wp_bind (wp_quiet (keeps_clock (inert_calm _).all) h.tracked fun p e he => wp_read ?_)
  have h₁ := h.quiet he
  refine wp_updateEnv (wp_bind (wp_logStratum fun entry => wp_bind (wp_logStratum
    fun entry' => wp_bind ?_)))
  have hsessions : sessions (e.observe (.summary w.stats w.cyclesDone)).trace =
      { sessions e.trace with summary := some w.stats } := sessions_concat _ _
  have h₂ : RunEnd cfg rc (w.setEnv (e.observe (.summary w.stats w.cyclesDone))) := by
    obtain ⟨halong, htallied, hover, hstopped, hcapped, hslept, hreconnects⟩ := h₁
    refine ⟨⟨along_concat.2 ⟨halong, htallied⟩, ?_, hover, ?_, ?_, ?_, ?_⟩, ?_⟩
    all_goals
      dsimp only [Miner.setEnv]
      rw [hsessions]
    · exact { htallied with }
    · exact hstopped
    · exact hcapped
    · exact hslept
    · exact hreconnects
  have h₃ := (h₂.addLog entry).addLog entry'
  refine wp_writeHealthSnapshot h₃.tracked h₃.tallied fun e' he' => wp_logStratum ?_
  intro entry
  exact (h₃.quiet he').addLog entry

/-- **A whole run** of `run_stratum_loop`. -/
theorem wp_runStratumLoop (cfg : MinerConfig) :
    wp (runStratumLoop cfg) (RunEnd cfg) (Tracked cfg) {} := by
  refine wp_call (wp_loop (I := LoopInv cfg) LoopInv.init
    (fun b w hI => wp_loopRound hI) fun _ _ hI => hI.tracked) ?_ fun _ hR => hR
  intro rc w h
  exact wp_call (wp_shutdown h) (fun _ _ h' => wp_pure h') fun _ hR => hR

theorem run_tracked (cfg : MinerConfig) (events : List Event) :
    Tracked cfg ((runStratumLoop cfg).run {} events).state :=
  (wp_mono (wp_runStratumLoop cfg) (fun _ _ h => h.tracked) fun _ h => h).state events

end Loop

end HermitMiner
