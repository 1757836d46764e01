import HermitMiner.Verify.PoolCalls
import HermitMiner.Verify.PoolJobs
import HermitMiner.Verify.SearchEnds
import HermitMiner.Verify.Shares

/-!
# Cycles with the fake pool

The miner and the fake pool over a reliable connection: nothing is lost, no deadline expires and
nobody asks for a stop. However the two and the miner's threads are scheduled, the run can go on to
its end, where all cycles are done.

* `Feasible`: what is asked of the configuration.
* `Cycling`: the miner between two cycles.
* `live_sessionRound`, `live_runStratumSession`: a cycle, and all of them.
* `pool_serves_every_cycle`: every run can be completed, and ends with all cycles done.
-/

namespace HermitMiner

open Oracle StratumClient FakePool

/-- The world of the miner. -/
def withPool : Oracle.Setting Miner Event where
  admits w := toPool.admits w.env
  onward w w' := toPool.onward w.env w'.env
  refl w := toPool.refl w.env
  trans h h' := toPool.trans h h'

theorem sees_setEnv : withPool.Sees toPool Miner.setEnv where
  admits _ _ _ := Iff.rfl
  onward _ _ _ h := h

section Rules

variable {α β : Type} {w : Miner} {Q : α → Miner → Prop} {R : Miner → Prop}

/-- Call the client, and go on. -/
theorem live_callEnv {m : Sys β} {f : β → App α} {P : β → Env → Prop} {S : Env → Prop}
    (hc : m.Causal) (h : Live toPool m P S w.env)
    (hf : ∀ b e, P b e → Live withPool (f b) Q R (w.setEnv e)) (hR : ∀ e, S e → R (w.setEnv e)) :
    Live withPool (onEnv m >>= f) Q R w := by
  have hcall : Live withPool (onEnv m) (fun b w' => ∃ e, w' = w.setEnv e ∧ P b e) R w :=
    .zoom sees_setEnv (h.mono (fun b e hb => ⟨e, rfl, hb⟩) hR) rfl
  refine .bind (.zoom hc) hcall ?_
  rintro b _ ⟨e, rfl, hb⟩
  exact hf b e hb

/-- Update the client's world, and go on. -/
theorem live_updateEnv {g : Env → Env} {f : Unit → App α} (hg : toPool.onward w.env (g w.env))
    (h : Live withPool (f ()) Q R (w.setEnv (g w.env))) :
    Live withPool (onEnv (Proc.modify g) >>= f) Q R w := by
  refine live_callEnv (P := fun _ e => e = g w.env) (S := fun _ => False) .modify
    (.of_done (fun _ => rfl) hg rfl) ?_ fun _ h => h.elim
  rintro _ _ rfl
  exact h

end Rules

/-! ## Snapshots -/

/-- A session that stands as it is, with the counters as they are. -/
structure Beside (n : Nat) (todo : Bytes) (jobs : List StratumJob) (stats : SessionStats)
    (cyclesDone : UInt32) (w : Miner) : Prop where
  standing : Standing n todo jobs w.env
  stats : w.stats = stats
  cyclesDone : w.cyclesDone = cyclesDone

section Beside

variable {cfg : MinerConfig} {n : Nat} {todo : Bytes} {jobs : List StratumJob}
  {stats : SessionStats} {cyclesDone : UInt32} {w : Miner} {R : Miner → Prop}
  (hR : ∀ w : Miner, w.env.conn.delivered = jobs → R w)

theorem Standing.report {e : Env} {o : Obs} (h : Standing n todo jobs e) (ho : o.isReport = true) :
    Standing n todo jobs (e.observe o) := by
  refine h.observe (Obs.isTraffic_of_isReport ho) fun k => ?_
  cases o with
  | sessionStarted => exact ⟨rfl, rfl⟩
  | slept sec => exact ⟨rfl, rfl⟩
  | snapshot stats cyclesDone text => exact ⟨rfl, rfl⟩
  | summary stats cyclesDone => exact ⟨rfl, rfl⟩
  | _ => cases ho

theorem Beside.report {o : Obs} (h : Beside n todo jobs stats cyclesDone w)
    (ho : o.isReport = true) :
    Beside n todo jobs stats cyclesDone (w.setEnv (w.env.observe o)) :=
  ⟨h.standing.report ho, h.stats, h.cyclesDone⟩

theorem Beside.addLog (h : Beside n todo jobs stats cyclesDone w) (entry : LogEntry) :
    Beside n todo jobs stats cyclesDone (w.setEnv (w.env.addLog entry)) :=
  ⟨h.standing.addLog entry, h.stats, h.cyclesDone⟩

include hR

theorem live_writeHealthSnapshot {readinessStatus acceptedPerMin : Bytes} {durationSec : Nat}
    (h : Beside n todo jobs stats cyclesDone w) :
    Live withPool (writeHealthSnapshot cfg readinessStatus durationSec acceptedPerMin)
      (fun _ => Beside n todo jobs stats cyclesDone) R w := by
  refine .ite (fun _ => .pure h) fun _ => ?_
  refine live_callEnv causal_openFile (live_openFile hears_standing h.standing
    fun e h => hR (w.setEnv e) h.rest.delivered) ?_ fun _ h => h
  intro ok e hstanding
  have hbeside : Beside n todo jobs stats cyclesDone (w.setEnv e) :=
    ⟨hstanding, h.stats, h.cyclesDone⟩
  refine .ite (fun _ => .read ?_) fun _ => ?_
  · exact .of_done (fun _ => rfl) (prefix_observe rfl e) (hbeside.report rfl)
  · exact .of_done (fun _ => rfl) (List.prefix_refl _) (hbeside.addLog _)

theorem live_maybeWriteHealthSnapshotIncremental (h : Beside n todo jobs stats cyclesDone w) :
    Live withPool (maybeWriteHealthSnapshotIncremental cfg)
      (fun _ => Beside n todo jobs stats cyclesDone) R w := by
  refine .ite (fun _ => .pure h) fun _ => ?_
  refine live_callEnv causal_clock (live_clock hears_standing h.standing
    fun e h => hR (w.setEnv e) h.rest.delivered) ?_ fun _ h => h
  intro _ e hstanding
  exact .read (live_writeHealthSnapshot hR ⟨hstanding, h.stats, h.cyclesDone⟩)

theorem live_shutdown (h : Beside n todo jobs stats cyclesDone w) :
    Live withPool (shutdown cfg) (fun _ => Beside n todo jobs stats cyclesDone) R w := by
  refine live_callEnv causal_clock (live_clock hears_standing h.standing
    fun e h => hR (w.setEnv e) h.rest.delivered) ?_ fun _ h => h
  intro _ e hstanding
  have hbeside : Beside n todo jobs stats cyclesDone (w.setEnv e) :=
    ⟨hstanding, h.stats, h.cyclesDone⟩
  refine .read (live_updateEnv (prefix_observe rfl e) (live_updateEnv (List.prefix_refl _)
    (live_updateEnv (List.prefix_refl _) ?_)))
  refine .bind (causal_writeHealthSnapshot cfg _ _ _)
    (live_writeHealthSnapshot hR (((hbeside.report rfl).addLog _).addLog _)) ?_
  exact fun _ w h => .of_done (fun _ => rfl) (List.prefix_refl _) (h.addLog _)

end Beside

/-! ## Cycles -/

/-- What is asked of the configuration: threads that can count all nonces, requests that fit into a
line, and a solution to every puzzle of the pool. -/
structure Feasible (cfg : MinerConfig) : Prop where
  cycles : 0 < cfg.poolMaxCycles
  threads : 0 < cfg.threadCount
  most : cfg.threadCount.toNat ≤ 2 ^ 31
  authorizes : (Request.line 2 (.authorize (poolUsername cfg) cfg.poolPassword)).length ≤
    kMaxJsonLineBytes
  submits : ∀ i < cfg.poolMaxCycles.toNat, ∀ nonce,
    (Request.line (i + 3) (.submit (poolUsername cfg) (poolJob (i + 1)).jobId nonce)).length ≤
      kMaxJsonLineBytes
  solvable : ∀ i < cfg.poolMaxCycles.toNat, ∃ nonce, ValidShare cfg (poolJob (i + 1)) nonce

/-- The counters after `i` cycles without a failure. -/
structure Counted (i : Nat) (stats : SessionStats) : Prop where
  found : stats.sharesFound = i
  attempted : stats.submitsAttempted = i
  accepted : stats.acceptedCount = i
  submitFailures : stats.submitFailures = 0
  sessionFailures : stats.sessionFailures = 0
  reconnects : stats.reconnectEvents = 0
  lastJobId : 0 < i → stats.lastJobId = (poolJob i).jobId

/-- After `i` cycles, with the next job on its way. -/
structure Cycling (cfg : MinerConfig) (i : Nat) (w : Miner) : Prop where
  within : i ≤ cfg.poolMaxCycles.toNat
  standing : Standing (i + 2) (notify (.ofNat (i + 1)) ++ [ch '\n']) (poolJobs i) w.env
  counted : Counted i w.stats
  cyclesDone : w.cyclesDone = .ofNat i

/-- The jobs delivered so far are the first ones of the pool. -/
def InOrder (cfg : MinerConfig) (w : Miner) : Prop :=
  ∃ k ≤ cfg.poolMaxCycles.toNat, w.env.conn.delivered = poolJobs k

section Cycles

variable {cfg : MinerConfig} {client : StratumClient} {i : Nat} {w : Miner}

theorem announced_ofNat (hi : i < 2 ^ 32) : announced (.ofNat i) = poolJob i := by
  rw [announced, UInt32.toNat_ofNat', Nat.mod_eq_of_lt hi]

theorem belowCycleLimit_ofNat (hf : Feasible cfg) (hi : i ≤ cfg.poolMaxCycles.toNat) :
    belowCycleLimit cfg (.ofNat i) = true ↔ i < cfg.poolMaxCycles.toNat := by
  have hpos := UInt32.lt_iff_toNat_lt.1 hf.cycles
  have hne : cfg.poolMaxCycles ≠ 0 := by
    intro h0
    rw [h0] at hpos
    exact Nat.lt_irrefl _ hpos
  have htoNat : (UInt32.ofNat i).toNat = i :=
    UInt32.toNat_ofNat_of_lt' (Nat.lt_of_le_of_lt hi cfg.poolMaxCycles.toNat_lt)
  simp [belowCycleLimit, hne, UInt32.lt_iff_toNat_lt, htoNat]

/-- A share for the job just delivered is accepted. -/
theorem live_submitFound (hf : Feasible cfg) (hi : i < cfg.poolMaxCycles.toNat) {nonce : UInt32}
    (hstanding : Standing (i + 2) [] (poolJobs (i + 1)) w.env) (hcounted : Counted i w.stats)
    (hcycles : w.cyclesDone = .ofNat i) :
    Live withPool (submitFound cfg client (poolJob (i + 1)).jobId nonce)
      (fun r w => r = .inl () ∧ Cycling cfg (i + 1) w) (InOrder cfg) w := by
  have hR : ∀ w : Miner, w.env.conn.delivered = poolJobs (i + 1) → InOrder cfg w :=
    fun w h => ⟨i + 1, hi, h⟩
  have hmost := cfg.poolMaxCycles.toNat_lt
  have hfits : i + 3 < 2 ^ 64 := by omega
  refine .update (List.prefix_refl _) (live_callEnv (causal_submitShare client _ _ _)
    (live_submitShare client (fun e h => hR (w.setEnv e) h) (Nat.le_add_left 2 i) hfits
      (hf.submits i hi nonce) hstanding) ?_ fun _ h => h)
  rintro _ e ⟨rfl, hstanding⟩
  refine .ite (fun _ => ?_) fun hno => absurd rfl hno
  have hdone : Beside (i + 3) (notify (.ofNat (i + 2)) ++ [ch '\n']) (poolJobs (i + 1))
      (SessionStats.shareAccepted (poolJob (i + 1)).jobId (w.stats.shareFound))
      (w.cyclesDone + 1) (((w.setStats SessionStats.shareFound).setEnv e).cycleDone.setStats
        (SessionStats.shareAccepted (poolJob (i + 1)).jobId)) := ⟨hstanding, rfl, rfl⟩
  refine .update (List.prefix_refl _) (.update (List.prefix_refl _) (.bind
    (causal_maybeWriteHealthSnapshotIncremental cfg)
    (live_maybeWriteHealthSnapshotIncremental hR hdone) ?_))
  intro _ w' h
  refine live_updateEnv (List.prefix_refl _) (.pure ⟨rfl, hi, (h.addLog _).standing, ?_, ?_⟩)
  · show Counted (i + 1) w'.stats
    rw [h.stats]
    exact
      { found := congrArg (· + 1) hcounted.found
        attempted := congrArg (· + 1) hcounted.attempted
        accepted := congrArg (· + 1) hcounted.accepted
        submitFailures := hcounted.submitFailures
        sessionFailures := hcounted.sessionFailures
        reconnects := hcounted.reconnects
        lastJobId := fun _ => rfl }
  · show w'.cyclesDone = .ofNat (i + 1)
    rw [h.cyclesDone, hcycles, ← UInt32.ofNat_one, ← UInt32.ofNat_add]

theorem unmined_standing {n : Nat} {todo : Bytes} {jobs : List StratumJob} :
    Unmined (Standing n todo jobs) where
  hashed _ _ h := h.observe rfl fun _ => ⟨rfl, rfl⟩
  counted _ _ h := h.observe rfl fun _ => ⟨rfl, rfl⟩
  addLog entry h := h.addLog entry

/-- The search for a share of the job just delivered finds one. -/
theorem live_mineJob (hf : Feasible cfg) (hi : i < cfg.poolMaxCycles.toNat)
    (hstanding : Standing (i + 2) [] (poolJobs (i + 1)) w.env) (hcounted : Counted i w.stats)
    (hcycles : w.cyclesDone = .ofNat i) :
    Live withPool (mineJob cfg client (poolJob (i + 1)))
      (fun r w => r = .inl () ∧ Cycling cfg (i + 1) w) (InOrder cfg) w := by
  have hR : ∀ w : Miner, w.env.conn.delivered = poolJobs (i + 1) → InOrder cfg w :=
    fun w h => ⟨i + 1, hi, h⟩
  obtain ⟨nonce, hvalid⟩ := hf.solvable i hi
  have hlive := @live_mineWith doubleSha256 (miningConfig cfg (poolJob (i + 1)))
    (Standing (i + 2) [] (poolJobs (i + 1))) (fun e => e.conn.delivered = poolJobs (i + 1))
  refine .update (List.prefix_refl _) (live_updateEnv (List.prefix_refl _) (live_callEnv
    (causal_mineWith doubleSha256 _) (hlive unmined_standing hears_standing hf.threads hf.most
      ⟨nonce, validShare_iff.1 hvalid⟩ (hstanding.addLog _) hstanding.rest.requested
      fun e h => h.rest.delivered) ?_ fun e h => hR _ h))
  rintro result e ⟨⟨hfound, haborted, -⟩, hend⟩
  refine .ite (fun habort => ?_) fun _ => .ite (fun hnone => ?_) fun _ => ?_
  · rw [haborted] at habort
    cases habort
  · rw [hfound] at hnone
    cases hnone
  · have hreceived : Counted i w.stats.jobReceived := { hcounted with }
    exact live_submitFound hf hi hend.kept hreceived hcycles

/-- **A cycle**: the next job, a share for it, and its acceptance; or the end, when all are done. -/
theorem live_sessionRound (hf : Feasible cfg) (h : Cycling cfg i w) :
    Live withPool (sessionRound cfg client ()) (fun r w =>
      (i < cfg.poolMaxCycles.toNat ∧ r = .inl () ∧ Cycling cfg (i + 1) w) ∨
        (i = cfg.poolMaxCycles.toNat ∧ r = .inr 0 ∧ Cycling cfg i w)) (InOrder cfg) w := by
  have hR : ∀ w : Miner, w.env.conn.delivered = poolJobs i → InOrder cfg w :=
    fun w hw => ⟨i, h.within, hw⟩
  refine live_callEnv causal_loadStop (live_loadStop hears_standing h.standing
    fun e h => hR (w.setEnv e) h.rest.delivered) ?_ fun _ h => h
  rintro stop e ⟨hstop, hstanding⟩
  rw [hstanding.rest.requested] at hstop
  subst hstop
  have hbelow := belowCycleLimit_ofNat hf h.within
  rw [← h.cyclesDone] at hbelow
  refine .read (.ite (fun hgo => ?_) fun hend => ?_)
  · have hi : i < cfg.poolMaxCycles.toNat := hbelow.1 (by simpa [Miner.setEnv] using hgo)
    have hsmall : i + 1 < 2 ^ 32 := Nat.lt_of_le_of_lt hi cfg.poolMaxCycles.toNat_lt
    refine live_callEnv (causal_waitForJob client _) (live_waitForJob client
      (fun e h => hR (w.setEnv e) h) hsmall hstanding) ?_ fun _ h => h
    rintro _ e ⟨rfl, hstanding⟩
    have hjobs : poolJobs i ++ [poolJob (i + 1)] = poolJobs (i + 1) := by
      rw [poolJobs_succ, announced_ofNat hsmall]
    rw [hjobs] at hstanding
    exact (live_mineJob (w := w.setEnv e) hf hi hstanding h.counted h.cyclesDone).mono
      (fun _ _ hr => Or.inl ⟨hi, hr⟩) fun _ h => h
  · have hi : i = cfg.poolMaxCycles.toNat := by
      refine Nat.le_antisymm h.within (Nat.le_of_not_lt fun hlt => hend ?_)
      simpa [Miner.setEnv] using hbelow.2 hlt
    exact live_updateEnv (List.prefix_refl _) (.pure (Or.inr ⟨hi, rfl, h.within,
      hstanding.addLog _, h.counted, h.cyclesDone⟩))

theorem live_sessionLoop (hf : Feasible cfg) (h : Cycling cfg i w) :
    Live withPool (Proc.loop (sessionRound cfg client) ())
      (fun rc w => rc = 0 ∧ Cycling cfg cfg.poolMaxCycles.toNat w) (InOrder cfg) w := by
  -- the cycles that are left go down
  have hdown : ∀ {i w}, Cycling cfg i w → w.cyclesDone.toNat = i := by
    intro i w h
    rw [h.cyclesDone]
    exact UInt32.toNat_ofNat_of_lt' (Nat.lt_of_le_of_lt h.within cfg.poolMaxCycles.toNat_lt)
  refine .loop (I := fun _ w => ∃ i, Cycling cfg i w) (advances_sessionRound cfg client)
    (causal_sessionRound cfg client) ?_
    (fun _ w => cfg.poolMaxCycles.toNat - w.cyclesDone.toNat) ?_ ⟨i, h⟩
  · rintro _ w ⟨i, h⟩
    refine (live_sessionRound hf h).mono ?_ fun _ h => h
    rintro r w (⟨-, rfl, hnext⟩ | ⟨rfl, rfl, hend⟩)
    · exact ⟨i + 1, hnext⟩
    · exact ⟨rfl, hend⟩
  · rintro _ w ⟨i, h⟩
    refine (live_sessionRound hf h).can.mono ?_
    rintro r t (⟨hi, -, hnext⟩ | ⟨-, rfl, -⟩) u hu
    · have hbefore := hdown h
      have hafter := hdown hnext
      show _ - t.cyclesDone.toNat < _ - w.cyclesDone.toNat
      omega
    · cases hu

/-- Before the first session. -/
structure Unopened (w : Miner) : Prop where
  written : written w.env.trace = []
  rest : Tranquil [] 1 w.env
  counted : Counted 0 w.stats
  cyclesDone : w.cyclesDone = 0

theorem live_startStratumSession (hf : Feasible cfg) (h : Unopened w) :
    Live withPool (startStratumSession cfg client) (fun ok w => ok = true ∧ Cycling cfg 0 w)
      (InOrder cfg) w := by
  have hR : ∀ w : Miner, w.env.conn.delivered = [] → InOrder cfg w :=
    fun w hw => ⟨0, Nat.zero_le _, hw⟩
  have hsubscribe : (Request.line 1 (.subscribe userAgent)).length ≤ kMaxJsonLineBytes := by
    decide
  refine live_callEnv (causal_connectToPool client) (live_connectToPool client
    (fun e h => hR (w.setEnv e) h) h.written h.rest) ?_ fun _ h => h
  rintro _ e ⟨rfl, hstanding⟩
  refine .ite (fun _ => ?_) fun hno => absurd rfl hno
  refine live_callEnv (causal_subscribe client _) (live_subscribe client
    (fun e h => hR (w.setEnv e) h) hsubscribe hstanding) ?_ fun _ h => h
  rintro _ e ⟨rfl, hstanding⟩
  refine .ite (fun _ => ?_) fun hno => absurd rfl hno
  refine live_callEnv (causal_authorize client _ _) (live_authorize client
    (fun e h => hR (w.setEnv e) h) hf.authorizes hstanding) ?_ fun _ h => h
  rintro _ e ⟨rfl, hstanding⟩
  refine .ite (fun _ => ?_) fun hno => absurd rfl hno
  exact live_updateEnv (List.prefix_refl _) (.pure ⟨rfl, Nat.zero_le _, hstanding.addLog _,
    h.counted, h.cyclesDone⟩)

theorem live_runStratumSession (hf : Feasible cfg) (h : Unopened w) :
    Live withPool (runStratumSession cfg)
      (fun rc w => rc = 0 ∧ Cycling cfg cfg.poolMaxCycles.toNat w) (InOrder cfg) w := by
  have hnew : Unopened (w.setEnv w.env.newClient) :=
    ⟨h.written, ⟨h.rest.requested, h.rest.delivered, rfl⟩, h.counted, h.cyclesDone⟩
  refine live_updateEnv (List.prefix_refl _) (.bind (causal_startStratumSession cfg _)
    (live_startStratumSession hf hnew) ?_)
  rintro _ w ⟨rfl, h⟩
  exact .ite (fun _ => live_sessionLoop hf h) fun hno => absurd rfl hno

/-- A round of the loop over sessions is the one session, or finds all cycles done. -/
theorem live_loopRound (hf : Feasible cfg) (backoffSec : UInt32)
    (h : Unopened w ∨ Cycling cfg cfg.poolMaxCycles.toNat w) :
    Live withPool (loopRound cfg backoffSec) (fun r w' =>
      Cycling cfg cfg.poolMaxCycles.toNat w' ∧
        (r = .inr 0 ∨ (r = .inl (backoffInitial cfg) ∧ Unopened w))) (InOrder cfg) w := by
  have hpos := UInt32.lt_iff_toNat_lt.1 hf.cycles
  have hzero : (UInt32.ofNat 0) = 0 := rfl
  rcases h with h | h
  · have hI : Hears (Carries poolOutput) False
        fun e => HermitMiner.written e.trace = [] ∧ Tranquil [] 1 e :=
      ⟨False.elim, fun bytes _ h => ⟨(written_arrive _ bytes).trans h.1, h.2.arrive bytes⟩⟩
    refine live_callEnv causal_loadStop (live_loadStop (R := fun e => e.conn.delivered = []) hI
      ⟨h.written, h.rest⟩ fun e h => h.2.delivered) ?_ fun e h => ⟨0, Nat.zero_le _, h⟩
    rintro stop e ⟨hstop, hwritten, hrest⟩
    rw [hrest.requested] at hstop
    subst hstop
    have hbelow := (belowCycleLimit_ofNat hf (Nat.zero_le _)).2 hpos
    rw [hzero, ← h.cyclesDone] at hbelow
    refine .read (.ite (fun _ => ?_) fun hend => absurd (by simpa [Miner.setEnv] using hbelow) hend)
    have hopened : Unopened (w.setEnv (e.observe .sessionStarted)) :=
      ⟨(written_observe rfl _).trans hwritten, hrest.observe fun _ => rfl, h.counted, h.cyclesDone⟩
    refine live_updateEnv (prefix_observe rfl e) (.bind (causal_runStratumSession cfg)
      (live_runStratumSession hf hopened) ?_)
    rintro _ w' ⟨rfl, hend⟩
    refine live_updateEnv (prefix_observe rfl _) (.ite (fun _ => .pure ?_) fun hno => absurd rfl hno)
    exact ⟨⟨hend.within, hend.standing.observe rfl fun _ => ⟨rfl, rfl⟩, hend.counted,
      hend.cyclesDone⟩, Or.inr ⟨rfl, h⟩⟩
  · refine live_callEnv causal_loadStop (live_loadStop hears_standing h.standing
      fun e h => h.rest.delivered) ?_ fun e hw => ⟨_, h.within, hw⟩
    rintro stop e ⟨-, hstanding⟩
    refine .read (.ite (fun hgo => ?_) fun _ => ?_)
    · have hlt := (belowCycleLimit_ofNat hf le_rfl).1 (by
        rw [← h.cyclesDone]
        simpa [Miner.setEnv] using (Bool.and_eq_true_iff.1 hgo).2)
      exact absurd hlt (Nat.lt_irrefl _)
    · exact .pure ⟨⟨h.within, hstanding, h.counted, h.cyclesDone⟩, Or.inl rfl⟩

theorem live_runStratumLoop (hf : Feasible cfg) (h : Unopened w) :
    Live withPool (runStratumLoop cfg)
      (fun rc w => rc = 0 ∧ Cycling cfg cfg.poolMaxCycles.toNat w) (InOrder cfg) w := by
  have hpos := UInt32.lt_iff_toNat_lt.1 hf.cycles
  have hloop : Live withPool (Proc.loop (loopRound cfg) (backoffInitial cfg))
      (fun rc w => rc = 0 ∧ Cycling cfg cfg.poolMaxCycles.toNat w) (InOrder cfg) w := by
    refine .loop (I := fun _ w => Unopened w ∨ Cycling cfg cfg.poolMaxCycles.toNat w)
      (advances_loopRound cfg) (causal_loopRound cfg) (fun backoffSec w h => ?_)
      (fun _ w => cfg.poolMaxCycles.toNat - w.cyclesDone.toNat) (fun backoffSec w h => ?_) (.inl h)
    · refine (live_loopRound hf backoffSec h).mono ?_ fun _ h => h
      rintro r w' ⟨hend, rfl | ⟨rfl, -⟩⟩
      · exact ⟨rfl, hend⟩
      · exact Or.inr hend
    · refine (live_loopRound hf backoffSec h).can.mono ?_
      rintro r w' ⟨hend, rfl | ⟨-, hopen⟩⟩ b hb
      · cases hb
      · have hnone : w.cyclesDone.toNat = 0 := by rw [hopen.cyclesDone]; rfl
        have hall : w'.cyclesDone.toNat = cfg.poolMaxCycles.toNat := by
          rw [hend.cyclesDone]
          exact UInt32.toNat_ofNat_of_lt' cfg.poolMaxCycles.toNat_lt
        show _ - w'.cyclesDone.toNat < _ - w.cyclesDone.toNat
        omega
  refine .bind (.loop (advances_loopRound cfg) (causal_loopRound cfg) _) hloop ?_
  rintro _ w ⟨rfl, h⟩
  refine .bind (causal_shutdown cfg) (live_shutdown (fun w hw => ⟨_, h.within, hw⟩)
    ⟨h.standing, rfl, rfl⟩) ?_
  rintro _ w' ⟨hstanding, hstats, hcycles⟩
  exact .pure ⟨rfl, h.within, hstanding, hstats ▸ h.counted, hcycles.trans h.cyclesDone⟩

end Cycles

/-- What the pool lets happen. -/
def PoolEvents (w : Miner) : Event → Prop := Reliable (Carries poolOutput) False w.env

theorem unopened_init : Unopened {} :=
  ⟨rfl, ⟨rfl, rfl, rfl⟩, ⟨rfl, rfl, rfl, rfl, rfl, rfl, nofun⟩, rfl⟩

/-- **The miner and the fake pool agree, for any number of cycles.** Over a connection on which
nothing is lost and no deadline expires, without a stop request, and with a solution to every puzzle
of the pool: in every state that the two and the threads of the miner can reach, the jobs delivered
are `job-1`, `job-2`, … in order; whatever has happened, the run can go on to its end, unless an
answer came to something that was not asked; and at its end all cycles are done, without a failure. -/
theorem pool_serves_every_cycle (cfg : MinerConfig) (hf : Feasible cfg) (events : List Event)
    (hlegal : (runStratumLoop cfg).Legal PoolEvents {} events) :
    (∃ k ≤ cfg.poolMaxCycles.toNat,
      ((runStratumLoop cfg).run {} events).state.env.conn.delivered = poolJobs k) ∧
    (∀ rc, ((runStratumLoop cfg).run {} events).value = some rc → rc = 0 ∧
      Counted cfg.poolMaxCycles.toNat ((runStratumLoop cfg).run {} events).state.stats ∧
      ((runStratumLoop cfg).run {} events).state.env.conn.delivered =
        poolJobs cfg.poolMaxCycles.toNat) ∧
    (¬Proc.Stuck (runStratumLoop cfg) {} events → ∃ more,
      (runStratumLoop cfg).Legal PoolEvents {} (events ++ more) ∧
        ((runStratumLoop cfg).run {} (events ++ more)).value = some 0) := by
  have hlive := live_runStratumLoop hf unopened_init
  refine ⟨?_, fun rc hrc => ?_, fun hstuck => ?_⟩
  · have hsafe := hlive.safe events hlegal
    cases hr : (runStratumLoop cfg).run {} events with
    | done rc w rest =>
      rw [hr] at hsafe
      exact ⟨_, le_rfl, hsafe.2.standing.rest.delivered⟩
    | pending w =>
      rw [hr] at hsafe
      exact hsafe
  · have hend := hlive.done hlegal (Outcome.eq_done_of_value hrc)
    exact ⟨hend.1, hend.2.counted, hend.2.standing.rest.delivered⟩
  · obtain ⟨more, rc, w, rest, hmore, hr, hend⟩ := hlive.complete hlegal hstuck
    refine ⟨more, hmore, ?_⟩
    rw [hr, hend.1]
    rfl

/-- A configuration for one cycle. -/
def oneCycle : MinerConfig := { scriptConfig with poolMaxCycles := 1 }

theorem feasible_oneCycle : Feasible oneCycle where
  cycles := by decide
  threads := by decide
  most := by decide
  authorizes := by decide
  submits i hi nonce := by
    obtain rfl : i = 0 := Nat.lt_one_iff.1 hi
    simp only [Request.line, submitRequest, List.length_append, length_nonceToHex]
    decide
  solvable i hi := by
    obtain rfl : i = 0 := Nat.lt_one_iff.1 hi
    exact ⟨272635, by unfold ValidShare; decide +kernel⟩

theorem pool_serves_every_cycle_one : ∃ events,
    (runStratumLoop oneCycle).Legal PoolEvents {} events ∧
    ((runStratumLoop oneCycle).run {} events).value = some 0 ∧
    Counted 1 ((runStratumLoop oneCycle).run {} events).state.stats ∧
    ((runStratumLoop oneCycle).run {} events).state.env.conn.delivered = poolJobs 1 := by
  have hstuck : ¬Proc.Stuck (runStratumLoop oneCycle) {} [] := by
    apply Proc.not_stuck_of_state [.signal]
    intro heq
    have hstop := congrArg (fun w : Miner => w.env.stopRequested) heq
    cases hstop
  obtain ⟨more, hlegal, hvalue⟩ :=
    (pool_serves_every_cycle oneCycle feasible_oneCycle [] legal_nil).2.2 hstuck
  obtain ⟨-, hcounted, hjobs⟩ :=
    (pool_serves_every_cycle oneCycle feasible_oneCycle more hlegal).2.1 0 hvalue
  exact ⟨more, hlegal, hvalue, hcounted, hjobs⟩

end HermitMiner
