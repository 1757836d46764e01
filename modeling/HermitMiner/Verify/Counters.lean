import HermitMiner.Verify.Sessions

/-!
# Counters and exit status

* `counters_consistent`: what the snapshots and the shutdown summary of a run show.
* `exit_status_honest`: when a run returns 0, when it returns a failure, and how many sessions it
  starts.
-/

namespace HermitMiner

open Oracle

/-! ## Counters -/

/-- What a reader of the counters can rely on, after the history `t`. -/
structure Consistent (cfg : MinerConfig) (t : List Obs) (stats : SessionStats)
    (cyclesDone : UInt32) : Prop where
  shares : stats.sharesFound = stats.submitsAttempted ∧
    stats.submitsAttempted = stats.acceptedCount + stats.submitFailures
  jobs : stats.sharesFound ≤ stats.jobsReceived
  failures : stats.reconnectEvents = stats.sessionFailures ∧
    stats.submitFailures ≤ stats.sessionFailures
  cycles : cyclesDone.toNat = stats.acceptedCount % 2 ^ 32
  limit : 0 < cfg.poolMaxCycles →
    stats.acceptedCount = cyclesDone.toNat ∧ cyclesDone ≤ cfg.poolMaxCycles
  lastFailureRc : if 0 < stats.sessionFailures
    then stats.lastFailureRc = 4 ∨ stats.lastFailureRc = 6 ∨ stats.lastFailureRc = 8
    else stats.lastFailureRc = 0
  acceptedCount : stats.acceptedCount = (sessions t).accepted.length
  lastJobId : stats.lastJobId = ((sessions t).accepted.getLast?.map (·.2.1)).getD (str "none")

theorem Tallied.consistent {cfg : MinerConfig} {t : List Obs} {stats : SessionStats} {c : UInt32}
    (h : Tallied cfg 0 (sessions t) stats c) : Consistent cfg t stats c where
  shares := ⟨h.shares, h.submits⟩
  jobs := h.jobs
  failures := ⟨h.events, h.submitFailures⟩
  cycles := h.cycles
  limit := h.limit
  lastFailureRc := by
    have hrc := h.lastRc
    cases hlast : (sessions t).failures.getLast? with
    | none =>
      have hnil := List.getLast?_eq_none_iff.1 hlast
      rw [if_neg (by simp [h.failures, hnil])]
      simpa [hlast] using hrc
    | some rc =>
      have hmem := List.mem_of_getLast? hlast
      rw [if_pos (by rw [h.failures]; exact List.length_pos_of_mem hmem)]
      rw [hlast] at hrc
      rw [hrc]
      exact h.codes rc hmem
  acceptedCount := h.accepted
  lastJobId := h.lastJob

/-- The counters shown are consistent. -/
def ShowsConsistent (cfg : MinerConfig) (t : List Obs) : Obs → Prop
  | .snapshot stats cyclesDone _ | .summary stats cyclesDone => Consistent cfg t stats cyclesDone
  | _ => True

/-- The history of every state of every run is disciplined. -/
theorem run_disciplined (cfg : MinerConfig) (events : List Event) :
    Along (Disciplined cfg) ((runStratumLoop cfg).run {} events).state.env.trace :=
  (run_tracked cfg events).along

/-- **Counters**: in every run, every health snapshot and the shutdown summary show counters that
are consistent with each other and with the accepted shares of the run. -/
theorem counters_consistent (cfg : MinerConfig) (events : List Event) :
    Along (ShowsConsistent cfg) ((runStratumLoop cfg).run {} events).state.env.trace := by
  refine (run_disciplined cfg events).mono ?_
  intro t o h
  cases o with
  | snapshot stats cyclesDone text => exact Tallied.consistent h
  | summary stats cyclesDone => exact Tallied.consistent h
  | _ => trivial

/-! ## Exit status -/

theorem finished_eq_count (t : List Obs) : (sessions t).finished = t.count (.sessionEnded 0) := by
  induction t using List.reverseRecOn with
  | nil => rfl
  | append_singleton t o ih =>
    rw [sessions_concat, List.count_append, ← ih]
    cases o with
    | sessionEnded rc => by_cases hrc : rc = 0 <;> simp [Sessions.step, hrc]
    | _ => simp [Sessions.step]

/-- The cap on reconnects bounds the sessions of a disciplined history. -/
theorem started_le {cfg : MinerConfig} {t : List Obs} (h : Along (Disciplined cfg) t)
    (hpos : 0 < cfg.poolMaxReconnectAttempts) :
    (sessions t).started ≤ cfg.poolMaxReconnectAttempts.toNat := by
  induction t using List.reverseRecOn with
  | nil => exact Nat.zero_le _
  | append_singleton t o ih =>
    obtain ⟨ht, ho⟩ := along_concat.1 h
    rw [sessions_concat]
    cases o with
    | sessionStarted => exact ho.2 hpos
    | sessionEnded rc => by_cases hrc : rc = 0 <;> simp [Sessions.step, hrc, ih ht]
    | _ => exact ih ht

/-- What the return code of a run says. -/
structure Honest (cfg : MinerConfig) (rc : Int) (w : Miner) : Prop where
  success : rc = 0 → w.env.stopRequested = true ∨
    (0 < cfg.poolMaxCycles ∧
      (sessions w.env.trace).accepted.length = cfg.poolMaxCycles.toNat)
  failure : rc ≠ 0 → 0 < cfg.poolMaxReconnectAttempts ∧
    (sessions w.env.trace).failures.length = cfg.poolMaxReconnectAttempts.toNat ∧
    (sessions w.env.trace).failures.getLast? = some rc ∧ (rc = 4 ∨ rc = 6 ∨ rc = 8)

theorem LoopEnd.honest {cfg : MinerConfig} {rc : Int} {w : Miner} (h : LoopEnd cfg rc w) :
    Honest cfg rc w where
  success h0 := by
    apply (h.success h0).imp_right
    intro hlimit
    simp only [belowCycleLimit, Bool.or_eq_false_iff, decide_eq_false_iff_not, UInt32.not_lt]
      at hlimit
    have hpos : 0 < cfg.poolMaxCycles := UInt32.pos_iff_ne_zero.2 hlimit.1
    obtain ⟨hcycles, hle⟩ := h.tallied.limit hpos
    have heq : w.cyclesDone = cfg.poolMaxCycles := UInt32.le_antisymm hle hlimit.2
    exact ⟨hpos, by rw [← h.tallied.accepted, hcycles, heq]⟩
  failure h0 := by
    obtain ⟨hpos, hlen, hlast, -⟩ := h.capped h0
    exact ⟨hpos, hlen, hlast, h.tallied.codes rc (List.mem_of_getLast? hlast)⟩

/-- **Exit status**: the return code is honest; with a cap of `N` reconnect attempts at most `N`
sessions are started; and none is started after one that returned 0. -/
theorem exit_status_honest (cfg : MinerConfig) (events : List Event) :
    (∀ rc w rest, (runStratumLoop cfg).run {} events = .done rc w rest → Honest cfg rc w) ∧
    (0 < cfg.poolMaxReconnectAttempts →
      (sessions ((runStratumLoop cfg).run {} events).state.env.trace).started ≤
        cfg.poolMaxReconnectAttempts.toNat) ∧
    Along (fun t o => o = .sessionStarted → .sessionEnded 0 ∉ t)
      ((runStratumLoop cfg).run {} events).state.env.trace := by
  have hdisciplined := run_disciplined cfg events
  refine ⟨?_, started_le hdisciplined, ?_⟩
  · intro rc w rest hrun
    exact (wp.done (wp_runStratumLoop cfg) hrun).toLoopEnd.honest
  · refine hdisciplined.mono ?_
    intro t o h ho hmem
    subst ho
    have hfinished : (sessions t).finished = 0 := h.1
    rw [finished_eq_count, List.count_eq_zero] at hfinished
    exact hfinished hmem

end HermitMiner
