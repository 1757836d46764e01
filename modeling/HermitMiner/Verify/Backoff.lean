import HermitMiner.Verify.Counters
import HermitMiner.Verify.Script

/-!
# Backoff and reconnects

* `backoffAfter_toNat`: the backoff in terms of natural numbers; below `2 ^ 31` it is the initial
  value doubled up to the maximum (`iterate_cappedDouble`).
* `backoff_restarts_iff`: when the delay after a session that had worked is the initial one.
* `reconnects_as_documented_iff`: when the reconnect counter counts the sleeps.
-/

namespace HermitMiner

open Oracle

/-! ## The sequence of delays -/

/-- Doubling in 32 bits, up to `m`. -/
def cappedDouble (m x : Nat) : Nat := min m (x * 2 % 2 ^ 32)

theorem iterate_cappedDouble {i m : Nat} (hi : i ≤ m) (hm : m < 2 ^ 31) (k : Nat) :
    (cappedDouble m)^[k] i = min m (i * 2 ^ k) := by
  induction k with
  | zero => simpa using hi
  | succ k ih =>
    have hpow : i * 2 ^ (k + 1) = i * 2 ^ k * 2 := by rw [pow_succ, mul_assoc]
    rw [Function.iterate_succ_apply', ih, cappedDouble, hpow]
    generalize i * 2 ^ k = x
    omega

theorem backoffInitial_of_pos {cfg : MinerConfig} (h : 0 < cfg.poolReconnectInitialSec) :
    backoffInitial cfg = cfg.poolReconnectInitialSec := by
  have hlt := UInt32.lt_iff_toNat_lt.1 h
  have hle : (1 : UInt32) ≤ cfg.poolReconnectInitialSec := UInt32.le_iff_toNat_le.2 hlt
  exact if_pos hle

theorem backoffAfter_toNat {cfg : MinerConfig} (hpos : 0 < cfg.poolReconnectInitialSec)
    (hle : cfg.poolReconnectInitialSec ≤ cfg.poolReconnectMaxSec) (k : Nat) :
    (backoffAfter cfg k).toNat =
      (cappedDouble cfg.poolReconnectMaxSec.toNat)^[k] cfg.poolReconnectInitialSec.toNat := by
  have hmax : backoffMax cfg = cfg.poolReconnectMaxSec := by
    rw [backoffMax, backoffInitial_of_pos hpos]
    exact if_pos hle
  induction k with
  | zero => rw [backoffAfter, Function.iterate_zero_apply, backoffInitial_of_pos hpos]; rfl
  | succ k ih =>
    have hstep : backoffAfter cfg (k + 1) = backoffNext cfg (backoffAfter cfg k) :=
      Function.iterate_succ_apply' _ _ _
    rw [hstep, Function.iterate_succ_apply', ← ih, backoffNext, hmax, cappedDouble]
    have hdouble : (backoffAfter cfg k * 2).toNat = (backoffAfter cfg k).toNat * 2 % 2 ^ 32 :=
      UInt32.toNat_mul _ _
    rw [← hdouble]
    have hmin : ∀ x y : UInt32, (min x y).toNat = min x.toNat y.toNat := by
      intro x y
      have hdef : min x y = if x ≤ y then x else y := rfl
      rw [hdef, min_def]
      by_cases h : x ≤ y
      · rw [if_pos h, if_pos (UInt32.le_iff_toNat_le.1 h)]
      · rw [if_neg h, if_neg fun h' => h (UInt32.le_iff_toNat_le.2 h')]
    exact hmin _ _

/-- `k` doublings up to `m` lead from `i` back to `i`: there are none, `i` is the maximum, or the
doubling wraps around in 32 bits. -/
def Returns (i m k : Nat) : Prop :=
  k = 0 ∨ (i = m ∧ m < 2 ^ 31) ∨ (2 ^ 31 ≤ m ∧ (cappedDouble m)^[k] i = i)

theorem returns_iff {i m : Nat} (hpos : 0 < i) (hi : i ≤ m) (k : Nat) :
    Returns i m k ↔ (cappedDouble m)^[k] i = i := by
  unfold Returns
  rcases Nat.eq_zero_or_pos k with rfl | hk
  · simp
  by_cases hm : m < 2 ^ 31
  · rw [iterate_cappedDouble hi hm]
    have htwo : 2 ≤ 2 ^ k := by
      calc 2 = 2 ^ 1 := rfl
        _ ≤ 2 ^ k := Nat.pow_le_pow_right (by omega) hk
    have hgrow : i * 2 ≤ i * 2 ^ k := Nat.mul_le_mul_left i htwo
    omega
  · have hge : 2 ^ 31 ≤ m := by omega
    simp only [hm, hge, and_false, true_and, false_or]
    exact ⟨fun h => h.resolve_left (by omega), Or.inr⟩

/-! ## The delay after a session that had worked -/

/-- If the session that failed last had a share accepted, the delay is the initial one. -/
def RestartsBackoff (cfg : MinerConfig) (t : List Obs) (sec : UInt32) : Prop :=
  0 < (sessions t).acceptedHere → sec = cfg.poolReconnectInitialSec

/-- **Backoff**: the delay after a session that had worked is the initial one exactly when the
failures of the run before it have not changed the backoff. -/
theorem backoff_restarts_iff (cfg : MinerConfig) (hvalid : validateConfig cfg = .ok ())
    (henabled : cfg.poolEnabled = true) (events : List Event) :
    Along (fun t o => ∀ sec, o = .slept sec →
        (RestartsBackoff cfg t sec ↔ (0 < (sessions t).acceptedHere →
          Returns cfg.poolReconnectInitialSec.toNat cfg.poolReconnectMaxSec.toNat
            ((sessions t).failures.length - 1))))
      ((runStratumLoop cfg).run {} events).state.env.trace := by
  obtain ⟨hpos, hle⟩ := reconnect_bounds hvalid henabled
  refine (run_disciplined cfg events).mono ?_
  intro t o h sec ho
  subst ho
  have hsec : sec = backoffAfter cfg ((sessions t).failures.length - 1) := h.2
  refine imp_congr_right fun _ => ?_
  rw [returns_iff (UInt32.lt_iff_toNat_lt.1 hpos) (UInt32.le_iff_toNat_le.1 hle),
    ← backoffAfter_toNat hpos hle, hsec, UInt32.toNat_inj]

/-- A first session that does not reach the pool, and a second one that is lost after a cycle. -/
def backoffScript : List Event :=
  [.load, .resolve 0, .load, .wake, .load] ++ startScript scriptConfig ++ cycleScript scriptConfig 3
    ++ lostScript ++ [.load, .wake]

/-- The delay after the second session is not the initial one. -/
theorem backoff_grown :
    ¬Along (fun t o => ∀ sec, o = .slept sec → RestartsBackoff scriptConfig t sec)
      ((runStratumLoop scriptConfig).run {} backoffScript).state.env.trace := by
  intro h
  have hlast : ((runStratumLoop scriptConfig).run {} backoffScript).state.env.trace.getLast? =
      some (.slept 2) := by decide +kernel
  have hworked : 0 < (sessions ((runStratumLoop scriptConfig).run {}
      backoffScript).state.env.trace.dropLast).acceptedHere := by
    decide +kernel
  have hsec := h.last hlast 2 rfl hworked
  revert hsec
  decide

theorem backoff_restarts_iff_script :
    Along (fun t o => ∀ sec, o = .slept sec →
        (RestartsBackoff scriptConfig t sec ↔ (0 < (sessions t).acceptedHere →
          Returns scriptConfig.poolReconnectInitialSec.toNat
            scriptConfig.poolReconnectMaxSec.toNat ((sessions t).failures.length - 1))))
      ((runStratumLoop scriptConfig).run {} backoffScript).state.env.trace :=
  backoff_restarts_iff scriptConfig validateConfig_scriptConfig rfl backoffScript

/-! ## Reconnects -/

/-- `reconnect_events` counts the sleeps, and a run in which every session failed and no stop was
requested made as many reconnect attempts as it was allowed. -/
def ReconnectsAsDocumented (cfg : MinerConfig) (w : Miner) : Prop :=
  (∃ stats, (sessions w.env.trace).summary = some stats ∧
    stats.reconnectEvents = (sessions w.env.trace).sleeps.length) ∧
  (0 < cfg.poolMaxReconnectAttempts → (sessions w.env.trace).finished = 0 →
    w.env.stopRequested = false →
      (sessions w.env.trace).reconnects = cfg.poolMaxReconnectAttempts.toNat)

/-- **Reconnects** are as documented in exactly the runs that do not end right after a failed
session, at the cap or at the stop test before the sleep. -/
theorem reconnects_as_documented_iff (cfg : MinerConfig) (events : List Event) :
    ∀ rc w rest, (runStratumLoop cfg).run {} events = .done rc w rest →
      (ReconnectsAsDocumented cfg w ↔ (sessions w.env.trace).justFailed = false) := by
  intro rc w rest hrun
  have h : RunEnd cfg rc w := wp.done (wp_runStratumLoop cfg) hrun
  have hslept := h.slept
  have hevents : w.stats.reconnectEvents = (sessions w.env.trace).failures.length :=
    h.tallied.events.trans h.tallied.failures
  constructor
  · rintro ⟨⟨stats, hsummary, hcount⟩, -⟩
    rw [h.summary, Option.some.injEq] at hsummary
    subst hsummary
    cases hjust : (sessions w.env.trace).justFailed with
    | false => rfl
    | true =>
      rw [hjust, Bool.toNat_true] at hslept
      omega
  · intro hjust
    rw [hjust, Bool.toNat_false] at hslept
    refine ⟨⟨w.stats, h.summary, by omega⟩, ?_⟩
    intro _ hfinished hstop
    -- without a stop request, a run of failed sessions can only end at the cap
    by_cases hrc : rc = 0
    · rw [h.stopped hrc hfinished] at hstop
      cases hstop
    · obtain ⟨-, -, -, hjust'⟩ := h.capped hrc
      rw [hjust'] at hjust
      cases hjust

/-- One reconnect attempt is allowed. -/
def cappedConfig : MinerConfig := { scriptConfig with poolMaxReconnectAttempts := 1 }

/-- The only session does not reach the pool. -/
def unreachableScript : List Event := [.load, .resolve 0, .clock 0 []]

theorem value_unreachableScript :
    ((runStratumLoop cappedConfig).run {} unreachableScript).value = some 4 := by decide +kernel

/-- One reconnect is counted, and none was made. -/
theorem reconnects_not_as_documented :
    ¬∀ cfg events rc w rest, (runStratumLoop cfg).run {} events = .done rc w rest →
      ReconnectsAsDocumented cfg w := by
  intro h
  obtain ⟨⟨stats, hsummary, hcount⟩, -⟩ := h cappedConfig unreachableScript 4 _ _
    (Outcome.eq_done_of_value value_unreachableScript)
  have hstats : (sessions ((runStratumLoop cappedConfig).run {}
      unreachableScript).state.env.trace).summary.map SessionStats.reconnectEvents = some 1 := by
    decide +kernel
  have hsleeps : (sessions ((runStratumLoop cappedConfig).run {}
      unreachableScript).state.env.trace).sleeps = [] := by decide +kernel
  rw [hsummary, Option.map_some, hcount, hsleeps] at hstats
  cases hstats

theorem reconnects_as_documented_iff_script :
    ReconnectsAsDocumented cappedConfig
        ((runStratumLoop cappedConfig).run {} unreachableScript).state ↔
      (sessions ((runStratumLoop cappedConfig).run {} unreachableScript).state.env.trace).justFailed =
        false :=
  reconnects_as_documented_iff cappedConfig unreachableScript 4 _ _
    (Outcome.eq_done_of_value value_unreachableScript)

end HermitMiner
