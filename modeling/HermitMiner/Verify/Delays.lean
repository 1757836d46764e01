import HermitMiner.Verify.Backoff

/-!
# Delays of a pool that stays away

* `leads_unreachable`: sessions that do not reach the pool, one after another.
* `delays_double_iff`: the bounds for which every delay is the initial one doubled up to the maximum.
-/

namespace HermitMiner

open Oracle

/-! ## Sessions that do not reach the pool -/

/-- A valid configuration with the given bounds. -/
def boundedConfig (i m : UInt32) : MinerConfig :=
  { scriptConfig with poolReconnectInitialSec := i, poolReconnectMaxSec := m }

/-- Other bounds in order leave a valid configuration valid. -/
theorem validateConfig_withBounds {cfg : MinerConfig} (h : validateConfig cfg = .ok ())
    {i m : UInt32} (hpos : 0 < i) (hle : i ≤ m) :
    validateConfig { cfg with poolReconnectInitialSec := i, poolReconnectMaxSec := m } =
      .ok () := by
  have hm : m ≠ 0 := UInt32.pos_iff_ne_zero.1 (UInt32.lt_of_lt_of_le hpos hle)
  have hbounds : ¬(i = 0 ∨ m = 0) := not_or.2 ⟨UInt32.pos_iff_ne_zero.1 hpos, hm⟩
  have hname : poolUsername { cfg with poolReconnectInitialSec := i, poolReconnectMaxSec := m } =
      poolUsername cfg := rfl
  have hpassed : ∀ {c : Prop} [Decidable c] {e : Bytes} {x : Except Bytes Unit},
      (if c then .error e else x) = .ok () ↔ ¬c ∧ x = .ok () := by
    intro c _ e x
    refine ⟨passed_of_ite, ?_⟩
    rintro ⟨hc, hx⟩
    rw [if_neg hc, hx]
  unfold validateConfig at h ⊢
  simp only [hpassed, hname] at h ⊢
  refine ⟨h.1, h.2.1, ?_⟩
  replace h := h.2.2
  by_cases hoff : (!cfg.poolEnabled) = true
  · rw [if_pos hoff]
  · rw [if_neg hoff] at h ⊢
    simp only [hpassed] at h ⊢
    obtain ⟨hhost, hport, huser, hplaceholder, hpassword, hsecret, htimeout, -, -, htls⟩ := h
    exact ⟨hhost, hport, huser, hplaceholder, hpassword, hsecret, htimeout, hbounds,
      UInt32.not_lt.2 hle, htls⟩

theorem validateConfig_boundedConfig {i m : UInt32} (hpos : 0 < i) (hle : i ≤ m) :
    validateConfig (boundedConfig i m) = .ok () :=
  validateConfig_withBounds validateConfig_scriptConfig hpos hle

/-- A session that does not reach the pool, and the sleep after it. -/
def unreachableRound : List Event := [.load, .resolve 0, .load, .wake]

def unreachableRounds (n : Nat) : List Event := (List.replicate n unreachableRound).flatten

theorem unreachableRounds_succ (n : Nat) :
    unreachableRounds (n + 1) = unreachableRounds n ++ unreachableRound := by
  rw [unreachableRounds, List.replicate_succ', List.flatten_append]
  simp [unreachableRounds]

section

variable (i m : UInt32)

/-- One such session, whatever came before it. -/
theorem loopRound_unreachable (b : UInt32) {w : Miner} (hstop : w.env.stopRequested = false) :
    ∃ w', (∀ es, (loopRound (boundedConfig i m) b).run w (unreachableRound ++ es) =
        .done (.inl (backoffNext (boundedConfig i m) b)) w' es) ∧
      w'.env.trace = w.env.trace ++ [.sessionStarted] ++ [.unreachable] ++ [.sessionEnded 4]
        ++ [.slept b] ∧
      w'.env.stopRequested = false := by
  obtain ⟨⟨stop, connected, nextId, inbox, log, trace⟩, stats, cyclesDone⟩ := w
  simp only at hstop
  subst hstop
  exact ⟨_, fun es => rfl, rfl, rfl⟩

/-- After `n` of them, the next delay is the one after `n` failures. -/
theorem leads_unreachable (n : Nat) :
    ∃ w, Proc.Leads (loopRound (boundedConfig i m)) (backoffInitial (boundedConfig i m)) {}
        (unreachableRounds n) (backoffAfter (boundedConfig i m) n) w ∧
      (sessions w.env.trace).failures.length = n ∧ w.env.stopRequested = false := by
  induction n with
  | zero => exact ⟨{}, .refl, rfl, rfl⟩
  | succ n ih =>
    obtain ⟨w, hleads, hfailures, hstop⟩ := ih
    obtain ⟨w', hround, htrace, hstop'⟩ :=
      loopRound_unreachable i m (backoffAfter (boundedConfig i m) n) hstop
    refine ⟨w', ?_, ?_, hstop'⟩
    · rw [unreachableRounds_succ, backoffAfter, Function.iterate_succ_apply']
      exact hleads.trans (.round (advances_loopRound _) hround)
    · simp only [htrace, sessions_concat, Sessions.step]
      simp [hfailures]

/-- The delay after `n + 1` of them is taken in a run. -/
theorem exists_slept (n : Nat) :
    ∃ events before after, ((runStratumLoop (boundedConfig i m)).run {} events).state.env.trace =
        before ++ .slept (backoffAfter (boundedConfig i m) n) :: after ∧
      (sessions before).failures.length = n + 1 := by
  obtain ⟨w, hleads, hfailures, hstop⟩ := leads_unreachable i m n
  obtain ⟨w', hround, htrace, -⟩ :=
    loopRound_unreachable i m (backoffAfter (boundedConfig i m) n) hstop
  have hlast := hleads.trans (.round (advances_loopRound _) hround) []
  refine ⟨unreachableRounds n ++ unreachableRound,
    w.env.trace ++ [.sessionStarted] ++ [.unreachable] ++ [.sessionEnded 4], [], ?_, ?_⟩
  · rw [← htrace]
    rw [List.append_nil] at hlast
    rw [runStratumLoop, Proc.bind_run, hlast]
    rfl
  · simp only [sessions_concat, Sessions.step]
    simp [hfailures]

end

/-! ## When the delays double -/

/-- With these bounds, in every run the delay after the `k + 1`-th failure is the initial one doubled
`k` times, up to the maximum, in natural numbers. -/
def DelaysDouble (i m : UInt32) : Prop :=
  ∀ cfg, validateConfig cfg = .ok () → cfg.poolEnabled = true → cfg.poolReconnectInitialSec = i →
    cfg.poolReconnectMaxSec = m → ∀ events,
      Along (fun t o => ∀ sec k, o = .slept sec → (sessions t).failures.length = k + 1 →
          sec.toNat = min m.toNat (i.toNat * 2 ^ k))
        ((runStratumLoop cfg).run {} events).state.env.trace

/-- What a run with these bounds shows of the delays. -/
theorem DelaysDouble.delay_eq {i m : UInt32} (h : DelaysDouble i m) (hpos : 0 < i)
    (hle : i ≤ m) (k : Nat) :
    (backoffAfter (boundedConfig i m) k).toNat = min m.toNat (i.toNat * 2 ^ k) := by
  obtain ⟨events, before, after, htrace, hfailures⟩ := exists_slept i m k
  have hvalid := validateConfig_boundedConfig hpos hle
  exact h (boundedConfig i m) hvalid rfl rfl rfl events before _ after htrace _ k rfl hfailures

/-- **Delays**: they double up to the maximum exactly when the maximum is below `2 ^ 31`. -/
theorem delays_double_iff (i m : UInt32) (hpos : 0 < i) (hle : i ≤ m) :
    DelaysDouble i m ↔ m.toNat < 2 ^ 31 := by
  have hi : 1 ≤ i.toNat := UInt32.lt_iff_toNat_lt.1 hpos
  have him : i.toNat ≤ m.toNat := UInt32.le_iff_toNat_le.1 hle
  constructor
  · intro h
    by_contra hge
    have h31 := h.delay_eq hpos hle 31
    have h32 := h.delay_eq hpos hle 32
    -- the last delay has reached `2 ^ 31`, so that its double wraps around below it
    have hnext := @backoffAfter_toNat (boundedConfig i m) hpos hle 32
    rw [Function.iterate_succ_apply', ← @backoffAfter_toNat (boundedConfig i m) hpos hle 31,
      cappedDouble, h31, h32] at hnext
    have hlt := m.toNat_lt
    have hmax : (boundedConfig i m).poolReconnectMaxSec = m := rfl
    rw [hmax] at hnext
    omega
  · rintro hlt cfg hvalid henabled rfl rfl events
    refine (run_disciplined cfg events).mono ?_
    intro t o h sec k ho hk
    subst ho
    have hsec : sec = backoffAfter cfg ((sessions t).failures.length - 1) := h.2
    rw [hsec, hk, Nat.add_sub_cancel, backoffAfter_toNat hpos hle, iterate_cappedDouble him hlt]

theorem delays_double_iff_default : DelaysDouble 1 30 ↔ (30 : UInt32).toNat < 2 ^ 31 :=
  delays_double_iff 1 30 (by decide) (by decide)

/-- The second delay is 0. -/
theorem delays_wrap : ¬DelaysDouble 0x80000000 0xffffffff := by
  intro h
  have htrace : ((runStratumLoop (boundedConfig 0x80000000 0xffffffff)).run {}
      (unreachableRounds 2)).state.env.trace =
        [.sessionStarted, .unreachable, .sessionEnded 4, .slept 0x80000000, .sessionStarted,
          .unreachable, .sessionEnded 4] ++ [.slept 0] := by
    decide +kernel
  have hvalid := validateConfig_boundedConfig (i := 0x80000000) (m := 0xffffffff) (by decide)
    (by decide)
  have hsec := h _ hvalid rfl rfl rfl (unreachableRounds 2) _ _ [] htrace 0 1 rfl rfl
  revert hsec
  decide

end HermitMiner
