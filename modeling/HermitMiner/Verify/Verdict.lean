import HermitMiner.Verify.Exhaustion

/-!
# Found or aborted

A worker that wins the exchange on `stop` records its nonce, and the reporting loop that sees a stop
request stores `stop` and an abort, whatever `stop` was.

* `Deciding`: what the verdict says of the rounds so far, and how a step of a worker and of the calling
  thread keep it.
* `sharesFound_mineJob`: what the session makes of it.
* `found_kept_iff`: a recorded nonce is kept exactly when no abort is stored over it.
-/

namespace HermitMiner

open Oracle

section Verdict

variable {hash256 : Bytes → Hash256} {cfg : MinerConfig} {m : Machine} {e : Env} {tid : Nat}

/-- The reporting loop is about to store an abort, and a worker has set `stop` already. -/
def Overrides (m : Machine) : Prop := m.main = .storeAbort ∧ m.stop = true

instance (m : Machine) : Decidable (Overrides m) :=
  inferInstanceAs (Decidable (_ ∧ _))

/-- One of the rounds so far started with an abort about to be stored over a solution. -/
def Overridden (past : List (Machine × Env)) : Prop := ∃ p ∈ past, Overrides p.1

theorem overridden_concat {past : List (Machine × Env)} {p : Machine × Env} :
    Overridden (past ++ [p]) ↔ Overridden past ∨ Overrides p.1 := by
  simp [Overridden, or_and_right, exists_or]

/-! ## The whole search -/

/-- What the place of the calling thread says of the verdict. -/
def VerdictAt (past : List (Machine × Env)) (m : Machine) : Prop :=
  match m.main with
  | .spawning tid =>
    (∀ i, tid ≤ i → (m.workers i).pc = .notStarted) ∧ m.result.aborted = false ∧ ¬Overridden past
  | .whileTest | .loadRequest | .sleeping | .storeStop =>
    m.result.aborted = false ∧ ¬Overridden past
  | .storeAbort => m.result.aborted = false ∧ (Overridden past → m.stop = true)
  | .joining tid =>
    m.stop = true ∧ (∀ i < tid, (m.workers i).pc = .done) ∧
      if m.result.aborted then (Winner m ↔ Overridden past) else ¬Overridden past

variable (cfg) in
/-- What the verdict so far says of the rounds so far. -/
structure Deciding (past : List (Machine × Env)) (m : Machine) : Prop where
  idle : ∀ i, cfg.threadCount.toNat ≤ i → (m.workers i).pc = .notStarted
  stopped : Winner m → m.stop = true
  /-- Before the calling thread stores `stop` itself, it is a winner who has. -/
  unstopped : (∀ tid, m.main ≠ .joining tid) → m.stop = true → Winner m
  verdict : VerdictAt past m

variable {past : List (Machine × Env)} {m' : Machine}

theorem overridden_concat_of_ne (h : ¬Overridden past) (hmain : m.main ≠ .storeAbort) :
    ¬Overridden (past ++ [(m, e)]) := by
  rw [overridden_concat]
  rintro (hpast | hnow)
  · exact h hpast
  · exact hmain hnow.1

/-- A step of a worker. -/
theorem Deciding.worker (h : Deciding cfg past m) (hstep : Decides tid m m') :
    Deciding cfg (past ++ [(m, e)]) m' := by
  refine ⟨fun i hi => hstep.idle (h.idle i hi), ?_, ?_, ?_⟩
  · intro hwinner
    rcases hstep.winner with ⟨hkeep, hiff⟩ | ⟨-, hnew, -⟩
    · rw [hkeep, h.stopped (hiff.1 hwinner)]
    · exact hnew
  · intro hmain hset
    rcases hstep.winner with ⟨hkeep, hiff⟩ | ⟨-, -, hnew⟩
    · rw [hstep.main] at hmain
      exact hiff.2 (h.unstopped hmain (hkeep ▸ hset))
    · exact hnew
  · have hverdict := h.verdict
    unfold VerdictAt at hverdict ⊢
    rw [hstep.main]
    cases hmain : m.main with
    | spawning t =>
      rw [hmain] at hverdict
      obtain ⟨hworkers, haborted, hpast⟩ := hverdict
      exact ⟨fun i hi => hstep.idle (hworkers i hi), hstep.aborted.trans haborted,
        overridden_concat_of_ne hpast (by simp [hmain])⟩
    | storeAbort =>
      rw [hmain] at hverdict
      refine ⟨hstep.aborted.trans hverdict.1, ?_⟩
      rw [overridden_concat]
      rintro (hpast | hnow)
      · exact hstep.stopped (hverdict.2 hpast)
      · exact hstep.stopped hnow.2
    | joining t =>
      rw [hmain] at hverdict
      obtain ⟨hset, hjoined, hverdict⟩ := hverdict
      have hpast : Overridden (past ++ [(m, e)]) ↔ Overridden past := by
        simp [overridden_concat, Overrides, hmain]
      have hwinner : Winner m' ↔ Winner m := by
        rcases hstep.winner with ⟨-, hiff⟩ | ⟨hclear, -, -⟩
        · exact hiff
        · simp [hset] at hclear
      refine ⟨hstep.stopped hset, fun i hi => hstep.done (hjoined i hi), ?_⟩
      rw [hstep.aborted, hpast, hwinner]
      exact hverdict
    | whileTest | loadRequest | sleeping | storeStop =>
      rw [hmain] at hverdict
      exact ⟨hstep.aborted.trans hverdict.1, overridden_concat_of_ne hverdict.2 (by simp [hmain])⟩

/-- A step of the calling thread that changes nothing but its place. -/
theorem Deciding.move (h : Deciding cfg past m) (hworkers : m'.workers = m.workers)
    (hresult : m'.result = m.result) (hstop : m'.stop = m.stop)
    (hmain : ∀ tid, m.main ≠ .joining tid)
    (hverdict : VerdictAt (past ++ [(m, e)]) m') : Deciding cfg (past ++ [(m, e)]) m' := by
  have hwinner : Winner m' ↔ Winner m := by
    unfold Winner
    rw [hworkers, hresult]
  refine ⟨?_, ?_, ?_, hverdict⟩
  · rw [hworkers]
    exact h.idle
  · rw [hwinner, hstop]
    exact h.stopped
  · intro _ hset
    exact hwinner.2 (h.unstopped hmain (hstop ▸ hset))

/-- The calling thread stores `stop`, with an abort or without. -/
theorem Deciding.join (h : Deciding cfg past m) (hworkers : m'.workers = m.workers)
    (hfound : m'.result.found = m.result.found) (hset : m'.stop = true)
    (hmain : m'.main = .joining 0)
    (hverdict : if m'.result.aborted then (Winner m ↔ Overridden (past ++ [(m, e)]))
      else ¬Overridden (past ++ [(m, e)])) : Deciding cfg (past ++ [(m, e)]) m' := by
  have hwinner : Winner m' ↔ Winner m := by
    unfold Winner
    rw [hworkers, hfound]
  refine ⟨?_, fun _ => hset, fun h' => absurd hmain (h' 0), ?_⟩
  · rw [hworkers]
    exact h.idle
  · unfold VerdictAt
    rw [hmain]
    refine ⟨hset, fun i hi => absurd hi (Nat.not_lt_zero i), ?_⟩
    rw [hwinner]
    exact hverdict

/-- When every worker is joined, the result is the verdict. -/
theorem Deciding.verdict_iff (h : Deciding cfg past m) {t : Nat} (hmain : m.main = .joining t)
    (ht : cfg.threadCount.toNat ≤ t) :
    (m.result.found = true → m.result.aborted = false) ↔ ¬Overridden past := by
  have hverdict := h.verdict
  unfold VerdictAt at hverdict
  rw [hmain] at hverdict
  obtain ⟨-, hjoined, hverdict⟩ := hverdict
  have hwinner : Winner m ↔ m.result.found = true := by
    refine ⟨?_, Or.inl⟩
    rintro (hfound | ⟨i, nonce, hash, hpc⟩)
    · exact hfound
    · rcases Nat.lt_or_ge i t with hi | hi
      · rw [hjoined i hi] at hpc
        cases hpc
      · rw [h.idle i (ht.trans hi)] at hpc
        cases hpc
  cases haborted : m.result.aborted with
  | true =>
    rw [haborted, if_pos rfl, hwinner] at hverdict
    simp [← hverdict]
  | false =>
    rw [haborted, if_neg (by simp)] at hverdict
    simp [hverdict]

/-- What a step of the calling thread does to the verdict, or to the result it leaves with. -/
theorem Deciding.main {requested : Bool} {obs : List Obs} {r : Machine ⊕ MiningResult}
    (h : Deciding cfg past m) (hstep : MainStep cfg requested m obs r) :
    Sum.elim (fun m' => Deciding cfg (past ++ [(m, e)]) m')
      (fun result => (result.found = true → result.aborted = false) ↔
        ¬Overridden (past ++ [(m, e)])) r := by
  have hverdict := h.verdict
  unfold VerdictAt at hverdict
  have hpast : m.main ≠ .storeAbort → (Overridden (past ++ [(m, e)]) ↔ Overridden past) := by
    intro hmain
    simp [overridden_concat, Overrides, hmain]
  cases hstep with
  | @spawn t hmain =>
    rw [hmain] at hverdict
    obtain ⟨hworkers, haborted, hnot⟩ := hverdict
    have hwinner : Winner (m.setWorker t (startWorker cfg t)) ↔ Winner m :=
      winner_setWorker_iff (by simp [hworkers t le_rfl]) (Worker.loopHead_ne_recording _)
    have hothers : ∀ i, t + 1 ≤ i →
        ((m.setWorker t (startWorker cfg t)).workers i).pc = .notStarted := by
      intro i hi
      rw [Machine.workers_setWorker, if_neg (by omega)]
      exact hworkers i (by omega)
    refine ⟨?_, fun hw => h.stopped (hwinner.1 hw), ?_, hothers, haborted, ?_⟩
    · intro i hi
      exact hothers i (by omega)
    · intro _ hset
      exact hwinner.2 (h.unstopped (by simp [hmain]) hset)
    · rwa [hpast (by simp [hmain])]
  | spawned hmain =>
    rw [hmain] at hverdict
    rw [← hpast (by simp [hmain])] at hverdict
    exact h.move rfl rfl rfl (by simp [hmain]) hverdict.2
  | stopped hmain hset =>
    rw [hmain] at hverdict
    refine h.join rfl rfl hset rfl ?_
    rw [if_neg (by simp [hverdict.1]), hpast (by simp [hmain])]
    exact hverdict.2
  | unstopped hmain | unasked hmain | counts hmain | reports hmain =>
    rw [hmain] at hverdict
    rw [← hpast (by simp [hmain])] at hverdict
    exact h.move rfl rfl rfl (by simp [hmain]) hverdict
  | asked hmain =>
    rw [hmain] at hverdict
    rw [← hpast (by simp [hmain])] at hverdict
    exact h.move rfl rfl rfl (by simp [hmain]) ⟨hverdict.1, fun hp => absurd hp hverdict.2⟩
  | aborts hmain =>
    rw [hmain] at hverdict
    refine h.join rfl rfl rfl rfl ?_
    rw [if_pos rfl, overridden_concat]
    constructor
    · intro hwinner
      exact Or.inr ⟨hmain, h.stopped hwinner⟩
    · rintro (hnow | hnow)
      · exact h.unstopped (by simp [hmain]) (hverdict.2 hnow)
      · exact h.unstopped (by simp [hmain]) hnow.2
  | stops hmain =>
    rw [hmain] at hverdict
    refine h.join rfl rfl rfl rfl ?_
    rw [if_neg (by simp [hverdict.1]), hpast (by simp [hmain])]
    exact hverdict.2
  | @joins t hmain _ hdone =>
    rw [hmain] at hverdict
    rw [← hpast (by simp [hmain])] at hverdict
    obtain ⟨hset, hjoined, hverdict⟩ := hverdict
    refine ⟨h.idle, h.stopped, fun h' => absurd rfl (h' (t + 1)), hset, ?_, hverdict⟩
    intro i hi
    rcases Nat.lt_succ_iff_lt_or_eq.1 hi with hi | rfl
    · exact hjoined i hi
    · exact hdone
  | returns hmain ht =>
    show _ ↔ _
    rw [hpast (by simp [hmain])]
    exact h.verdict_iff hmain (Nat.le_of_not_lt ht)

/-- Before the first step nothing is decided. -/
theorem Deciding.initial : Deciding cfg [] {} where
  idle _ _ := rfl
  stopped hwinner := by simp [Winner] at hwinner
  unstopped _ hset := by cases hset
  verdict := ⟨fun _ _ => rfl, rfl, by simp [Overridden]⟩

/-- The result of a run of `mine` is not both found and aborted exactly when no round of it started
with an abort about to be stored over a solution. -/
theorem not_both_iff {events rest : List Event} {result : MiningResult} {e' : Env}
    (hrun : (mineWith hash256 cfg).run e events = .done result e' rest) :
    (result.found = true → result.aborted = false) ↔
      ∀ p ∈ Proc.rounds (mineRound hash256 cfg) {} e events, ¬Overrides p.1 := by
  have hverdict : (result.found = true → result.aborted = false) ↔
      ¬Overridden (Proc.rounds (mineRound hash256 cfg) {} e events) := by
    refine rounds_of_loop (I := fun past m _ => Deciding cfg past m)
      (Q := fun past result _ => (result.found = true → result.aborted = false) ↔
        ¬Overridden past) .initial ?_ hrun
    intro past m e h
    refine wp_mineRound (I := fun _ => True) ⟨fun _ => trivial, fun _ _ => trivial⟩ trivial ?_ ?_
    · intro e' _ tid obs m' e'' hstep _
      exact h.worker hstep.decides
    · intro e' _ obs r e'' hstep _
      exact h.main hstep
  rw [hverdict]
  simp only [Overridden, not_exists, not_and]

end Verdict

/-! ## The session -/

section Session

variable {cfg : MinerConfig} {client : StratumClient} {job : StratumJob} {w : Miner}

/-- What the session has done before it calls `mine` for a job. -/
def Miner.mining (cfg : MinerConfig) (job : StratumJob) (w : Miner) : Miner :=
  (w.setStats SessionStats.jobReceived).setEnv (w.env.addLog
    ⟨.info, str "stratum", cfg.nodeId, str "Mining on Stratum job",
      jobContext job (miningConfig cfg job)⟩)

/-- What the session does with the result of `mine`. -/
theorem mineJob_run {events rest : List Event} {result : MiningResult} {e : Env}
    (hrun : (mine (miningConfig cfg job)).run (w.mining cfg job).env events =
      .done result e rest) :
    (mineJob cfg client job).run w events =
      (if result.aborted then pure (.inr 0)
        else if !result.found then do
          logStratum cfg .warn (str "No valid nonce found for job") job.jobId
          return .inl ()
        else submitFound cfg client job.jobId result.nonce : App (Unit ⊕ Int)).run
        ((w.mining cfg job).setEnv e) rest := by
  have hmine : (onEnv (mine (miningConfig cfg job))).run (w.mining cfg job) events =
      .done result ((w.mining cfg job).setEnv e) rest := by
    show Proc.zoomRun _ _ _ _ _ = _
    rw [Proc.zoomRun, hrun]
  show ((onEnv (mine (miningConfig cfg job))) >>= _).run (w.mining cfg job) events = _
  rw [Proc.bind_run, hmine]

/-- `n` shares have been counted. -/
def FoundSoFar (n : Nat) (w : Miner) : Prop := w.stats.sharesFound = n

variable {n : Nat}

theorem keeps_onEnv_found {α : Type} (m : Sys α) : Keeps (FoundSoFar n) (onEnv m) :=
  .zoom (fun w => .const (p := w.stats.sharesFound = n) m) fun _ => rfl

theorem keeps_updateStats_found {f : SessionStats → SessionStats}
    (hf : ∀ stats, (f stats).sharesFound = stats.sharesFound) :
    Keeps (FoundSoFar n) (updateStats f) :=
  .modify fun w h => (hf w.stats).trans h

theorem keeps_maybeWriteHealthSnapshotIncremental_found :
    Keeps (FoundSoFar n) (maybeWriteHealthSnapshotIncremental cfg) := by
  unfold maybeWriteHealthSnapshotIncremental writeHealthSnapshot
  refine .ite .pure ((keeps_onEnv_found _).bind fun _ => Keeps.get.bind fun _ => .ite .pure ?_)
  refine (keeps_onEnv_found _).bind fun _ => .ite ?_ (keeps_onEnv_found _)
  exact Keeps.get.bind fun _ => keeps_onEnv_found _

/-- A share that is passed on is counted once. -/
theorem wp_submitFound_found {jobId : Bytes} {nonce : UInt32} (h : FoundSoFar n w) :
    wp (submitFound cfg client jobId nonce) (fun _ => FoundSoFar (n + 1)) (FoundSoFar (n + 1)) w := by
  refine wp_bind (wp_modify ?_)
  have hcounted : FoundSoFar (n + 1) (w.setStats SessionStats.shareFound) := congrArg (· + 1) h
  have hcycle : Keeps (FoundSoFar (n + 1)) (Proc.modify Miner.cycleDone : App Unit) :=
    .modify fun _ h => h
  refine ((keeps_onEnv_found _).bind fun ok => .ite ?_ ?_ :
    Keeps (FoundSoFar (n + 1)) _) _ hcounted
  · have haccepted := keeps_updateStats_found (n := n + 1) (f := SessionStats.shareAccepted jobId)
      fun _ => rfl
    exact hcycle.bind fun _ => haccepted.bind fun _ =>
      keeps_maybeWriteHealthSnapshotIncremental_found.bind fun _ =>
        (keeps_onEnv_found _).bind fun _ => .pure
  · have hfailed := keeps_updateStats_found (n := n + 1) (f := SessionStats.submitFailed)
      fun _ => rfl
    exact hfailed.bind fun _ => (keeps_onEnv_found _).bind fun _ => .pure

/-- A share that `mine` found is counted by the session exactly when it was not aborted. -/
theorem sharesFound_mineJob {events rest : List Event} {result : MiningResult} {e : Env}
    (hrun : (mine (miningConfig cfg job)).run (w.mining cfg job).env events = .done result e rest)
    (hfound : result.found = true) :
    ((mineJob cfg client job).run w events).state.stats.sharesFound = w.stats.sharesFound + 1 ↔
      result.aborted = false := by
  rw [mineJob_run hrun]
  cases result.aborted with
  | true =>
    show w.stats.sharesFound = w.stats.sharesFound + 1 ↔ _
    simp
  | false =>
    rw [if_neg (by simp), if_neg (by simp [hfound])]
    have hbefore : FoundSoFar w.stats.sharesFound ((w.mining cfg job).setEnv e) := rfl
    exact iff_of_true (wp.state (wp_submitFound_found hbefore) rest) rfl

end Session

/-- **Found shares and stops**: in every run of `mine`, under every schedule, a solution that a
worker recorded is reported without an abort exactly when the reporting loop did not come to store
an abort after `stop` was set; and the session counts the share in the same runs. -/
theorem found_kept_iff (cfg : MinerConfig) (events : List Event) :
    (∀ (hash256 : Bytes → Hash256) (e : Env) (result : MiningResult) (e' : Env)
      (rest : List Event),
      (mineWith hash256 cfg).run e events = .done result e' rest →
      ((result.found = true → result.aborted = false) ↔
        ∀ p ∈ Proc.rounds (mineRound hash256 cfg) {} e events, ¬Overrides p.1)) ∧
    (∀ (client : StratumClient) (job : StratumJob) (w : Miner) (result : MiningResult) (e' : Env)
      (rest : List Event),
      (mine (miningConfig cfg job)).run (w.mining cfg job).env events = .done result e' rest →
      result.found = true →
      (((mineJob cfg client job).run w events).state.stats.sharesFound =
          w.stats.sharesFound + 1 ↔
        ∀ p ∈ Proc.rounds (mineRound doubleSha256 (miningConfig cfg job)) {}
          (w.mining cfg job).env events, ¬Overrides p.1)) := by
  refine ⟨?_, ?_⟩
  · intro hash256 e result e' rest hrun
    exact not_both_iff hrun
  · intro client job w result e' rest hrun hfound
    have hnot := not_both_iff hrun
    rw [sharesFound_mineJob hrun hfound, ← hnot]
    simp [hfound]

/-- A configuration whose first nonce is a solution. -/
def easyConfig : MinerConfig := { scriptConfig with difficultyBits := 0 }

/-- Without a stop request the share is kept. -/
theorem found_kept_iff_script :
    ∃ result e' rest, (mine easyConfig).run {} mineScript = .done result e' rest ∧
      result.found = true ∧ result.aborted = false := by
  have hvalue : (((mine easyConfig).run {} mineScript).value.map MiningResult.found) = some true := by
    decide +kernel
  obtain ⟨result, hrun, hfound⟩ := Option.map_eq_some_iff.1 hvalue
  have hdone := Outcome.eq_done_of_value hrun
  refine ⟨result, _, _, hdone, hfound, ?_⟩
  exact ((found_kept_iff easyConfig mineScript).1 doubleSha256 {} result _ _ hdone).2
    (by decide +kernel) hfound

/-- The stop is requested when the worker has a solution in hand, and the worker sets `stop` between
the reporting loop's load of the request and its store. -/
def overrideScript : List Event :=
  List.replicate 2 (.reporter [] []) ++ List.replicate 3 (.worker 0) ++ [.reporter [] [], .signal,
    .reporter [] [], .worker 0, .reporter [] []] ++ List.replicate 2 (.worker 0)
    ++ List.replicate 2 (.reporter [] [])

/-- `mine` returns a result with both flags set, and the session drops the share. -/
theorem found_share_dropped :
    ¬∀ (cfg : MinerConfig) (events : List Event) (result : MiningResult), 1 ≤ cfg.threadCount →
      ((mine cfg).run {} events).value = some result →
      ¬(result.found = true ∧ result.aborted = true) := by
  intro h
  have hvalue : (((mine easyConfig).run {} overrideScript).value.map fun result =>
      (result.found, result.aborted)) = some (true, true) := by
    decide +kernel
  obtain ⟨result, hrun, hboth⟩ := Option.map_eq_some_iff.1 hvalue
  exact h easyConfig overrideScript result (by decide) hrun (Prod.mk.inj hboth)

end HermitMiner
