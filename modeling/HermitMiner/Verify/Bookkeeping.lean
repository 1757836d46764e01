import HermitMiner.Verify.Client
import HermitMiner.Verify.Mine

/-!
# The books of a whole run

* `Bystander`, `keeps_runStratumLoop`: an invariant of the environment that a session keeps, and
  that logging and the observations about sessions do not touch, is kept by the whole run.
* `ValidShare`: a nonce that solves the puzzle of a job (`validShare_iff`).
* `run_ledger`: in every state of every run the books of the connection are in order.
-/

namespace HermitMiner

open Oracle

/-! ## Around the sessions -/

/-- What the loop over sessions observes between their ends. -/
def Obs.isReport : Obs → Bool
  | .sessionStarted | .slept _ | .snapshot .. | .summary .. => true
  | _ => false

theorem Obs.isAside_of_isReport {o : Obs} (ho : o.isReport = true) : o.isAside = true := by
  cases o with
  | sessionStarted => rfl
  | slept sec => rfl
  | snapshot stats cyclesDone text => rfl
  | summary stats cyclesDone => rfl
  | _ => cases ho

/-- Logging and reports do not touch `I`. -/
structure Bystander (I : Env → Prop) : Prop extends Stable I where
  report : ∀ {e o}, Obs.isReport o = true → I e → I (e.observe o)
  addLog : ∀ {e} entry, I e → I (e.addLog entry)

section Bystander

variable {I : Env → Prop} (hI : Bystander I) (cfg : MinerConfig)
include hI

theorem keeps_report {o : Obs} (ho : o.isReport = true) :
    Keeps (fun w : Miner => I w.env) (onEnv (observe o)) :=
  keeps_onEnv (.modify fun _ h => hI.report ho h)

theorem keeps_logStratum (level : LogLevel) (message context : Bytes) :
    Keeps (fun w : Miner => I w.env) (logStratum cfg level message context) :=
  keeps_onEnv (.modify fun _ h => hI.addLog _ h)

theorem keeps_loadStopAside : Keeps (fun w : Miner => I w.env) (onEnv loadStop) :=
  keeps_onEnv fun _ h => wp_loadStop hI.toStable h (fun _ h => h) fun _ h => h

theorem keeps_clockAside : Keeps (fun w : Miner => I w.env) (onEnv clock) :=
  keeps_onEnv fun _ h => wp_clock hI.toStable h (fun _ h => h) fun _ _ h => h

theorem keeps_writeHealthSnapshot (readinessStatus : Bytes) (durationSec : Nat)
    (acceptedPerMin : Bytes) : Keeps (fun w : Miner => I w.env)
      (writeHealthSnapshot cfg readinessStatus durationSec acceptedPerMin) := by
  have hopen : Keeps (fun w : Miner => I w.env) (onEnv openFile) :=
    keeps_onEnv fun _ h => wp_openFile hI.toStable h (fun _ h => h) fun _ _ h => h
  refine .ite .pure (hopen.bind fun ok => .ite (Keeps.get.bind ?_) ?_)
  · intro w
    exact keeps_report hI rfl
  · exact keeps_onEnv (.modify fun _ h => hI.addLog _ h)

theorem keeps_maybeWriteHealthSnapshotIncremental : Keeps (fun w : Miner => I w.env)
    (maybeWriteHealthSnapshotIncremental cfg) :=
  .ite .pure ((keeps_clockAside hI).bind fun _ => Keeps.get.bind fun _ =>
    keeps_writeHealthSnapshot hI cfg _ _ _)

/-- What a session does with the verdict on a share. -/
theorem keeps_submitted (jobId : Bytes) (ok : Bool) : Keeps (fun w : Miner => I w.env) (if ok then do
      Proc.modify Miner.cycleDone
      updateStats (SessionStats.shareAccepted jobId)
      maybeWriteHealthSnapshotIncremental cfg
      logStratum cfg .info (str "Stratum cycle completed") jobId
      return .inl ()
    else do
      updateStats SessionStats.submitFailed
      logStratum cfg .warn (str "Submit failed; reconnect required") jobId
      return .inr 8 : App (Unit ⊕ Int)) := by
  have hstats : ∀ f, Keeps (fun w : Miner => I w.env) (updateStats f) :=
    fun f => .modify fun _ h => h
  have hcycle : Keeps (fun w : Miner => I w.env) (Proc.modify Miner.cycleDone : App Unit) :=
    .modify fun _ h => h
  refine .ite ?_ ?_
  · exact hcycle.bind fun _ => (hstats _).bind fun _ =>
      (keeps_maybeWriteHealthSnapshotIncremental hI cfg).bind fun _ =>
        (keeps_logStratum hI cfg _ _ _).bind fun _ => .pure
  · exact (hstats _).bind fun _ => (keeps_logStratum hI cfg _ _ _).bind fun _ => .pure

theorem keeps_sessionFailed (backoffSec : UInt32) (rc : Int) :
    Keeps (fun w : Miner => I w.env) (sessionFailed cfg backoffSec rc) := by
  have hsleep : Keeps (fun w : Miner => I w.env) (onEnv (sleepFor backoffSec)) :=
    keeps_onEnv fun _ h => wp_sleepFor hI.toStable h (fun _ h => h) fun _ h => hI.report rfl h
  have hstats : Keeps (fun w : Miner => I w.env) (updateStats (SessionStats.sessionFailed rc)) :=
    .modify fun _ h => h
  refine hstats.bind fun _ =>
    (keeps_maybeWriteHealthSnapshotIncremental hI cfg).bind fun _ => Keeps.get.bind ?_
  intro w
  refine .ite ((keeps_logStratum hI cfg _ _ _).bind fun _ => .pure) ?_
  exact (keeps_logStratum hI cfg _ _ _).bind fun _ => (keeps_loadStopAside hI).bind fun _ =>
    .ite .pure (hsleep.bind fun _ => .pure)

theorem keeps_shutdown : Keeps (fun w : Miner => I w.env) (shutdown cfg) :=
  (keeps_clockAside hI).bind fun _ => Keeps.get.bind fun _ => (keeps_report hI rfl).bind fun _ =>
    (keeps_logStratum hI cfg _ _ _).bind fun _ => (keeps_logStratum hI cfg _ _ _).bind fun _ =>
      (keeps_writeHealthSnapshot hI cfg _ _ _).bind fun _ => keeps_logStratum hI cfg _ _ _

/-- What a session keeps, a whole run keeps. -/
theorem keeps_runStratumLoop
    (hsession : Keeps (fun w : Miner => I w.env) (runStratumSession cfg))
    (hended : ∀ e rc, I e → I (e.observe (.sessionEnded rc))) :
    Keeps (fun w : Miner => I w.env) (runStratumLoop cfg) := by
  refine (Keeps.loop ?_ _).bind fun rc => (keeps_shutdown hI cfg).bind fun _ => .pure
  intro backoffSec
  refine (keeps_loadStopAside hI).bind fun stop => Keeps.get.bind fun w => .ite ?_ .pure
  have hend : ∀ rc, Keeps (fun w : Miner => I w.env) (onEnv (observe (.sessionEnded rc))) :=
    fun rc => keeps_onEnv (.modify fun e h => hended e rc h)
  exact (keeps_report hI rfl).bind fun _ => hsession.bind fun rc => (hend rc).bind fun _ =>
    .ite .pure (keeps_sessionFailed hI cfg backoffSec rc)

end Bystander

theorem bystander_ledger {user : Bytes} {valid : StratumJob → UInt32 → Prop}
    {owed : List StratumJob} : Bystander (Ledger user valid owed) where
  signal h := h.signal
  arrive bytes h := h.arrive bytes
  report ho h := h.aside (Obs.isAside_of_isReport ho)
  addLog entry h := h.addLog entry

theorem bystander_idle {user : Bytes} {valid : StratumJob → UInt32 → Prop} {d : Dealings} :
    Bystander (Idle user valid d) where
  toStable := aloof_idle.toStable
  report := fun ho ⟨n, hon, hn⟩ => ⟨n, hon.aside (Obs.isAside_of_isReport ho), hn⟩
  addLog entry h := h.addLog entry

/-! ## Sessions -/

/-- The prefix a job is mined with: its own, or the configured one if that is empty. -/
def jobPrefix (cfg : MinerConfig) (job : StratumJob) : Bytes :=
  if job.prefixText = [] then cfg.prefixText else job.prefixText

/-- The hash of the job's prefix and the four bytes of the nonce, little-endian, meets the job's
difficulty. -/
def ValidShare (cfg : MinerConfig) (job : StratumJob) (nonce : UInt32) : Prop :=
  meetsDifficulty (doubleSha256 (jobPrefix cfg job ++ leBytes 4 nonce.toNat)) job.difficultyBits =
    true

/-- `mine` works on the puzzle of the job it is given. -/
theorem validShare_iff {cfg : MinerConfig} {job : StratumJob} {nonce : UInt32} :
    ValidShare cfg job nonce ↔ Solves doubleSha256 (miningConfig cfg job) nonce := by
  have hprefix : (miningConfig cfg job).prefixText = jobPrefix cfg job := by
    by_cases h : job.prefixText = [] <;> simp [miningConfig, jobPrefix, h]
  rw [ValidShare, Solves, payloadOf, hprefix]
  rfl

/-- The books of the miner's connection are in order, and all that was owed was delivered. -/
abbrev Booked (cfg : MinerConfig) (e : Env) : Prop :=
  Ledger (poolUsername cfg) (ValidShare cfg) [] e

/-- The session goes on with a connected client, or ends. -/
abbrev Continues (cfg : MinerConfig) (ok : Bool) (w : Miner) : Prop :=
  Settled (poolUsername cfg) (ValidShare cfg) ok w.env

section Session

variable {cfg : MinerConfig} {client : StratumClient} {d : Dealings} {w : Miner}

theorem wp_startStratumSession_books (h : Booked cfg w.env) :
    wp (startStratumSession cfg client) (Continues cfg) (fun w => Booked cfg w.env) w := by
  refine wp_bind (wp_onEnv (wp_connectToPool client h rfl
    (fun e he => wp_ite (fun h0 => by cases h0) fun _ => wp_pure he) ?_))
  intro e he
  refine wp_ite (fun _ => wp_callEnv (wp_subscribe client ⟨_, he, .init _⟩)
    ?_ fun _ hR => hR) fun h0 => absurd rfl h0
  intro ok e he
  refine wp_ite ?_ fun hok => wp_pure ?_
  · intro hok
    rw [hok] at he
    obtain ⟨d, hd⟩ := he
    refine wp_callEnv (wp_authorize client hd) ?_ fun _ hR => hR
    intro ok e he
    refine wp_ite ?_ fun hok => wp_pure ?_
    · intro hok
      rw [hok] at he
      exact wp_updateEnv (wp_pure (he.addLog _))
    · rw [Bool.eq_false_of_not_eq_true hok] at he
      exact he
  · rw [Bool.eq_false_of_not_eq_true hok] at he
    exact he

/-- How a round of a session leaves the client. -/
def RoundBooked (cfg : MinerConfig) (r : Unit ⊕ Int) (w : Miner) : Prop :=
  Continues cfg r.isLeft w

theorem wp_submitFound_books {job : StratumJob} {nonce : UInt32}
    (h : Idle (poolUsername cfg) (ValidShare cfg) d w.env)
    (hjob : d.delivered.getLast? = some job) (hvalid : ValidShare cfg job nonce) :
    wp (submitFound cfg client job.jobId nonce) (RoundBooked cfg) (fun w => Booked cfg w.env) w := by
  refine wp_update (wp_callEnv (wp_submitShare client h hjob hvalid) ?_ fun _ hR => hR)
  intro ok e he
  refine wp_ite ?_ ?_
  · intro hok
    rw [hok] at he
    obtain ⟨d', hd'⟩ := he
    refine wp_update (wp_update ?_)
    refine wp_call (keeps_maybeWriteHealthSnapshotIncremental bystander_idle cfg _ hd')
      (fun _ w' hw' => wp_updateEnv (wp_pure ⟨d', hw'.addLog _⟩)) fun _ hw' => hw'.ledger
  · intro hok
    rw [Bool.eq_false_of_not_eq_true hok] at he
    exact wp_update (wp_updateEnv (wp_pure (he.addLog _)))

theorem wp_sessionRound_books (h : Idle (poolUsername cfg) (ValidShare cfg) d w.env) :
    wp (sessionRound cfg client ()) (RoundBooked cfg) (fun w => Booked cfg w.env) w := by
  refine wp_call (keeps_loadStopAside bystander_idle w h) ?_ fun _ hR => hR.ledger
  intro stop w h
  refine wp_read (wp_ite (fun _ => ?_) fun _ => ?_)
  · refine wp_callEnv (wp_waitForJob client h) ?_ fun _ hR => hR
    intro job e he
    cases job with
    | none =>
      refine wp_call (keeps_loadStopAside bystander_ledger _ he) ?_ fun _ hR => hR
      intro stop w h
      exact wp_ite (fun _ => wp_pure h) fun _ => wp_updateEnv (wp_pure (h.addLog _))
    | some job =>
      -- the job is the one delivered last until the round ends
      refine wp_update (wp_updateEnv ?_)
      refine wp_callEnv (wp_and (keeps_mineWith aloof_idle doubleSha256 _ _ (he.addLog _))
        wp_mineWith_found) ?_ fun e he => he.1.ledger
      rintro result e ⟨he, hfound⟩
      refine wp_ite (fun _ => wp_pure he.ledger) fun _ => wp_ite (fun _ => ?_) ?_
      · exact wp_updateEnv (wp_pure ⟨_, he.addLog _⟩)
      · intro hf
        refine wp_submitFound_books he List.getLast?_concat (validShare_iff.2 (hfound ?_))
        simpa using hf
  · exact wp_updateEnv (wp_pure (h.ledger.addLog _))

theorem keeps_runStratumSession_books :
    Keeps (fun w => Booked cfg w.env) (runStratumSession cfg) := by
  intro w h
  refine wp_updateEnv (wp_call (wp_startStratumSession_books h.newClient) ?_ fun _ hR => hR)
  intro ok w h
  refine wp_ite ?_ fun hok => wp_pure ?_
  · intro hok
    rw [hok] at h
    refine wp_loop (I := fun _ => Continues cfg true) h ?_ fun _ w h => h.choose_spec.ledger
    intro _ w h
    obtain ⟨d, hd⟩ := h
    refine wp_mono (wp_sessionRound_books hd) ?_ fun _ hR => hR
    intro r w h
    cases r with
    | inl _ => exact h
    | inr rc => exact h
  · rw [Bool.eq_false_of_not_eq_true hok] at h
    exact h

end Session

/-- **The books are in order** in every state of every run. -/
theorem run_ledger (cfg : MinerConfig) (events : List Event) :
    Booked cfg ((runStratumLoop cfg).run {} events).state.env :=
  (keeps_runStratumLoop bystander_ledger cfg keeps_runStratumSession_books
    (fun _ _ h => h.aside rfl) {} Ledger.init).state events

end HermitMiner
