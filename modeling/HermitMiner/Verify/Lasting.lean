import HermitMiner.Verify.Bookkeeping

/-!
# What lasts

A property of the history and the log that, once it holds, holds for good: no program makes it false.

* `Lasting`: such a property, as one of the states.
* `keeps_submitShare`, …, `keeps_loopRound`: the functions of a session, and a round of the loop over
  sessions, keep it.
-/

namespace HermitMiner

open Oracle

/-- A longer history and a longer log keep `X`. -/
def Lasting (X : Env → Prop) : Prop :=
  ∀ e e' : Env, e.trace <+: e'.trace → e.log <+: e'.log → X e → X e'

section Lasting

variable {X : Env → Prop} (hX : Lasting X)
include hX

theorem Lasting.observe {e : Env} (o : Obs) (h : X e) : X (e.observe o) :=
  hX _ _ (List.prefix_append _ _) (List.prefix_refl _) h

theorem Lasting.addLog {e : Env} (entry : LogEntry) (h : X e) : X (e.addLog entry) :=
  hX e _ (List.prefix_refl _) (List.prefix_append _ _) h

/-- What touches neither does not touch `X`. -/
theorem Lasting.same {e e' : Env} (h : X e) (ht : e'.trace = e.trace) (hlog : e'.log = e.log) :
    X e' := hX e e' (ht ▸ List.prefix_refl _) (hlog ▸ List.prefix_refl _) h

theorem Lasting.inert : Inert X where
  signal h := hX _ _ (List.prefix_append _ _) (List.prefix_refl _) h
  arrive _ h := hX _ _ (List.prefix_append _ _) (List.prefix_refl _) h
  observe o _ h := hX.observe o h
  pop _ _ h := hX _ _ (List.prefix_append _ _) (List.prefix_refl _) h
  connect h := hX _ _ (List.prefix_append _ _) (List.prefix_refl _) h
  disconnect h := hX.same h rfl rfl
  takeId h := hX.same h rfl rfl
  newClient h := hX.same h rfl rfl
  addLog entry h := hX.addLog entry h

theorem Lasting.bystander : Bystander X where
  toStable := hX.inert.toStable
  report _ h := hX.observe _ h
  addLog entry h := hX.addLog entry h

theorem keeps_submitShare (self : StratumClient) (username jobId : Bytes) (nonce : UInt32) :
    Keeps X (self.submitShare username jobId nonce) :=
  fun _ h => wp_submitShare_frame hX.inert self h (fun _ h => h) (fun _ _ h => hX.observe _ h)
    fun _ entry _ h => hX.inert.addLog entry h

variable (cfg : MinerConfig) (client : StratumClient)

theorem keeps_startStratumSession :
    Keeps (fun w : Miner => X w.env) (startStratumSession cfg client) := by
  refine (keeps_onEnv (keeps_connectToPool hX.inert.all client)).bind fun ok => .ite ?_ .pure
  refine (keeps_onEnv (keeps_subscribe hX.inert.all client fun _ => trivial)).bind fun ok => .ite ?_ .pure
  refine (keeps_onEnv (keeps_authorize hX.inert.all client fun _ => trivial)).bind fun ok => .ite ?_ .pure
  exact (keeps_logStratum hX.bystander cfg _ _ _).bind fun _ => .pure

theorem keeps_submitFound (jobId : Bytes) (nonce : UInt32) :
    Keeps (fun w : Miner => X w.env) (submitFound cfg client jobId nonce) := by
  have hfound : Keeps (fun w : Miner => X w.env) (updateStats SessionStats.shareFound) :=
    .modify fun _ h => h
  exact hfound.bind fun _ => (keeps_onEnv (keeps_submitShare hX client _ _ _)).bind fun ok =>
    keeps_submitted hX.bystander cfg jobId ok

theorem keeps_mineJob (job : StratumJob) :
    Keeps (fun w : Miner => X w.env) (mineJob cfg client job) := by
  have hstats : Keeps (fun w : Miner => X w.env) (updateStats SessionStats.jobReceived) :=
    .modify fun _ h => h
  refine hstats.bind fun _ => (keeps_logStratum hX.bystander cfg _ _ _).bind fun _ =>
    (keeps_onEnv (keeps_mineWith hX.inert.all.aloof _ _)).bind fun result => .ite .pure (.ite ?_ ?_)
  · exact (keeps_logStratum hX.bystander cfg _ _ _).bind fun _ => .pure
  · exact keeps_submitFound hX cfg client _ _

theorem keeps_sessionRound (u : Unit) :
    Keeps (fun w : Miner => X w.env) (sessionRound cfg client u) := by
  refine (keeps_loadStopAside hX.bystander).bind fun stop => Keeps.get.bind fun w => .ite ?_ ?_
  · apply (keeps_onEnv (keeps_waitForJob hX.inert.all client _)).bind
    intro job
    cases job with
    | none =>
      exact (keeps_loadStopAside hX.bystander).bind fun stop => .ite .pure
        ((keeps_logStratum hX.bystander cfg _ _ _).bind fun _ => .pure)
    | some job => exact keeps_mineJob hX cfg client job
  · exact (keeps_logStratum hX.bystander cfg _ _ _).bind fun _ => .pure

theorem keeps_runStratumSession :
    Keeps (fun w : Miner => X w.env) (runStratumSession cfg) := by
  have hnew : Keeps (fun w : Miner => X w.env) (onEnv (Proc.modify Env.newClient)) :=
    keeps_onEnv (.modify fun _ h => hX.inert.newClient h)
  exact hnew.bind fun _ => (keeps_startStratumSession hX cfg _).bind fun ok =>
    .ite (.loop (fun u => keeps_sessionRound hX cfg _ u) ()) .pure

/-- What `run_stratum_loop` does after a session. -/
theorem keeps_sessionEnded (backoffSec : UInt32) (rc : Int) :
    Keeps (fun w : Miner => X w.env) (do
      onEnv (observe (.sessionEnded rc))
      if rc = 0 then return .inl (backoffInitial cfg) else sessionFailed cfg backoffSec rc) := by
  have hended : Keeps (fun w : Miner => X w.env) (onEnv (observe (.sessionEnded rc))) :=
    keeps_onEnv (.modify fun _ h => hX.observe _ h)
  exact hended.bind fun _ => .ite .pure (keeps_sessionFailed hX.bystander cfg backoffSec rc)

theorem keeps_loopRound (backoffSec : UInt32) :
    Keeps (fun w : Miner => X w.env) (loopRound cfg backoffSec) := by
  refine (keeps_loadStopAside hX.bystander).bind fun stop => Keeps.get.bind fun w => .ite ?_ .pure
  exact (keeps_report hX.bystander rfl).bind fun _ =>
    (keeps_runStratumSession hX cfg).bind fun rc => keeps_sessionEnded hX cfg backoffSec rc

end Lasting

end HermitMiner
