import HermitMiner.Verify.Bookkeeping
import HermitMiner.Verify.Requests
import HermitMiner.Verify.Script

/-!
# Shares submitted twice

Every search starts at nonce 0, and no search knows of an earlier one.

* `sharesSent`, `deliveredIds`: the shares submitted in a run, and the jobs delivered in it.
* `submitted_once_per_job`: a job that is delivered is submitted at most once.
* `share_submitted_twice`: a job that is announced twice can be submitted twice with one nonce.
-/

namespace HermitMiner

open Oracle StratumClient

/-! ## Shares and jobs of a run -/

/-- What a `mining.submit` line carries: the job id, and the nonce in its digits. -/
def shareOf (line : Bytes) : Option (Bytes × Bytes) :=
  match FakePool.handler line, readStrings line line.length (paramsStart line) with
  | some .submit, some [_, jobId, nonce] => some (jobId, nonce)
  | _, _ => none

/-- The shares of the `mining.submit` lines that were sent, over all connections. -/
def sharesSent (t : List Obs) : List (Bytes × Bytes) :=
  t.filterMap fun
    | .sent line => shareOf line
    | _ => none

/-- The ids of the jobs that `wait_for_job` returned, over all connections. -/
def deliveredIds (t : List Obs) : List Bytes :=
  t.filterMap fun
    | .delivered job => some job.jobId
    | _ => none

theorem shareOf_line (id : Nat) (r : Request) :
    shareOf (r.line id) = match r with
      | .submit _ jobId nonce => some (jobId, nonceToHex nonce)
      | _ => none := by
  rw [shareOf, handler_line, readStrings_line]
  cases r <;> simp [Request.method, Request.params, nonceToHex_eq]

theorem shareOf_subscribeRequest (id : Nat) (userAgent : Bytes) :
    shareOf (subscribeRequest id userAgent) = none := shareOf_line id (.subscribe userAgent)

theorem shareOf_authorizeRequest (id : Nat) (username password : Bytes) :
    shareOf (authorizeRequest id username password) = none :=
  shareOf_line id (.authorize username password)

theorem shareOf_submitRequest (id : Nat) (username jobId : Bytes) (nonce : UInt32) :
    shareOf (submitRequest id username jobId nonce) = some (jobId, nonceToHex nonce) :=
  shareOf_line id (.submit username jobId nonce)

@[simp] theorem sharesSent_concat (t : List Obs) (o : Obs) :
    sharesSent (t ++ [o]) = sharesSent t ++ sharesSent [o] := List.filterMap_append

@[simp] theorem deliveredIds_concat (t : List Obs) (o : Obs) :
    deliveredIds (t ++ [o]) = deliveredIds t ++ deliveredIds [o] := List.filterMap_append

/-- Only a `mining.submit` line adds a share. -/
theorem sharesSent_other {o : Obs} (ho : ∀ line, o = .sent line → shareOf line = none) :
    sharesSent [o] = [] := by
  cases o with
  | sent line => simp [sharesSent, ho line rfl]
  | _ => rfl

/-! ## One share for each job -/

/-- The shares are for jobs delivered before them, one for each. -/
def Spent (t : List Obs) : Prop := ((sharesSent t).map Prod.fst).Sublist (deliveredIds t)

/-- And there is none yet for a job `jobId` that was delivered. -/
def Unspent (jobId : Bytes) (t : List Obs) : Prop :=
  ∃ before after, deliveredIds t = before ++ jobId :: after ∧
    ((sharesSent t).map Prod.fst).Sublist before

section Spent

variable {t : List Obs} {o : Obs} {jobId : Bytes}

theorem Unspent.spent (h : Unspent jobId t) : Spent t := by
  obtain ⟨before, after, hids, hshares⟩ := h
  rw [Spent, hids]
  exact hshares.trans (List.sublist_append_left _ _)

theorem Spent.concat (h : Spent t) (ho : ∀ line, o = .sent line → shareOf line = none) :
    Spent (t ++ [o]) := by
  rw [Spent, sharesSent_concat, sharesSent_other ho, List.append_nil, deliveredIds_concat]
  exact h.trans (List.sublist_append_left _ _)

theorem Unspent.concat (h : Unspent jobId t) (ho : ∀ line, o = .sent line → shareOf line = none) :
    Unspent jobId (t ++ [o]) := by
  obtain ⟨before, after, hids, hshares⟩ := h
  refine ⟨before, after ++ deliveredIds [o], ?_, ?_⟩
  · rw [deliveredIds_concat, hids, List.append_assoc, List.cons_append]
  · rw [sharesSent_concat, sharesSent_other ho, List.append_nil]
    exact hshares

/-- The job that was delivered last has no share. -/
theorem Spent.deliver (h : Spent t) (job : StratumJob) :
    Unspent job.jobId (t ++ [.delivered job]) := by
  have hnone : sharesSent [.delivered job] = [] := rfl
  refine ⟨deliveredIds t, [], by rw [deliveredIds_concat]; rfl, ?_⟩
  rw [sharesSent_concat, hnone, List.append_nil]
  exact h

/-- The share for it is sent. -/
theorem Unspent.submit (h : Unspent jobId t) (id : Nat) (username : Bytes) (nonce : UInt32) :
    Spent (t ++ [.sent (submitRequest id username jobId nonce)]) := by
  obtain ⟨before, after, hids, hshares⟩ := h
  have hone : sharesSent [.sent (submitRequest id username jobId nonce)] =
      [(jobId, nonceToHex nonce)] := by
    simp [sharesSent, shareOf_submitRequest]
  have hnone : deliveredIds [.sent (submitRequest id username jobId nonce)] = [] := rfl
  rw [Spent, sharesSent_concat, hone, List.map_append, deliveredIds_concat, hnone, List.append_nil,
    hids]
  exact hshares.append ((List.Sublist.refl [jobId]).trans
    (List.sublist_append_left [jobId] after))

theorem inertFor_spent :
    InertFor (fun line => shareOf line = none) fun e => Spent e.trace :=
  .of_history fun _ _ ho h => h.concat ho

theorem inertFor_unspent (jobId : Bytes) :
    InertFor (fun line => shareOf line = none) fun e => Unspent jobId e.trace :=
  .of_history fun _ _ ho h => h.concat ho

theorem bystander_spent : Bystander fun e => Spent e.trace where
  toStable := inertFor_spent.toStable
  report ho h := h.concat fun _ hsent => by rw [hsent] at ho; cases ho
  addLog _ h := h

end Spent

section Session

variable {cfg : MinerConfig} {client : StratumClient}

theorem keeps_startStratumSession_spent :
    Keeps (fun w : Miner => Spent w.env.trace) (startStratumSession cfg client) := by
  refine (keeps_onEnv (keeps_connectToPool inertFor_spent client)).bind fun ok => .ite ?_ .pure
  refine (keeps_onEnv (keeps_subscribe inertFor_spent client
    fun id => shareOf_subscribeRequest id _)).bind fun ok => .ite ?_ .pure
  refine (keeps_onEnv (keeps_authorize inertFor_spent client
    fun id => shareOf_authorizeRequest id _ _)).bind fun ok => .ite ?_ .pure
  exact (keeps_logStratum bystander_spent cfg _ _ _).bind fun _ => .pure

/-- The one share for a job is sent, or the session ends. -/
theorem wp_submitFound_spent {jobId : Bytes} {nonce : UInt32} {w : Miner}
    (h : Unspent jobId w.env.trace) :
    wp (submitFound cfg client jobId nonce) (fun _ w => Spent w.env.trace)
      (fun w => Spent w.env.trace) w := by
  refine wp_update (wp_callEnv (wp_submitShare_sent (inertFor_unspent jobId) client inertFor_spent h
    (fun _ h => h.spent) (fun id _ h => h.submit id _ nonce) (Q := fun _ e => Spent e.trace)
    (fun _ h => h) (fun _ _ h => h.concat nofun) fun _ _ _ h => h) ?_ fun _ h => h)
  intro ok e h
  exact keeps_submitted bystander_spent cfg jobId ok _ h

theorem keeps_sessionRound_spent (u : Unit) :
    Keeps (fun w : Miner => Spent w.env.trace) (sessionRound cfg client u) := by
  intro w h
  refine wp_call (keeps_loadStopAside bystander_spent w h) ?_ fun _ h => h
  intro stop w h
  refine wp_read (wp_ite (fun _ => ?_) fun _ => wp_updateEnv (wp_pure h))
  have hwait : wp (client.waitForJob cfg.poolNotifyTimeoutSec)
      (fun r e => r.elim (Spent e.trace) fun job => Unspent job.jobId e.trace)
      (fun e => Spent e.trace) w.env :=
    wp_waitForJob_frame inertFor_spent client h (fun _ h => h) (fun job _ h => h.deliver job)
      fun r _ _ h => by cases r <;> exact h
  refine wp_callEnv hwait ?_ fun _ h => h
  intro job e h
  cases job with
  | none =>
    refine wp_call (keeps_loadStopAside bystander_spent _ h) ?_ fun _ h => h
    intro stop w h
    exact wp_ite (fun _ => wp_pure h) fun _ => wp_updateEnv (wp_pure h)
  | some job =>
    refine wp_update (wp_updateEnv ?_)
    refine wp_callEnv (keeps_mineWith (inertFor_unspent job.jobId).aloof doubleSha256 _ _ h) ?_
      fun _ h => h.spent
    intro result e h
    exact wp_ite (fun _ => wp_pure h.spent) fun _ => wp_ite
      (fun _ => wp_updateEnv (wp_pure h.spent)) fun _ => wp_submitFound_spent h

theorem keeps_runStratumSession_spent :
    Keeps (fun w : Miner => Spent w.env.trace) (runStratumSession cfg) := by
  have hnew : Keeps (fun w : Miner => Spent w.env.trace) (onEnv (Proc.modify Env.newClient)) :=
    keeps_onEnv (.modify fun _ h => inertFor_spent.newClient h)
  exact hnew.bind fun _ => keeps_startStratumSession_spent.bind fun ok =>
    .ite (.loop keeps_sessionRound_spent ()) .pure

end Session

/-- **One share for each delivered job**: in every run, whatever the pool announces, the jobs of the
`mining.submit` lines are some of the jobs delivered, in their order and each delivery once; so when
no two delivered jobs have the same id, no two of these lines carry the same job id and nonce. -/
theorem submitted_once_per_job (cfg : MinerConfig) (events : List Event) :
    ((sharesSent ((runStratumLoop cfg).run {} events).state.env.trace).map Prod.fst).Sublist
      (deliveredIds ((runStratumLoop cfg).run {} events).state.env.trace) ∧
    ((deliveredIds ((runStratumLoop cfg).run {} events).state.env.trace).Nodup →
      (sharesSent ((runStratumLoop cfg).run {} events).state.env.trace).Nodup) := by
  have hspent := (keeps_runStratumLoop bystander_spent cfg keeps_runStratumSession_spent
    (fun _ _ h => h.concat nofun) {} (List.Sublist.refl [])).state events
  exact ⟨hspent, fun hids => .of_map _ (hspent.nodup hids)⟩

/-- The pool announces one job. -/
def onceScript : List Event :=
  [.load] ++ startScript scriptConfig ++ cycleScript scriptConfig 3

theorem submitted_once_per_job_script :
    sharesSent ((runStratumLoop scriptConfig).run {} onceScript).state.env.trace =
      [(str "j", str "00000000")] ∧
    (sharesSent ((runStratumLoop scriptConfig).run {} onceScript).state.env.trace).Nodup := by
  have hone : sharesSent ((runStratumLoop scriptConfig).run {} onceScript).state.env.trace =
        [(str "j", str "00000000")] ∧
      (deliveredIds ((runStratumLoop scriptConfig).run {} onceScript).state.env.trace).Nodup := by
    decide +kernel
  exact ⟨hone.1, (submitted_once_per_job scriptConfig onceScript).2 hone.2⟩

/-- The pool announces the same job twice. -/
def twiceScript : List Event := onceScript ++ cycleScript scriptConfig 4

/-- It is submitted twice, with the same nonce. -/
theorem share_submitted_twice :
    ¬∀ (cfg : MinerConfig) (events : List Event), validateConfig cfg = .ok () →
      (sharesSent ((runStratumLoop cfg).run {} events).state.env.trace).Nodup := by
  intro h
  have htwice : sharesSent
      ((runStratumLoop scriptConfig).run {} twiceScript).state.env.trace =
      [(str "j", str "00000000"), (str "j", str "00000000")] := by
    decide +kernel
  have hnodup := h scriptConfig twiceScript validateConfig_scriptConfig
  rw [htwice] at hnodup
  revert hnodup
  decide

end HermitMiner
