import HermitMiner.Verify.Exchange
import HermitMiner.Verify.Script

/-!
# What a run shows of the account

Two configurations that differ in the account at the pool alone: the password, the user name and the
payout address. Whole runs of both are in step, as far as what they sign in with compares.

* `Account`, `MinerConfig.withAccount`: the account of a configuration.
* `Interchangeable`: what the entries and requests of the two accounts have in common.
* `couple_startStratumSession`, …: one lemma for each function of the runtime.
* `password_not_shown`: no log line and no health snapshot depends on the password.
-/

namespace HermitMiner

open Oracle

/-! ## Accounts -/

/-- What the miner signs in with. -/
structure Account where
  password : Bytes
  username : Bytes
  payoutAddress : Bytes

/-- The configuration with another account. -/
def MinerConfig.withAccount (cfg : MinerConfig) (a : Account) : MinerConfig :=
  { cfg with
    poolPassword := a.password
    poolUsername := a.username
    payoutAddress := a.payoutAddress }

/-- The entry of a request to sign in that was accepted. -/
def authorizedEntry (cfg : MinerConfig) : LogEntry where
  level := .info
  component := str "stratum"
  nodeId := cfg.nodeId
  message := str "Authorize OK"
  context := poolUsername cfg

/-- The entry of a session that has started. -/
def startedEntry (cfg : MinerConfig) : LogEntry where
  level := .info
  component := str "stratum"
  nodeId := cfg.nodeId
  message := str "Stratum session started"
  context := str "user=" ++ poolUsername cfg

/-- The request to sign in; it is the second one of a session. -/
def signIn (cfg : MinerConfig) : Bytes := authorizeRequest 2 (poolUsername cfg) cfg.poolPassword

/-- What is logged of the two accounts compares, and so do the requests made with them. -/
structure Interchangeable {cfg : MinerConfig} (c : Comparison cfg) (X : Env → Prop)
    (cfg' : MinerConfig) : Prop where
  lasting : Lasting X
  signIn : Compatible X (signIn cfg) (signIn cfg')
  submit : ∀ id jobId nonce, Compatible X (submitRequest id (poolUsername cfg) jobId nonce)
    (submitRequest id (poolUsername cfg') jobId nonce)
  authorized : c.entries (authorizedEntry cfg) (authorizedEntry cfg')
  started : c.entries (startedEntry cfg) (startedEntry cfg')

/-! ## The requests of a session -/

section Requests

open StratumClient

variable {cfg : MinerConfig} {c : Comparison cfg} {n : Nat} {e₁ e₂ : Env} {X : Env → Prop}

/-- Both runs take the same id. -/
theorem couple_takeId (h : InStep c n e₁ e₂) : Couple c.pairing X takeId takeId
    (fun id₁ id₂ e₁ e₂ => id₁ = n ∧ id₂ = n ∧ InStep c (n + 1) e₁ e₂) e₁ e₂ := by
  apply couple_read
  apply couple_update
  exact couple_pure ⟨h.nextId₁, h.nextId₂, h.takeId⟩

theorem couple_subscribe (h : InStep c n e₁ e₂) (self : StratumClient) (userAgent : Bytes) :
    Couple c.pairing X (self.subscribe userAgent) (self.subscribe userAgent) (Agree c (n + 1))
      e₁ e₂ := by
  apply couple_call (couple_takeId h)
  rintro _ _ t₁ t₂ ⟨rfl, rfl, ht⟩
  have hnever : Lasting (Never : Env → Prop) := fun _ _ _ _ hs => hs
  apply couple_call (couple_requestResponse hnever ht (Compatible.refl _ _))
  rintro resp _ t₁ t₂ ⟨rfl, ht⟩
  cases resp with
  | none => exact couple_update (couple_pure ⟨rfl, ht.addLog (c.entries_refl _)⟩)
  | some resp =>
    exact couple_ite Iff.rfl
      (fun _ => couple_update (couple_pure ⟨rfl, ht.addLog (c.entries_refl _)⟩))
      fun _ => couple_update (couple_pure ⟨rfl, ht.addLog (c.entries_refl _)⟩)

variable {cfg' : MinerConfig} (hi : Interchangeable c X cfg') (self : StratumClient)
include hi

/-- A program that ends by logging keeps what excuses a run. -/
theorem keeps_verdict {α : Type} (level : LogLevel) (message context : Bytes) (a : α) :
    Keeps X (do
      self.logLine level message context
      return a) :=
  (keeps_logLine hi.lasting.inert.all self _ _ _).bind fun _ => .pure

theorem couple_authorize (h : InStep c 2 e₁ e₂) (hnode : self.nodeId = cfg.nodeId)
    (hnode' : cfg'.nodeId = cfg.nodeId) :
    Couple c.pairing X (self.authorize (poolUsername cfg) cfg.poolPassword)
      (self.authorize (poolUsername cfg') cfg'.poolPassword) (Agree c 3) e₁ e₂ := by
  apply couple_call (couple_takeId h)
  rintro _ _ t₁ t₂ ⟨rfl, rfl, ht⟩
  refine couple_callExcused (couple_requestResponse hi.lasting ht hi.signIn) ?_ ?_ ?_
  · intro resp
    cases resp with
    | none => exact keeps_verdict hi self _ _ _ _
    | some resp => exact .ite (keeps_verdict hi self _ _ _ _) (keeps_verdict hi self _ _ _ _)
  · intro resp
    cases resp with
    | none => exact keeps_verdict hi self _ _ _ _
    | some resp => exact .ite (keeps_verdict hi self _ _ _ _) (keeps_verdict hi self _ _ _ _)
  · rintro resp _ t₁ t₂ ⟨rfl, ht⟩
    cases resp with
    | none => exact couple_update (couple_pure ⟨rfl, ht.addLog (c.entries_refl _)⟩)
    | some resp =>
      refine couple_ite Iff.rfl (fun _ => couple_update (couple_pure ⟨rfl, ht.addLog ?_⟩))
        fun _ => couple_update (couple_pure ⟨rfl, ht.addLog (c.entries_refl _)⟩)
      have hentry := hi.authorized
      rw [authorizedEntry, authorizedEntry, hnode', ← hnode] at hentry
      exact hentry

/-- What `submit_share` does with the response. -/
theorem keeps_submitVerdict (id : Nat) (jobId : Bytes) (nonce : UInt32) (resp : Option Bytes) :
    Keeps X (match resp with
      | none => do
        self.logLine .err (str "Submit request timed out") (nonceToHex nonce)
        return false
      | some resp =>
        match parseBoolResult resp with
        | none => do
          self.logLine .err (str "Submit response parse failed") resp
          return false
        | some true => do
          observe (.accepted id jobId nonce)
          self.logLine .info (str "Share accepted") (jobId ++ str ":" ++ nonceToHex nonce)
          return true
        | some false => do
          self.logLine .warn (str "Share rejected") resp
          return false) := by
  cases resp with
  | none => exact keeps_verdict hi self _ _ _ _
  | some resp =>
    dsimp only
    cases parseBoolResult resp with
    | none => exact keeps_verdict hi self _ _ _ _
    | some accepted =>
      cases accepted with
      | false => exact keeps_verdict hi self _ _ _ _
      | true =>
        have hobserve : Keeps X (HermitMiner.observe (.accepted id jobId nonce)) :=
          .modify fun _ hs => hi.lasting.observe _ hs
        exact hobserve.bind fun _ => keeps_verdict hi self _ _ _ _

theorem couple_submitShare (h : InStep c n e₁ e₂) (jobId : Bytes) (nonce : UInt32) :
    Couple c.pairing X (self.submitShare (poolUsername cfg) jobId nonce)
      (self.submitShare (poolUsername cfg') jobId nonce) (Agree c (n + 1)) e₁ e₂ := by
  apply couple_call (couple_takeId h)
  rintro _ _ t₁ t₂ ⟨rfl, rfl, ht⟩
  refine couple_callExcused (couple_requestResponse hi.lasting ht (hi.submit _ jobId nonce)) ?_ ?_ ?_
  · exact keeps_submitVerdict hi self _ jobId nonce
  · exact keeps_submitVerdict hi self _ jobId nonce
  · rintro resp _ t₁ t₂ ⟨rfl, ht⟩
    cases resp with
    | none => exact couple_update (couple_pure ⟨rfl, ht.addLog (c.entries_refl _)⟩)
    | some resp =>
      dsimp only
      cases parseBoolResult resp with
      | none => exact couple_update (couple_pure ⟨rfl, ht.addLog (c.entries_refl _)⟩)
      | some accepted =>
        cases accepted with
        | false => exact couple_update (couple_pure ⟨rfl, ht.addLog (c.entries_refl _)⟩)
        | true =>
          exact couple_update (couple_update (couple_pure
            ⟨rfl, (ht.observe .nil).addLog (c.entries_refl _)⟩))

end Requests

/-! ## The runtime -/

/-- The two miners are in step, and have counted the same. -/
structure Abreast {cfg : MinerConfig} (c : Comparison cfg) (n : Nat) (w₁ w₂ : Miner) : Prop where
  stats : w₁.stats = w₂.stats
  cyclesDone : w₁.cyclesDone = w₂.cyclesDone
  env : InStep c n w₁.env w₂.env

/-- Both miners return the same value, and are abreast with any next id. -/
def Alongside {cfg : MinerConfig} {α : Type} (c : Comparison cfg) (a₁ a₂ : α) (w₁ w₂ : Miner) :
    Prop := a₁ = a₂ ∧ ∃ n, Abreast c n w₁ w₂

/-- The comparison of two miners. -/
def Comparison.miners {cfg : MinerConfig} (c : Comparison cfg) : Pairing Miner Event :=
  c.pairing.under Miner.env

section Runtime

variable {cfg : MinerConfig} {c : Comparison cfg} {n : Nat} {w₁ w₂ : Miner} {X : Env → Prop}

section Calls

variable {α β : Type} {m₁ m₂ : Sys α} {V : α → α → Prop} {k : Nat}

theorem couple_onEnv (h : Abreast c n w₁ w₂)
    (hm : Couple c.pairing X m₁ m₂ (fun a₁ a₂ e₁ e₂ => V a₁ a₂ ∧ InStep c k e₁ e₂)
      w₁.env w₂.env) :
    Couple c.miners (fun w => X w.env) (onEnv m₁) (onEnv m₂)
      (fun a₁ a₂ w₁ w₂ => V a₁ a₂ ∧ Abreast c k w₁ w₂) w₁ w₂ :=
  couple_zoom (fun _ _ => rfl) (couple_mono hm (fun _ hs => hs) fun _ _ _ _ hV =>
    ⟨hV.1, h.stats, h.cyclesDone, hV.2⟩)

/-- Both miners call the client, and go on. -/
theorem couple_callEnv {f₁ f₂ : α → App β} {Q : β → β → Miner → Miner → Prop}
    (h : Abreast c n w₁ w₂)
    (hm : Couple c.pairing Never m₁ m₂ (Agree c k) w₁.env w₂.env)
    (hf : ∀ a w₁ w₂, Abreast c k w₁ w₂ →
      Couple c.miners (fun w => X w.env) (f₁ a) (f₂ a) Q w₁ w₂) :
    Couple c.miners (fun w => X w.env) (onEnv m₁ >>= f₁) (onEnv m₂ >>= f₂) Q w₁ w₂ := by
  apply couple_call (couple_onEnv (V := fun a₁ a₂ => a₁ = a₂) h hm)
  rintro a _ t₁ t₂ ⟨rfl, ht⟩
  exact hf a t₁ t₂ ht

/-- Both miners update the client's world, and go on. -/
theorem couple_updateEnv {g₁ g₂ : Env → Env} {f₁ f₂ : Unit → App α}
    {Q : α → α → Miner → Miner → Prop}
    (h : Couple c.miners (fun w => X w.env) (f₁ ()) (f₂ ()) Q (w₁.setEnv (g₁ w₁.env))
      (w₂.setEnv (g₂ w₂.env))) :
    Couple c.miners (fun w => X w.env) (onEnv (Proc.modify g₁) >>= f₁)
      (onEnv (Proc.modify g₂) >>= f₂) Q w₁ w₂ := couple_update h

end Calls

variable (h : Abreast c n w₁ w₂)
include h

theorem Abreast.setEnv {k : Nat} {e₁ e₂ : Env} (he : InStep c k e₁ e₂) :
    Abreast c k (w₁.setEnv e₁) (w₂.setEnv e₂) := ⟨h.stats, h.cyclesDone, he⟩

theorem Abreast.setStats (f : SessionStats → SessionStats) :
    Abreast c n (w₁.setStats f) (w₂.setStats f) := ⟨congrArg f h.stats, h.cyclesDone, h.env⟩

theorem Abreast.cycleDone : Abreast c n w₁.cycleDone w₂.cycleDone :=
  ⟨h.stats, congrArg (· + 1) h.cyclesDone, h.env⟩

theorem Abreast.addLog {entry₁ entry₂ : LogEntry} (hentry : c.entries entry₁ entry₂) :
    Abreast c n (w₁.setEnv (w₁.env.addLog entry₁)) (w₂.setEnv (w₂.env.addLog entry₂)) :=
  h.setEnv (h.env.addLog hentry)

theorem Abreast.alongside {α : Type} (a : α) : Alongside c a a w₁ w₂ := ⟨rfl, n, h⟩

variable (acc : Account)

/-- Snapshots with times that were measured at the same point. -/
theorem couple_writeHealthSnapshot (readinessStatus : Bytes) {d d' : Nat} {a a' : Bytes}
    (hsame : c.same (.clock d a) (.clock d' a')) :
    Couple c.miners (fun w => X w.env) (writeHealthSnapshot cfg readinessStatus d a)
      (writeHealthSnapshot (cfg.withAccount acc) readinessStatus d' a')
      (fun _ _ w₁ w₂ => Abreast c n w₁ w₂) w₁ w₂ := by
  refine couple_ite Iff.rfl (fun _ => couple_pure h) fun _ => ?_
  apply couple_callEnv h (couple_openFile h.env)
  intro ok t₁ t₂ ht
  refine couple_ite Iff.rfl (fun _ => ?_) fun _ => ?_
  · apply couple_read
    rw [ht.stats, ht.cyclesDone]
    apply couple_modify
    apply ht.setEnv
    apply ht.env.observe
    exact .cons (c.snapshot hsame t₂.stats readinessStatus) .nil
  · exact couple_modify (ht.addLog (c.entries_refl _))

theorem couple_maybeWriteHealthSnapshotIncremental :
    Couple c.miners (fun w => X w.env) (maybeWriteHealthSnapshotIncremental cfg)
      (maybeWriteHealthSnapshotIncremental (cfg.withAccount acc))
      (fun _ _ w₁ w₂ => Abreast c n w₁ w₂) w₁ w₂ := by
  refine couple_ite Iff.rfl (fun _ => couple_pure h) fun _ => ?_
  refine couple_call (couple_onEnv (X := Never) h (couple_clock h.env)) ?_
  rintro ⟨d, a⟩ ⟨d', a'⟩ t₁ t₂ ⟨hsame, ht⟩
  apply couple_read
  rw [ht.stats]
  exact couple_writeHealthSnapshot ht acc _ hsame

omit h

section Session

variable {acc : Account} (hi : Interchangeable c X (cfg.withAccount acc))
include hi

theorem couple_startStratumSession (h : Abreast c 1 w₁ w₂) :
    Couple c.miners (fun w => X w.env) (startStratumSession cfg (newClient cfg))
      (startStratumSession (cfg.withAccount acc) (newClient (cfg.withAccount acc)))
      (Alongside c) w₁ w₂ := by
  apply couple_callEnv h (couple_connectToPool h.env (newClient cfg))
  intro ok t₁ t₂ ht
  refine couple_ite Iff.rfl (fun _ => ?_) fun _ => couple_pure (ht.alongside _)
  apply couple_callEnv ht (couple_subscribe ht.env (newClient cfg) _)
  intro ok t₁ t₂ ht
  refine couple_ite Iff.rfl (fun _ => ?_) fun _ => couple_pure (ht.alongside _)
  refine couple_callExcused
    (couple_onEnv ht (couple_authorize hi (newClient cfg) ht.env rfl rfl)) ?_ ?_ ?_
  · exact fun ok => .ite ((keeps_logStratum hi.lasting.bystander cfg _ _ _).bind fun _ => .pure)
      .pure
  · exact fun ok => .ite ((keeps_logStratum hi.lasting.bystander _ _ _ _).bind fun _ => .pure)
      .pure
  · rintro ok _ t₁ t₂ ⟨rfl, ht⟩
    refine couple_ite Iff.rfl (fun _ => ?_) fun _ => couple_pure (ht.alongside _)
    exact couple_updateEnv (couple_pure ((ht.addLog hi.started).alongside true))

theorem couple_submitFound (h : Abreast c n w₁ w₂) (jobId : Bytes) (nonce : UInt32) :
    Couple c.miners (fun w => X w.env) (submitFound cfg (newClient cfg) jobId nonce)
      (submitFound (cfg.withAccount acc) (newClient (cfg.withAccount acc)) jobId nonce)
      (Alongside c) w₁ w₂ := by
  apply couple_update
  have hfound := h.setStats SessionStats.shareFound
  refine couple_callExcused
    (couple_onEnv hfound (couple_submitShare hi (newClient cfg) hfound.env jobId nonce)) ?_ ?_ ?_
  · exact fun ok => keeps_submitted hi.lasting.bystander cfg jobId ok
  · exact fun ok => keeps_submitted hi.lasting.bystander _ jobId ok
  · rintro ok _ t₁ t₂ ⟨rfl, ht⟩
    refine couple_ite Iff.rfl (fun _ => ?_) fun _ => ?_
    · apply couple_update
      apply couple_update
      apply couple_call (couple_maybeWriteHealthSnapshotIncremental (X := Never)
        (ht.cycleDone.setStats (SessionStats.shareAccepted jobId)) acc)
      intro _ _ t₁ t₂ ht
      exact couple_updateEnv (couple_pure ((ht.addLog (c.entries_refl _)).alongside _))
    · apply couple_update
      exact couple_updateEnv (couple_pure
        (((ht.setStats SessionStats.submitFailed).addLog (c.entries_refl _)).alongside _))

theorem couple_mineJob (h : Abreast c n w₁ w₂) (job : StratumJob) :
    Couple c.miners (fun w => X w.env) (mineJob cfg (newClient cfg) job)
      (mineJob (cfg.withAccount acc) (newClient (cfg.withAccount acc)) job) (Alongside c) w₁ w₂ := by
  apply couple_update
  apply couple_updateEnv
  have hlogged := (h.setStats SessionStats.jobReceived).addLog (c.entries_refl
    ⟨.info, str "stratum", cfg.nodeId, str "Mining on Stratum job",
      jobContext job (miningConfig cfg job)⟩)
  have hmine := couple_mineWith (X := Never) hlogged.env doubleSha256 (miningConfig cfg job) rfl
  apply couple_callEnv hlogged hmine
  intro result t₁ t₂ ht
  refine couple_ite Iff.rfl (fun _ => couple_pure (ht.alongside _)) fun _ => couple_ite Iff.rfl
    (fun _ => ?_) fun _ => couple_submitFound hi ht job.jobId result.nonce
  exact couple_updateEnv (couple_pure ((ht.addLog (c.entries_refl _)).alongside _))

theorem couple_sessionRound (h : Abreast c n w₁ w₂) :
    Couple c.miners (fun w => X w.env) (sessionRound cfg (newClient cfg) ())
      (sessionRound (cfg.withAccount acc) (newClient (cfg.withAccount acc)) ()) (Alongside c)
      w₁ w₂ := by
  apply couple_callEnv h (couple_loadStop h.env)
  intro stop t₁ t₂ ht
  apply couple_read
  rw [ht.cyclesDone]
  refine couple_ite Iff.rfl (fun _ => ?_) fun _ => ?_
  · apply couple_callEnv ht (couple_waitForJob ht.env (newClient cfg) _)
    intro job t₁ t₂ ht
    cases job with
    | none =>
      apply couple_callEnv ht (couple_loadStop ht.env)
      intro stop t₁ t₂ ht
      refine couple_ite Iff.rfl (fun _ => couple_pure (ht.alongside _)) fun _ => ?_
      exact couple_updateEnv (couple_pure ((ht.addLog (c.entries_refl _)).alongside _))
    | some job => exact couple_mineJob hi ht job
  · exact couple_updateEnv (couple_pure ((ht.addLog (c.entries_refl _)).alongside _))

theorem couple_runStratumSession (h : Abreast c n w₁ w₂) :
    Couple c.miners (fun w => X w.env) (runStratumSession cfg)
      (runStratumSession (cfg.withAccount acc)) (Alongside c) w₁ w₂ := by
  apply couple_updateEnv
  have hnew := h.setEnv h.env.newClient
  refine couple_callExcused (couple_startStratumSession hi hnew) ?_ ?_ ?_
  · exact fun ok => .ite (.loop (fun u => keeps_sessionRound hi.lasting _ _ u) ()) .pure
  · exact fun ok => .ite (.loop (fun u => keeps_sessionRound hi.lasting _ _ u) ()) .pure
  · rintro ok _ t₁ t₂ ⟨rfl, k, ht⟩
    refine couple_ite Iff.rfl (fun _ => ?_) fun _ => couple_pure (ht.alongside _)
    refine couple_loop (advances_sessionRound _ _) (advances_sessionRound _ _)
      (I := fun _ _ => Alongside c () ()) (fun u => keeps_sessionRound hi.lasting _ _ u)
      (fun u => keeps_sessionRound hi.lasting _ _ u) ?_ (ht.alongside ())
    rintro _ _ t₁ t₂ ⟨-, k, ht⟩
    refine couple_mono (couple_sessionRound hi ht) (fun _ hs => hs) ?_
    rintro r _ t₁ t₂ ⟨rfl, k, ht⟩
    cases r with
    | inl _ => exact ht.alongside ()
    | inr rc => exact ht.alongside rc

end Session

/-! ## The loop over sessions -/

theorem couple_sessionFailed (h : Abreast c n w₁ w₂) (acc : Account) (backoffSec : UInt32)
    (rc : Int) :
    Couple c.miners (fun w => X w.env) (sessionFailed cfg backoffSec rc)
      (sessionFailed (cfg.withAccount acc) backoffSec rc) (Alongside c) w₁ w₂ := by
  apply couple_update
  apply couple_call (couple_maybeWriteHealthSnapshotIncremental (X := Never)
    (h.setStats (SessionStats.sessionFailed rc)) acc)
  intro _ _ t₁ t₂ ht
  apply couple_read
  rw [ht.stats, ht.cyclesDone]
  refine couple_ite Iff.rfl (fun _ => ?_) fun _ => ?_
  · exact couple_updateEnv (couple_pure ((ht.addLog (c.entries_refl _)).alongside _))
  · apply couple_updateEnv
    have hlogged := ht.addLog (c.entries_refl ⟨.warn, str "stratum", cfg.nodeId,
      str "Stratum cycle failed; reconnecting", str "rc=" ++ decInt rc ++ str " sleep_sec="
        ++ dec backoffSec.toNat ++ str " cycles_done=" ++ dec t₂.cyclesDone.toNat⟩)
    apply couple_callEnv hlogged (couple_loadStop hlogged.env)
    intro stop t₁ t₂ ht
    refine couple_ite Iff.rfl (fun _ => couple_pure (ht.alongside _)) fun _ => ?_
    apply couple_callEnv ht (couple_sleepFor ht.env backoffSec)
    intro _ t₁ t₂ ht
    exact couple_pure (ht.alongside _)

theorem couple_shutdown (h : Abreast c n w₁ w₂) (acc : Account) :
    Couple c.miners (fun w => X w.env) (shutdown cfg) (shutdown (cfg.withAccount acc))
      (Alongside c) w₁ w₂ := by
  refine couple_call (couple_onEnv (X := Never) h (couple_clock h.env)) ?_
  rintro ⟨d, a⟩ ⟨d', a'⟩ t₁ t₂ ⟨hsame, ht⟩
  apply couple_read
  rw [ht.stats, ht.cyclesDone]
  apply couple_updateEnv
  apply couple_updateEnv
  apply couple_updateEnv
  have hlogged := ((ht.setEnv (ht.env.observe_same (.summary t₂.stats t₂.cyclesDone) rfl)).addLog
      (c.summary hsame t₂.stats)).addLog (c.entries_refl ⟨.info, str "stratum", cfg.nodeId,
        str "Readiness report", readinessContext t₂.stats⟩)
  apply couple_call (couple_writeHealthSnapshot (X := Never) hlogged acc _ hsame)
  intro _ _ t₁ t₂ ht
  exact couple_modify ((ht.addLog (c.entries_refl _)).alongside ())

variable {acc : Account} (hi : Interchangeable c X (cfg.withAccount acc))
include hi

theorem couple_loopRound (h : Abreast c n w₁ w₂) (backoffSec : UInt32) :
    Couple c.miners (fun w => X w.env) (loopRound cfg backoffSec)
      (loopRound (cfg.withAccount acc) backoffSec) (Alongside c) w₁ w₂ := by
  apply couple_callEnv h (couple_loadStop h.env)
  intro stop t₁ t₂ ht
  apply couple_read
  rw [ht.cyclesDone]
  refine couple_ite Iff.rfl (fun _ => ?_) fun _ => couple_pure (ht.alongside _)
  apply couple_updateEnv
  have hstarted := ht.setEnv (ht.env.observe_same .sessionStarted rfl)
  refine couple_callExcused (couple_runStratumSession hi hstarted) ?_ ?_ ?_
  · exact fun rc => keeps_sessionEnded hi.lasting _ backoffSec rc
  · exact fun rc => keeps_sessionEnded hi.lasting _ backoffSec rc
  · rintro rc _ t₁ t₂ ⟨rfl, k, ht⟩
    apply couple_updateEnv
    have hended := ht.setEnv (ht.env.observe_same (.sessionEnded rc) rfl)
    exact couple_ite Iff.rfl (fun _ => couple_pure (hended.alongside _))
      fun _ => couple_sessionFailed hended acc backoffSec rc

/-- **Two whole runs side by side**. -/
theorem couple_runStratumLoop (h : Abreast c n w₁ w₂) :
    Couple c.miners (fun w => X w.env) (runStratumLoop cfg)
      (runStratumLoop (cfg.withAccount acc)) (Alongside c) w₁ w₂ := by
  have hshutdown : ∀ (cfg : MinerConfig) rc, Keeps (fun w : Miner => X w.env) (do
      shutdown cfg
      return rc : App Int) :=
    fun cfg rc => (keeps_shutdown hi.lasting.bystander cfg).bind fun _ => .pure
  refine couple_callExcused (P := Alongside c) ?_ (hshutdown _) (hshutdown _) ?_
  · refine couple_loop (advances_loopRound _) (advances_loopRound _)
      (I := fun b₁ b₂ => Alongside c b₁ b₂) (keeps_loopRound hi.lasting _)
      (keeps_loopRound hi.lasting _) ?_ (h.alongside _)
    rintro backoffSec _ t₁ t₂ ⟨rfl, k, ht⟩
    refine couple_mono (couple_loopRound hi ht backoffSec) (fun _ hs => hs) ?_
    rintro r _ t₁ t₂ ⟨rfl, k, ht⟩
    cases r with
    | inl b => exact ht.alongside b
    | inr rc => exact ht.alongside rc
  · rintro rc _ t₁ t₂ ⟨rfl, k, ht⟩
    apply couple_call (couple_shutdown (X := Never) ht acc)
    rintro _ _ t₁ t₂ ⟨-, k, ht⟩
    exact couple_pure (ht.alongside rc)

end Runtime

/-! ## The password -/

/-- Two entries that differ in measured times at most. -/
inductive SameButTimes (cfg : MinerConfig) : LogEntry → LogEntry → Prop
  | refl (entry : LogEntry) : SameButTimes cfg entry entry
  | progress (hashes : Nat) (sec hps sec' hps' : Bytes) :
    SameButTimes cfg (progressEntry cfg hashes sec hps) (progressEntry cfg hashes sec' hps')
  | summary (stats : SessionStats) (d d' : Nat) (a a' : Bytes) :
    SameButTimes cfg (summaryEntry cfg stats d a) (summaryEntry cfg stats d' a')

/-- Entries that differ are of the two messages that show measured times. -/
theorem SameButTimes.cases {cfg : MinerConfig} {entry entry' : LogEntry}
    (h : SameButTimes cfg entry entry') : entry = entry' ∨
      (entry.message = str "Progress" ∨ entry.message = str "Shutdown summary") := by
  cases h with
  | refl => exact Or.inl rfl
  | progress => exact Or.inr (Or.inl rfl)
  | summary => exact Or.inr (Or.inr rfl)

/-- Two health snapshots that differ in measured times at most. -/
def SameSnapshot (cfg : MinerConfig) (text text' : Bytes) : Prop :=
  ∃ stats status d a d' a', text = healthSnapshot cfg stats status d a ∧
    text' = healthSnapshot cfg stats status d' a'

theorem sameSnapshot_healthSnapshot (cfg : MinerConfig) : ∀ {d a d' a'},
    SameAnswer (.clock d a) (.clock d' a') → ∀ stats status,
      SameSnapshot cfg (healthSnapshot cfg stats status d a)
        (healthSnapshot cfg stats status d' a') :=
  fun _ stats status => ⟨stats, status, _, _, _, _, rfl, rfl⟩

/-- The comparison up to measured times. -/
def upToTimes (cfg : MinerConfig) : Comparison cfg where
  same := SameAnswer
  entries := SameButTimes cfg
  snapshots := SameSnapshot cfg
  answer h := h
  entries_refl entry := .refl entry
  progress _ hashes := .progress hashes _ _ _ _
  summary _ stats := .summary stats _ _ _ _
  snapshot := @sameSnapshot_healthSnapshot cfg

/-- The comparison of runs that measure the same times. -/
def identical (cfg : MinerConfig) : Comparison cfg where
  same := Eq
  entries := Eq
  snapshots := Eq
  answer := by
    rintro ev _ rfl
    exact .refl ev
  entries_refl entry := rfl
  progress h hashes := by
    cases h
    rfl
  summary h stats := by
    cases h
    rfl
  snapshot h stats status := by
    cases h
    rfl

/-- The environments of two runs answer with `same`, at the same points; only the pieces in which
requests leave are left out. -/
def SamePoints (same : Event → Event → Prop) (es₁ es₂ : List Event) : Prop :=
  List.Forall₂ same (es₁.filter fun ev => !ev.isWrite) (es₂.filter fun ev => !ev.isWrite)

/-- The configuration with another password. -/
def MinerConfig.withPassword (cfg : MinerConfig) (password : Bytes) : MinerConfig :=
  { cfg with poolPassword := password }

section Password

variable {cfg : MinerConfig} {password : Bytes}

/-- Two passwords that fit in a request are interchangeable in any comparison. -/
theorem interchangeable_withPassword (c : Comparison cfg)
    (hfits : (signIn cfg).length ≤ StratumClient.kMaxJsonLineBytes)
    (hfits' : (signIn (cfg.withPassword password)).length ≤ StratumClient.kMaxJsonLineBytes) :
    Interchangeable c Never (cfg.withPassword password) where
  lasting := fun _ _ _ _ hs => hs
  signIn := by
    refine ⟨?_, Or.inl (iff_of_false (Nat.not_lt.2 hfits) (Nat.not_lt.2 hfits'))⟩
    rw [signIn, signIn, parseMessageId_authorizeRequest, parseMessageId_authorizeRequest]
  submit id jobId nonce := Compatible.refl _ _
  authorized := c.entries_refl _
  started := c.entries_refl _

/-- Two runs with passwords that fit show what compares. -/
theorem near_withPassword (c : Comparison cfg)
    (hfits : (signIn cfg).length ≤ StratumClient.kMaxJsonLineBytes)
    (hfits' : (signIn (cfg.withPassword password)).length ≤ StratumClient.kMaxJsonLineBytes)
    {es₁ es₂ : List Event} (hpoints : SamePoints c.same es₁ es₂)
    (hgo₁ : ¬Proc.Stuck (runStratumLoop cfg) {} es₁)
    (hgo₂ : ¬Proc.Stuck (runStratumLoop (cfg.withPassword password)) {} es₂) :
    c.near ((runStratumLoop cfg).run {} es₁).state.env
      ((runStratumLoop (cfg.withPassword password)).run {} es₂).state.env := by
  have hstart : Abreast c 1 ({} : Miner) {} := ⟨rfl, rfl, rfl, rfl, rfl, rfl, rfl, .nil, .nil⟩
  have hsame : Interchangeable c Never
      (cfg.withAccount ⟨password, cfg.poolUsername, cfg.payoutAddress⟩) :=
    interchangeable_withPassword c hfits hfits'
  have hcouple := couple_runStratumLoop hsame hstart
  exact hcouple.near (fun _ _ _ _ hQ => hQ.2.choose_spec.env.near) hpoints hgo₁ hgo₂ id id

end Password

/-- **The password is not shown**: in any two runs on configurations that differ in the password
alone, against a pool that does the same at the same points, the same entries are logged and the same
health snapshots are written, but for measured times; and where the measured times are the same, so
are all entries and snapshots. The runs may stand anywhere, in the middle of a request too. -/
theorem password_not_shown (cfg : MinerConfig) (password : Bytes)
    (hfits : (signIn cfg).length ≤ StratumClient.kMaxJsonLineBytes)
    (hfits' : (signIn (cfg.withPassword password)).length ≤ StratumClient.kMaxJsonLineBytes)
    (es₁ es₂ : List Event) (hpoints : SamePoints SameAnswer es₁ es₂)
    (hgo₁ : ¬Proc.Stuck (runStratumLoop cfg) {} es₁)
    (hgo₂ : ¬Proc.Stuck (runStratumLoop (cfg.withPassword password)) {} es₂) :
    let e₁ := ((runStratumLoop cfg).run {} es₁).state.env
    let e₂ := ((runStratumLoop (cfg.withPassword password)).run {} es₂).state.env
    List.Forall₂ (SameButTimes cfg) e₁.log e₂.log ∧
      List.Forall₂ (SameSnapshot cfg) e₁.snapshots e₂.snapshots ∧
      (SamePoints Eq es₁ es₂ → e₁.log = e₂.log ∧ e₁.snapshots = e₂.snapshots) := by
  intro e₁ e₂
  have htimes : (upToTimes cfg).near e₁ e₂ :=
    near_withPassword (upToTimes cfg) hfits hfits' hpoints hgo₁ hgo₂
  refine ⟨htimes.1, htimes.2, fun hequal => ?_⟩
  have hidentical : (identical cfg).near e₁ e₂ :=
    near_withPassword (identical cfg) hfits hfits' hequal hgo₁ hgo₂
  exact ⟨List.forall₂_eq_eq_eq ▸ hidentical.1, List.forall₂_eq_eq_eq ▸ hidentical.2⟩

/-- Two runs in which the miner signs in, with passwords of other lengths. -/
theorem password_not_shown_script :
    (((runStratumLoop scriptConfig).run {} (.load :: startScript scriptConfig)).state.env.log =
      ((runStratumLoop (scriptConfig.withPassword (str "hidden"))).run {}
        (.load :: startScript (scriptConfig.withPassword (str "hidden")))).state.env.log) := by
  have hgo : ∀ cfg, ((runStratumLoop cfg).run {} (.load :: startScript cfg ++
      [.signal])).state.env.stopRequested = true →
      ((runStratumLoop cfg).run {} (.load :: startScript cfg)).state.env.stopRequested = false →
      ¬Proc.Stuck (runStratumLoop cfg) {} (.load :: startScript cfg) := by
    intro cfg hmore hstand
    apply Proc.not_stuck_of_state [.signal]
    intro heq
    rw [heq, hstand] at hmore
    cases hmore
  have hfilter : (Event.load :: startScript scriptConfig).filter (fun ev => !ev.isWrite) =
      (Event.load :: startScript (scriptConfig.withPassword (str "hidden"))).filter
        fun ev => !ev.isWrite := by
    decide +kernel
  have hequal : SamePoints Eq (.load :: startScript scriptConfig)
      (.load :: startScript (scriptConfig.withPassword (str "hidden"))) := by
    rw [SamePoints, hfilter]
    exact List.forall₂_same.2 fun _ _ => rfl
  have hpoints : SamePoints SameAnswer (.load :: startScript scriptConfig)
      (.load :: startScript (scriptConfig.withPassword (str "hidden"))) :=
    hequal.imp fun ev _ h => h ▸ .refl ev
  exact ((password_not_shown scriptConfig (str "hidden") (by decide +kernel) (by decide +kernel)
    _ _ hpoints (hgo _ (by decide +kernel) (by decide +kernel))
    (hgo _ (by decide +kernel) (by decide +kernel))).2.2 hequal).1

end HermitMiner
