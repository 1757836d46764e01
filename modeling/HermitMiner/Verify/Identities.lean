import HermitMiner.Main
import HermitMiner.Verify.Load
import HermitMiner.Verify.Secrecy
import HermitMiner.Verify.Visible
import Mathlib.Logic.Relation

/-!
# What a run shows of the names

The user name and the payout address, from the first line of `main` to the end of the loop over
sessions. They are logged under `pool_user=`, `user=` and no key at all, and none of these is a key
that redaction protects; so a run hides them only as far as redaction finds a protected key inside
the names themselves.

* `run_startLogged`: the line that every run starts with.
* `couple_runMiner`: two runs of the program side by side.
* `SameButSecrets`: two names that differ in values of protected keys alone.
* `names_hidden_of_sameButSecrets`: with such names all log lines are the same; names that are no
  pairs show in the first one.
* `names_shown`: two names that the first line already tells apart.
-/

namespace HermitMiner

open Oracle

/-! ## The program -/

/-- The configuration with other names. -/
def MinerConfig.withNames (cfg : MinerConfig) (username payoutAddress : Bytes) : MinerConfig :=
  cfg.withAccount ⟨cfg.poolPassword, username, payoutAddress⟩

/-- The configuration that `apply_secret_overrides_from_env` leaves. -/
def withSecrets (getenv : Bytes → Option Bytes) (cfg : MinerConfig) : MinerConfig :=
  let value := (getenv (cString cfg.poolPasswordEnv)).getD []
  if cfg.poolPasswordEnv = [] ∨ value = [] then cfg else { cfg with poolPassword := value }

theorem withSecrets_withNames (getenv : Bytes → Option Bytes) (cfg : MinerConfig)
    (username payoutAddress : Bytes) : withSecrets getenv (cfg.withNames username payoutAddress) =
      (withSecrets getenv cfg).withNames username payoutAddress := by
  by_cases h : cfg.poolPasswordEnv = [] ∨ (getenv (cString cfg.poolPasswordEnv)).getD [] = []
  · have hkept : withSecrets getenv cfg = cfg := if_pos h
    rw [hkept]
    exact if_pos h
  · have hloaded : withSecrets getenv cfg =
        { cfg with poolPassword := (getenv (cString cfg.poolPasswordEnv)).getD [] } := if_neg h
    rw [hloaded]
    exact if_neg h

theorem poolUsername_withSecrets (getenv : Bytes → Option Bytes) (cfg : MinerConfig) :
    poolUsername (withSecrets getenv cfg) = poolUsername cfg := by
  rw [withSecrets]
  split <;> rfl

theorem workerId_withSecrets (getenv : Bytes → Option Bytes) (cfg : MinerConfig) :
    (withSecrets getenv cfg).workerId = cfg.workerId := by
  rw [withSecrets]
  split <;> rfl

/-- The entries about the variable with the password. -/
def secretEntries (getenv : Bytes → Option Bytes) (cfg : MinerConfig) : List LogEntry :=
  if cfg.poolPasswordEnv = [] then []
  else if (getenv (cString cfg.poolPasswordEnv)).getD [] = [] then
    [⟨.warn, str "config", cfg.nodeId,
      str "pool.password_env is set but environment variable is missing", cfg.poolPasswordEnv⟩]
  else
    [⟨.info, str "config", cfg.nodeId, str "Loaded pool password from environment variable",
      cfg.poolPasswordEnv⟩]

/-- The entry with the settings that the program starts with. -/
def startupEntry (cfg : MinerConfig) : LogEntry where
  level := .info
  component := str "miner"
  nodeId := cfg.nodeId
  message := str "Independent miner starting"
  context := startupContext cfg

section Program

variable {cfg₀ : MinerConfig} {c : Comparison cfg₀} {n : Nat} {w₁ w₂ : Miner} {X : Env → Prop}

theorem wp_applySecretOverridesFromEnv (getenv : Bytes → Option Bytes) (loaded : MinerConfig) :
    wp (applySecretOverridesFromEnv getenv loaded)
      (fun cfg w => cfg = withSecrets getenv loaded ∧
        w = { env := { log := secretEntries getenv loaded } }) (fun _ => False) {} := by
  refine wp_ite (fun hname => wp_pure ?_) fun hname => wp_ite (fun hvalue => wp_updateEnv
    (wp_pure ?_)) fun hvalue => wp_updateEnv (wp_pure ?_)
  · rw [withSecrets, secretEntries, if_pos (Or.inl hname), if_pos hname]
    exact ⟨rfl, rfl⟩
  · rw [withSecrets, secretEntries, if_pos (Or.inr hvalue), if_neg hname, if_pos hvalue]
    exact ⟨rfl, rfl⟩
  · rw [withSecrets, secretEntries, if_neg fun hor => hor.elim hname hvalue, if_neg hname,
      if_neg hvalue]
    exact ⟨rfl, rfl⟩

/-- What `main` does after the loop over sessions. -/
theorem keeps_loopEnded (hX : Lasting X) (cfg : MinerConfig) (rc : Int) :
    Keeps (fun w : Miner => X w.env) (if rc ≠ 0 then return rc else do
      if ← onEnv loadStop then
        logMiner cfg .info (str "Graceful shutdown complete") (str "reason=signal")
        return 0
      else return 0 : App Int) := by
  have hlog : Keeps (fun w : Miner => X w.env)
      (logMiner cfg .info (str "Graceful shutdown complete") (str "reason=signal")) :=
    keeps_onEnv (keeps_log hX.inert.all _ _ _ _ _)
  exact .ite .pure ((keeps_loadStopAside hX.bystander).bind fun _ =>
    .ite (hlog.bind fun _ => .pure) .pure)

theorem keeps_runPool (hX : Lasting X) (cfg : MinerConfig) :
    Keeps (fun w : Miner => X w.env) (runPool cfg) :=
  (keeps_runStratumLoop hX.bystander cfg (keeps_runStratumSession hX cfg)
    fun _ _ h => hX.observe _ h).bind fun rc => keeps_loopEnded hX cfg rc

/-- The log starts with the entries about the password, and the settings. -/
def StartLogged (getenv : Bytes → Option Bytes) (loaded : MinerConfig) (e : Env) : Prop :=
  secretEntries getenv loaded ++ [startupEntry (withSecrets getenv loaded)] <+: e.log

theorem lasting_startLogged {getenv : Bytes → Option Bytes} {loaded : MinerConfig} :
    Lasting (StartLogged getenv loaded) := fun _ _ _ hlog h => h.trans hlog

/-- In every run with a pool the settings are logged. -/
theorem run_startLogged {getenv : Bytes → Option Bytes} {loaded : MinerConfig}
    (hvalid : validateConfig (withSecrets getenv loaded) = .ok ())
    (hpool : (withSecrets getenv loaded).poolEnabled = true) (es : List Event) :
    StartLogged getenv loaded ((runMiner getenv loaded).run {} es).state.env := by
  have hend : Keeps (fun w : Miner => StartLogged getenv loaded w.env)
      (if (withSecrets getenv loaded).poolEnabled then runPool (withSecrets getenv loaded)
        else runSolo (withSecrets getenv loaded)) := by
    rw [if_pos hpool]
    exact keeps_runPool lasting_startLogged _
  have hrun : wp (runMiner getenv loaded) (fun _ w => StartLogged getenv loaded w.env)
      (fun w => StartLogged getenv loaded w.env) {} := by
    refine wp_call (wp_applySecretOverridesFromEnv getenv loaded) ?_ fun _ h => h.elim
    rintro _ _ ⟨rfl, rfl⟩
    rw [hvalid]
    refine wp_updateEnv (wp_ite (fun _ => wp_updateEnv (hend _ ?_)) fun _ => hend _ ?_)
    · exact lasting_startLogged.addLog _ (List.prefix_refl _)
    · exact List.prefix_refl _
  exact hrun.state es

theorem forall₂_behind {R : LogEntry → LogEntry → Prop} {front more more' : List LogEntry}
    {entry entry' : LogEntry}
    (h : List.Forall₂ R (front ++ [entry] ++ more) (front ++ [entry'] ++ more')) :
    R entry entry' := by
  induction front with
  | nil =>
    cases h with
    | cons hR _ => exact hR
  | cons _ front ih =>
    cases h with
    | cons _ h => exact ih h

/-- What relates the lines of two runs relates the settings they start with. -/
theorem startup_related {getenv : Bytes → Option Bytes} {loaded : MinerConfig}
    {username payoutAddress : Bytes} (hvalid : validateConfig (withSecrets getenv loaded) = .ok ())
    (hvalid' : validateConfig ((withSecrets getenv loaded).withNames username payoutAddress) =
      .ok ()) (hpool : (withSecrets getenv loaded).poolEnabled = true) {es₁ es₂ : List Event}
    {R : LogEntry → LogEntry → Prop}
    (h : List.Forall₂ R ((runMiner getenv loaded).run {} es₁).state.env.log
      ((runMiner getenv (loaded.withNames username payoutAddress)).run {} es₂).state.env.log) :
    R (startupEntry (withSecrets getenv loaded))
      (startupEntry ((withSecrets getenv loaded).withNames username payoutAddress)) := by
  obtain ⟨more, hlog⟩ := run_startLogged hvalid hpool es₁
  rw [← withSecrets_withNames] at hvalid' ⊢
  have hpool' :
      (withSecrets getenv (loaded.withNames username payoutAddress)).poolEnabled = true := by
    rw [withSecrets_withNames]
    exact hpool
  obtain ⟨more', hlog'⟩ := run_startLogged hvalid' hpool' es₂
  rw [← hlog, ← hlog'] at h
  exact forall₂_behind h

theorem couple_applySecretOverridesFromEnv (h : Abreast c n w₁ w₂)
    (getenv : Bytes → Option Bytes) (cfg : MinerConfig) (username payoutAddress : Bytes) :
    Couple c.miners Never (applySecretOverridesFromEnv getenv cfg)
      (applySecretOverridesFromEnv getenv (cfg.withNames username payoutAddress))
      (fun cfg₁ cfg₂ w₁ w₂ => (cfg₁ = withSecrets getenv cfg ∧
        cfg₂ = (withSecrets getenv cfg).withNames username payoutAddress) ∧ Abreast c n w₁ w₂)
      w₁ w₂ := by
  refine couple_ite Iff.rfl (fun hname => ?_) fun hname => couple_ite Iff.rfl
    (fun hvalue => ?_) fun hvalue => ?_
  · have hkept : withSecrets getenv cfg = cfg := if_pos (Or.inl hname)
    rw [hkept]
    exact couple_pure ⟨⟨rfl, rfl⟩, h⟩
  · have hkept : withSecrets getenv cfg = cfg := if_pos (Or.inr hvalue)
    rw [hkept]
    exact couple_updateEnv (X := Never)
      (couple_pure ⟨⟨rfl, rfl⟩, h.addLog (c.entries_refl _)⟩)
  · have hloaded : withSecrets getenv cfg =
        { cfg with poolPassword := (getenv (cString cfg.poolPasswordEnv)).getD [] } :=
      if_neg fun hor => hor.elim hname hvalue
    rw [hloaded]
    exact couple_updateEnv (X := Never)
      (couple_pure ⟨⟨rfl, rfl⟩, h.addLog (c.entries_refl _)⟩)

variable {cfg : MinerConfig} {c : Comparison cfg} {acc : Account}
  (hi : Interchangeable c X (cfg.withAccount acc))
include hi

theorem couple_runPool (h : Abreast c n w₁ w₂) :
    Couple c.miners (fun w => X w.env) (runPool cfg) (runPool (cfg.withAccount acc)) (Alongside c)
      w₁ w₂ := by
  refine couple_callExcused (couple_runStratumLoop hi h) (keeps_loopEnded hi.lasting _)
    (keeps_loopEnded hi.lasting _) ?_
  rintro rc _ t₁ t₂ ⟨rfl, k, ht⟩
  refine couple_ite Iff.rfl (fun _ => couple_pure (ht.alongside _)) fun _ => ?_
  apply couple_callEnv ht (couple_loadStop ht.env)
  intro stop t₁ t₂ ht
  refine couple_ite Iff.rfl (fun _ => ?_) fun _ => couple_pure (ht.alongside _)
  exact couple_updateEnv (couple_pure ((ht.addLog (c.entries_refl _)).alongside _))

omit hi in
/-- **Two runs of the program side by side**, on validated configurations for a pool. -/
theorem couple_runMiner {getenv : Bytes → Option Bytes} {loaded : MinerConfig}
    {username payoutAddress : Bytes} {c : Comparison (withSecrets getenv loaded)}
    (hvalid : validateConfig (withSecrets getenv loaded) = .ok ())
    (hvalid' : validateConfig ((withSecrets getenv loaded).withNames username payoutAddress) =
      .ok ()) (hpool : (withSecrets getenv loaded).poolEnabled = true)
    (hi : Interchangeable c X ((withSecrets getenv loaded).withNames username payoutAddress))
    (hstartup : c.entries (startupEntry (withSecrets getenv loaded))
      (startupEntry ((withSecrets getenv loaded).withNames username payoutAddress)))
    (h : Abreast c n w₁ w₂) :
    Couple c.miners (fun w => X w.env) (runMiner getenv loaded)
      (runMiner getenv (loaded.withNames username payoutAddress)) (Alongside c) w₁ w₂ := by
  apply couple_call (couple_applySecretOverridesFromEnv h getenv loaded username payoutAddress)
  rintro _ _ t₁ t₂ ⟨⟨rfl, rfl⟩, ht⟩
  rw [hvalid, hvalid']
  apply couple_updateEnv
  have hstarted := ht.addLog hstartup
  have hend : ∀ {t₁ t₂ : Miner}, Abreast c n t₁ t₂ → Couple c.miners (fun w => X w.env)
      (if (withSecrets getenv loaded).poolEnabled then runPool (withSecrets getenv loaded)
        else runSolo (withSecrets getenv loaded))
      (if (withSecrets getenv loaded).poolEnabled then
          runPool ((withSecrets getenv loaded).withNames username payoutAddress)
        else runSolo ((withSecrets getenv loaded).withNames username payoutAddress))
      (Alongside c) t₁ t₂ := by
    intro t₁ t₂ ht
    rw [if_pos hpool, if_pos hpool]
    exact couple_runPool hi ht
  refine couple_ite Iff.rfl (fun _ => ?_) fun _ => hend hstarted
  exact couple_updateEnv (hend (hstarted.addLog (c.entries_refl _)))

end Program

/-! ## Names -/

/-- One value of a `KEY=VALUE` or `KEY:VALUE` pair is another one. -/
inductive SecretChanged : Bytes → Bytes → Prop
  | mk {a key v v' b : Bytes} {sep : UInt8} (hkey : key.map lower ∈ protectedKeys)
    (hsep : isSep sep = true) (hv : PlainSecret v) (hv' : PlainSecret v') :
    SecretChanged (a ++ (key ++ sep :: v ++ b)) (a ++ (key ++ sep :: v' ++ b))

/-- The names are the same but for such values. -/
def SameButSecrets : Bytes → Bytes → Prop := Relation.ReflTransGen SecretChanged

/-- They are redacted to the same, wherever they stand. -/
theorem SameButSecrets.redacted {name name' : Bytes} (h : SameButSecrets name name') (a b : Bytes) :
    redactSensitiveFields (a ++ (name ++ b)) = redactSensitiveFields (a ++ (name' ++ b)) := by
  induction h with
  | refl => rfl
  | tail _ hchanged ih =>
    refine ih.trans ?_
    cases hchanged with
    | @mk x key v v' y sep hkey hsep hv hv' =>
      have hpair := redact_pair (matches_spelledKey hkey) hsep hv hv' (a ++ x) (y ++ b)
      simp only [List.append_assoc] at hpair ⊢
      exact hpair

/-- The same line is written for the two entries, at every time, if any. -/
def SameWritten (entry entry' : LogEntry) : Prop :=
  ∀ threshold now, Logger.log threshold now entry = Logger.log threshold now entry'

/-- What is written for the two entries is the same, or differs in measured times. -/
def SameLine (cfg : MinerConfig) (entry entry' : LogEntry) : Prop :=
  SameButTimes cfg entry entry' ∨ SameWritten entry entry'

theorem sameWritten_of_redacted {level : LogLevel}
    {component nodeId message context context' : Bytes}
    (h : redactSensitiveFields context = redactSensitiveFields context') :
    SameWritten ⟨level, component, nodeId, message, context⟩
      ⟨level, component, nodeId, message, context'⟩ := by
  intro threshold now
  rw [Logger.log, Logger.log, logLine, logLine]
  dsimp only
  rw [h]

/-- The contexts of entries that are written as the same are redacted to the same. -/
theorem redacted_of_sameWritten {level : LogLevel}
    {component nodeId message context context' : Bytes}
    (h : SameWritten ⟨level, component, nodeId, message, context⟩
      ⟨level, component, nodeId, message, context'⟩) :
    redactSensitiveFields context = redactSensitiveFields context' := by
  have hline := h .debug ⟨0, 0, 0, 0, 0, 0, 0⟩
  have hlevel : ¬level.toNat < LogLevel.debug.toNat := Nat.not_lt_zero _
  rw [Logger.log, Logger.log] at hline
  dsimp only at hline
  rw [if_neg hlevel, if_neg hlevel] at hline
  have hfield := List.append_cancel_left (List.append_cancel_right
    (List.append_cancel_right (Option.some.inj hline)))
  apply jsonEscape_injective
  split at hfield
  · split at hfield
    · exact List.append_cancel_left (List.append_cancel_right hfield)
    · simp [str] at hfield
  · split at hfield
    · simp [str] at hfield
    · rename_i hempty hempty'
      exact (not_not.1 hempty).trans (not_not.1 hempty').symm

/-- The comparison of what is written, up to measured times. -/
def byLines (cfg : MinerConfig) : Comparison cfg where
  same := SameAnswer
  entries := SameLine cfg
  snapshots := SameSnapshot cfg
  answer h := h
  entries_refl entry := Or.inl (.refl entry)
  progress _ hashes := Or.inl (.progress hashes _ _ _ _)
  summary _ stats := Or.inl (.summary stats _ _ _ _)
  snapshot := @sameSnapshot_healthSnapshot cfg

/-- The comparison of what is written by runs that measure the same times. -/
def byExactLines (cfg : MinerConfig) : Comparison cfg where
  same := Eq
  entries := SameWritten
  snapshots := Eq
  answer := (identical cfg).answer
  entries_refl entry := fun _ _ => rfl
  progress h hashes := by
    rw [(identical cfg).progress h hashes]
    exact fun _ _ => rfl
  summary h stats := by
    rw [(identical cfg).summary h stats]
    exact fun _ _ => rfl
  snapshot := (identical cfg).snapshot

/-- A request was above the size limit. -/
def Refused (e : Env) : Prop := Obs.unsendable ∈ e.trace

theorem lasting_refused : Lasting Refused := fun _ _ hbefore _ h => hbefore.subset h

section Hidden

variable {cfg : MinerConfig} {username payoutAddress : Bytes}
  (h : SameButSecrets (poolUsername cfg) (poolUsername (cfg.withNames username payoutAddress)))
include h

/-- The entries that show the names are written as the same. -/
theorem sameWritten_names (level : LogLevel) (component message front rest : Bytes) :
    SameWritten ⟨level, component, cfg.nodeId, message, front ++ (poolUsername cfg ++ rest)⟩
      ⟨level, component, cfg.nodeId, message,
        front ++ (poolUsername (cfg.withNames username payoutAddress) ++ rest)⟩ :=
  sameWritten_of_redacted (h.redacted front rest)

theorem sameWritten_startup :
    SameWritten (startupEntry cfg) (startupEntry (cfg.withNames username payoutAddress)) := by
  have hnames := sameWritten_names h .info (str "miner") (str "Independent miner starting")
    (str "worker_id=" ++ cfg.workerId ++ str " threads=" ++ dec cfg.threadCount.toNat
      ++ str " bits=" ++ dec cfg.difficultyBits.toNat
      ++ str " pool_enabled=" ++ (if cfg.poolEnabled then str "true" else str "false")
      ++ str " pool_user=")
    (str " pool_host=" ++ cfg.poolHost ++ str ":" ++ dec cfg.poolPort.toNat)
  simp only [List.append_assoc] at hnames
  simp only [startupEntry, startupContext, List.append_assoc]
  exact hnames

/-- Such names are interchangeable in a comparison that only sees what is written. -/
theorem interchangeable_withNames (c : Comparison cfg)
    (hc : ∀ {entry entry'}, SameWritten entry entry' → c.entries entry entry') :
    Interchangeable c Refused (cfg.withNames username payoutAddress) where
  lasting := lasting_refused
  signIn := by
    refine ⟨?_, Or.inr fun e => by simp [Refused]⟩
    rw [signIn, signIn, parseMessageId_authorizeRequest, parseMessageId_authorizeRequest]
  submit id jobId nonce := by
    refine ⟨?_, Or.inr fun e => by simp [Refused]⟩
    rw [parseMessageId_submitRequest, parseMessageId_submitRequest]
  authorized := by
    have hnames := sameWritten_names h .info (str "stratum") (str "Authorize OK") [] []
    simp only [List.nil_append, List.append_nil] at hnames
    exact hc hnames
  started := by
    have hnames := sameWritten_names h .info (str "stratum") (str "Stratum session started")
      (str "user=") []
    simp only [List.append_nil] at hnames
    exact hc hnames

end Hidden

/-- Ordinary names behind a worker's id without quotes are told apart by the first line. -/
theorem ordinary_of_sameLine {cfg : MinerConfig} {username payoutAddress : Bytes}
    (hpool : cfg.poolEnabled = true) (hworker : ch '"' ∉ cfg.workerId)
    (hname : Ordinary (poolUsername cfg))
    (hname' : Ordinary (poolUsername (cfg.withNames username payoutAddress)))
    (h : SameLine cfg (startupEntry cfg) (startupEntry (cfg.withNames username payoutAddress))) :
    poolUsername cfg = poolUsername (cfg.withNames username payoutAddress) := by
  have hmessage : (startupEntry cfg).message = str "Independent miner starting" := rfl
  have hredacted : redactSensitiveFields (startupContext cfg) =
      redactSensitiveFields (startupContext (cfg.withNames username payoutAddress)) := by
    obtain hsame | hwritten := h
    · obtain heq | hprogress | hsummary := hsame.cases
      · exact congrArg (fun entry => redactSensitiveFields entry.context) heq
      · exact absurd (hmessage.symm.trans hprogress) (by decide)
      · exact absurd (hmessage.symm.trans hsummary) (by decide)
    · exact redacted_of_sameWritten hwritten
  have hcontext : ∀ cfg : MinerConfig, cfg.poolEnabled = true → startupContext cfg =
      (str "worker_id=" ++ cfg.workerId ++ str " threads=" ++ dec cfg.threadCount.toNat
        ++ str " bits=" ++ dec cfg.difficultyBits.toNat)
        ++ (str " pool_enabled=true pool_user=" ++ (poolUsername cfg
          ++ (str " pool_host=" ++ (cfg.poolHost ++ str ":" ++ dec cfg.poolPort.toNat)))) := by
    intro cfg hpool
    have hwords : str " pool_enabled=true pool_user=" =
        str " pool_enabled=" ++ (str "true" ++ str " pool_user=") := by decide
    rw [startupContext, if_pos hpool, hwords]
    simp only [List.append_assoc]
  rw [hcontext cfg hpool, hcontext (cfg.withNames username payoutAddress) hpool] at hredacted
  refine ordinary_shown ?_ hname hname' hredacted
  have hdec : ∀ n, ch '"' ∉ dec n := fun n hmem => absurd (isDigit_of_mem_dec hmem) (by decide)
  simp only [List.mem_append, not_or]
  exact ⟨⟨⟨⟨⟨by decide, hworker⟩, by decide⟩, hdec _⟩, by decide⟩, hdec _⟩

/-- **Hidden names**: in any two runs of the program on validated configurations for a pool that
differ in the user name and the payout address alone, against a pool that does the same at the same
points, with no request above the size limit: the same lines are written, but for measured times, if
the names are the same but for values of protected keys in them; and where the measured times are
the same, so are all lines. Names that are no pairs at all show, unless they are the same. -/
theorem names_hidden_of_sameButSecrets (getenv : Bytes → Option Bytes) (cfg : MinerConfig)
    (username payoutAddress : Bytes)
    (hvalid : validateConfig (withSecrets getenv cfg) = .ok ())
    (hvalid' : validateConfig ((withSecrets getenv cfg).withNames username payoutAddress) = .ok ())
    (hpool : (withSecrets getenv cfg).poolEnabled = true)
    (es₁ es₂ : List Event) (hpoints : SamePoints SameAnswer es₁ es₂)
    (hgo₁ : ¬Proc.Stuck (runMiner getenv cfg) {} es₁)
    (hgo₂ : ¬Proc.Stuck (runMiner getenv (cfg.withNames username payoutAddress)) {} es₂)
    (hfit₁ : ¬Refused ((runMiner getenv cfg).run {} es₁).state.env)
    (hfit₂ : ¬Refused
      ((runMiner getenv (cfg.withNames username payoutAddress)).run {} es₂).state.env) :
    let name := poolUsername cfg
    let name' := poolUsername (cfg.withNames username payoutAddress)
    let log₁ := ((runMiner getenv cfg).run {} es₁).state.env.log
    let log₂ := ((runMiner getenv (cfg.withNames username payoutAddress)).run {} es₂).state.env.log
    (SameButSecrets name name' → List.Forall₂ (SameLine (withSecrets getenv cfg)) log₁ log₂ ∧
      (SamePoints Eq es₁ es₂ → List.Forall₂ SameWritten log₁ log₂)) ∧
    (ch '"' ∉ cfg.workerId → Ordinary name → Ordinary name' →
      List.Forall₂ (SameLine (withSecrets getenv cfg)) log₁ log₂ → name = name') := by
  intro name name' log₁ log₂
  have hname : poolUsername (withSecrets getenv cfg) = name := poolUsername_withSecrets getenv cfg
  have hname' :
      poolUsername ((withSecrets getenv cfg).withNames username payoutAddress) = name' := by
    rw [← withSecrets_withNames, poolUsername_withSecrets]
  refine ⟨fun hsecrets => ?_, fun hworker hord hord' hlines => ?_⟩
  · rw [← hname, ← hname'] at hsecrets
    have hnear : ∀ c : Comparison (withSecrets getenv cfg),
        (∀ {entry entry'}, SameWritten entry entry' → c.entries entry entry') →
        SamePoints c.same es₁ es₂ → List.Forall₂ c.entries log₁ log₂ := by
      intro c hc hsame
      have hstart : Abreast c 1 ({} : Miner) {} := ⟨rfl, rfl, rfl, rfl, rfl, rfl, rfl, .nil, .nil⟩
      have hcouple := couple_runMiner hvalid hvalid' hpool (interchangeable_withNames hsecrets c hc)
        (hc (sameWritten_startup hsecrets)) hstart
      exact (hcouple.near (fun _ _ _ _ hQ => hQ.2.choose_spec.env.near) hsame hgo₁ hgo₂ hfit₁
        hfit₂).1
    exact ⟨hnear (byLines _) Or.inr hpoints, hnear (byExactLines _) id⟩
  · rw [← workerId_withSecrets getenv] at hworker
    rw [← hname] at hord ⊢
    rw [← hname'] at hord' ⊢
    have hfirst := startup_related hvalid hvalid' hpool hlines
    exact ordinary_of_sameLine hpool hworker hord hord' hfirst

/-- A configuration whose user name holds a password. -/
def hiddenConfig : MinerConfig := scriptConfig.withNames (str "a Password=1,b") []

def otherName : Bytes := str "a Password=22,b"

theorem sameButSecrets_otherName : SameButSecrets (poolUsername hiddenConfig)
    (poolUsername (hiddenConfig.withNames otherName [])) :=
  .single (@SecretChanged.mk (str "a ") (str "Password") (str "1") (str "22") (str ",b") (ch '=')
    (by decide) (by decide) ⟨by decide, by decide +kernel, by decide +kernel⟩
    ⟨by decide, by decide +kernel, by decide +kernel⟩)

/-- The events of a run that signs in. -/
def signInScript (cfg : MinerConfig) : List Event := .load :: startScript cfg

/-- The log that it leaves. -/
def signInLog (cfg : MinerConfig) : List LogEntry :=
  ((runMiner (fun _ => none) cfg).run {} (signInScript cfg)).state.env.log

/-- Two runs in which the miner signs in with such names, which take requests of other lengths, and
two in which it signs in with names that show. -/
theorem names_hidden_script :
    List.Forall₂ SameWritten (signInLog hiddenConfig)
        (signInLog (hiddenConfig.withNames otherName [])) ∧
      ¬List.Forall₂ (SameLine scriptConfig) (signInLog scriptConfig)
        (signInLog (scriptConfig.withNames (str "bob") [])) := by
  have hgo : ∀ cfg es, ((runMiner (fun _ => none) cfg).run {}
        (es ++ [.signal])).state.env.stopRequested = true ∧
      ((runMiner (fun _ => none) cfg).run {} es).state.env.stopRequested = false →
      ¬Proc.Stuck (runMiner (fun _ => none) cfg) {} es := by
    rintro cfg es ⟨hmore, hstand⟩
    apply Proc.not_stuck_of_state [.signal]
    intro heq
    rw [heq, hstand] at hmore
    cases hmore
  have hequal : ∀ cfg cfg' : MinerConfig, (signInScript cfg).filter (fun ev => !ev.isWrite) =
      (signInScript cfg').filter (fun ev => !ev.isWrite) →
      SamePoints Eq (signInScript cfg) (signInScript cfg') := by
    intro cfg cfg' hfilter
    rw [SamePoints, hfilter]
    exact List.forall₂_same.2 fun _ _ => rfl
  have hhidden := hequal hiddenConfig (hiddenConfig.withNames otherName []) (by decide +kernel)
  have hshown := hequal scriptConfig (scriptConfig.withNames (str "bob") []) (by decide +kernel)
  have hsame : ∀ {es es' : List Event}, SamePoints Eq es es' → SamePoints SameAnswer es es' :=
    fun h => h.imp fun ev _ heq => heq ▸ .refl ev
  refine ⟨((names_hidden_of_sameButSecrets (fun _ => none) hiddenConfig otherName []
    (by decide +kernel) (by decide +kernel) (by decide +kernel) _ _ (hsame hhidden)
    (hgo _ _ (by decide +kernel)) (hgo _ _ (by decide +kernel))
    (by unfold Refused; decide +kernel) (by unfold Refused; decide +kernel)).1
    sameButSecrets_otherName).2 hhidden, fun hlines => ?_⟩
  exact absurd ((names_hidden_of_sameButSecrets (fun _ => none) scriptConfig (str "bob") []
    (by decide +kernel) (by decide +kernel) (by decide +kernel) _ _ (hsame hshown)
    (hgo _ _ (by decide +kernel)) (hgo _ _ (by decide +kernel))
    (by unfold Refused; decide +kernel) (by unfold Refused; decide +kernel)).2
    (by decide) (by unfold Ordinary; decide +kernel) (by unfold Ordinary; decide +kernel) hlines) (by decide)

/-- The first line of a run tells the names apart. -/
theorem names_shown :
    validateConfig (scriptConfig.withNames (str "alice") []) = .ok () ∧
      validateConfig (scriptConfig.withNames (str "bob") []) = .ok () ∧
      ¬List.Forall₂ (SameLine (scriptConfig.withNames (str "alice") []))
        ((runMiner (fun _ => none)
          (scriptConfig.withNames (str "alice") [])).run {} []).state.env.log
        ((runMiner (fun _ => none)
          (scriptConfig.withNames (str "bob") [])).run {} []).state.env.log := by
  have hvalid : validateConfig (scriptConfig.withNames (str "alice") []) = .ok () := by
    decide +kernel
  have hvalid' : validateConfig (scriptConfig.withNames (str "bob") []) = .ok () := by
    decide +kernel
  refine ⟨hvalid, hvalid', fun hlines => ?_⟩
  have hfirst : SameLine (scriptConfig.withNames (str "alice") [])
      (startupEntry (scriptConfig.withNames (str "alice") []))
      (startupEntry (scriptConfig.withNames (str "bob") [])) :=
    @startup_related (fun _ => none) (scriptConfig.withNames (str "alice") []) (str "bob") [] hvalid
      hvalid' rfl [] [] _ hlines
  exact absurd (ordinary_of_sameLine rfl (by decide) (by unfold Ordinary; decide +kernel)
    (by unfold Ordinary; decide +kernel) hfirst) (by decide)

end HermitMiner
