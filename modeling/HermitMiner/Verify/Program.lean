import HermitMiner.Verify.Counters
import HermitMiner.Verify.FirstNonce
import HermitMiner.Verify.Identities

/-!
# The exit codes of the program

What the code that `main` returns says of the run that it ends.

* `Exit`: the codes, each with what it stands for.
* `wp_runSolo`, `wp_runPool`: the two ways to work.
* `exit_code_means`: every run of the program.
-/

namespace HermitMiner

open Oracle

/-- What a search for a nonce observes, and nothing of a pool. -/
def Obs.isOffline : Obs → Bool
  | .signal | .arrived _ | .hashed .. | .counted .. => true
  | _ => false

/-- The miner has not used the network, nor slept, nor written a file. -/
def Offline (e : Env) : Prop := ∀ o ∈ e.trace, o.isOffline = true

/-- The line that tells the solution. -/
def proofEntry (cfg : MinerConfig) (result : MiningResult) (elapsed rate : Bytes) : LogEntry where
  level := .info
  component := str "miner"
  nodeId := cfg.nodeId
  message := str "Proof-of-work complete"
  context := str "nonce=" ++ dec result.nonce.toNat ++ str " hash=" ++ hashToHex result.hash
    ++ str " tries=" ++ dec result.hashesTried ++ str " elapsed_seconds=" ++ elapsed
    ++ str " rate_hps=" ++ rate

/-- What the code says with which the program exits. -/
inductive Exit (cfg : MinerConfig) (w : Miner) : Int → Prop where
  /-- The configuration is invalid, and nothing has happened. -/
  | invalid (hinvalid : validateConfig cfg ≠ .ok ()) (hnothing : w.env.trace = []) : Exit cfg w 1
  /-- A stop was requested. -/
  | stopped (hvalid : validateConfig cfg = .ok ()) (hstop : w.env.stopRequested = true) :
      Exit cfg w 0
  /-- The pool has accepted as many shares as were to be found. -/
  | cycles (hvalid : validateConfig cfg = .ok ()) (hpool : cfg.poolEnabled = true)
      (hpos : 0 < cfg.poolMaxCycles)
      (hall : (sessions w.env.trace).accepted.length = cfg.poolMaxCycles.toNat) : Exit cfg w 0
  /-- Without a pool: the last line of the log tells a solution and its hash. -/
  | proof (hvalid : validateConfig cfg = .ok ()) (hsolo : cfg.poolEnabled = false)
      {result : MiningResult} {elapsed rate : Bytes}
      (hsolves : Solves doubleSha256 cfg result.nonce)
      (hhash : result.hash = doubleSha256 (payloadOf cfg result.nonce))
      (hlog : w.env.log.getLast? = some (proofEntry cfg result elapsed rate)) : Exit cfg w 0
  /-- Without a pool: there is no solution. -/
  | unsolved (hvalid : validateConfig cfg = .ok ()) (hsolo : cfg.poolEnabled = false)
      (hnone : cfg.threadCount.toNat ≤ 2 ^ 31 → w.env.stopRequested = false →
        ∀ nonce, ¬Solves doubleSha256 cfg nonce) : Exit cfg w 2
  /-- As many sessions failed as may fail, the last one in this way. -/
  | gaveUp (hvalid : validateConfig cfg = .ok ()) (hpool : cfg.poolEnabled = true) {rc : Int}
      (hrc : rc = 4 ∨ rc = 6 ∨ rc = 8) (hpos : 0 < cfg.poolMaxReconnectAttempts)
      (hall : (sessions w.env.trace).failures.length = cfg.poolMaxReconnectAttempts.toNat)
      (hlast : (sessions w.env.trace).failures.getLast? = some rc) : Exit cfg w rc

/-! ## Without a pool -/

section Solo

variable {cfg : MinerConfig} {w : Miner} {e : Env}

theorem Offline.observe (h : Offline e) {o : Obs} (ho : o.isOffline = true) :
    Offline (e.observe o) := by
  intro o' hmem
  rcases List.mem_append.1 hmem with hmem | hmem
  · exact h o' hmem
  · rwa [List.mem_singleton.1 hmem]

theorem aloof_offline : Aloof Offline where
  signal h := h.observe rfl
  arrive _ h := h.observe rfl
  hashed _ _ h := h.observe rfl
  counted _ _ h := h.observe rfl
  addLog _ h := h

/-- What a search ends with. -/
structure SearchEnd (cfg : MinerConfig) (result : MiningResult) (e : Env) : Prop where
  offline : Offline e
  aborted : result.aborted = true → e.stopRequested = true
  found : result.found = true → Solves doubleSha256 cfg result.nonce ∧
    result.hash = doubleSha256 (payloadOf cfg result.nonce)
  unsolved : result.found = false → result.aborted = false → cfg.threadCount.toNat ≤ 2 ^ 31 →
    e.stopRequested = false → ∀ nonce, ¬Solves doubleSha256 cfg nonce

theorem wp_mine_end (h : Offline e) : wp (mine cfg) (SearchEnd cfg) Offline e := by
  have hheld := wp_mineWith_of_steps (@stepInvariant_held doubleSha256 cfg e)
    ⟨.initial e, .initial e⟩
  have hsearch := wp_and (@wp_mineWith_search doubleSha256 cfg e)
    (@wp_mineWith_counted doubleSha256 cfg e)
  refine wp_mono (wp_and (keeps_mineWith aloof_offline doubleSha256 cfg e h)
    (wp_and (wp_and hheld hsearch) (@wp_mineWith_aborted doubleSha256 cfg e))) ?_ fun _ h => h.1
  rintro result e' ⟨hoffline, ⟨⟨⟨hsolves, -⟩, hgenuine⟩, hsearch, hcounted⟩, haborted⟩
  refine ⟨hoffline, haborted, fun hfound => ⟨hsolves hfound, (hgenuine hfound).1⟩, ?_⟩
  intro hfound hnot hmost hrequested nonce
  rcases hsearch with ⟨hashes, asked, hmem, hcount⟩ | hexhausted
  · exact absurd (fun _ => ⟨hmost, hcounted hrequested hashes asked hmem⟩) hcount
  · obtain ⟨new, -, hall⟩ := hexhausted hfound hnot
    exact (hall nonce).2

theorem wp_logMiner {level : LogLevel} {message context : Bytes} {Q : Unit → Miner → Prop}
    {R : Miner → Prop}
    (hQ : Q () (w.setEnv (w.env.addLog ⟨level, str "miner", cfg.nodeId, message, context⟩))) :
    wp (logMiner cfg level message context) Q R w :=
  wp_onEnv (wp_modify hQ)

theorem wp_runSolo (hvalid : validateConfig cfg = .ok ()) (hsolo : cfg.poolEnabled = false)
    (h : Offline w.env) :
    wp (runSolo cfg) (fun rc w' => Offline w'.env ∧ Exit cfg w' rc) (fun w' => Offline w'.env) w := by
  refine wp_callEnv (wp_mine_end h) ?_ fun _ h => h
  intro result e hend
  refine wp_ite (fun haborted => wp_bind (wp_logMiner (wp_pure ?_))) fun hnot => wp_ite
    (fun hnone => wp_bind (wp_logMiner (wp_pure ?_))) fun hsome => ?_
  · exact ⟨hend.offline, .stopped hvalid (hend.aborted haborted)⟩
  · have hfound : result.found = false := by simpa using hnone
    exact ⟨hend.offline, .unsolved hvalid hsolo
      (hend.unsolved hfound (Bool.eq_false_of_not_eq_true hnot))⟩
  · have hfound : result.found = true := by simpa using hsome
    obtain ⟨hsolves, hhash⟩ := hend.found hfound
    have hmeasure : wp measure (fun _ e' => Offline e') Offline e := by
      refine wp_bind (wp_awaitEvent aloof_offline.toStable hend.offline (fun _ h => h) ?_)
      intro ev e' h
      cases ev with
      | reporter elapsed rate => exact wp_pure h
      | _ => exact wp_halt h
    refine wp_callEnv hmeasure ?_ fun _ h => h
    rintro ⟨elapsed, rate⟩ e' hoffline
    refine wp_bind (wp_logMiner (wp_pure ⟨hoffline, ?_⟩))
    exact .proof hvalid hsolo hsolves hhash (List.getLast?_concat (a := proofEntry cfg result _ _))

end Solo

/-! ## With a pool -/

section Pool

variable {cfg : MinerConfig} {w : Miner}

theorem wp_runPool (hvalid : validateConfig cfg = .ok ()) (hpool : cfg.poolEnabled = true)
    (h : LoopInv cfg (backoffInitial cfg) w) :
    wp (runPool cfg) (fun rc w' => Exit cfg w' rc) (Tracked cfg) w := by
  have hloop : wp (runStratumLoop cfg) (RunEnd cfg) (Tracked cfg) w := by
    refine wp_call (wp_loop (I := LoopInv cfg) h (fun b w hI => wp_loopRound hI)
      fun _ _ hI => hI.tracked) ?_ fun _ hR => hR
    intro rc w h
    exact wp_call (wp_shutdown h) (fun _ _ h' => wp_pure h') fun _ hR => hR
  have hexit : ∀ {w' : Miner}, RunEnd cfg 0 w' → Exit cfg w' 0 := by
    intro w' h'
    rcases h'.honest.success rfl with hstop | ⟨hpos, hall⟩
    · exact .stopped hvalid hstop
    · exact .cycles hvalid hpool hpos hall
  refine wp_call hloop ?_ fun _ hR => hR
  intro rc w' h'
  refine wp_ite (fun hrc => wp_pure ?_) fun hrc => ?_
  · obtain ⟨hpos, hall, hlast, hcode⟩ := h'.honest.failure hrc
    exact .gaveUp hvalid hpool hcode hpos hall hlast
  · obtain rfl : rc = 0 := not_not.1 hrc
    refine wp_bind (wp_calmLoadStop (fun e he => h'.tracked.calm he) fun e he => ?_)
    have hend := h'.quiet (he.quiet h'.along)
    refine wp_ite (fun _ => wp_bind (wp_logMiner (wp_pure ?_))) fun _ => wp_pure (hexit hend)
    exact hexit (hend.addLog _)

end Pool

/-! ## The program -/

section Program

variable {cfg : MinerConfig} {w : Miner}

/-- Nothing has happened yet, but for lines of the log. -/
def Logged (w : Miner) : Prop := ∃ entries, w = { env := { log := entries } }

theorem Logged.addLog (h : Logged w) (entry : LogEntry) : Logged (w.setEnv (w.env.addLog entry)) := by
  obtain ⟨entries, rfl⟩ := h
  exact ⟨entries ++ [entry], rfl⟩

theorem Logged.trace (h : Logged w) : w.env.trace = [] := by
  obtain ⟨entries, rfl⟩ := h
  rfl

theorem Logged.offline (h : Logged w) : Offline w.env := by
  rw [Offline, h.trace]
  nofun

theorem Logged.loopInv (h : Logged w) : LoopInv cfg (backoffInitial cfg) w := by
  obtain ⟨entries, rfl⟩ := h
  exact LoopInv.init.quiet (e := { log := entries }) ⟨rfl, nofun, along_nil⟩

theorem wp_runMiner (getenv : Bytes → Option Bytes) (loaded : MinerConfig) :
    wp (runMiner getenv loaded) (fun rc w => Exit (withSecrets getenv loaded) w rc ∧
        ((withSecrets getenv loaded).poolEnabled = false → Offline w.env))
      (fun w => (withSecrets getenv loaded).poolEnabled = false → Offline w.env) {} := by
  refine wp_call (wp_applySecretOverridesFromEnv getenv loaded) ?_ fun _ h => h.elim
  rintro _ w ⟨rfl, hlogged⟩
  have h : Logged w := ⟨_, hlogged⟩
  cases hvalid : validateConfig (withSecrets getenv loaded) with
  | error configError =>
    refine wp_updateEnv (wp_pure ⟨?_, fun _ => (h.addLog _).offline⟩)
    exact .invalid (by rw [hvalid]; nofun) (h.addLog _).trace
  | ok =>
    have hend : ∀ {w : Miner}, Logged w → wp
        (if (withSecrets getenv loaded).poolEnabled then runPool (withSecrets getenv loaded)
          else runSolo (withSecrets getenv loaded))
        (fun rc w => Exit (withSecrets getenv loaded) w rc ∧
          ((withSecrets getenv loaded).poolEnabled = false → Offline w.env))
        (fun w => (withSecrets getenv loaded).poolEnabled = false → Offline w.env) w := by
      intro w h
      refine wp_ite (fun hpool => ?_) fun hsolo => ?_
      · have hnot : ∀ w : Miner,
            (withSecrets getenv loaded).poolEnabled = false → Offline w.env := by
          intro w hsolo
          rw [hpool] at hsolo
          cases hsolo
        exact wp_mono (wp_runPool hvalid hpool h.loopInv) (fun _ w hexit => ⟨hexit, hnot w⟩)
          fun w _ => hnot w
      · exact wp_mono (wp_runSolo hvalid (Bool.eq_false_of_not_eq_true hsolo) h.offline)
          (fun _ _ hboth => ⟨hboth.2, fun _ => hboth.1⟩) fun _ hoffline _ => hoffline
    refine wp_bind (wp_logMiner (wp_ite (fun _ => ?_) fun _ => hend (h.addLog _)))
    exact wp_updateEnv (hend ((h.addLog _).addLog _))

/-- **The exit code of the program.** In every run: without a pool the program never uses the
network; and when it exits, its code says what it has come to. It is 1 only for a configuration that
is invalid, before anything has happened; 2 only without a pool and where no nonce solves the puzzle;
4, 6 or 8 only when the last session that may fail has failed so; and 0 only after a stop request,
with all cycles done, or with a solution in the last line of the log. -/
theorem exit_code_means (getenv : Bytes → Option Bytes) (loaded : MinerConfig)
    (events : List Event) :
    ((withSecrets getenv loaded).poolEnabled = false →
      Offline ((runMiner getenv loaded).run {} events).state.env) ∧
    ∀ rc, ((runMiner getenv loaded).run {} events).value = some rc →
      Exit (withSecrets getenv loaded) ((runMiner getenv loaded).run {} events).state rc := by
  have hrun := wp_runMiner getenv loaded
  refine ⟨(wp_mono hrun (fun _ _ h => h.2) fun _ h => h).state events, fun rc hrc => ?_⟩
  exact (hrun.done (Outcome.eq_done_of_value hrc)).1

end Program

end HermitMiner
