import HermitMiner.Cli
import Mathlib.Data.List.Nodup
import Mathlib.Tactic.Choose

/-!
# Overrides on the command line

* `CliUpdate`: what an accepted option sets, whatever was set before.
* `parseArgs_assigns`: a list of options is the run of the updates.
* `overrides_any_order`: when the order of the options does not matter.
-/

namespace HermitMiner

/-! ## Assignments -/

/-- What an accepted option sets. -/
inductive CliUpdate where
  | config (path : Bytes) (cfg : MinerConfig)
  | prefixText (value : Bytes)
  | bits (n : UInt32)
  | threads (n : UInt32)
  | reportMs (n : UInt32)
  deriving Inhabited

namespace CliUpdate

/-- The option that makes the update. -/
def option : CliUpdate → Bytes
  | config _ _ => str "--config"
  | prefixText _ => str "--prefix"
  | bits _ => str "--bits"
  | threads _ => str "--threads"
  | reportMs _ => str "--report-ms"

def run (cli : Cli) : CliUpdate → Cli
  | config path cfg => { configPath := path, cfg := cfg }
  | prefixText value => { cli with cfg := { cli.cfg with prefixText := value } }
  | bits n => { cli with cfg := { cli.cfg with difficultyBits := n } }
  | threads n => { cli with cfg := { cli.cfg with threadCount := n } }
  | reportMs n => { cli with cfg := { cli.cfg with reportIntervalMs := n } }

/-- Whether the configuration has the value already. -/
def InEffect (cfg : MinerConfig) : CliUpdate → Prop
  | config _ _ => True
  | prefixText value => cfg.prefixText = value
  | bits n => cfg.difficultyBits = n
  | threads n => cfg.threadCount = n
  | reportMs n => cfg.reportIntervalMs = n

/-- Assignments of different fields commute. -/
theorem run_comm {a b : CliUpdate} (ha : a.option ≠ str "--config")
    (hb : b.option ≠ str "--config") (hne : a.option ≠ b.option) (cli : Cli) :
    (b.run (a.run cli)) = a.run (b.run cli) := by
  cases a <;> cases b
  all_goals simp only [option, ne_eq, not_true_eq_false] at ha hb hne
  all_goals rfl

theorem inEffect_run (a : CliUpdate) (cli : Cli) : a.InEffect (a.run cli).cfg := by
  cases a with
  | config path cfg => trivial
  | _ => rfl

/-- An update that is in effect changes nothing. -/
theorem run_of_inEffect {a : CliUpdate} {cli : Cli} (ha : a.option ≠ str "--config")
    (h : a.InEffect cli.cfg) : a.run cli = cli := by
  cases a with
  | config path cfg => exact absurd (option.eq_1 path cfg) ha
  | prefixText value => cases h; rfl
  | bits n => cases h; rfl
  | threads n => cases h; rfl
  | reportMs n => cases h; rfl

/-! ## Lists of updates -/

theorem foldl_of_inEffect {cli : Cli} {as : List CliUpdate}
    (ha : ∀ a ∈ as, a.option ≠ str "--config") (h : ∀ a ∈ as, a.InEffect cli.cfg) :
    as.foldl run cli = cli := by
  induction as with
  | nil => rfl
  | cons a as ih =>
    rw [List.foldl_cons, run_of_inEffect (ha a List.mem_cons_self) (h a List.mem_cons_self)]
    exact ih (fun b hb => ha b (List.mem_cons_of_mem a hb)) fun b hb => h b (List.mem_cons_of_mem a hb)

/-- Overrides of different fields may come in any order. -/
theorem foldl_perm {as bs : List CliUpdate} (ha : ∀ a ∈ as, a.option ≠ str "--config")
    (hnodup : (as.map option).Nodup) (hperm : as.Perm bs) (cli : Cli) :
    as.foldl run cli = bs.foldl run cli := by
  refine hperm.foldl_eq' ?_ cli
  intro a hmema b hmemb cli
  by_cases hab : a = b
  · rw [hab]
  · have hne : a.option ≠ b.option := fun h => hab (List.inj_on_of_nodup_map hnodup hmema hmemb h)
    exact run_comm (ha a hmema) (ha b hmemb) hne cli

/-- What is assigned is in effect at the end. -/
theorem inEffect_foldl {as : List CliUpdate} (ha : ∀ a ∈ as, a.option ≠ str "--config")
    (hnodup : (as.map option).Nodup) {a : CliUpdate} (h : a ∈ as) (cli : Cli) :
    a.InEffect (as.foldl run cli).cfg := by
  obtain ⟨front, back, rfl⟩ := List.append_of_mem h
  have hlast : (front ++ a :: back).Perm ((front ++ back) ++ [a]) := by
    rw [List.append_assoc]
    exact (List.perm_append_singleton a back).symm.append_left front
  rw [foldl_perm ha hnodup hlast, List.foldl_append]
  exact inEffect_run a _

/-- A file in which all overrides have their values already. -/
theorem foldl_config {as : List CliUpdate} {path : Bytes} {cfg : MinerConfig}
    (hnodup : (as.map option).Nodup) (hconfig : .config path cfg ∈ as)
    (h : ∀ a ∈ as, a.InEffect cfg) (cli : Cli) :
    as.foldl run cli = { configPath := path, cfg := cfg } := by
  obtain ⟨front, back, rfl⟩ := List.append_of_mem hconfig
  rw [List.map_append, List.map_cons] at hnodup
  have hback : ∀ a ∈ back, a.option ≠ str "--config" := by
    intro a ha heq
    have hcons := (List.nodup_append.1 hnodup).2.1
    refine (List.nodup_cons.1 hcons).1 (List.mem_map.2 ⟨a, ha, ?_⟩)
    rw [heq, option]
  rw [List.foldl_append, List.foldl_cons]
  exact foldl_of_inEffect hback fun a ha => h a (by simp [ha])

end CliUpdate

/-! ## Options -/

/-- Whether an override has its effect in a configuration. -/
structure InEffect (cfg : MinerConfig) (arg value : Bytes) : Prop where
  prefixText : arg = str "--prefix" → cfg.prefixText = value
  bits : arg = str "--bits" → parseUint32 value = some cfg.difficultyBits
  threads : arg = str "--threads" → parseUint32 value = some cfg.threadCount
  reportMs : arg = str "--report-ms" → parseUint32 value = some cfg.reportIntervalMs

theorem isHelp_of_requiresValue {arg : Bytes} (h : optionRequiresValue arg = true) :
    isHelp arg = false := by
  have hcases : arg = str "--config" ∨ arg = str "--prefix" ∨ arg = str "--bits" ∨
      arg = str "--threads" ∨ arg = str "--report-ms" := by
    simpa [optionRequiresValue, or_assoc] using h
  rcases hcases with rfl | rfl | rfl | rfl | rfl <;> rfl

theorem options_distinct : [str "--config", str "--prefix", str "--bits", str "--threads",
    str "--report-ms"].Pairwise (· ≠ ·) := by decide

/-- A numeric option that is accepted. -/
theorem uintOption_eq_ok {cli out : Cli} {value : Bytes} {set : UInt32 → MinerConfig}
    {allowed : UInt32 → Bool} {name expected : Bytes}
    (h : uintOption cli value set allowed name expected = (out, .ok)) :
    ∃ n, parseUint32 value = some n ∧ allowed n = true ∧ out = { cli with cfg := set n } := by
  unfold uintOption at h
  split at h
  · rename_i n hn
    dsimp only at h
    by_cases hallowed : allowed n = true
    · rw [if_pos hallowed] at h
      cases h
      exact ⟨n, hn, hallowed, rfl⟩
    · rw [if_neg hallowed] at h
      cases h
  · cases h

theorem uintOption_ok_of {cli : Cli} {value : Bytes} {set : UInt32 → MinerConfig}
    {allowed : UInt32 → Bool} {name expected : Bytes} {n : UInt32} (hn : parseUint32 value = some n)
    (hallowed : allowed n = true) :
    uintOption cli value set allowed name expected = ({ cli with cfg := set n }, .ok) := by
  unfold uintOption
  rw [hn]
  dsimp only
  rw [if_pos hallowed]

section

variable (hardwareConcurrency : UInt32) (files : Bytes → Bytes)

/-- **One option**: an option that is accepted once makes the same update whatever was set
before. -/
theorem applyOption_assigns {cli out : Cli} {arg value : Bytes}
    (hknown : optionRequiresValue arg = true)
    (h : applyOption hardwareConcurrency files cli arg value = (out, .ok)) :
    ∃ a : CliUpdate, a.option = arg ∧
      (arg = str "--config" → a = .config value (loadConfig hardwareConcurrency (files value)).2) ∧
      (∀ cfg, InEffect cfg arg value ↔ a.InEffect cfg) ∧
      ∀ cli, applyOption hardwareConcurrency files cli arg value = (a.run cli, .ok) := by
  have hcases : arg = str "--config" ∨ arg = str "--prefix" ∨ arg = str "--bits" ∨
      arg = str "--threads" ∨ arg = str "--report-ms" := by
    simpa [optionRequiresValue, or_assoc] using hknown
  obtain ⟨⟨hcp, hcb, hct, hcr⟩, ⟨hpb, hpt, hpr⟩, ⟨hbt, hbr⟩, htr⟩ := by
    simpa only [List.pairwise_cons, List.mem_cons, List.not_mem_nil, or_false, forall_eq_or_imp,
      forall_eq, List.Pairwise.nil, and_true, false_imp_iff, implies_true] using options_distinct
  have hnumber : ∀ {n m : UInt32}, parseUint32 value = some n →
      (parseUint32 value = some m ↔ m = n) := by
    intro n m hn
    rw [hn, Option.some_inj]
    exact eq_comm
  unfold applyOption at h
  rcases hcases with rfl | rfl | rfl | rfl | rfl
  · rw [if_pos rfl] at h
    cases hload : loadConfig hardwareConcurrency (files value) with
    | mk loaded cfg =>
      rw [hload] at h
      cases loaded with
      | false => cases h
      | true =>
        refine ⟨.config value cfg, rfl, fun _ => rfl, fun _ => ⟨fun _ => trivial, fun _ => ?_⟩,
          fun cli => ?_⟩
        · exact ⟨(absurd · hcp), (absurd · hcb), (absurd · hct), (absurd · hcr)⟩
        · unfold applyOption
          rw [if_pos rfl, hload]
          rfl
  · refine ⟨.prefixText value, rfl, (absurd · hcp.symm), fun cfg => ⟨fun h => h.prefixText rfl,
      fun h => ⟨fun _ => h, (absurd · hpb), (absurd · hpt), (absurd · hpr)⟩⟩, fun cli => ?_⟩
    unfold applyOption
    rw [if_neg hcp.symm, if_pos rfl]
    rfl
  · rw [if_neg hcb.symm, if_neg hpb.symm, if_pos rfl] at h
    obtain ⟨n, hn, hallowed, -⟩ := uintOption_eq_ok h
    refine ⟨.bits n, rfl, (absurd · hcb.symm), fun cfg => ⟨fun h => (hnumber hn).1 (h.bits rfl),
      fun h => ⟨(absurd · hpb.symm), fun _ => (hnumber hn).2 h, (absurd · hbt), (absurd · hbr)⟩⟩,
      fun cli => ?_⟩
    unfold applyOption
    rw [if_neg hcb.symm, if_neg hpb.symm, if_pos rfl, uintOption_ok_of hn hallowed]
    rfl
  · rw [if_neg hct.symm, if_neg hpt.symm, if_neg hbt.symm, if_pos rfl] at h
    obtain ⟨n, hn, hallowed, -⟩ := uintOption_eq_ok h
    refine ⟨.threads n, rfl, (absurd · hct.symm), fun cfg => ⟨fun h => (hnumber hn).1 (h.threads rfl),
      fun h => ⟨(absurd · hpt.symm), (absurd · hbt.symm), fun _ => (hnumber hn).2 h,
        (absurd · htr)⟩⟩, fun cli => ?_⟩
    unfold applyOption
    rw [if_neg hct.symm, if_neg hpt.symm, if_neg hbt.symm, if_pos rfl, uintOption_ok_of hn hallowed]
    rfl
  · rw [if_neg hcr.symm, if_neg hpr.symm, if_neg hbr.symm, if_neg htr.symm, if_pos rfl] at h
    obtain ⟨n, hn, hallowed, -⟩ := uintOption_eq_ok h
    refine ⟨.reportMs n, rfl, (absurd · hcr.symm), fun cfg =>
      ⟨fun h => (hnumber hn).1 (h.reportMs rfl), fun h => ⟨(absurd · hpr.symm), (absurd · hbr.symm),
        (absurd · htr.symm), fun _ => (hnumber hn).2 h⟩⟩, fun cli => ?_⟩
    unfold applyOption
    rw [if_neg hcr.symm, if_neg hpr.symm, if_neg hbr.symm, if_neg htr.symm, if_pos rfl,
      uintOption_ok_of hn hallowed]
    rfl

/-! ## All options -/

/-- The arguments that a list of options with their values makes. -/
def argsOf (pairs : List (Bytes × Bytes)) : List Bytes :=
  pairs.flatMap fun pair => [pair.1, pair.2]

/-- `pair` makes the update `a`, whatever was set before. -/
structure Assigns (pair : Bytes × Bytes) (a : CliUpdate) : Prop where
  known : optionRequiresValue pair.1 = true
  option : a.option = pair.1
  config : pair.1 = str "--config" →
    a = .config pair.2 (loadConfig hardwareConcurrency (files pair.2)).2
  inEffect : ∀ cfg, InEffect cfg pair.1 pair.2 ↔ a.InEffect cfg
  run : ∀ cli, applyOption hardwareConcurrency files cli pair.1 pair.2 = (a.run cli, .ok)

variable {hardwareConcurrency files}

theorem parseArgs_cons {cli : Cli} {pair : Bytes × Bytes} {a : CliUpdate}
    (h : Assigns hardwareConcurrency files pair a) (pairs : List (Bytes × Bytes)) :
    parseArgs hardwareConcurrency files cli (argsOf (pair :: pairs)) =
      parseArgs hardwareConcurrency files (a.run cli) (argsOf pairs) := by
  have hhelp := isHelp_of_requiresValue h.known
  have hargs : argsOf (pair :: pairs) = pair.1 :: pair.2 :: argsOf pairs := rfl
  rw [hargs, parseArgs, hhelp, h.known, h.run]
  rfl

/-- A list of options runs their updates. -/
theorem parseArgs_assigns {pairs : List (Bytes × Bytes)} {f : Bytes × Bytes → CliUpdate}
    (h : ∀ pair ∈ pairs, Assigns hardwareConcurrency files pair (f pair)) (cli : Cli) :
    parseArgs hardwareConcurrency files cli (argsOf pairs) =
      ((pairs.map f).foldl CliUpdate.run cli, .ok) := by
  induction pairs generalizing cli with
  | nil => rfl
  | cons pair pairs ih =>
    rw [parseArgs_cons (h pair List.mem_cons_self), List.map_cons, List.foldl_cons]
    exact ih (fun pair hpair => h pair (List.mem_cons_of_mem _ hpair)) _

/-- The options of a list that is accepted make updates. -/
theorem exists_assigns {pairs : List (Bytes × Bytes)} {cli out : Cli}
    (h : parseArgs hardwareConcurrency files cli (argsOf pairs) = (out, .ok)) :
    ∀ pair ∈ pairs, ∃ a, Assigns hardwareConcurrency files pair a := by
  induction pairs generalizing cli with
  | nil => exact nofun
  | cons pair pairs ih =>
    have hargs : argsOf (pair :: pairs) = pair.1 :: pair.2 :: argsOf pairs := rfl
    have hparse := h
    rw [hargs, parseArgs] at hparse
    by_cases hhelp : isHelp pair.1 = true
    · rw [if_pos hhelp] at hparse
      cases hparse
    · by_cases hknown : optionRequiresValue pair.1 = true
      · rw [if_neg hhelp, if_neg (by simp [hknown])] at hparse
        cases happly : applyOption hardwareConcurrency files cli pair.1 pair.2 with
        | mk next result =>
          rw [happly] at hparse
          cases result with
          | ok =>
            obtain ⟨a, hoption, hconfig, hinEffect, hrun⟩ :=
              applyOption_assigns hardwareConcurrency files hknown happly
            rintro other (_ | ⟨_, hother⟩)
            · exact ⟨a, hknown, hoption, hconfig, hinEffect, hrun⟩
            · exact ih hparse other hother
          | helpShown => cases hparse
          | error lines => cases hparse
      · rw [if_neg hhelp, if_pos (by simp [hknown])] at hparse
        cases hparse

/-- **Overrides**: among options that are given at most once and accepted, every order is accepted
with the same path and configuration and every override is in effect, exactly when the file that
`--config` names, if it is given, has the values of all overrides already. -/
theorem overrides_any_order {hardwareConcurrency : UInt32} {files : Bytes → Bytes} {cli out : Cli}
    {pairs : List (Bytes × Bytes)} (honce : (pairs.map Prod.fst).Nodup)
    (hok : parseArgs hardwareConcurrency files cli (argsOf pairs) = (out, .ok)) :
    ((∀ perm, perm.Perm pairs →
        parseArgs hardwareConcurrency files cli (argsOf perm) = (out, .ok)) ∧
      ∀ pair ∈ pairs, InEffect out.cfg pair.1 pair.2) ↔
    ∀ path, (str "--config", path) ∈ pairs → ∀ pair ∈ pairs,
      InEffect (loadConfig hardwareConcurrency (files path)).2 pair.1 pair.2 := by
  have hassigns := exists_assigns hok
  choose! f hf using hassigns
  have hnodup : ((pairs.map f).map CliUpdate.option).Nodup := by
    have hoptions : pairs.map (CliUpdate.option ∘ f) = pairs.map Prod.fst :=
      List.map_congr_left fun pair hpair => (hf pair hpair).option
    rwa [List.map_map, hoptions]
  have hrun : ∀ {perm : List (Bytes × Bytes)}, perm.Perm pairs →
      parseArgs hardwareConcurrency files cli (argsOf perm) =
        ((perm.map f).foldl CliUpdate.run cli, .ok) := by
    intro perm hperm
    exact parseArgs_assigns (fun pair hpair => hf pair (hperm.mem_iff.1 hpair)) cli
  have hout : (pairs.map f).foldl CliUpdate.run cli = out := by
    rw [hrun (List.Perm.refl pairs)] at hok
    exact (Prod.mk.inj hok).1
  constructor
  · -- the order in which the file comes last
    rintro ⟨horder, heffect⟩ path hpath pair hpair
    obtain ⟨front, back, hsplit⟩ := List.append_of_mem hpath
    have hlast : ((front ++ back) ++ [(str "--config", path)]).Perm pairs := by
      rw [hsplit, List.append_assoc]
      exact (List.perm_append_singleton _ back).append_left front
    have hfile := horder _ hlast
    rw [hrun hlast, List.map_append, List.foldl_append, List.map_singleton,
      (hf _ hpath).config rfl] at hfile
    have hcfg : (loadConfig hardwareConcurrency (files path)).2 = out.cfg :=
      congrArg (·.1.cfg) hfile
    rw [hcfg]
    exact heffect pair hpair
  · intro hfile
    by_cases hconfig : ∃ path, (str "--config", path) ∈ pairs
    · obtain ⟨path, hpath⟩ := hconfig
      have hloaded : ∀ {perm : List (Bytes × Bytes)}, perm.Perm pairs →
          (perm.map f).foldl CliUpdate.run cli =
            { configPath := path, cfg := (loadConfig hardwareConcurrency (files path)).2 } := by
        intro perm hperm
        refine CliUpdate.foldl_config ?_ ?_ ?_ cli
        · exact (((hperm.map f).map CliUpdate.option).nodup_iff).2 hnodup
        · exact List.mem_map.2 ⟨_, hperm.mem_iff.2 hpath, (hf _ hpath).config rfl⟩
        · intro a ha
          obtain ⟨pair, hpair, rfl⟩ := List.mem_map.1 ha
          have hmem := hperm.mem_iff.1 hpair
          exact ((hf pair hmem).inEffect _).1 (hfile path hpath pair hmem)
      refine ⟨fun perm hperm => ?_, fun pair hpair => ?_⟩
      · rw [hrun hperm, hloaded hperm, ← hout, hloaded (List.Perm.refl pairs)]
      · rw [← hout, hloaded (List.Perm.refl pairs)]
        exact hfile path hpath pair hpair
    · have hplain : ∀ a ∈ pairs.map f, a.option ≠ str "--config" := by
        intro a ha heq
        obtain ⟨pair, hpair, rfl⟩ := List.mem_map.1 ha
        rw [(hf pair hpair).option] at heq
        exact hconfig ⟨pair.2, heq ▸ hpair⟩
      refine ⟨fun perm hperm => ?_, fun pair hpair => ?_⟩
      · rw [hrun hperm, ← hout, CliUpdate.foldl_perm hplain hnodup (hperm.symm.map f)]
      · rw [← hout]
        exact ((hf pair hpair).inEffect _).2
          (CliUpdate.inEffect_foldl hplain hnodup (List.mem_map_of_mem hpair) cli)

theorem overrides_any_order_bits :
    ((∀ perm, perm.Perm [(str "--bits", str "7"), (str "--prefix", str "job")] →
        parseArgs 1 (fun _ => []) ⟨[], MinerConfig.default 1⟩ (argsOf perm) =
          (⟨[], { MinerConfig.default 1 with difficultyBits := 7, prefixText := str "job" }⟩,
            .ok)) ∧
      ∀ pair ∈ [(str "--bits", str "7"), (str "--prefix", str "job")],
        InEffect { MinerConfig.default 1 with difficultyBits := 7, prefixText := str "job" }
          pair.1 pair.2) ↔
    ∀ path, (str "--config", path) ∈ [(str "--bits", str "7"), (str "--prefix", str "job")] →
      ∀ pair ∈ [(str "--bits", str "7"), (str "--prefix", str "job")],
        InEffect (loadConfig 1 []).2 pair.1 pair.2 :=
  @overrides_any_order 1 (fun _ => []) ⟨[], MinerConfig.default 1⟩
    ⟨[], { MinerConfig.default 1 with difficultyBits := 7, prefixText := str "job" }⟩
    [(str "--bits", str "7"), (str "--prefix", str "job")]
    (by decide) (by decide)

/-- `--threads 4 --config f` loses the number of threads, and `--config f --threads 4` does not. -/
theorem overrides_lost :
    ¬∀ (hardwareConcurrency : UInt32) (files : Bytes → Bytes) (cli out : Cli)
      (pairs : List (Bytes × Bytes)), (pairs.map Prod.fst).Nodup →
      parseArgs hardwareConcurrency files cli (argsOf pairs) = (out, .ok) →
      (∀ perm, perm.Perm pairs →
        parseArgs hardwareConcurrency files cli (argsOf perm) = (out, .ok)) ∧
      ∀ pair ∈ pairs, InEffect out.cfg pair.1 pair.2 := by
  intro h
  have hfirst : parseArgs 1 (fun _ => str "\x7b\x7d") ⟨[], MinerConfig.default 1⟩
      (argsOf [(str "--threads", str "4"), (str "--config", str "f")]) =
        (⟨str "f", MinerConfig.default 1⟩, .ok) := by rfl
  have hlost := ((h 1 (fun _ => str "\x7b\x7d") _ _ _ (by decide) hfirst).2
    (str "--threads", str "4") List.mem_cons_self).threads rfl
  exact absurd hlost (by decide)

end

end HermitMiner
