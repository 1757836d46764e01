import HermitMiner.Main

/-!
# The ranges of the running configuration

* `InRange`: the ranges, a property of configurations that every loader and every option keeps.
* `parseArgs_inRange`, `startup_inRange`: what the program runs on is in range.
-/

namespace HermitMiner

/-- The ranges that the loader and the options enforce, each for its own fields. -/
structure InRange (cfg : MinerConfig) : Prop where
  threadCount : 1 ≤ cfg.threadCount
  reportIntervalMs : 1 ≤ cfg.reportIntervalMs
  difficultyBits : cfg.difficultyBits ≤ 255
  poolPort : 1 ≤ cfg.poolPort ∧ cfg.poolPort ≤ 65535
  poolNotifyTimeoutSec : 1 ≤ cfg.poolNotifyTimeoutSec
  poolReconnectInitialSec : 1 ≤ cfg.poolReconnectInitialSec
  poolReconnectMaxSec : 1 ≤ cfg.poolReconnectMaxSec

/-! ## Loading -/

theorem le_max_left_uint32 (a b : UInt32) : a ≤ max a b := by
  have hdef : max a b = if a ≤ b then b else a := rfl
  rw [hdef]
  split
  · assumption
  · exact UInt32.le_refl a

theorem inRange_default (hardwareConcurrency : UInt32) :
    InRange (MinerConfig.default hardwareConcurrency) where
  threadCount := le_max_left_uint32 1 hardwareConcurrency
  reportIntervalMs := (by decide : (1 : UInt32) ≤ 1000)
  difficultyBits := (by decide : (24 : UInt32) ≤ 255)
  poolPort := (by decide : (1 : UInt32) ≤ 3333 ∧ (3333 : UInt32) ≤ 65535)
  poolNotifyTimeoutSec := (by decide : (1 : UInt32) ≤ 30)
  poolReconnectInitialSec := (by decide : (1 : UInt32) ≤ 1)
  poolReconnectMaxSec := (by decide : (1 : UInt32) ≤ 30)

/-- A number that is read is in the range of its field, which the field had before. -/
theorem uintField_inRange (pool root : Option JsonValue) (key : Bytes) (low high : UInt32)
    {field : UInt32} (h : low ≤ field ∧ field ≤ high) :
    low ≤ uintField pool root key low.toNat high.toNat field ∧
      uintField pool root key low.toNat high.toNat field ≤ high := by
  unfold uintField
  split
  · split
    · rename_i value _ hvalue
      have hnat : value.toUInt32.toNat = value :=
        UInt32.toNat_ofNat_of_lt' (Nat.lt_of_le_of_lt hvalue.2 high.toNat_lt)
      rw [UInt32.le_iff_toNat_le, UInt32.le_iff_toNat_le, hnat]
      exact hvalue
    · exact h
  · exact h

theorem loadFields_inRange (document : JsonValue) {cfg : MinerConfig} (h : InRange cfg) :
    InRange (loadFields document cfg) := by
  have htop : ∀ field : UInt32, field ≤ 0xffffffff := fun field =>
    UInt32.le_iff_toNat_le.2 (Nat.le_pred_of_lt field.toNat_lt)
  have hpositive : ∀ pool root key {field : UInt32}, 1 ≤ field →
      1 ≤ uintField pool root key 1 uint32Max field :=
    fun pool root key field hfield =>
      (uintField_inRange pool root key 1 0xffffffff ⟨hfield, htop field⟩).1
  have hbits : ∀ field : UInt32, 0 ≤ field := fun field => UInt32.le_iff_toNat_le.2 (Nat.zero_le _)
  exact
    { threadCount := hpositive _ _ _ h.threadCount
      reportIntervalMs := hpositive _ _ _ h.reportIntervalMs
      difficultyBits :=
        (uintField_inRange _ _ _ 0 255 ⟨hbits _, h.difficultyBits⟩).2
      poolPort := uintField_inRange _ _ _ 1 65535 h.poolPort
      poolNotifyTimeoutSec := hpositive _ _ _ h.poolNotifyTimeoutSec
      poolReconnectInitialSec := hpositive _ _ _ h.poolReconnectInitialSec
      poolReconnectMaxSec := hpositive _ _ _ h.poolReconnectMaxSec }

/-- Whatever is in the file, and whether it can be read or not. -/
theorem loadConfig_inRange (hardwareConcurrency : UInt32) (json : Bytes) :
    InRange (loadConfig hardwareConcurrency json).2 := by
  have hdefault := inRange_default hardwareConcurrency
  unfold loadConfig
  dsimp only
  split
  · exact hdefault
  · split
    · exact loadFields_inRange _ hdefault
    · exact hdefault

/-! ## Options -/

/-- A numeric option that is accepted has set a number that is allowed. -/
theorem uintOption_ok {cli : Cli} {value : Bytes} {set : UInt32 → MinerConfig}
    {allowed : UInt32 → Bool} {name expected : Bytes}
    (h : (uintOption cli value set allowed name expected).2 = .ok) :
    ∃ n, allowed n = true ∧ (uintOption cli value set allowed name expected).1.cfg = set n := by
  unfold uintOption at h ⊢
  cases hvalue : parseUint32 value with
  | none =>
    rw [hvalue] at h
    cases h
  | some n =>
    rw [hvalue] at h
    dsimp only at h ⊢
    by_cases hallowed : allowed n = true
    · exact ⟨n, hallowed, rfl⟩
    · rw [if_neg hallowed] at h
      cases h

section

variable (hardwareConcurrency : UInt32) (files : Bytes → Bytes)

/-- An option that is accepted leaves the configuration in range. -/
theorem applyOption_inRange {cli : Cli} (h : InRange cli.cfg) (arg value : Bytes)
    (hok : (applyOption hardwareConcurrency files cli arg value).2 = .ok) :
    InRange (applyOption hardwareConcurrency files cli arg value).1.cfg := by
  have hone : ∀ n : UInt32, n ≠ 0 → 1 ≤ n := fun n hn =>
    UInt32.le_iff_toNat_le.2 (UInt32.lt_iff_toNat_lt.1 (UInt32.pos_iff_ne_zero.2 hn))
  unfold applyOption at hok ⊢
  by_cases hconfig : arg = str "--config"
  · rw [if_pos hconfig]
    exact loadConfig_inRange hardwareConcurrency (files value)
  by_cases hprefix : arg = str "--prefix"
  · rw [if_neg hconfig, if_pos hprefix]
    exact { h with }
  by_cases hbits : arg = str "--bits"
  · rw [if_neg hconfig, if_neg hprefix, if_pos hbits] at hok ⊢
    obtain ⟨n, hn, hcfg⟩ := uintOption_ok hok
    rw [hcfg]
    exact { h with difficultyBits := of_decide_eq_true hn }
  by_cases hthreads : arg = str "--threads"
  · rw [if_neg hconfig, if_neg hprefix, if_neg hbits, if_pos hthreads] at hok ⊢
    obtain ⟨n, hn, hcfg⟩ := uintOption_ok hok
    rw [hcfg]
    exact { h with threadCount := hone n (of_decide_eq_true hn) }
  by_cases hreport : arg = str "--report-ms"
  · rw [if_neg hconfig, if_neg hprefix, if_neg hbits, if_neg hthreads, if_pos hreport] at hok ⊢
    obtain ⟨n, hn, hcfg⟩ := uintOption_ok hok
    rw [hcfg]
    exact { h with reportIntervalMs := hone n (of_decide_eq_true hn) }
  · rw [if_neg hconfig, if_neg hprefix, if_neg hbits, if_neg hthreads, if_neg hreport]
    exact h

/-- The arguments, one option after another. -/
theorem parseArgs_inRange {cli cli' : Cli} (h : InRange cli.cfg) (args : List Bytes)
    (hok : parseArgs hardwareConcurrency files cli args = (cli', .ok)) : InRange cli'.cfg := by
  induction cli, args using parseArgs.induct hardwareConcurrency files with
  | case1 cli =>
    cases hok
    exact h
  | case2 cli arg hhelp =>
    rw [parseArgs, if_pos hhelp] at hok
    cases hok
  | case3 cli arg hhelp hunknown =>
    rw [parseArgs, if_neg hhelp, if_pos hunknown] at hok
    cases hok
  | case4 cli arg hhelp hknown =>
    rw [parseArgs, if_neg hhelp, if_neg hknown] at hok
    cases hok
  | case5 cli arg value args hhelp =>
    rw [parseArgs, if_pos hhelp] at hok
    cases hok
  | case6 cli arg value args hhelp hunknown =>
    rw [parseArgs, if_neg hhelp, if_pos hunknown] at hok
    cases hok
  | case7 cli arg value args hhelp hknown next happly ih =>
    rw [parseArgs, if_neg hhelp, if_neg hknown, happly] at hok
    have hnext := applyOption_inRange hardwareConcurrency files h arg value
    rw [happly] at hnext
    exact ih (hnext rfl) hok
  | case8 cli arg value args hhelp hknown next result hresult happly =>
    rw [parseArgs, if_neg hhelp, if_neg hknown, happly] at hok
    cases result with
    | ok => exact absurd rfl hresult
    | helpShown => cases hok
    | error lines => cases hok

end

/-! ## The program -/

/-- What `main` runs on is in range. -/
theorem startup_inRange (hardwareConcurrency : UInt32) (files : Bytes → Bytes) (args : List Bytes)
    {cfg : MinerConfig} (hrun : startup hardwareConcurrency files args = .run cfg) :
    InRange cfg := by
  have hloaded := loadConfig_inRange hardwareConcurrency (files defaultConfigPath)
  unfold startup at hrun
  dsimp only at hrun
  split at hrun
  · cases hrun
  · cases hrun
  · rename_i cli hparse
    split at hrun
    · cases hrun
    · cases hrun
      exact parseArgs_inRange hardwareConcurrency files hloaded args hparse

/-- **The running configuration is in range**, when `parse_args` returns `Ok`: whatever is in the
files, whichever of them are loaded, and also when the default file is not. So is what `main` runs
on. -/
theorem running_config_inRange (hardwareConcurrency : UInt32) (defaultFile configPath : Bytes)
    (files : Bytes → Bytes) (args : List Bytes) (cli : Cli)
    (hok : parseArgs hardwareConcurrency files
      { configPath := configPath, cfg := (loadConfig hardwareConcurrency defaultFile).2 } args =
        (cli, .ok)) :
    InRange cli.cfg ∧
      ∀ cfg, startup hardwareConcurrency files args = .run cfg → InRange cfg :=
  ⟨parseArgs_inRange hardwareConcurrency files (loadConfig_inRange hardwareConcurrency defaultFile)
    args hok, fun _ hrun => startup_inRange hardwareConcurrency files args hrun⟩

/-- The default file is missing, and the bits are given twice. -/
theorem running_config_inRange_bits :
    InRange { MinerConfig.default 0 with difficultyBits := 255 } :=
  (running_config_inRange 0 [] [] (fun _ => []) [str "--bits", str "7", str "--bits", str "255"]
    ⟨[], { MinerConfig.default 0 with difficultyBits := 255 }⟩ (by decide +kernel)).1

end HermitMiner
