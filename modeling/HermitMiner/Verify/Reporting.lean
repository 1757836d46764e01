import HermitMiner.Verify.Causal
import HermitMiner.Verify.Outcome

/-!
# The end of the reporting loop

Workers leave their nonce loops for several reasons, and only some of them set a flag.

* `Counting.conclusive`: when all of them have left, a flag is set or the counter is full.
* `returns_of_reports`: from there on `mine` returns, however the rest of it is scheduled.
* `reporting_ends`: both, in every run.
-/

namespace HermitMiner

open Oracle

section Reporting

variable {hash256 : Bytes → Hash256} {cfg : MinerConfig} {requested : Bool} {m m' : Machine}

/-! ## Where the workers have left -/

variable (cfg) in
/-- All workers have added their counts. -/
def AllDone (m : Machine) : Prop := ∀ tid < cfg.threadCount.toNat, (m.workers tid).pc = .done

instance (m : Machine) : Decidable (AllDone cfg m) :=
  inferInstanceAs (Decidable (∀ tid < _, _))

/-- The reporting loop has a reason to end. -/
def Conclusive (requested : Bool) (m : Machine) : Prop :=
  m.stop = true ∨ requested = true ∨ maxNonce ≤ m.totalHashes

/-- Workers that all have left without being told have done their shares, which make up all nonces. -/
theorem Counting.conclusive {new : List Obs} (h : Counting hash256 cfg new requested m)
    (hthreads : 0 < cfg.threadCount) (hdone : AllDone cfg m) : Conclusive requested m := by
  cases hstop : m.stop with
  | true => exact Or.inl hstop
  | false =>
    cases requested with
    | true => exact Or.inr (Or.inl rfl)
    | false =>
      right; right
      have hpos : 0 < cfg.threadCount.toNat := UInt32.lt_iff_toNat_lt.1 hthreads
      have hall : m.totalHashes = 2 ^ 32 := by
        rw [h.total, ← Striding.sum_share hpos (2 ^ 32)]
        apply Finset.sum_congr rfl
        intro tid htid
        have hpc := hdone tid (Finset.mem_range.1 htid)
        have hleft := (h.workers tid (Finset.mem_range.1 htid)).leaving
          (by simp [hpc, WorkerPc.isLeaving]) hstop
        rw [credit, if_pos hpc]
        exact hleft.resolve_right (by simp)
      rw [hall]
      decide

/-! ## What is left of the reporting loop -/

/-- How many steps of the calling thread the reporting loop has left, when it has a reason to end. -/
def toJoin (requested : Bool) (m : Machine) : Nat :=
  let test := if m.stop then 1 else if requested then 3 else 4
  match m.main with
  | .spawning _ => 1 + test
  | .whileTest => test
  | .loadRequest => if requested then 2 else 3
  | .storeAbort | .storeStop => 1
  | .sleeping => if maxNonce ≤ m.totalHashes then 2 else 1 + test
  | .joining _ => 0

theorem toJoin_le (requested : Bool) (m : Machine) : toJoin requested m ≤ 5 := by
  unfold toJoin
  dsimp only
  split <;> (repeat' split) <;> omega

theorem joining_of_toJoin (h : toJoin requested m = 0) : ∃ tid, m.main = .joining tid := by
  unfold toJoin at h
  cases hmain : m.main with
  | joining tid => exact ⟨tid, rfl⟩
  | _ =>
    rw [hmain] at h
    dsimp only at h
    repeat' split at h
    all_goals omega

/-- A stop request shortens it, if anything. -/
theorem toJoin_request (m : Machine) : toJoin true m ≤ toJoin requested m := by
  have htest : (if m.stop then 1 else 3) ≤ if m.stop then 1 else 4 := by
    split <;> omega
  cases requested with
  | true => exact le_rfl
  | false =>
    unfold toJoin
    cases m.main with
    | spawning | whileTest => simpa using htest
    | loadRequest | storeAbort | storeStop | joining => simp
    | sleeping =>
      by_cases hcount : maxNonce ≤ m.totalHashes
      · simp [hcount]
      · simpa [hcount] using htest

variable (cfg) in
/-- What holds from there on. -/
structure Ending (requested : Bool) (m : Machine) : Prop where
  done : AllDone cfg m
  conclusive : Conclusive requested m
  spawned : ∀ tid, m.main = .spawning tid → cfg.threadCount.toNat ≤ tid

theorem Ending.request (h : Ending cfg requested m) : Ending cfg true m :=
  ⟨h.done, Or.inr (Or.inl rfl), h.spawned⟩

/-- A step of the calling thread comes nearer to the end of the loop, or joins the next worker. -/
theorem Ending.mainStep {obs : List Obs} (h : Ending cfg requested m)
    (hstep : MainStep cfg requested m obs (.inl m')) :
    Ending cfg requested m' ∧ (toJoin requested m' < toJoin requested m ∨
      ∃ tid < cfg.threadCount.toNat, m.main = .joining tid ∧ m'.main = .joining (tid + 1)) := by
  obtain ⟨hdone, hconclusive, hspawned⟩ := h
  cases hstep with
  | spawn hmain h => exact absurd h (Nat.not_lt.2 (hspawned _ hmain))
  | joins hmain h => exact ⟨⟨hdone, hconclusive, nofun⟩, Or.inr ⟨_, h, hmain, rfl⟩⟩
  | spawned hmain =>
    exact ⟨⟨hdone, hconclusive, nofun⟩, Or.inl (by simp [toJoin, hmain])⟩
  | stopped hmain hstop =>
    exact ⟨⟨hdone, hconclusive, nofun⟩, Or.inl (by simp [toJoin, hmain, hstop])⟩
  | unstopped hmain hstop =>
    refine ⟨⟨hdone, hconclusive, nofun⟩, Or.inl ?_⟩
    cases requested <;> simp [toJoin, hmain, hstop]
  | asked hmain hasked =>
    exact ⟨⟨hdone, hconclusive, nofun⟩, Or.inl (by simp [toJoin, hmain, hasked])⟩
  | unasked hmain hunasked =>
    -- the loop has a reason to end other than a request, and sleeps once more at most
    refine ⟨⟨hdone, hconclusive, nofun⟩, Or.inl ?_⟩
    by_cases hcount : maxNonce ≤ m.totalHashes
    · simp [toJoin, hmain, hunasked, hcount]
    · have hstop : m.stop = true := by simpa [Conclusive, hunasked, hcount] using hconclusive
      simp [toJoin, hmain, hunasked, hcount, hstop]
  | aborts hmain | stops hmain =>
    exact ⟨⟨hdone, Or.inl rfl, nofun⟩, Or.inl (by simp [toJoin, hmain])⟩
  | counts hmain hcount =>
    exact ⟨⟨hdone, hconclusive, nofun⟩, Or.inl (by simp [toJoin, hmain, hcount])⟩
  | reports hmain hcount =>
    refine ⟨⟨hdone, hconclusive, nofun⟩, Or.inl ?_⟩
    simp [toJoin, hmain, Nat.not_le.2 hcount]

/-! ## Runs -/

/-- What can still happen when all workers have left: a step of the calling thread, and what happens
without the miner's doing. -/
def Reporting (events : List Event) : Prop :=
  ∀ ev ∈ events, (∃ sec hps, ev = .reporter sec hps) ∨ (async ev).isSome = true

/-- The steps of the calling thread. -/
def reports (events : List Event) : Nat :=
  events.countP fun
    | .reporter .. => true
    | _ => false

/-- The calling thread waits for nothing but a worker that has not left. -/
theorem mainStep_run (hdone : AllDone cfg m) (sec hps : Bytes) (e : Env) :
    ∃ r e' obs, (∀ rest, (mainStep cfg sec hps m).run e rest = .done r e' rest) ∧
      MainStep cfg e.stopRequested m obs r ∧ Follows e obs e' := by
  have hfound : ∃ r e', ∀ rest, (mainStep cfg sec hps m).run e rest = .done r e' rest := by
    unfold mainStep
    cases hmain : m.main with
    | spawning tid =>
      by_cases h : tid < cfg.threadCount.toNat <;> simp [h]
    | whileTest =>
      by_cases h : m.stop = true <;> simp [h]
    | loadRequest =>
      by_cases h : e.stopRequested = true <;> simp [h, Proc.bind_run]
    | storeAbort | storeStop => simp
    | sleeping =>
      by_cases h : maxNonce ≤ m.totalHashes <;>
        simp [h, Proc.bind_run, observe, log]
    | joining tid =>
      by_cases h : tid < cfg.threadCount.toNat
      · simp [h, hdone tid h]
      · simp [h]
  obtain ⟨r, e', hrun⟩ := hfound
  obtain ⟨obs, hstep, hfollows⟩ := (wp_mainStep cfg sec hps m e).done (hrun [])
  exact ⟨r, e', obs, hrun, hstep, hfollows⟩

theorem leads_async {ev : Event} {f : Env → Env} (hf : async ev = some f) (m : Machine) (e : Env) :
    Proc.Leads (mineRound hash256 cfg) m e [ev] m (f e) := by
  refine .before (advances_mineRound hash256 cfg) fun rest => ?_
  exact Proc.await_bind_async hf e rest

theorem async_requested {ev : Event} {f : Env → Env} (hf : async ev = some f) (e : Env) :
    (f e).stopRequested = true ∨ (f e).stopRequested = e.stopRequested := by
  cases ev with
  | signal => cases hf; exact Or.inl rfl
  | arrive bytes => cases hf; exact Or.inr rfl
  | _ => cases hf

theorem Ending.async {ev : Event} {f : Env → Env} {e : Env} (h : Ending cfg e.stopRequested m)
    (hf : async ev = some f) : Ending cfg (f e).stopRequested m ∧
      toJoin (f e).stopRequested m ≤ toJoin e.stopRequested m := by
  rcases async_requested hf e with hset | hkeep
  · rw [hset]
    exact ⟨h.request, toJoin_request m⟩
  · rw [hkeep]
    exact ⟨h, le_rfl⟩

theorem reports_async {ev : Event} {f : Env → Env} (hf : async ev = some f) (events : List Event) :
    reports (ev :: events) = reports events := by
  cases ev with
  | signal | arrive => exact List.countP_cons_of_neg (by simp)
  | _ => cases hf

theorem reports_reporter (sec hps : Bytes) (events : List Event) :
    reports (.reporter sec hps :: events) = reports events + 1 := List.countP_cons_of_pos rfl

variable (hash256) in
/-- The reporting loop ends within the steps it has left. -/
theorem leaves_of_reports {more : List Event} {e : Env} (h : Ending cfg e.stopRequested m)
    (hmore : Reporting more) (hreports : toJoin e.stopRequested m ≤ reports more) :
    ∃ used rest m' e', more = used ++ rest ∧ reports used ≤ toJoin e.stopRequested m ∧
      Proc.Leads (mineRound hash256 cfg) m e used m' e' ∧ Ending cfg e'.stopRequested m' ∧
      ∃ tid, m'.main = .joining tid := by
  induction more generalizing m e with
  | nil =>
    exact ⟨[], [], m, e, rfl, Nat.zero_le _, .refl, h,
      joining_of_toJoin (Nat.le_zero.1 hreports)⟩
  | cons ev more ih =>
    by_cases hjoining : ∃ tid, m.main = .joining tid
    · exact ⟨[], ev :: more, m, e, rfl, Nat.zero_le _, .refl, h, hjoining⟩
    have hrest : Reporting more := fun x hx => hmore x (List.mem_cons_of_mem ev hx)
    rcases hmore ev List.mem_cons_self with ⟨sec, hps, rfl⟩ | hasync
    · rw [reports_reporter] at hreports
      obtain ⟨r, e₁, obs, hrun, hstep, hfollows⟩ := mainStep_run h.done sec hps e
      cases r with
      | inr result =>
        cases hstep with
        | returns hmain => exact absurd ⟨_, hmain⟩ hjoining
      | inl m₁ =>
        obtain ⟨hending, hnearer | ⟨tid, -, hmain, -⟩⟩ := h.mainStep hstep
        · rw [← hfollows.2] at hending hnearer hreports
          obtain ⟨used, rest, m', e', rfl, hused, hleads, hend⟩ := ih hending hrest (by omega)
          refine ⟨.reporter sec hps :: used, rest, m', e', rfl, ?_,
            (leads_reporter hrun).trans hleads, hend⟩
          rw [reports_reporter, ← hfollows.2]
          omega
        · exact absurd ⟨tid, hmain⟩ hjoining
    · obtain ⟨f, hf⟩ := Option.isSome_iff_exists.1 hasync
      rw [reports_async hf] at hreports
      obtain ⟨hending, hle⟩ := h.async hf
      obtain ⟨used, rest, m', e', rfl, hused, hleads, hend⟩ := ih hending hrest (hle.trans hreports)
      refine ⟨ev :: used, rest, m', e', rfl, ?_, (leads_async hf m e).trans hleads, hend⟩
      rw [reports_async hf]
      exact hused.trans hle

/-- Then the workers are joined one by one, and `mine` returns. -/
theorem returns_of_joining {more : List Event} {e : Env} {tid : Nat}
    (h : Ending cfg e.stopRequested m) (hmain : m.main = .joining tid) (hmore : Reporting more)
    (hreports : cfg.threadCount.toNat - tid + 1 ≤ reports more) :
    ∃ result e' rest, (Proc.loop (mineRound hash256 cfg) m).run e more = .done result e' rest := by
  induction more generalizing m e tid with
  | nil => exact absurd hreports (Nat.not_succ_le_zero _)
  | cons ev more ih =>
    have hrest : Reporting more := fun x hx => hmore x (List.mem_cons_of_mem ev hx)
    rcases hmore ev List.mem_cons_self with ⟨sec, hps, rfl⟩ | hasync
    · rw [reports_reporter] at hreports
      obtain ⟨r, e₁, obs, hrun, hstep, hfollows⟩ := mainStep_run h.done sec hps e
      cases r with
      | inr result =>
        exact ⟨result, e₁, more, Proc.Leads.refl.done (advances_mineRound hash256 cfg) (hrun more)⟩
      | inl m₁ =>
        obtain ⟨hending, hnearer | ⟨tid', htid, hmain', hnext⟩⟩ := h.mainStep hstep
        · simp [toJoin, hmain] at hnearer
        · obtain rfl : tid = tid' := MainPc.joining.inj (hmain.symm.trans hmain')
          rw [← hfollows.2] at hending
          obtain ⟨result, e', rest, hdone⟩ := ih hending hnext hrest (by omega)
          have hleads : Proc.Leads (mineRound hash256 cfg) m e [.reporter sec hps] m₁ e₁ :=
            leads_reporter hrun
          exact ⟨result, e', rest, (hleads more).trans hdone⟩
    · obtain ⟨f, hf⟩ := Option.isSome_iff_exists.1 hasync
      rw [reports_async hf] at hreports
      obtain ⟨result, e', rest, hdone⟩ := ih (h.async hf).1 hmain hrest hreports
      exact ⟨result, e', rest, (leads_async hf m e more).trans hdone⟩

/-- From there on `mine` returns, however the rest of it is scheduled. -/
theorem returns_of_reports {more : List Event} {e : Env} (h : Ending cfg e.stopRequested m)
    (hmore : Reporting more) (hreports : cfg.threadCount.toNat + 6 ≤ reports more) :
    ∃ result e' rest, (Proc.loop (mineRound hash256 cfg) m).run e more = .done result e' rest := by
  have hleft := toJoin_le e.stopRequested m
  obtain ⟨used, rest, m', e', rfl, hused, hleads, hending, tid, hmain⟩ :=
    leaves_of_reports hash256 h hmore (by omega)
  have hsum : reports (used ++ rest) = reports used + reports rest := List.countP_append
  have hrest : Reporting rest := fun x hx => hmore x (List.mem_append_right used hx)
  rw [hleads rest]
  exact returns_of_joining hending hmain hrest (by omega)

/-! ## Every run -/

/-- A stop request is never taken back. -/
theorem rounds_requested (e₀ : Env) (events : List Event) :
    (Proc.rounds (mineRound hash256 cfg) {} e₀ events).Pairwise fun p q =>
      p.2.stopRequested = true → q.2.stopRequested = true := by
  refine rounds_pairwise (I := fun _ _ => True) trivial ?_ events
  intro m e _
  refine wp_mineRound (I := fun e' => e.stopRequested = true → e'.stopRequested = true)
    ⟨fun _ _ => rfl, fun _ h => h⟩ id ?_ ?_
  · intro e' h tid obs m' e'' _ hfollows
    rw [← hfollows.2] at h
    exact ⟨trivial, h, fun p hp hset => h (hp hset)⟩
  · intro e' h obs r e'' _ hfollows
    rw [← hfollows.2] at h
    cases r with
    | inr result => trivial
    | inl m' => exact ⟨trivial, h, fun p hp hset => h (hp hset)⟩

theorem rounds_ending {e₀ : Env} {events : List Event} (hthreads : 0 < cfg.threadCount)
    {p : Machine × Env} (hp : p ∈ Proc.rounds (mineRound hash256 cfg) {} e₀ events)
    (hdone : AllDone cfg p.1) : Ending cfg p.2.stopRequested p.1 := by
  obtain ⟨-, new, -, hcounting⟩ :=
    rounds_of_steps (stepInvariant_count e₀) (.initial e₀) events p hp
  refine ⟨hdone, hcounting.conclusive hthreads hdone, ?_⟩
  intro tid hmain
  by_contra hlt
  have hidle := hcounting.spawning tid hmain tid le_rfl
  rw [hdone tid (Nat.lt_of_not_le hlt)] at hidle
  cases hidle

end Reporting

/-- **The reporting loop cannot hang**: wherever all workers have left and added their counts, `stop`
is set, or a stop is requested, for good, or the counter is full; and from there on, which a first
piece of the events comes to, however the rest is scheduled, the calling thread leaves the reporting
loop within five of its steps, and `mine` returns after one more for each worker and a last one. -/
theorem reporting_ends (cfg : MinerConfig) (hthreads : 0 < cfg.threadCount) (e₀ : Env)
    (events : List Event) (p : Machine × Env)
    (hp : p ∈ Proc.rounds (mineRound doubleSha256 cfg) {} e₀ events) (hdone : AllDone cfg p.1) :
    (p.1.stop = true ∨ p.2.stopRequested = true ∨ maxNonce ≤ p.1.totalHashes) ∧
    (Proc.rounds (mineRound doubleSha256 cfg) {} e₀ events).Pairwise (fun p q =>
      p.2.stopRequested = true → q.2.stopRequested = true) ∧
    ∃ past rest, events = past ++ rest ∧
      Proc.Leads (mineRound doubleSha256 cfg) {} e₀ past p.1 p.2 ∧ ∀ more, Reporting more →
      (5 ≤ reports more → ∃ used rest' m' e', more = used ++ rest' ∧ reports used ≤ 5 ∧
        Proc.Leads (mineRound doubleSha256 cfg) {} e₀ (past ++ used) m' e' ∧
        ∃ tid, m'.main = .joining tid) ∧
      (cfg.threadCount.toNat + 6 ≤ reports more →
        ∃ result e' rest', (mine cfg).run e₀ (past ++ more) = .done result e' rest') := by
  have hending := rounds_ending hthreads hp hdone
  have hleft := toJoin_le p.2.stopRequested p.1
  obtain ⟨past, rest, hevents, hpast⟩ := Proc.Causal.leads_of_mem_rounds
    (causal_mineRound doubleSha256 cfg) (advances_mineRound doubleSha256 cfg) hp
  refine ⟨hending.conclusive, rounds_requested e₀ events, past, rest, hevents, hpast, ?_⟩
  intro more hmore
  constructor
  · intro hfive
    obtain ⟨used, rest', m', e', hsplit, hused, hleads, -, hmain⟩ :=
      leaves_of_reports doubleSha256 hending hmore (hleft.trans hfive)
    exact ⟨used, rest', m', e', hsplit, hused.trans hleft, hpast.trans hleads, hmain⟩
  · intro hall
    obtain ⟨result, e', rest', hrun⟩ := returns_of_reports hending hmore hall
    exact ⟨result, e', rest', (hpast more).trans hrun⟩

/-- One worker has left with a solution, the other at `stop`, and the calling thread has yet to leave
the reporting loop. -/
theorem reporting_ends_puzzle :
    ∃ p ∈ Proc.rounds (mineRound doubleSha256 puzzleConfig) {} {} puzzleScript,
      AllDone puzzleConfig p.1 ∧ p.1.main = .whileTest ∧
      (p.1.stop = true ∨ p.2.stopRequested = true ∨ maxNonce ≤ p.1.totalHashes) := by
  have hsome : ((Proc.rounds (mineRound doubleSha256 puzzleConfig) {} {} puzzleScript)[21]?.map
      fun p => decide (AllDone puzzleConfig p.1 ∧ p.1.main = .whileTest)) = some true := by
    decide +kernel
  obtain ⟨p, hp, hreached⟩ := Option.map_eq_some_iff.1 hsome
  obtain ⟨hdone, hmain⟩ := of_decide_eq_true hreached
  have hmem := List.mem_of_getElem? hp
  have hthreads : 0 < puzzleConfig.threadCount := by decide
  have hends := reporting_ends puzzleConfig hthreads {} puzzleScript p hmem hdone
  exact ⟨p, hmem, hdone, hmain, hends.1⟩

end HermitMiner
