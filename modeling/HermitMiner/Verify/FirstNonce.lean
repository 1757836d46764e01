import HermitMiner.Verify.Outcome
import HermitMiner.Verify.SearchEnds

/-!
# The first solution

Which solution a search reports: a worker tries its nonces upwards and leaves at the first that
solves the puzzle, so what is reported is the first of some worker.

* `FirstHit`: a nonce that solves the puzzle, with none before it in its worker's share.
* `Upward`, `stepInvariant_upward`: what the workers have tried, whoever stops them.
* `mine_reports_first`: the reported nonce is the least of its class that solves the puzzle.
* `search_finds_solution`: a search that is not stopped ends with such a nonce, if there is one.
-/

namespace HermitMiner

open Oracle

section Search

variable (hash256 : Bytes → Hash256) (cfg : MinerConfig)

/-- With its `count`-th hash worker `tid` has come to a solution. -/
def FirstHit (tid count : Nat) (nonce : UInt32) : Prop :=
  ∃ k, count = k + 1 ∧ nonce.toNat = tid + cfg.threadCount.toNat * k ∧
    ∀ j < k, ¬Solves hash256 cfg (nonceAt cfg tid j)

/-- What worker `tid` has tried, if it still has something to do with its nonces. -/
structure Upward (tid : Nat) (w : Worker) : Prop where
  looping : w.pc.isLooping = true → ∀ j < w.localHashes, ¬Solves hash256 cfg (nonceAt cfg tid j)
  exchange : ∀ nonce hash, w.pc = .exchange nonce hash →
    FirstHit hash256 cfg tid w.localHashes nonce
  recording : ∀ nonce hash, w.pc = .recording nonce hash →
    FirstHit hash256 cfg tid w.localHashes nonce

/-- All workers go upward, and the one that reported has left. -/
structure AllUpward (m : Machine) : Prop where
  workers : ∀ tid < cfg.threadCount.toNat, Upward hash256 cfg tid (m.workers tid)
  found : m.result.found = true → ∃ tid < cfg.threadCount.toNat,
    (m.workers tid).pc.isLeaving = true ∧
      FirstHit hash256 cfg tid (m.workers tid).localHashes m.result.nonce

variable {hash256 cfg} {m m' : Machine} {tid : Nat} {w : Worker} {e e₀ : Env}
  {requested : Bool} {obs : List Obs}

/-! ## Steps -/

theorem Upward.leaving (hpc : w.pc.isLeaving = true) : Upward hash256 cfg tid w := by
  constructor
  · intro h
    cases hw : w.pc <;> simp_all [WorkerPc.isLeaving, WorkerPc.isLooping]
  · intro nonce hash h
    rw [h] at hpc
    cases hpc
  · intro nonce hash h
    rw [h] at hpc
    cases hpc

/-- A worker that changes nothing but its place in the nonce loop. -/
theorem Upward.goto (h : Upward hash256 cfg tid w) {pc : WorkerPc}
    (hfrom : w.pc.isLooping = true) (hto : pc.isLooping = true) :
    Upward hash256 cfg tid { w with pc := pc } := by
  refine ⟨fun _ => h.looping hfrom, ?_, ?_⟩
  · intro nonce hash hpc
    dsimp only at hpc
    rw [hpc] at hto
    cases hto
  · intro nonce hash hpc
    dsimp only at hpc
    rw [hpc] at hto
    cases hto

theorem Upward.loopHead
    (hmissed : ∀ j < w.localHashes, ¬Solves hash256 cfg (nonceAt cfg tid j)) :
    Upward hash256 cfg tid w.loopHead := by
  have hpc := w.loopHead_pc
  refine ⟨fun _ => hmissed, ?_, ?_⟩
  · intro nonce hash h
    simp [h] at hpc
  · intro nonce hash h
    simp [h] at hpc

/-- A step that changes one worker, which stays away if it has left. -/
theorem AllUpward.setWorker (h : AllUpward hash256 cfg m) (hw : Upward hash256 cfg tid w)
    (hleft : (m.workers tid).pc.isLeaving = true →
      w.pc.isLeaving = true ∧ w.localHashes = (m.workers tid).localHashes) :
    AllUpward hash256 cfg (m.setWorker tid w) := by
  constructor
  · intro i hi
    rw [Machine.workers_setWorker]
    split
    · rename_i heq
      rwa [heq]
    · exact h.workers i hi
  · intro hfound
    obtain ⟨i, hi, hpc, hhit⟩ := h.found hfound
    refine ⟨i, hi, ?_⟩
    rw [Machine.workers_setWorker]
    by_cases heq : i = tid
    · subst heq
      rw [if_pos rfl, (hleft hpc).2]
      exact ⟨(hleft hpc).1, hhit⟩
    · rw [if_neg heq]
      exact ⟨hpc, hhit⟩

/-- The worker reports what it came to. -/
theorem AllUpward.records (h : AllUpward hash256 cfg m) (htid : tid < cfg.threadCount.toNat)
    {nonce : UInt32} {hash : Hash256} (hpc : (m.workers tid).pc = .recording nonce hash) :
    AllUpward hash256 cfg (Machine.setWorker
      { m with result := { m.result with found := true, nonce := nonce, hash := hash } } tid
      { m.workers tid with pc := .exiting }) := by
  constructor
  · intro i hi
    rw [Machine.workers_setWorker]
    split
    · exact .leaving rfl
    · exact h.workers i hi
  · intro _
    refine ⟨tid, htid, ?_⟩
    rw [Machine.workers_setWorker, if_pos rfl]
    exact ⟨rfl, (h.workers tid htid).recording nonce hash hpc⟩

theorem AllUpward.workerStep {new : List Obs} (h : AllUpward hash256 cfg m)
    (hsound : MachineSound hash256 cfg m) (hcount : Counting hash256 cfg new requested m)
    (hstep : WorkerStep hash256 cfg requested tid m obs m') : AllUpward hash256 cfg m' := by
  have htid : tid < cfg.threadCount.toNat := by
    by_contra hge
    exact hstep.decides.running.1 (hcount.idle tid (by omega))
  have hw := h.workers tid htid
  have hinv := hcount.workers tid htid
  cases hstep with
  | asked hpc | stopped hpc | loses hpc =>
    exact h.setWorker (.leaving rfl) (by simp [hpc, WorkerPc.isLeaving])
  | unasked hpc | unstopped hpc =>
    exact h.setWorker (hw.goto (by simp [hpc, WorkerPc.isLooping]) rfl)
      (by simp [hpc, WorkerPc.isLeaving])
  | hit hpc =>
    have hloop : (m.workers tid).pc.isLooping = true := by simp [hpc, WorkerPc.isLooping]
    obtain ⟨hnonce, hlt⟩ := hinv.looping hloop
    have hbelow := (Striding.lt_share (n := 2 ^ 32) htid (m.workers tid).localHashes).1 hlt
    have hnext := hinv.next_mod htid hloop
    refine h.setWorker ⟨fun h => ?_, fun nonce hash hx => ?_, fun nonce hash hx => ?_⟩
      (by simp [hpc, WorkerPc.isLeaving])
    · cases h
    · cases hx
      refine ⟨_, hnext, ?_, hw.looping hloop⟩
      rw [Nat.toUInt32_eq, UInt32.toNat_ofNat', hnonce, Nat.mod_eq_of_lt hbelow]
    · cases hx
  | miss hpc hmiss =>
    have hloop : (m.workers tid).pc.isLooping = true := by simp [hpc, WorkerPc.isLooping]
    have hnext := hinv.next_mod htid hloop
    rw [hsound.hashNext_payload tid (by simp [hpc])] at hmiss
    refine h.setWorker (.loopHead fun j hj => ?_) (by simp [hpc, WorkerPc.isLeaving])
    replace hj : j < (m.workers tid).localHashes + 1 := hnext ▸ hj
    rcases Nat.lt_succ_iff_lt_or_eq.1 hj with hj | rfl
    · exact hw.looping hloop j hj
    · rw [nonceAt, ← (hinv.looping hloop).1]
      exact hmiss
  | @wins nonce hash hpc =>
    have hstop : AllUpward hash256 cfg { m with stop := true } := ⟨h.workers, h.found⟩
    refine hstop.setWorker ⟨fun h => ?_, fun n x hx => ?_, fun n x hx => ?_⟩
      (by simp [hpc, WorkerPc.isLeaving])
    · cases h
    · cases hx
    · cases hx
      exact hw.exchange nonce hash hpc
  | records hpc => exact h.records htid hpc
  | adds hpc =>
    have hadded : AllUpward hash256 cfg
        { m with totalHashes := (m.totalHashes + (m.workers tid).localHashes) % 2 ^ 64 } :=
      ⟨h.workers, h.found⟩
    exact hadded.setWorker (.leaving rfl) fun _ => ⟨rfl, rfl⟩

theorem AllUpward.spawn {new : List Obs} (h : AllUpward hash256 cfg m)
    (hcount : Counting hash256 cfg new requested m) (hmain : m.main = .spawning tid) :
    AllUpward hash256 cfg
      { m.setWorker tid (startWorker cfg tid) with main := .spawning (tid + 1) } := by
  have hidle := hcount.spawning tid hmain tid (Nat.le_refl _)
  have hset : AllUpward hash256 cfg (m.setWorker tid (startWorker cfg tid)) := by
    refine h.setWorker (.loopHead fun j hj => absurd hj (Nat.not_lt_zero j)) fun hpc => ?_
    rw [hidle] at hpc
    cases hpc
  exact ⟨hset.workers, hset.found⟩

theorem AllUpward.initial : AllUpward hash256 cfg {} := by
  constructor
  · intro tid _
    exact ⟨nofun, nofun, nofun⟩
  · nofun

/-! ## Runs -/

theorem stepInvariant_upward (e₀ : Env) :
    StepInvariant hash256 cfg (fun m e => CountInv hash256 cfg e₀ m e ∧ AllUpward hash256 cfg m)
      fun result _ => result.found = true → ∃ tid < cfg.threadCount.toNat, ∃ count,
        FirstHit hash256 cfg tid count result.nonce ∧
          (cfg.threadCount = 1 → result.hashesTried = count) := by
  refine { stable := fun m => ?_, worker := ?_, main := ?_ }
  · exact ((stepInvariant_count e₀).stable m).and ⟨fun h => h, fun _ h => h⟩
  · intro m e h tid obs m' e' hstep hfollows
    obtain ⟨_, -, hcount⟩ := h.1.2
    exact ⟨(stepInvariant_count e₀).worker h.1 hstep hfollows,
      h.2.workerStep h.1.1 hcount hstep⟩
  · intro m e h obs r e' hstep hfollows
    obtain ⟨new, -, hcount⟩ := h.1.2
    have hinv := (stepInvariant_count e₀).main h.1 hstep hfollows
    cases hstep with
    | spawn hmain => exact ⟨hinv, h.2.spawn hcount hmain⟩
    | @returns joined hmain hall =>
      intro hfound
      obtain ⟨tid, htid, hpc, hhit⟩ := h.2.found hfound
      refine ⟨tid, htid, _, hhit, fun hone => ?_⟩
      have hT : cfg.threadCount.toNat = 1 := congrArg UInt32.toNat hone
      have hsum := hcount.hashes
      obtain rfl : tid = 0 := by omega
      have hdone := hcount.hashes_of_done fun i hi => hcount.joining _ hmain i (by omega)
      rw [hT, Finset.sum_range_one] at hsum
      exact hdone.trans hsum
    | _ => exact ⟨hinv, h.2.workers, h.2.found⟩

/-- The nonce is the least in its class that solves the puzzle. -/
theorem FirstHit.least {count : Nat} {nonce : UInt32} (h : FirstHit hash256 cfg tid count nonce)
    (htid : tid < cfg.threadCount.toNat) (n : UInt32) (hlt : n < nonce)
    (hclass : n.toNat % cfg.threadCount.toNat = nonce.toNat % cfg.threadCount.toNat) :
    ¬Solves hash256 cfg n := by
  obtain ⟨k, -, hnonce, hmissed⟩ := h
  have hmod : nonce.toNat % cfg.threadCount.toNat = tid := by
    rw [hnonce, Nat.add_mul_mod_self_left, Nat.mod_eq_of_lt htid]
  have hn : tid + cfg.threadCount.toNat * (n.toNat / cfg.threadCount.toNat) = n.toNat := by
    rw [← hmod, ← hclass, Nat.mod_add_div]
  have hk : n.toNat / cfg.threadCount.toNat < k := by
    have hless := UInt32.lt_iff_toNat_lt.1 hlt
    rw [hnonce, ← hn] at hless
    exact Nat.lt_of_mul_lt_mul_left (Nat.lt_of_add_lt_add_left hless)
  have hat : nonceAt cfg tid (n.toNat / cfg.threadCount.toNat) = n := by
    rw [nonceAt, hn, Nat.toUInt32_eq, UInt32.ofNat_toNat]
  rw [← hat]
  exact hmissed _ hk

theorem wp_mineWith_least :
    wp (mineWith hash256 cfg) (fun result _ => result.found = true →
      (∀ n < result.nonce, n.toNat % cfg.threadCount.toNat =
        result.nonce.toNat % cfg.threadCount.toNat → ¬Solves hash256 cfg n) ∧
      (cfg.threadCount = 1 → result.hashesTried = result.nonce.toNat + 1)) (fun _ => True) e := by
  refine wp_mono (wp_mineWith_of_steps (stepInvariant_upward e) ⟨.initial e, .initial⟩) ?_
    fun _ h => h
  intro result _ h hfound
  obtain ⟨tid, htid, count, hhit, hcount⟩ := h hfound
  refine ⟨hhit.least htid, fun hone => ?_⟩
  obtain ⟨k, rfl, hnonce, -⟩ := hhit
  have hT : cfg.threadCount.toNat = 1 := congrArg UInt32.toNat hone
  obtain rfl : tid = 0 := by omega
  rw [hcount hone, hnonce, hT, Nat.one_mul, Nat.zero_add]

end Search

/-- **A search reports a first solution.** However the threads are scheduled and whenever a stop is
requested, a nonce that `mine` reports is the least of those that solve the puzzle in its class
modulo the number of threads; with one thread it is the least of all, and everything up to it was
tried. -/
theorem mine_reports_first (cfg : MinerConfig) (e : Env) (events : List Event)
    (result : MiningResult) (hreturn : ((mine cfg).run e events).value = some result)
    (hfound : result.found = true) :
    Solves doubleSha256 cfg result.nonce ∧
    (∀ n < result.nonce, n.toNat % cfg.threadCount.toNat =
      result.nonce.toNat % cfg.threadCount.toNat → ¬Solves doubleSha256 cfg n) ∧
    (cfg.threadCount = 1 → result.hashesTried = result.nonce.toNat + 1) := by
  have hboth := wp_and (@wp_mineWith_found doubleSha256 cfg e) (@wp_mineWith_least doubleSha256 cfg e)
  have hdone := hboth.done (Outcome.eq_done_of_value hreturn)
  exact ⟨hdone.1 hfound, hdone.2 hfound⟩

/-- With two threads, the nonce that is reported is the first even one. -/
theorem mine_reports_first_puzzle : ∃ result,
    ((mine puzzleConfig).run {} puzzleScript).value = some result ∧ result.nonce = 2 ∧
    Solves doubleSha256 puzzleConfig result.nonce ∧
    ∀ n < result.nonce, n.toNat % 2 = result.nonce.toNat % 2 →
      ¬Solves doubleSha256 puzzleConfig n := by
  obtain ⟨result, hreturn, hresult⟩ := Option.map_eq_some_iff.1 value_puzzleScript
  obtain ⟨hfound, hnonce⟩ := Prod.mk.inj hresult
  obtain ⟨hsolves, hleast, -⟩ :=
    mine_reports_first puzzleConfig {} puzzleScript result hreturn hfound
  exact ⟨result, hreturn, hnonce, hsolves, hleast⟩

/-- **A search that is not stopped ends.** With a solution, however the threads have been scheduled
so far, they can finish the search, and what it ends with is a solution. -/
theorem search_finds_solution (cfg : MinerConfig) (hthreads : 0 < cfg.threadCount)
    (hmost : cfg.threadCount.toNat ≤ 2 ^ 31) (hsolution : ∃ nonce, Solves doubleSha256 cfg nonce)
    (e : Env) (hrequested : e.stopRequested = false) (events : List Event)
    (hlegal : (mine cfg).Legal (Reliable (fun _ _ => True) False) e events) :
    (∀ result, ((mine cfg).run e events).value = some result →
      result.found = true ∧ result.aborted = false ∧ Solves doubleSha256 cfg result.nonce) ∧
    (¬Proc.Stuck (mine cfg) e events → ∃ more result,
      (mine cfg).Legal (Reliable (fun _ _ => True) False) e (events ++ more) ∧
        ((mine cfg).run e (events ++ more)).value = some result) := by
  have hkept : Unmined fun _ => True := ⟨fun _ _ h => h, fun _ _ h => h, fun _ h => h⟩
  have hhears : Hears (fun _ _ => True) False fun _ => True := ⟨fun _ h => h, fun _ _ h => h⟩
  have hlive := live_mineWith (R := fun _ => True) hkept hhears hthreads hmost hsolution trivial
    hrequested fun _ h => h
  constructor
  · intro result hreturn
    exact (hlive.done hlegal (Outcome.eq_done_of_value hreturn)).1
  · intro hstuck
    obtain ⟨more, result, e', rest, hmore, hrun, -⟩ := hlive.complete hlegal hstuck
    exact ⟨more, result, hmore, by rw [mine, hrun]; rfl⟩

/-- The search for the first solution ends. -/
theorem search_finds_solution_puzzle : ∃ events result,
    (mine puzzleConfig).Legal (Reliable (fun _ _ => True) False) {} events ∧
      ((mine puzzleConfig).run {} events).value = some result ∧ result.found = true ∧
      Solves doubleSha256 puzzleConfig result.nonce := by
  obtain ⟨result, hreturn, hresult⟩ := Option.map_eq_some_iff.1 value_puzzleScript
  obtain ⟨hfound, -⟩ := Prod.mk.inj hresult
  have hsolution : ∃ nonce, Solves doubleSha256 puzzleConfig nonce :=
    ⟨_, (@wp_mineWith_found doubleSha256 puzzleConfig {}).done
      (Outcome.eq_done_of_value hreturn) hfound⟩
  have hstart := search_finds_solution puzzleConfig (by decide) (by decide) hsolution {} rfl []
    legal_nil
  obtain ⟨more, result, hlegal, hvalue⟩ := hstart.2 (Proc.not_stuck_of_value hreturn)
  have hend := search_finds_solution puzzleConfig (by decide) (by decide) hsolution {} rfl _ hlegal
  obtain ⟨hfound, -, hsolves⟩ := hend.1 result hvalue
  exact ⟨more, result, hlegal, hvalue, hfound, hsolves⟩

end HermitMiner
