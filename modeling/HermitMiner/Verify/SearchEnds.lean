import HermitMiner.Verify.Partition
import HermitMiner.Verify.Reliable

/-!
# A search that is not stopped

`mine` without a stop request: from any state of it, however its threads were scheduled up to there,
the threads can finish it, and if some nonce solves the puzzle it ends with one that does.

* `stepsAtMost`, `WorkerStep.stepsAtMost`: what every step of a worker takes away.
* `toReturn`: the same for the whole search, which some step lowers wherever it stands.
* `live_mineWith`: a search that goes on, and what it ends with.
-/

namespace HermitMiner

open Oracle

section Search

variable {hash256 : Bytes → Hash256} {cfg : MinerConfig} {m m' : Machine} {new : List Obs}
  {requested : Bool}

/-! ## The steps of a worker -/

variable (cfg) in
/-- How many steps worker `tid` has left at most, whatever it finds and whoever stops it. -/
def stepsAtMost (tid : Nat) (w : Worker) : Nat :=
  match w.pc with
  | .notStarted => 3 * nonceShare cfg tid + 4
  | .loadRequest => 3 * (nonceShare cfg tid - w.localHashes) + 3
  | .loadStop => 3 * (nonceShare cfg tid - w.localHashes) + 2
  | .hashing => 3 * (nonceShare cfg tid - w.localHashes) + 1
  | .exchange .. => 3
  | .recording .. => 2
  | .exiting => 1
  | .done => 0

theorem stepsAtMost_loopHead (tid : Nat) (w : Worker) :
    stepsAtMost cfg tid w.loopHead ≤ 3 * (nonceShare cfg tid - w.localHashes) + 3 := by
  unfold Worker.loopHead stepsAtMost
  by_cases hle : w.nonce64 ≤ maxNonce
  · rw [if_pos hle]
  · rw [if_neg hle]
    exact Nat.le_add_left 1 _

/-- Every step of a worker takes one of those it has left. -/
theorem WorkerStep.stepsAtMost {tid : Nat} {obs : List Obs}
    (hstep : WorkerStep hash256 cfg requested tid m obs m')
    (hcount : Counting hash256 cfg new requested m) :
    HermitMiner.stepsAtMost cfg tid (m'.workers tid) <
      HermitMiner.stepsAtMost cfg tid (m.workers tid) := by
  have htid : tid < cfg.threadCount.toNat := by
    by_contra hge
    exact hstep.decides.running.1 (hcount.idle tid (by omega))
  have hw := hcount.workers tid htid
  have hself : ∀ {n : Machine} {w : Worker}, (n.setWorker tid w).workers tid = w := by
    intro n w
    rw [Machine.workers_setWorker, if_pos rfl]
  cases hstep with
  | hit hpc =>
    have hlt := (hw.looping (by simp [hpc, WorkerPc.isLooping])).2
    rw [hself]
    simp only [HermitMiner.stepsAtMost, hpc]
    omega
  | miss hpc =>
    have hlt := (hw.looping (by simp [hpc, WorkerPc.isLooping])).2
    have hnext := hw.next_mod htid (by simp [hpc, WorkerPc.isLooping])
    rw [hself]
    refine Nat.lt_of_le_of_lt (stepsAtMost_loopHead tid _) ?_
    simp only [HermitMiner.stepsAtMost, hpc, Worker.advance, Worker.hashNext, hnext]
    omega
  | _ hpc =>
    rw [hself]
    simp [HermitMiner.stepsAtMost, hpc]

/-! ## The steps of a search -/

/-- How many workers the calling thread has still to join, when it joins them. -/
def toJoinAll (cfg : MinerConfig) (m : Machine) : Nat :=
  match m.main with
  | .joining tid => cfg.threadCount.toNat + 1 - tid
  | _ => 0

variable (cfg requested) in
/-- What is left of a search: the steps of its workers, the reporting loop after them, and the
joins. -/
def toReturn (m : Machine) : Nat :=
  (∑ tid ∈ Finset.range cfg.threadCount.toNat, stepsAtMost cfg tid (m.workers tid)) *
      (6 * (cfg.threadCount.toNat + 2)) +
    (toJoin requested m * (cfg.threadCount.toNat + 2) + toJoinAll cfg m)

theorem toJoinAll_lt (m : Machine) : toJoinAll cfg m < cfg.threadCount.toNat + 2 := by
  unfold toJoinAll
  split <;> omega

/-- What a step of a worker takes away is more than all that is left of the calling thread. -/
theorem toReturn_of_workers
    (hless : ∑ tid ∈ Finset.range cfg.threadCount.toNat, stepsAtMost cfg tid (m'.workers tid) <
      ∑ tid ∈ Finset.range cfg.threadCount.toNat, stepsAtMost cfg tid (m.workers tid)) :
    toReturn cfg requested m' < toReturn cfg requested m := by
  have hrest : toJoin requested m' * (cfg.threadCount.toNat + 2) + toJoinAll cfg m' <
      6 * (cfg.threadCount.toNat + 2) := by
    have hjoin := Nat.mul_le_mul_right (cfg.threadCount.toNat + 2) (toJoin_le requested m')
    have hall := @toJoinAll_lt cfg m'
    omega
  have hmul := Nat.mul_le_mul_right (6 * (cfg.threadCount.toNat + 2)) (Nat.succ_le_of_lt hless)
  rw [Nat.succ_mul] at hmul
  unfold toReturn
  omega

/-- One worker has fewer steps left, and the others have as many. -/
theorem toReturn_of_worker {tid : Nat} (htid : tid < cfg.threadCount.toNat)
    (hothers : ∀ i, i ≠ tid → m'.workers i = m.workers i)
    (hless : stepsAtMost cfg tid (m'.workers tid) < stepsAtMost cfg tid (m.workers tid)) :
    toReturn cfg requested m' < toReturn cfg requested m := by
  refine toReturn_of_workers (Finset.sum_lt_sum (fun i _ => ?_)
    ⟨tid, Finset.mem_range.2 htid, hless⟩)
  by_cases heq : i = tid
  · rw [heq]
    exact hless.le
  · rw [hothers i heq]

/-- When the workers have left, a step of the calling thread leaves less of the search. -/
theorem Ending.toReturn {obs : List Obs} (h : Ending cfg requested m)
    (hstep : MainStep cfg requested m obs (.inl m')) :
    HermitMiner.toReturn cfg requested m' < HermitMiner.toReturn cfg requested m := by
  have hsum : ∀ {m : Machine}, AllDone cfg m →
      ∑ tid ∈ Finset.range cfg.threadCount.toNat, HermitMiner.stepsAtMost cfg tid (m.workers tid) =
        0 := by
    intro m hdone
    refine Finset.sum_eq_zero fun tid htid => ?_
    simp [HermitMiner.stepsAtMost, hdone tid (Finset.mem_range.1 htid)]
  obtain ⟨hending, hnext⟩ := h.mainStep hstep
  unfold HermitMiner.toReturn
  rw [hsum h.done, hsum hending.done, Nat.zero_mul, Nat.zero_add, Nat.zero_add]
  rcases hnext with hlt | ⟨tid, htid, hmain, hmain'⟩
  · have hall := @toJoinAll_lt cfg m'
    have hmul := Nat.mul_le_mul_right (cfg.threadCount.toNat + 2) (Nat.succ_le_of_lt hlt)
    rw [Nat.succ_mul] at hmul
    omega
  · simp only [toJoin, toJoinAll, hmain, hmain']
    omega

/-! ## Some thread can go on -/

/-- The events that are steps of the search's threads. -/
def Event.isThread : Event → Bool
  | .worker _ | .reporter .. => true
  | _ => false

/-- **Some thread can go on**, and leaves less of the search. -/
theorem exists_less {e₀ e : Env} (h : DealtInv hash256 cfg e₀ m e)
    (hends : 0 < cfg.threadCount ∨ e.stopRequested = true) :
    ∃ ev r e', Event.isThread ev = true ∧ (mineRound hash256 cfg m).run e [ev] = .done r e' [] ∧
      e'.stopRequested = e.stopRequested ∧ Sum.elim (fun m' => DealtInv hash256 cfg e₀ m' e' ∧
        toReturn cfg e.stopRequested m' < toReturn cfg e.stopRequested m) (fun _ => True) r := by
  obtain ⟨new, -, hcount, hdealt⟩ := h.1.2.and h.2
  by_cases hidle : ∃ i < cfg.threadCount.toNat, (m.workers i).pc = .notStarted
  · -- the calling thread starts the next worker
    obtain ⟨i, hi, hpc⟩ := hidle
    obtain ⟨t, hti, hmain⟩ := hdealt.started i hi hpc
    have ht : t < cfg.threadCount.toNat := Nat.lt_of_le_of_lt hti hi
    have hrun : (mainStep cfg [] [] m).run e [] = .done
        (.inl { m.setWorker t (startWorker cfg t) with main := .spawning (t + 1) }) e [] := by
      simp [mainStep, hmain, ht]
    refine ⟨.reporter [] [], _, e, rfl, hrun, rfl,
      stepInvariant_dealt.main h (.spawn hmain ht) (.refl e), ?_⟩
    refine toReturn_of_worker ht (fun i hi => ?_) ?_
    · exact (Machine.workers_setWorker _ _ _ _).trans (if_neg hi)
    · have hfresh := hcount.spawning t hmain t le_rfl
      have hself : (m.setWorker t (startWorker cfg t)).workers t = startWorker cfg t :=
        (Machine.workers_setWorker _ _ _ _).trans (if_pos rfl)
      have hstart := @stepsAtMost_loopHead cfg t
        { payload := cfg.prefixText ++ [0, 0, 0, 0], nonce64 := t }
      have hnew : stepsAtMost cfg t (m.workers t) = 3 * nonceShare cfg t + 4 := by
        simp only [stepsAtMost, hfresh]
      show stepsAtMost cfg t ((m.setWorker t (startWorker cfg t)).workers t) < _
      rw [hself, hnew]
      exact Nat.lt_succ_of_le hstart
  · have hstarted : ∀ i < cfg.threadCount.toNat, (m.workers i).pc ≠ .notStarted :=
      fun i hi hpc => hidle ⟨i, hi, hpc⟩
    by_cases hleft : ∃ i < cfg.threadCount.toNat, (m.workers i).pc ≠ .done
    · obtain ⟨i, hi, hpc⟩ := hleft
      obtain ⟨m', e', obs, hrun, hstep, hfollows⟩ :=
        workerStep_run hash256 cfg (hstarted i hi) hpc e
      have hround : (mineRound hash256 cfg m).run e [.worker i] = .done (.inl m') e' [] := by
        have hworker : (mineRound hash256 cfg m).run e [.worker i] =
            (workerStep hash256 cfg i m >>= fun m' => pure (.inl m')).run e [] := rfl
        rw [hworker, Proc.bind_run, hrun]
        rfl
      exact ⟨.worker i, _, e', rfl, hround, hfollows.2, stepInvariant_dealt.worker h hstep hfollows,
        toReturn_of_worker hi hstep.decides.others (hstep.stepsAtMost hcount)⟩
    · -- all workers have left, and the calling thread has a reason to end its loop
      have hdone : AllDone cfg m := fun i hi => by
        by_contra hpc
        exact hleft ⟨i, hi, hpc⟩
      have hconclusive : Conclusive e.stopRequested m := hends.elim
        (fun hthreads => hcount.conclusive hthreads hdone) fun hstop => Or.inr (Or.inl hstop)
      have hending : Ending cfg e.stopRequested m := by
        refine ⟨hdone, hconclusive, fun t hmain => ?_⟩
        by_contra ht
        have hpc := hcount.spawning t hmain t le_rfl
        rw [hdone t (by omega)] at hpc
        cases hpc
      obtain ⟨r, e', obs, hrun, hstep, hfollows⟩ := mainStep_run hdone [] [] e
      refine ⟨.reporter [] [], r, e', rfl, hrun [], hfollows.2, ?_⟩
      have hnext := stepInvariant_dealt.main h hstep hfollows
      cases r with
      | inl m' => exact ⟨hnext, hending.toReturn hstep⟩
      | inr result => exact trivial

/-! ## The search goes on -/

theorem WorkerStep.traffic {tid : Nat} {obs : List Obs}
    (hstep : WorkerStep hash256 cfg requested tid m obs m') : ∀ o ∈ obs, o.isTraffic = false := by
  cases hstep with
  | hit | miss => exact List.forall_mem_singleton.2 rfl
  | _ => exact nofun

theorem MainStep.traffic {obs : List Obs} {r : Machine ⊕ MiningResult}
    (hstep : MainStep cfg requested m obs r) : ∀ o ∈ obs, o.isTraffic = false := by
  cases hstep with
  | counts | reports => exact List.forall_mem_singleton.2 rfl
  | _ => exact nofun

theorem Follows.written {e e' : Env} {obs : List Obs} (h : Follows e obs e')
    (hobs : ∀ o ∈ obs, o.isTraffic = false) : written e'.trace = written e.trace := by
  rw [h.1]
  clear h
  induction obs using List.reverseRecOn with
  | nil => rw [List.append_nil]
  | append_singleton obs o ih =>
    rw [← List.append_assoc, written_observe (hobs o (by simp))]
    exact ih fun o ho => hobs o (List.mem_append_left _ ho)

variable {K R : Env → Prop} {brings : Env → Bytes → Prop} {e₀ e : Env}

variable (hash256 cfg K e₀) in
/-- A search that nobody has asked to stop, on an environment that keeps `K`. -/
structure Sought (m : Machine) (e : Env) : Prop where
  dealt : DealtInv hash256 cfg e₀ m e
  requested : e.stopRequested = false
  kept : K e
  written : written e.trace = written e₀.trace

/-- The threads of a search that has ended. -/
structure SoughtOut (K : Env → Prop) (e₀ e : Env) : Prop where
  requested : e.stopRequested = false
  kept : K e
  written : HermitMiner.written e.trace = HermitMiner.written e₀.trace

section Live

variable (hK : Unmined K) (hhears : Hears brings False K) (hthreads : 0 < cfg.threadCount)
  (h : Sought hash256 cfg K e₀ m e)

theorem Sought.counting (h : Sought hash256 cfg K e₀ m e) :
    ∃ new, Counting hash256 cfg new false m ∧ Dealt cfg new m := by
  obtain ⟨new, -, hcount, hdealt⟩ := h.dealt.1.2.and h.dealt.2
  rw [h.requested] at hcount
  exact ⟨new, hcount, hdealt⟩

include hhears in
theorem hears_sought : Hears brings False (Sought hash256 cfg K e₀ m) where
  signal := False.elim
  arrive bytes hbytes h := ⟨(stepInvariant_dealt.stable m).arrive bytes h.dealt, h.requested,
    hhears.arrive bytes hbytes h.kept, (written_observe rfl _).trans h.written⟩

section Steps

include hK h

/-- What the steps of a worker leave. -/
theorem wp_workerStep_sought (tid : Nat) : wp (workerStep hash256 cfg tid m)
    (fun m' e' => (reliable brings False).onward e e' ∧ Sought hash256 cfg K e₀ m' e')
    (fun _ => True) e := by
  refine wp_mono (wp_and (wp_workerStep hash256 cfg tid m e)
    (keeps_workerStep hK hash256 cfg tid m e h.kept)) ?_ fun _ _ => trivial
  rintro m' e' ⟨⟨obs, hstep, hfollows⟩, hkept⟩
  have hwritten := hfollows.written hstep.traffic
  exact ⟨prefix_of_written hwritten, stepInvariant_dealt.worker h.dealt hstep hfollows,
    hfollows.2.trans h.requested, hkept, hwritten.trans h.written⟩

/-- What the steps of the calling thread leave. -/
theorem wp_mainStep_sought (sec hps : Bytes) : wp (mainStep cfg sec hps m)
    (fun r e' => (reliable brings False).onward e e' ∧
      Sum.elim (fun m' => Sought hash256 cfg K e₀ m' e') (fun _ => SoughtOut K e₀ e') r)
    (fun _ => True) e := by
  refine wp_mono (wp_and (wp_mainStep cfg sec hps m e)
    (keeps_mainStep hK cfg sec hps m e h.kept)) ?_ fun _ _ => trivial
  rintro r e' ⟨⟨obs, hstep, hfollows⟩, hkept⟩
  have hwritten := hfollows.written hstep.traffic
  refine ⟨prefix_of_written hwritten, ?_⟩
  have hdealt := stepInvariant_dealt.main h.dealt hstep hfollows
  cases r with
  | inl m' =>
    exact ⟨hdealt, hfollows.2.trans h.requested, hkept, hwritten.trans h.written⟩
  | inr result => exact ⟨hfollows.2.trans h.requested, hkept, hwritten.trans h.written⟩

end Steps

theorem immediate_workerStep {tid : Nat} (hstarted : (m.workers tid).pc ≠ .notStarted)
    (hleft : (m.workers tid).pc ≠ .done) (e : Env) :
    Immediate (workerStep hash256 cfg tid m) e := by
  obtain ⟨m', e', -, hrun, -⟩ := workerStep_run hash256 cfg hstarted hleft e
  exact ⟨m', e', hrun⟩

/-- A step of the calling thread returns, unless it waits for a worker. -/
theorem immediate_mainStep (sec hps : Bytes)
    (hjoin : ∀ tid < cfg.threadCount.toNat, m.main = .joining tid → (m.workers tid).pc = .done)
    (e : Env) : Immediate (mainStep cfg sec hps m) e := by
  unfold mainStep
  cases hmain : m.main with
  | spawning tid => exact .ite (fun _ => .pure) fun _ => .pure
  | whileTest => exact .ite (fun _ => .pure) fun _ => .pure
  | loadRequest => exact .read (.ite (fun _ => .pure) fun _ => .pure)
  | storeAbort => exact .pure
  | sleeping => exact .read (.update (.update (.ite (fun _ => .pure) fun _ => .pure)))
  | storeStop => exact .pure
  | joining tid =>
    refine .ite (fun htid => .ite (fun _ => .pure) fun hleft => ?_) fun _ => .pure
    exact absurd (hjoin tid htid hmain) hleft

include hthreads h in
/-- **Some thread can go on**, and leaves less of the search. -/
theorem can_mineRound : Can (reliable brings False) (mineRound hash256 cfg m)
    (fun r _ => ∀ m', r = .inl m' → toReturn cfg false m' < toReturn cfg false m) e := by
  obtain ⟨ev, r, e', hthread, hrun, -, hless⟩ := exists_less h.dealt (.inl hthreads)
  rw [h.requested] at hless
  have hadmits : (reliable brings False).admits e ev := by
    cases ev with
    | worker | reporter => exact trivial
    | _ => cases hthread
  refine .event rfl hadmits hrun ?_
  rintro m' rfl
  exact hless.2

include hK hhears hthreads h in
theorem live_mineRound (hR : ∀ e, K e → R e) : Live (reliable brings False)
    (mineRound hash256 cfg m) (fun r e' =>
      Sum.elim (fun m' => Sought hash256 cfg K e₀ m' e') (fun _ => SoughtOut K e₀ e') r) R e := by
  refine live_event (hears_sought hhears) h (fun e h => hR e h.kept) ?_ fun e h =>
    (can_mineRound hthreads h).mono fun _ _ _ => trivial
  intro ev e _ h
  cases ev with
  | worker tid =>
    by_cases hpc : (m.workers tid).pc = .notStarted ∨ (m.workers tid).pc = .done
    · refine .inr fun es => ?_
      rcases hpc with hpc | hpc <;> simp [workerStep, hpc, Proc.bind_run, Proc.halt]
    · rw [not_or] at hpc
      refine .inl (.bind (causal_workerStep hash256 cfg tid m) (.of_immediate
        (immediate_workerStep hpc.1 hpc.2 e) (wp_workerStep_sought hK h tid)) ?_)
      exact fun m' e' h' => .pure h'
  | reporter sec hps =>
    by_cases hjoin : ∀ tid < cfg.threadCount.toNat, m.main = .joining tid →
        (m.workers tid).pc = .done
    · exact .inl (.of_immediate (immediate_mainStep sec hps hjoin e)
        (wp_mainStep_sought hK h sec hps))
    · simp only [not_forall, exists_prop] at hjoin
      obtain ⟨tid, htid, hmain, hpc⟩ := hjoin
      exact .inr fun es => by simp [mainStep, hmain, htid, hpc, Proc.halt]
  | _ => exact .inr fun es => rfl

end Live

/-! ## What it ends with -/

/-- Where nobody has asked for a stop, no reading of the counter was made after a request. -/
theorem wp_mineWith_counted (e₀ : Env) : wp (mineWith hash256 cfg)
    (fun _ e => e.stopRequested = false → ∀ hashes asked, .counted hashes asked ∈ since e₀ e →
      asked = false) (fun _ => True) e₀ := by
  let Unasked (new : List Obs) (requested : Bool) : Prop :=
    requested = false → ∀ hashes asked, Obs.counted hashes asked ∈ new → asked = false
  have hmore : ∀ {new : List Obs} {o : Obs}, (∀ hashes asked, o ≠ .counted hashes asked) →
      ∀ requested, Unasked new requested → Unasked (new ++ [o]) requested := by
    intro new o ho requested h hrequested hashes asked hmem
    rcases List.mem_append.1 hmem with hmem | hmem
    · exact h hrequested hashes asked hmem
    · exact absurd (List.mem_singleton.1 hmem).symm (ho hashes asked)
  have hsteps : StepInvariant hash256 cfg (fun _ e => During e₀ Unasked e)
      fun _ e => During e₀ Unasked e := by
    refine ⟨fun _ => stable_during (fun new _ h hrequested => ?_) (fun new requested bytes h =>
      hmore (o := .arrived bytes) nofun requested h), ?_, ?_⟩
    · cases hrequested
    · intro m e h tid obs m' e' hstep hfollows
      refine h.follows hfollows fun new h => ?_
      cases hstep with
      | hit | miss => exact hmore (by simp) _ h
      | _ => rwa [List.append_nil]
    · intro m e h obs r e' hstep hfollows
      have hduring : During e₀ Unasked e' := by
        refine h.follows hfollows fun new h => ?_
        cases hstep with
        | counts | reports =>
          intro hrequested hashes asked hmem
          rcases List.mem_append.1 hmem with hmem | hmem
          · exact h hrequested hashes asked hmem
          · rw [List.mem_singleton] at hmem
            cases hmem
            exact hrequested
        | _ => rwa [List.append_nil]
      cases r with
      | inl m' => exact hduring
      | inr result => exact hduring
  refine wp_mono (wp_mineWith_of_steps hsteps ⟨[], (List.append_nil _).symm, nofun⟩) ?_
    fun _ h => h
  rintro result e ⟨new, htrace, h⟩ hrequested
  rw [since_eq htrace]
  exact h hrequested

/-- **A search that is not stopped ends with a solution**, if there is one. -/
theorem live_mineWith (hK : Unmined K) (hhears : Hears brings False K)
    (hthreads : 0 < cfg.threadCount) (hmost : cfg.threadCount.toNat ≤ 2 ^ 31)
    (hsolution : ∃ nonce, Solves hash256 cfg nonce) (hkept : K e)
    (hrequested : e.stopRequested = false) (hR : ∀ e, K e → R e) :
    Live (reliable brings False) (mineWith hash256 cfg) (fun result e' =>
      (result.found = true ∧ result.aborted = false ∧ Solves hash256 cfg result.nonce) ∧
        SoughtOut K e e') R e := by
  have hstart : Sought hash256 cfg K e {} e := ⟨.initial, hrequested, hkept, rfl⟩
  have hlive : Live (reliable brings False) (mineWith hash256 cfg) (fun _ e' => SoughtOut K e e')
      R e := by
    refine .loop (advances_mineRound hash256 cfg) (causal_mineRound hash256 cfg)
      (fun m e' h => (live_mineRound hK hhears hthreads h hR).mono ?_ fun _ h => h)
      (fun m _ => toReturn cfg false m) (fun m e' h => (can_mineRound hthreads h).mono fun _ _ h => h)
      hstart
    rintro (m | result) e' h
    · exact h
    · exact h
  have hwp := wp_and (wp_and (@wp_mineWith_search hash256 cfg e) (@wp_mineWith_counted hash256 cfg e))
    (wp_and (@wp_mineWith_found hash256 cfg e) (@wp_mineWith_aborted hash256 cfg e))
  refine (hlive.and hwp).mono ?_ fun _ h => h.1
  rintro result e' ⟨hend, ⟨hsearch, hcounted⟩, hfound, haborted⟩
  have hnot : result.aborted = false := by
    by_contra habort
    have hasked := haborted (Bool.eq_true_of_not_eq_false habort)
    rw [hend.requested] at hasked
    cases hasked
  have hsome : result.found = true := by
    by_contra hnone
    rcases hsearch with ⟨hashes, asked, hmem, hcount⟩ | hexhausted
    · exact hcount fun _ => ⟨hmost, hcounted hend.requested hashes asked hmem⟩
    · obtain ⟨new, -, h⟩ := hexhausted (Bool.eq_false_of_not_eq_true hnone) hnot
      obtain ⟨nonce, hsolves⟩ := hsolution
      exact (h nonce).2 hsolves
  exact ⟨⟨hsome, hnot, hfound hsome⟩, hend⟩

end Search

end HermitMiner
