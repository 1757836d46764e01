import HermitMiner.Verify.Reporting

/-!
# The workers partition the nonces

* `hashedBy`, `stepInvariant_dealt`: each worker hashes its nonces in order.
* `WorkerStep.stepsLeft`: while no flag is set and nothing is found, a step of a worker is one of the
  steps it has left.
* `hashed_once`: when all workers have left, every nonce has been hashed exactly once.
* `nonces_partitioned`: both, and that the workers do leave.
-/

namespace HermitMiner

open Oracle

section Partition

variable {hash256 : Bytes → Hash256} {cfg : MinerConfig} {m : Machine} {e₀ : Env} {new : List Obs}

/-! ## The nonces of a worker -/

/-- The nonces that worker `tid` has hashed, in order. -/
def hashedBy (tid : Nat) (t : List Obs) : List UInt32 :=
  t.filterMap fun
    | .hashed i nonce => if i = tid then some nonce else none
    | _ => none

@[simp] theorem hashedBy_append (tid : Nat) (t u : List Obs) :
    hashedBy tid (t ++ u) = hashedBy tid t ++ hashedBy tid u := List.filterMap_append

theorem hashedBy_singleton (tid i : Nat) (nonce : UInt32) :
    hashedBy tid [.hashed i nonce] = if i = tid then [nonce] else [] := by
  unfold hashedBy
  split <;> simp [*]

variable (cfg) in
/-- The workers have hashed their nonces in order, and they are started in order. -/
structure Dealt (new : List Obs) (m : Machine) : Prop where
  order : ∀ tid, hashedBy tid new = (List.range (m.workers tid).localHashes).map (nonceAt cfg tid)
  fresh : ∀ tid, (m.workers tid).pc = .notStarted → (m.workers tid).localHashes = 0
  started : ∀ tid < cfg.threadCount.toNat, (m.workers tid).pc = .notStarted →
    ∃ t ≤ tid, m.main = .spawning t

/-- A step of a worker that hashes nothing. -/
theorem Dealt.setWorker (h : Dealt cfg new m) {m' : Machine} {tid : Nat} {w : Worker}
    (hworkers : m'.workers = m.workers) (hmain : m'.main = m.main)
    (hlocal : w.localHashes = (m.workers tid).localHashes) (hpc : w.pc ≠ .notStarted) :
    Dealt cfg new (m'.setWorker tid w) := by
  refine ⟨fun i => ?_, fun i hi => ?_, fun i hlt hi => ?_⟩
  all_goals rw [Machine.workers_setWorker, hworkers] at *
  · rw [h.order i]
    split
    · rename_i heq
      rw [heq, hlocal]
    · rfl
  · split at hi
    · exact absurd hi hpc
    · rename_i hne
      rw [if_neg hne]
      exact h.fresh i hi
  · split at hi
    · exact absurd hi hpc
    · obtain ⟨t, ht, hspawning⟩ := h.started i hlt hi
      exact ⟨t, ht, hmain.trans hspawning⟩

/-- A step in which a worker hashes its next nonce. -/
theorem Dealt.hashed (h : Dealt cfg new m) {tid : Nat} {w : Worker} {nonce : UInt32}
    (hnonce : nonce = nonceAt cfg tid (m.workers tid).localHashes)
    (hlocal : w.localHashes = (m.workers tid).localHashes + 1) (hpc : w.pc ≠ .notStarted) :
    Dealt cfg (new ++ [.hashed tid nonce]) (m.setWorker tid w) := by
  refine ⟨fun i => ?_, fun i hi => ?_, fun i hlt hi => ?_⟩
  all_goals rw [Machine.workers_setWorker] at *
  · rw [hashedBy_append, h.order i, hashedBy_singleton]
    by_cases heq : i = tid
    · rw [heq, if_pos rfl, if_pos rfl, hlocal, hnonce, List.range_succ, List.map_append,
        List.map_singleton]
    · rw [if_neg (Ne.symm heq), if_neg heq, List.append_nil]
  · split at hi
    · exact absurd hi hpc
    · rename_i hne
      rw [if_neg hne]
      exact h.fresh i hi
  · split at hi
    · exact absurd hi hpc
    · exact h.started i hlt hi

theorem Dealt.observe (h : Dealt cfg new m) {o : Obs} (ho : ∀ tid, hashedBy tid [o] = []) :
    Dealt cfg (new ++ [o]) m :=
  ⟨fun tid => by rw [hashedBy_append, ho, List.append_nil, h.order], h.fresh, h.started⟩

theorem Worker.loopHead_ne_notStarted (w : Worker) : w.loopHead.pc ≠ .notStarted := by
  rcases w.loopHead_pc with h | h <;> simp [h]

theorem WorkerStep.started {requested : Bool} {tid : Nat} {obs : List Obs} {m' : Machine}
    (hstep : WorkerStep hash256 cfg requested tid m obs m') :
    (m'.workers tid).pc ≠ .notStarted := by
  cases hstep with
  | miss =>
    rw [Machine.workers_setWorker, if_pos rfl]
    exact Worker.loopHead_ne_notStarted _
  | _ => simp [Machine.workers_setWorker]

/-- A step of a worker. -/
theorem Dealt.workerStep {requested : Bool} {tid : Nat} {obs : List Obs} {m' : Machine}
    (h : Dealt cfg new m) (hcount : Counting hash256 cfg new requested m)
    (hstep : WorkerStep hash256 cfg requested tid m obs m') : Dealt cfg (new ++ obs) m' := by
  have htid : tid < cfg.threadCount.toNat := by
    by_contra hge
    exact hstep.decides.running.1 (hcount.idle tid (by omega))
  have hw := hcount.workers tid htid
  have hnonce : (m.workers tid).pc = .hashing →
      (m.workers tid).nonce64.toUInt32 = nonceAt cfg tid (m.workers tid).localHashes := by
    intro hpc
    rw [nonceAt, ← (hw.looping (by simp [hpc, WorkerPc.isLooping])).1]
  have hnext : (m.workers tid).pc = .hashing →
      ((m.workers tid).localHashes + 1) % 2 ^ 64 = (m.workers tid).localHashes + 1 :=
    fun hpc => hw.next_mod htid (by simp [hpc, WorkerPc.isLooping])
  cases hstep with
  | hit hpc => exact h.hashed (hnonce hpc) (hnext hpc) (by simp)
  | miss hpc => exact h.hashed (hnonce hpc) (hnext hpc) (Worker.loopHead_ne_notStarted _)
  | _ =>
    rw [List.append_nil]
    refine h.setWorker rfl rfl rfl ?_
    intro hpc
    cases hpc

/-- The calling thread changes no worker but the one that it starts. -/
theorem Dealt.mainStep {requested : Bool} {obs : List Obs} {m' : Machine} (h : Dealt cfg new m)
    (hcount : Counting hash256 cfg new requested m)
    (hstep : MainStep cfg requested m obs (.inl m')) : Dealt cfg (new ++ obs) m' := by
  have hmove : ∀ {new' : List Obs} {n : Machine}, Dealt cfg new' m → n.workers = m.workers →
      (∀ t, m.main ≠ .spawning t) → Dealt cfg new' n := by
    intro new' n h hworkers hmain
    refine ⟨by rw [hworkers]; exact h.order, by rw [hworkers]; exact h.fresh, ?_⟩
    intro tid htid hpc
    rw [hworkers] at hpc
    obtain ⟨t, -, hspawning⟩ := h.started tid htid hpc
    exact absurd hspawning (hmain t)
  cases hstep with
  | @spawn tid hmain htid =>
    have hidle := hcount.spawning tid hmain tid le_rfl
    have hstart : Dealt cfg new (m.setWorker tid (startWorker cfg tid)) :=
      h.setWorker rfl rfl (h.fresh tid hidle).symm (Worker.loopHead_ne_notStarted _)
    rw [List.append_nil]
    refine ⟨hstart.order, hstart.fresh, fun i hi hpc => ⟨tid + 1, ?_, rfl⟩⟩
    dsimp only at hpc
    rw [Machine.workers_setWorker] at hpc
    split at hpc
    · exact absurd hpc (Worker.loopHead_ne_notStarted _)
    · obtain ⟨t, ht, hspawning⟩ := h.started i hi hpc
      obtain rfl : tid = t := MainPc.spawning.inj (hmain.symm.trans hspawning)
      omega
  | @spawned tid hmain htid =>
    rw [List.append_nil]
    refine ⟨h.order, h.fresh, fun i hi hpc => ?_⟩
    obtain ⟨t, ht, hspawning⟩ := h.started i hi hpc
    obtain rfl : tid = t := MainPc.spawning.inj (hmain.symm.trans hspawning)
    omega
  | counts hmain | reports hmain =>
    exact hmove (h.observe fun _ => rfl) rfl (by simp [hmain])
  | stopped hmain | unstopped hmain | asked hmain | unasked hmain | aborts hmain | stops hmain
  | joins hmain =>
    rw [List.append_nil]
    exact hmove h rfl (by simp [hmain])

theorem Dealt.initial : Dealt cfg [] {} :=
  ⟨fun _ => rfl, fun _ _ => rfl, fun tid _ _ => ⟨0, Nat.zero_le tid, rfl⟩⟩

variable (hash256 cfg e₀) in
/-- The machine is sound, the workers have done what the observations say, and in order. -/
def DealtInv (m : Machine) (e : Env) : Prop :=
  CountInv hash256 cfg e₀ m e ∧ During e₀ (fun new _ => Dealt cfg new m) e

theorem stepInvariant_dealt :
    StepInvariant hash256 cfg (DealtInv hash256 cfg e₀) fun _ _ => True := by
  have hsteps : StepInvariant hash256 cfg (DealtInv hash256 cfg e₀) fun result e => _ ∧ True :=
    (@stepInvariant_count hash256 cfg e₀).and_of
    (fun _ => stable_during (fun _ _ h => h.observe fun _ => rfl)
      fun _ _ _ h => h.observe fun _ => rfl)
    (by
      rintro m e ⟨-, hcount⟩ hdealt tid obs m' e' hstep hfollows
      obtain ⟨new, htrace, hcount, hdealt⟩ := hcount.and hdealt
      exact During.follows (P := fun new requested => Counting hash256 cfg new requested m ∧
          Dealt cfg new m) ⟨new, htrace, hcount, hdealt⟩
          hfollows fun new h => h.2.workerStep h.1 hstep)
    (by
      rintro m e ⟨-, hcount⟩ hdealt obs r e' hstep hfollows
      cases r with
      | inr result => trivial
      | inl m' =>
        obtain ⟨new, htrace, hcount, hdealt⟩ := hcount.and hdealt
        show During e₀ (fun new _ => Dealt cfg new m') e'
        exact During.follows (P := fun new requested => Counting hash256 cfg new requested m ∧
          Dealt cfg new m) ⟨new, htrace, hcount, hdealt⟩
          hfollows fun new h => h.2.mainStep h.1 hstep)
  exact ⟨hsteps.stable, hsteps.worker, fun hI _ r _ hstep hfollows => by
    have h := hsteps.main hI hstep hfollows
    cases r with
    | inl m' => exact h
    | inr result => trivial⟩

theorem DealtInv.initial : DealtInv hash256 cfg e₀ {} e₀ :=
  ⟨.initial e₀, [], (List.append_nil _).symm, .initial⟩

/-! ## Every nonce once -/

theorem toNat_nonceAt {tid j : Nat} (htid : tid < cfg.threadCount.toNat)
    (hj : j < nonceShare cfg tid) :
    (nonceAt cfg tid j).toNat = tid + cfg.threadCount.toNat * j :=
  UInt32.toNat_ofNat_of_lt' ((Striding.lt_share htid j).1 hj)

/-- A nonce is among those of one worker only. -/
theorem eq_mod_of_nonceAt {tid j : Nat} {nonce : UInt32} (htid : tid < cfg.threadCount.toNat)
    (hj : j < nonceShare cfg tid) (h : nonceAt cfg tid j = nonce) :
    tid = nonce.toNat % cfg.threadCount.toNat ∧ j = nonce.toNat / cfg.threadCount.toNat := by
  rw [← h, toNat_nonceAt htid hj, Nat.add_mul_mod_self_left, Nat.mod_eq_of_lt htid,
    Nat.add_mul_div_left _ _ (by omega), Nat.div_eq_of_lt htid, Nat.zero_add]
  exact ⟨rfl, rfl⟩

def isHashOf (nonce : UInt32) : Obs → Bool
  | .hashed _ n => n == nonce
  | _ => false

/-- A nonce that only one worker hashes is hashed as often as this worker hashes it. -/
theorem countP_isHashOf {tid : Nat} {nonce : UInt32} {t : List Obs}
    (h : ∀ i, i ≠ tid → nonce ∉ hashedBy i t) :
    t.countP (isHashOf nonce) = (hashedBy tid t).count nonce := by
  induction t with
  | nil => rfl
  | cons o t ih =>
    have hcons : ∀ i, hashedBy i (o :: t) = hashedBy i [o] ++ hashedBy i t :=
      fun i => hashedBy_append i [o] t
    have hrest := ih fun i hi hmem => h i hi (by rw [hcons]; exact List.mem_append_right _ hmem)
    rw [List.countP_cons, hrest, hcons, List.count_append, Nat.add_comm]
    congr 1
    cases o with
    | hashed i n =>
      rw [hashedBy_singleton]
      by_cases hn : n = nonce
      · have hi : i = tid := by
          by_contra hne
          refine h i hne ?_
          rw [hcons, hashedBy_singleton, if_pos rfl, hn]
          exact List.mem_append_left _ (List.mem_singleton_self _)
        rw [if_pos hi, if_pos (by simp [isHashOf, hn]), hn, List.count_singleton_self]
      · rw [if_neg (by simp [isHashOf, hn])]
        split <;> simp [hn]
    | _ => rfl

/-- When all workers have left without being told, every nonce has been hashed exactly once. -/
theorem Dealt.hashed_once (h : Dealt cfg new m) (hcount : Counting hash256 cfg new false m)
    (hthreads : 0 < cfg.threadCount) (hdone : AllDone cfg m) (hstop : m.stop = false)
    (nonce : UInt32) : new.countP (isHashOf nonce) = 1 := by
  have hpos : 0 < cfg.threadCount.toNat := UInt32.lt_iff_toNat_lt.1 hthreads
  obtain ⟨hmod, hdiv, heq⟩ := Striding.mem_share hpos nonce.toNat_lt
  have hshare : ∀ tid < cfg.threadCount.toNat,
      (m.workers tid).localHashes = nonceShare cfg tid := by
    intro tid htid
    have hleft := (hcount.workers tid htid).leaving (by simp [hdone tid htid, WorkerPc.isLeaving])
      hstop
    exact hleft.resolve_right (by simp)
  have hothers : ∀ i, i ≠ nonce.toNat % cfg.threadCount.toNat → nonce ∉ hashedBy i new := by
    intro i hne hmem
    rw [h.order i] at hmem
    obtain ⟨j, hj, hnonce⟩ := List.mem_map.1 hmem
    rw [List.mem_range] at hj
    by_cases hi : i < cfg.threadCount.toNat
    · rw [hshare i hi] at hj
      exact hne (eq_mod_of_nonceAt hi hj hnonce).1
    · rw [h.fresh i (hcount.idle i (by omega))] at hj
      exact absurd hj (Nat.not_lt_zero j)
  have hinjective : ∀ j ∈ List.range (nonceShare cfg (nonce.toNat % cfg.threadCount.toNat)),
      ∀ k ∈ List.range (nonceShare cfg (nonce.toNat % cfg.threadCount.toNat)),
      nonceAt cfg (nonce.toNat % cfg.threadCount.toNat) j =
        nonceAt cfg (nonce.toNat % cfg.threadCount.toNat) k → j = k := by
    intro j hj k hk hjk
    have hleft := (eq_mod_of_nonceAt hmod (List.mem_range.1 hj) hjk).2
    exact hleft.trans (eq_mod_of_nonceAt hmod (List.mem_range.1 hk) rfl).2.symm
  rw [countP_isHashOf hothers, h.order, hshare _ hmod]
  refine List.count_eq_one_of_mem (List.nodup_range.map_on hinjective) (List.mem_map.2
    ⟨nonce.toNat / cfg.threadCount.toNat, List.mem_range.2 hdiv, ?_⟩)
  apply UInt32.toNat_inj.1
  rw [toNat_nonceAt hmod hdiv, heq]

/-! ## The steps left -/

variable (cfg) in
/-- How many steps worker `tid` has left, starting it included, when nothing stops it. -/
def stepsLeft (tid : Nat) (w : Worker) : Nat :=
  match w.pc with
  | .notStarted => 3 * nonceShare cfg tid + 2
  | .loadRequest => 3 * (nonceShare cfg tid - w.localHashes) + 1
  | .loadStop => 3 * (nonceShare cfg tid - w.localHashes)
  | .hashing => 3 * (nonceShare cfg tid - w.localHashes) - 1
  | .exchange .. => 3
  | .recording .. => 2
  | .exiting => 1
  | .done => 0

theorem stepsLeft_loopHead {tid : Nat} {w : Worker} (htid : tid < cfg.threadCount.toNat)
    (hnonce : w.nonce64 = tid + cfg.threadCount.toNat * w.localHashes) :
    stepsLeft cfg tid w.loopHead = 3 * (nonceShare cfg tid - w.localHashes) + 1 := by
  have hmore := Striding.lt_share (n := 2 ^ 32) htid w.localHashes
  unfold Worker.loopHead stepsLeft
  by_cases hle : w.nonce64 ≤ maxNonce
  · rw [if_pos hle]
  · rw [if_neg hle]
    have hge : ¬w.localHashes < nonceShare cfg tid := fun hlt => by
      have hbelow := hmore.1 hlt
      rw [← hnonce] at hbelow
      unfold maxNonce at hle
      omega
    dsimp only
    omega

/-- **One step less**: while no flag is set and no nonce solves the puzzle, a step of a worker is one
of those it has left, sets no flag, and changes no other worker. -/
theorem WorkerStep.stepsLeft {tid : Nat} {obs : List Obs} {m' : Machine}
    (hstep : WorkerStep hash256 cfg false tid m obs m') (hmiss : ∀ nonce, ¬Solves hash256 cfg nonce)
    (hsound : MachineSound hash256 cfg m) (hcount : Counting hash256 cfg new false m)
    (hstop : m.stop = false) :
    HermitMiner.stepsLeft cfg tid (m'.workers tid) + 1 =
        HermitMiner.stepsLeft cfg tid (m.workers tid) ∧ m'.stop = false := by
  have htid : tid < cfg.threadCount.toNat := by
    by_contra hge
    exact hstep.decides.running.1 (hcount.idle tid (by omega))
  have hw := hcount.workers tid htid
  have hlooping : (m.workers tid).pc.isLooping = true →
      (m.workers tid).localHashes < nonceShare cfg tid := fun h => (hw.looping h).2
  have hself : ∀ {n : Machine} {w : Worker}, (n.setWorker tid w).workers tid = w := by
    intro n w
    rw [Machine.workers_setWorker, if_pos rfl]
  cases hstep with
  | asked _ h => cases h
  | stopped _ h | loses _ h => rw [hstop] at h; cases h
  | hit hpc h =>
    rw [hsound.hashNext_payload tid (by simp [hpc])] at h
    exact absurd h (hmiss _)
  | wins hpc => exact absurd ((hsound.workers tid).exchange _ _ hpc) (hmiss _)
  | records hpc => exact absurd ((hsound.workers tid).recording _ _ hpc) (hmiss _)
  | unasked hpc =>
    rw [hself]
    exact ⟨by simp [HermitMiner.stepsLeft, hpc], hstop⟩
  | unstopped hpc =>
    have hlt := hlooping (by simp [hpc, WorkerPc.isLooping])
    rw [hself]
    refine ⟨?_, hstop⟩
    simp only [HermitMiner.stepsLeft, hpc]
    omega
  | miss hpc =>
    obtain ⟨hnonce, hlt⟩ := hw.looping (by simp [hpc, WorkerPc.isLooping])
    have hnext := hw.next_mod htid (by simp [hpc, WorkerPc.isLooping])
    have hbelow := (Striding.lt_share (n := 2 ^ 32) htid _).1 hlt
    have hthreads := cfg.threadCount.toNat_lt
    rw [hself, stepsLeft_loopHead htid]
    · refine ⟨?_, hstop⟩
      simp only [HermitMiner.stepsLeft, hpc, Worker.advance, Worker.hashNext, hnext]
      omega
    · simp only [Worker.advance, Worker.hashNext, hnext, hnonce]
      rw [Nat.mul_add, Nat.mul_one, ← Nat.add_assoc]
      exact Nat.mod_eq_of_lt (by omega)
  | adds hpc =>
    rw [hself]
    exact ⟨by simp [HermitMiner.stepsLeft, hpc], hstop⟩

/-! ## The workers leave -/

variable (hash256 cfg) in
/-- A worker that has been started and has not left waits for nothing. -/
theorem workerStep_run {tid : Nat} (hstarted : (m.workers tid).pc ≠ .notStarted)
    (hleft : (m.workers tid).pc ≠ .done) (e : Env) :
    ∃ m' e' obs, (∀ rest, (workerStep hash256 cfg tid m).run e rest = .done m' e' rest) ∧
      WorkerStep hash256 cfg e.stopRequested tid m obs m' ∧ Follows e obs e' := by
  have hfound : ∃ m' e', ∀ rest, (workerStep hash256 cfg tid m).run e rest = .done m' e' rest := by
    unfold workerStep
    dsimp only
    cases hpc : (m.workers tid).pc with
    | notStarted => exact absurd hpc hstarted
    | done => exact absurd hpc hleft
    | loadRequest => by_cases h : e.stopRequested = true <;> simp [h, Proc.bind_run]
    | loadStop | exchange => by_cases h : m.stop = true <;> simp [h]
    | hashing =>
      by_cases h : meetsDifficulty (hash256 (m.workers tid).hashNext.payload)
        cfg.difficultyBits = true <;> simp [h, Proc.bind_run, observe]
    | recording | exiting => simp
  obtain ⟨m', e', hrun⟩ := hfound
  obtain ⟨obs, hstep, hfollows⟩ := (wp_workerStep hash256 cfg tid m e).done (hrun [])
  exact ⟨m', e', obs, hrun, hstep, hfollows⟩

variable (hash256 cfg e₀) in
/-- A state of a search in which no flag has been set. -/
structure Unflagged (m : Machine) (e : Env) : Prop where
  dealt : DealtInv hash256 cfg e₀ m e
  stop : m.stop = false
  requested : e.stopRequested = false

theorem Unflagged.counting {e : Env} (h : Unflagged hash256 cfg e₀ m e) :
    ∃ new, e.trace = e₀.trace ++ new ∧ Counting hash256 cfg new false m ∧ Dealt cfg new m := by
  obtain ⟨new, htrace, hcount, hdealt⟩ := h.dealt.1.2.and h.dealt.2
  rw [h.requested] at hcount
  exact ⟨new, htrace, hcount, hdealt⟩

variable (hmiss : ∀ nonce, ¬Solves hash256 cfg nonce)
include hmiss

theorem Unflagged.workerStep {e e' : Env} {tid : Nat} {obs : List Obs} {m' : Machine}
    (h : Unflagged hash256 cfg e₀ m e)
    (hstep : WorkerStep hash256 cfg e.stopRequested tid m obs m') (hfollows : Follows e obs e') :
    Unflagged hash256 cfg e₀ m' e' ∧
      stepsLeft cfg tid (m'.workers tid) + 1 = stepsLeft cfg tid (m.workers tid) := by
  obtain ⟨new, -, hcount, -⟩ := h.counting
  have hdealt := stepInvariant_dealt.worker h.dealt hstep hfollows
  rw [h.requested] at hstep
  obtain ⟨hless, hstop⟩ := hstep.stepsLeft hmiss h.dealt.1.1 hcount h.stop
  exact ⟨⟨hdealt, hstop, hfollows.2.trans h.requested⟩, hless⟩

/-- A worker that has been started leaves within the steps it has left. -/
theorem Unflagged.leads_done {e : Env} {tid : Nat} (h : Unflagged hash256 cfg e₀ m e)
    (hstarted : (m.workers tid).pc ≠ .notStarted) :
    ∃ m' e', Proc.Leads (mineRound hash256 cfg) m e
        (List.replicate (stepsLeft cfg tid (m.workers tid)) (.worker tid)) m' e' ∧
      Unflagged hash256 cfg e₀ m' e' ∧ (m'.workers tid).pc = .done ∧
      ∀ i, i ≠ tid → m'.workers i = m.workers i := by
  generalize hk : stepsLeft cfg tid (m.workers tid) = k
  induction k generalizing m e with
  | zero =>
    refine ⟨m, e, .refl, h, ?_, fun _ _ => rfl⟩
    obtain ⟨new, -, hcount, -⟩ := h.counting
    cases hpc : (m.workers tid).pc with
    | done => rfl
    | loadStop | hashing =>
      have htid : tid < cfg.threadCount.toNat := by
        by_contra hge
        exact hstarted (hcount.idle tid (by omega))
      have hlt := ((hcount.workers tid htid).looping (by simp [hpc, WorkerPc.isLooping])).2
      simp only [stepsLeft, hpc] at hk
      omega
    | _ => simp [stepsLeft, hpc] at hk
  | succ k ih =>
    have hleft : (m.workers tid).pc ≠ .done := by
      intro hpc
      simp [stepsLeft, hpc] at hk
    obtain ⟨m₁, e₁, obs, hrun, hstep, hfollows⟩ := workerStep_run hash256 cfg hstarted hleft e
    have hdecides := hstep.decides
    obtain ⟨h₁, hless⟩ := h.workerStep hmiss hstep hfollows
    obtain ⟨m', e', hleads, h', hdone, hothers⟩ := ih h₁ hstep.started (by omega)
    refine ⟨m', e', (leads_worker hrun).trans hleads, h', hdone, fun i hi => ?_⟩
    rw [hothers i hi, hdecides.others i hi]

/-- All workers that have been started leave, one after another. -/
theorem Unflagged.leads_all {e : Env} (h : Unflagged hash256 cfg e₀ m e)
    (hstarted : ∀ i < cfg.threadCount.toNat, (m.workers i).pc ≠ .notStarted) :
    ∀ n ≤ cfg.threadCount.toNat, ∃ more m' e', Proc.Leads (mineRound hash256 cfg) m e more m' e' ∧
      Unflagged hash256 cfg e₀ m' e' ∧ (∀ i < n, (m'.workers i).pc = .done) ∧
      ∀ i < cfg.threadCount.toNat, (m'.workers i).pc ≠ .notStarted := by
  intro n
  induction n with
  | zero => exact fun _ => ⟨[], m, e, .refl, h, nofun, hstarted⟩
  | succ n ih =>
    intro hn
    obtain ⟨more, m₁, e₁, hleads₁, h₁, hdone₁, hstarted₁⟩ := ih (by omega)
    obtain ⟨m', e', hleads, h', hdone, hothers⟩ := h₁.leads_done hmiss (hstarted₁ n (by omega))
    refine ⟨_, m', e', hleads₁.trans hleads, h', fun i hi => ?_, fun i hi => ?_⟩
    · by_cases heq : i = n
      · rw [heq, hdone]
      · rw [hothers i heq]
        exact hdone₁ i (by omega)
    · by_cases heq : i = n
      · rw [heq, hdone]
        exact nofun
      · rw [hothers i heq]
        exact hstarted₁ i hi

omit hmiss in
/-- The calling thread starts the workers that are left to start. -/
theorem Unflagged.leads_started {e : Env} (h : Unflagged hash256 cfg e₀ m e) :
    ∃ more m' e', Proc.Leads (mineRound hash256 cfg) m e more m' e' ∧
      Unflagged hash256 cfg e₀ m' e' ∧
      ∀ i < cfg.threadCount.toNat, (m'.workers i).pc ≠ .notStarted := by
  have hall : ∀ {m : Machine} {e : Env}, Unflagged hash256 cfg e₀ m e →
      (∀ t < cfg.threadCount.toNat, m.main ≠ .spawning t) →
      ∀ i < cfg.threadCount.toNat, (m.workers i).pc ≠ .notStarted := by
    intro m e h hmain i hi hpc
    obtain ⟨new, -, -, hdealt⟩ := h.counting
    obtain ⟨t, ht, hspawning⟩ := hdealt.started i hi hpc
    exact hmain t (by omega) hspawning
  have hspawn : ∀ k {m : Machine} {e : Env} {t : Nat}, Unflagged hash256 cfg e₀ m e →
      m.main = .spawning t → cfg.threadCount.toNat - t = k →
      ∃ more m' e', Proc.Leads (mineRound hash256 cfg) m e more m' e' ∧
        Unflagged hash256 cfg e₀ m' e' ∧
        ∀ i < cfg.threadCount.toNat, (m'.workers i).pc ≠ .notStarted := by
    intro k
    induction k with
    | zero =>
      intro m e t h hmain hk
      refine ⟨[], m, e, .refl, h, hall h fun t' ht' hmain' => ?_⟩
      obtain rfl : t = t' := MainPc.spawning.inj (hmain.symm.trans hmain')
      omega
    | succ k ih =>
      intro m e t h hmain hk
      have hlt : t < cfg.threadCount.toNat := by omega
      have hrun : ∀ rest, (mainStep cfg [] [] m).run e rest = .done
          (.inl { m.setWorker t (startWorker cfg t) with main := .spawning (t + 1) }) e rest := by
        intro rest
        simp [mainStep, hmain, hlt]
      have hstep := stepInvariant_dealt.main h.dealt (.spawn hmain hlt) (.refl e)
      obtain ⟨more, m', e', hleads, h', hstarted⟩ :=
        ih ⟨hstep, h.stop, h.requested⟩ rfl (by omega)
      exact ⟨_, m', e', (leads_reporter hrun).trans hleads, h', hstarted⟩
  by_cases hmain : ∃ t, m.main = .spawning t
  · obtain ⟨t, hmain⟩ := hmain
    exact hspawn _ h hmain rfl
  · exact ⟨[], m, e, .refl, h, hall h fun t _ hmain' => hmain ⟨t, hmain'⟩⟩

/-! ## Every run -/

variable (cfg) in
/-- No worker has more steps left, and those that have moved have fewer. -/
def Shrinks (m m' : Machine) : Prop :=
  ∀ tid < cfg.threadCount.toNat,
    stepsLeft cfg tid (m'.workers tid) ≤ stepsLeft cfg tid (m.workers tid) ∧
      (m.workers tid ≠ m'.workers tid →
        stepsLeft cfg tid (m'.workers tid) < stepsLeft cfg tid (m.workers tid))

omit hmiss

theorem Shrinks.of_eq {m' : Machine} (h : m'.workers = m.workers) : Shrinks cfg m m' := by
  intro tid _
  rw [h]
  exact ⟨le_rfl, fun hne => absurd rfl hne⟩

/-- One worker takes a step. -/
theorem Shrinks.of_step {m' : Machine} {tid : Nat}
    (hothers : ∀ i, i ≠ tid → m'.workers i = m.workers i)
    (hless : stepsLeft cfg tid (m'.workers tid) < stepsLeft cfg tid (m.workers tid)) :
    Shrinks cfg m m' := by
  intro i _
  by_cases heq : i = tid
  · rw [heq]
    exact ⟨hless.le, fun _ => hless⟩
  · rw [hothers i heq]
    exact ⟨le_rfl, fun hne => absurd rfl hne⟩

theorem Shrinks.trans {m₁ m₂ : Machine} (h : Shrinks cfg m m₁) (h' : Shrinks cfg m₁ m₂) :
    Shrinks cfg m m₂ := by
  intro tid htid
  obtain ⟨hle, hlt⟩ := h tid htid
  obtain ⟨hle', hlt'⟩ := h' tid htid
  refine ⟨hle'.trans hle, fun hne => ?_⟩
  by_cases heq : m.workers tid = m₁.workers tid
  · exact (hlt' (heq ▸ hne)).trans_le hle
  · exact hle'.trans_lt (hlt heq)

theorem MainStep.stop {requested : Bool} {obs : List Obs} {m' : Machine}
    (hstep : MainStep cfg requested m obs (.inl m')) (hstop : m'.stop = false) :
    m.stop = false := by
  cases hstep with
  | aborts | stops => cases hstop
  | _ => exact hstop

theorem MainStep.shrinks {requested : Bool} {obs : List Obs} {m' : Machine}
    (hcount : Counting hash256 cfg new requested m)
    (hstep : MainStep cfg requested m obs (.inl m')) : Shrinks cfg m m' := by
  cases hstep with
  | @spawn tid hmain htid =>
    have hothers : ∀ i, i ≠ tid → (m.setWorker tid (startWorker cfg tid)).workers i = m.workers i :=
      fun i hi => by rw [Machine.workers_setWorker, if_neg hi]
    refine .of_step hothers ?_
    have hidle := hcount.spawning tid hmain tid le_rfl
    have hstart : stepsLeft cfg tid (startWorker cfg tid) = 3 * nonceShare cfg tid + 1 :=
      stepsLeft_loopHead htid (by simp)
    dsimp only
    rw [Machine.workers_setWorker, if_pos rfl, hstart]
    simp [stepsLeft, hidle]
  | _ => exact .of_eq rfl

include hmiss

/-- While no flag is set, every step of a worker is one of those it has left, however the threads are
scheduled. -/
theorem rounds_shrink (e₀ : Env) (events : List Event) :
    (Proc.rounds (mineRound hash256 cfg) {} e₀ events).Pairwise fun p q =>
      q.1.stop = false → q.2.stopRequested = false → Shrinks cfg p.1 q.1 := by
  refine rounds_pairwise (I := DealtInv hash256 cfg e₀) .initial ?_ events
  intro m e h
  refine wp_mineRound (I := fun e' => DealtInv hash256 cfg e₀ m e' ∧
      (e'.stopRequested = false → e.stopRequested = false))
    ((stepInvariant_dealt.stable m).and ⟨nofun, fun _ h => h⟩) ⟨h, id⟩ ?_ ?_
  · rintro e' ⟨h', hback⟩ tid obs m' e'' hstep hfollows
    have hnext : m'.stop = false → e''.stopRequested = false →
        m.stop = false ∧ e.stopRequested = false ∧ Shrinks cfg m m' := by
      intro hstop hrequested
      have hrequested' := hfollows.2.symm.trans hrequested
      have hbefore : m.stop = false := by
        by_contra hset
        rw [hstep.decides.stopped (Bool.eq_true_of_not_eq_false hset)] at hstop
        cases hstop
      have hless := (Unflagged.workerStep hmiss ⟨h', hbefore, hrequested'⟩ hstep hfollows).2
      exact ⟨hbefore, hback hrequested', .of_step hstep.decides.others (by omega)⟩
    refine ⟨stepInvariant_dealt.worker h' hstep hfollows, fun hs hr => (hnext hs hr).2.2, ?_⟩
    intro p hp hs hr
    obtain ⟨hstop, hrequested, hshrinks⟩ := hnext hs hr
    exact (hp hstop hrequested).trans hshrinks
  · rintro e' ⟨h', hback⟩ obs r e'' hstep hfollows
    cases r with
    | inr result => trivial
    | inl m' =>
      obtain ⟨new, -, hcount⟩ := h'.1.2
      have hshrinks := hstep.shrinks hcount
      refine ⟨stepInvariant_dealt.main h' hstep hfollows, fun _ _ => hshrinks, ?_⟩
      intro p hp hs hr
      exact (hp (hstep.stop hs) (hback (hfollows.2.symm.trans hr))).trans hshrinks

omit hmiss

/-- The lowest bytes of a number below `256 ^ k` determine it. -/
theorem leBytes_injective {k : Nat} : ∀ {n m : Nat}, n < 256 ^ k → m < 256 ^ k →
    leBytes k n = leBytes k m → n = m := by
  induction k with
  | zero =>
    intro n m hn hm _
    omega
  | succ k ih =>
    intro n m hn hm h
    rw [leBytes, leBytes, List.cons.injEq] at h
    have hlow : n % 256 = m % 256 := by
      have hbyte := congrArg UInt8.toNat h.1
      rwa [UInt8.toNat_ofNat', UInt8.toNat_ofNat'] at hbyte
    have hhigh := ih (n := n / 256) (m := m / 256)
      (Nat.div_lt_of_lt_mul (by rw [Nat.pow_succ, Nat.mul_comm] at hn; exact hn))
      (Nat.div_lt_of_lt_mul (by rw [Nat.pow_succ, Nat.mul_comm] at hm; exact hm)) h.2
    omega

theorem payloadOf_injective {n k : UInt32} (h : payloadOf cfg n = payloadOf cfg k) : n = k :=
  UInt32.toNat_inj.1 (leBytes_injective (k := 4) n.toNat_lt k.toNat_lt
    ((List.append_right_inj cfg.prefixText).1 h))

variable (cfg) in
/-- What worker `tid` has done so far: it has hashed the first of its nonces, in order, and the next
is at hand without a wrap, behind the unchanged prefix. -/
structure OnCourse (new : List Obs) (tid : Nat) (w : Worker) : Prop where
  hashed : hashedBy tid new = (List.range w.localHashes).map (nonceAt cfg tid)
  nonce : w.pc.isLooping = true → w.nonce64 = tid + cfg.threadCount.toNat * w.localHashes ∧
    w.nonce64 ≤ maxNonce ∧ w.nonce64 + cfg.threadCount.toNat < 2 ^ 64 ∧ w.localHashes + 1 < 2 ^ 64
  payload : w.pc = .hashing → w.hashNext.payload = cfg.prefixText ++ leBytes 4 w.nonce64

theorem Unflagged.onCourse {e : Env} {tid : Nat} (h : Unflagged hash256 cfg e₀ m e)
    (htid : tid < cfg.threadCount.toNat) : OnCourse cfg (since e₀ e) tid (m.workers tid) := by
  obtain ⟨new, htrace, hcount, hdealt⟩ := h.counting
  have hlooping : (m.workers tid).pc.isLooping = true →
      (m.workers tid).nonce64 = tid + cfg.threadCount.toNat * (m.workers tid).localHashes ∧
        (m.workers tid).nonce64 ≤ maxNonce ∧
        (m.workers tid).nonce64 + cfg.threadCount.toNat < 2 ^ 64 ∧
        (m.workers tid).localHashes + 1 < 2 ^ 64 := by
    intro hpc
    obtain ⟨hnonce, hlt⟩ := (hcount.workers tid htid).looping hpc
    have hbelow := (Striding.lt_share (n := 2 ^ 32) htid _).1 hlt
    have hshare := nonceShare_le htid
    have hthreads := cfg.threadCount.toNat_lt
    unfold maxNonce
    exact ⟨hnonce, by omega, by omega, by omega⟩
  rw [since_eq htrace]
  refine ⟨hdealt.order tid, hlooping, fun hpc => ?_⟩
  have hle := (hlooping (by simp [hpc, WorkerPc.isLooping])).2.1
  have hnat : (m.workers tid).nonce64.toUInt32.toNat = (m.workers tid).nonce64 :=
    UInt32.toNat_ofNat_of_lt' (Nat.lt_of_le_of_lt hle (by decide))
  rw [h.dealt.1.1.hashNext_payload tid (by simp [hpc]), payloadOf, hnat]

end Partition

/-- **The workers partition the nonces**: in every run, wherever no flag has been set and for a hash
that solves no puzzle of the job, every worker has hashed the first of its nonces in order, without a
wrap and behind the unchanged prefix; all of them can leave, each within the steps it has left, of
which every step it takes is one; and when they have, every nonce has been hashed exactly once, in
payloads that differ, and the counter has all of them. -/
theorem nonces_partitioned (hash256 : Bytes → Hash256) (cfg : MinerConfig)
    (hthreads : 0 < cfg.threadCount) (hmiss : ∀ nonce, ¬Solves hash256 cfg nonce) (e₀ : Env)
    (events : List Event) :
    (∀ p ∈ Proc.rounds (mineRound hash256 cfg) {} e₀ events,
      p.1.stop = false → p.2.stopRequested = false →
      (∀ tid < cfg.threadCount.toNat, OnCourse cfg (since e₀ p.2) tid (p.1.workers tid)) ∧
      (AllDone cfg p.1 → (∀ nonce, (since e₀ p.2).countP (isHashOf nonce) = 1) ∧
        p.1.totalHashes = 2 ^ 32) ∧
      ∃ more m' e', Proc.Leads (mineRound hash256 cfg) p.1 p.2 more m' e' ∧ AllDone cfg m' ∧
        m'.stop = false ∧ e'.stopRequested = false) ∧
    (Proc.rounds (mineRound hash256 cfg) {} e₀ events).Pairwise (fun p q =>
      q.1.stop = false → q.2.stopRequested = false → Shrinks cfg p.1 q.1) ∧
    ∀ n k : UInt32, payloadOf cfg n = payloadOf cfg k → n = k := by
  refine ⟨fun p hp hstop hrequested => ?_, rounds_shrink hmiss e₀ events,
    fun n k => payloadOf_injective⟩
  have h : Unflagged hash256 cfg e₀ p.1 p.2 :=
    ⟨rounds_of_steps stepInvariant_dealt .initial events p hp, hstop, hrequested⟩
  obtain ⟨new, htrace, hcount, hdealt⟩ := h.counting
  refine ⟨fun tid htid => h.onCourse htid, fun hdone => ⟨fun nonce => ?_, ?_⟩, ?_⟩
  · rw [since_eq htrace]
    exact hdealt.hashed_once hcount hthreads hdone hstop nonce
  · have hpos : 0 < cfg.threadCount.toNat := UInt32.lt_iff_toNat_lt.1 hthreads
    rw [hcount.total, ← Striding.sum_share hpos (2 ^ 32)]
    apply Finset.sum_congr rfl
    intro tid htid
    have hpc := hdone tid (Finset.mem_range.1 htid)
    have hleft := (hcount.workers tid (Finset.mem_range.1 htid)).leaving
      (by simp [hpc, WorkerPc.isLeaving]) hstop
    rw [credit, if_pos hpc]
    exact hleft.resolve_right (by simp)
  · obtain ⟨more, m₁, e₁, hleads₁, h₁, hstarted⟩ := h.leads_started
    obtain ⟨more', m', e', hleads, h', hdone, -⟩ := h₁.leads_all hmiss hstarted _ le_rfl
    exact ⟨_, m', e', hleads₁.trans hleads, hdone, h'.stop, h'.requested⟩

/-- Three workers, and a hash that starts with no zero bit. -/
theorem nonces_partitioned_three :
    ∃ more m' e', Proc.Leads
        (mineRound (fun _ => Vector.replicate 32 0xff) (MinerConfig.default 3)) {} {} more m' e' ∧
      AllDone (MinerConfig.default 3) m' ∧ m'.stop = false ∧ e'.stopRequested = false := by
  have hmiss : ¬meetsDifficulty (Vector.replicate 32 0xff) 24 = true := by decide +kernel
  have hparts := nonces_partitioned (fun _ => Vector.replicate 32 0xff) (MinerConfig.default 3)
    (by decide) (fun _ => hmiss) {} []
  exact (hparts.1 ({}, {}) List.mem_cons_self rfl rfl).2.2

end HermitMiner
