import HermitMiner.Striding.Shares
import HermitMiner.Verify.Mine

/-!
# What the workers of a search have done

* `Decides`: what one step of a worker does to the verdict.
* `WorkerInv`: what one worker has done so far.
* `Counting`, `stepInvariant_count`: the counter of hashes, and the hashes observed, in terms of what
  the workers have done.
-/

namespace HermitMiner

open Oracle

section Search

variable (hash256 : Bytes → Hash256) (cfg : MinerConfig)

/-! ## Workers -/

/-- The `j`-th nonce of worker `tid`. -/
def nonceAt (tid j : Nat) : UInt32 := (tid + cfg.threadCount.toNat * j).toUInt32

/-- How many nonces worker `tid` has to try. -/
def nonceShare (tid : Nat) : Nat := Striding.share (2 ^ 32) cfg.threadCount.toNat tid

/-- In the nonce loop, with a nonce to try. -/
def WorkerPc.isLooping : WorkerPc → Bool
  | .loadRequest | .loadStop | .hashing => true
  | _ => false

/-- With a solution in hand. -/
def WorkerPc.isHolding : WorkerPc → Bool
  | .exchange .. | .recording .. => true
  | _ => false

/-- Out of the nonce loop. -/
def WorkerPc.isLeaving : WorkerPc → Bool
  | .exiting | .done => true
  | _ => false

/-- What worker `tid` has done so far, of which `new` are the observations. -/
structure WorkerInv (new : List Obs) (stopRequested stop : Bool) (tid : Nat) (w : Worker) :
    Prop where
  fresh : w.pc = .notStarted → w.localHashes = 0
  within : w.localHashes ≤ nonceShare cfg tid
  hashed : ∀ j < w.localHashes, .hashed tid (nonceAt cfg tid j) ∈ new
  missed : stop = false → w.pc.isHolding = false →
    ∀ j < w.localHashes, ¬Solves hash256 cfg (nonceAt cfg tid j)
  looping : w.pc.isLooping = true →
    w.nonce64 = tid + cfg.threadCount.toNat * w.localHashes ∧ w.localHashes < nonceShare cfg tid
  leaving : w.pc.isLeaving = true → stop = false →
    w.localHashes = nonceShare cfg tid ∨ stopRequested = true
  recording : ∀ nonce hash, w.pc = .recording nonce hash → stop = true

/-- What a worker has added to `total_hashes`. -/
def credit (w : Worker) : Nat := if w.pc = .done then w.localHashes else 0

theorem credit_eq_zero {w : Worker} (h : w.pc ≠ .done) : credit w = 0 := if_neg h

theorem credit_le (w : Worker) : credit w ≤ w.localHashes := by
  unfold credit
  split
  · exact Nat.le_refl _
  · exact Nat.zero_le _

variable {hash256 cfg} {new new' : List Obs}
  {stopRequested stopRequested' stop stop' : Bool} {tid : Nat} {w : Worker} {m : Machine}

theorem WorkerInv.mono (h : WorkerInv hash256 cfg new stopRequested stop tid w)
    (hnew : ∀ o ∈ new, o ∈ new') (hrequested : stopRequested = true → stopRequested' = true)
    (hstop : stop = true → stop' = true) :
    WorkerInv hash256 cfg new' stopRequested' stop' tid w := by
  have hback : stop' = false → stop = false := by
    intro h'
    cases stop with
    | false => rfl
    | true => rw [hstop rfl] at h'; cases h'
  exact ⟨h.fresh, h.within, fun j hj => hnew _ (h.hashed j hj), fun h' => h.missed (hback h'),
    h.looping, fun hpc h' => (h.leaving hpc (hback h')).imp_right hrequested,
    fun nonce hash hpc => hstop (h.recording nonce hash hpc)⟩

/-- A worker that changes nothing but its place in the nonce loop. -/
theorem WorkerInv.goto (h : WorkerInv hash256 cfg new stopRequested stop tid w) {pc : WorkerPc}
    (hfrom : w.pc.isLooping = true) (hto : pc.isLooping = true) :
    WorkerInv hash256 cfg new stopRequested stop tid { w with pc := pc } := by
  have hholding : w.pc.isHolding = false := by
    cases hpc : w.pc <;> simp_all [WorkerPc.isLooping, WorkerPc.isHolding]
  refine ⟨?_, h.within, h.hashed, fun hs _ => h.missed hs hholding,
    fun _ => h.looping hfrom, ?_, ?_⟩
  · intro hpc
    dsimp only at hpc
    rw [hpc] at hto
    cases hto
  · intro hpc
    cases pc <;> simp_all [WorkerPc.isLooping, WorkerPc.isLeaving]
  · intro nonce hash hpc
    dsimp only at hpc
    rw [hpc] at hto
    cases hto

/-- A worker that leaves the nonce loop because it is told to. -/
theorem WorkerInv.leave (h : WorkerInv hash256 cfg new stopRequested stop tid w)
    (hholding : stop = false → w.pc.isHolding = false)
    (htold : stop = true ∨ stopRequested = true) :
    WorkerInv hash256 cfg new stopRequested stop tid { w with pc := .exiting } := by
  refine ⟨nofun, h.within, h.hashed, fun hs _ => h.missed hs (hholding hs), nofun, ?_, nofun⟩
  intro _ hs
  rcases htold with htold | htold
  · rw [htold] at hs
    cases hs
  · exact Or.inr htold

/-- At the test of the nonce loop: another nonce, or the end of the share. -/
theorem WorkerInv.loopHead (htid : tid < cfg.threadCount.toNat)
    (hnonce : w.nonce64 = tid + cfg.threadCount.toNat * w.localHashes)
    (hwithin : w.localHashes ≤ nonceShare cfg tid)
    (hhashed : ∀ j < w.localHashes, .hashed tid (nonceAt cfg tid j) ∈ new)
    (hmissed : stop = false → ∀ j < w.localHashes, ¬Solves hash256 cfg (nonceAt cfg tid j)) :
    WorkerInv hash256 cfg new stopRequested stop tid w.loopHead := by
  have hmore := Striding.lt_share (n := 2 ^ 32) htid w.localHashes
  by_cases hle : w.nonce64 ≤ maxNonce
  · have hlt : w.localHashes < nonceShare cfg tid :=
      hmore.2 (by rw [← hnonce]; unfold maxNonce at hle; omega)
    rw [Worker.loopHead, if_pos hle]
    exact ⟨nofun, hwithin, hhashed, fun hs _ => hmissed hs, fun _ => ⟨hnonce, hlt⟩, nofun,
      nofun⟩
  · have hge : ¬w.localHashes < nonceShare cfg tid := fun hlt => by
      have := hmore.1 hlt
      rw [← hnonce] at this
      unfold maxNonce at hle
      omega
    rw [Worker.loopHead, if_neg hle]
    exact ⟨nofun, hwithin, hhashed, fun hs _ => hmissed hs, nofun, fun _ _ =>
      Or.inl (Nat.le_antisymm hwithin (Nat.le_of_not_lt hge)), nofun⟩

theorem nonceShare_le (htid : tid < cfg.threadCount.toNat) : nonceShare cfg tid ≤ 2 ^ 32 := by
  have hsum := Striding.sum_share (t := cfg.threadCount.toNat) (by omega) (2 ^ 32)
  rw [← hsum]
  exact Finset.single_le_sum (f := Striding.share (2 ^ 32) cfg.threadCount.toNat)
    (fun i _ => Nat.zero_le _) (Finset.mem_range.2 htid)

theorem WorkerInv.next_mod (h : WorkerInv hash256 cfg new stopRequested stop tid w)
    (htid : tid < cfg.threadCount.toNat) (hpc : w.pc.isLooping = true) :
    (w.localHashes + 1) % 2 ^ 64 = w.localHashes + 1 := by
  have hlt := (h.looping hpc).2
  have hshare := nonceShare_le htid
  exact Nat.mod_eq_of_lt (by omega)

/-- The worker has hashed its next nonce, in vain. -/
theorem WorkerInv.hashedNext (h : WorkerInv hash256 cfg new stopRequested stop tid w)
    (htid : tid < cfg.threadCount.toNat) (hpc : w.pc = .hashing)
    (hmiss : ¬Solves hash256 cfg w.nonce64.toUInt32) (payload : Bytes) :
    WorkerInv hash256 cfg (new ++ [.hashed tid w.nonce64.toUInt32]) stopRequested stop tid
      (Worker.advance { w with payload := payload, localHashes := (w.localHashes + 1) % 2 ^ 64 }
        cfg).loopHead := by
  obtain ⟨hnonce, hlt⟩ := h.looping (by simp [hpc, WorkerPc.isLooping])
  have hshare := nonceShare_le htid
  have hbelow := (Striding.lt_share (n := 2 ^ 32) htid w.localHashes).1 hlt
  have hcount := cfg.threadCount.toNat_lt
  have hnext : (w.localHashes + 1) % 2 ^ 64 = w.localHashes + 1 := Nat.mod_eq_of_lt (by omega)
  have hat : w.nonce64.toUInt32 = nonceAt cfg tid w.localHashes := by rw [nonceAt, ← hnonce]
  refine WorkerInv.loopHead htid ?_ ?_ (fun j hj => ?_) fun hs j hj => ?_
  all_goals simp only [Worker.advance, hnext] at *
  · rw [Nat.mul_add, Nat.mul_one, ← Nat.add_assoc, ← hnonce]
    exact Nat.mod_eq_of_lt (by omega)
  · exact hlt
  · rcases Nat.lt_succ_iff_lt_or_eq.1 hj with hj | rfl
    · exact List.mem_append_left _ (h.hashed j hj)
    · rw [hat]
      exact List.mem_append_right _ List.mem_cons_self
  · rcases Nat.lt_succ_iff_lt_or_eq.1 hj with hj | rfl
    · exact h.missed hs (by simp [hpc, WorkerPc.isHolding]) j hj
    · rw [← hat]
      exact hmiss

/-- The worker has hashed its next nonce, and it solves the puzzle. -/
theorem WorkerInv.hashedSolution (h : WorkerInv hash256 cfg new stopRequested stop tid w)
    (htid : tid < cfg.threadCount.toNat) (hpc : w.pc = .hashing) (payload : Bytes)
    (nonce : UInt32) (hash : Hash256) :
    WorkerInv hash256 cfg (new ++ [.hashed tid w.nonce64.toUInt32]) stopRequested stop tid
      { w with
        payload := payload, localHashes := (w.localHashes + 1) % 2 ^ 64
        pc := .exchange nonce hash } := by
  obtain ⟨hnonce, hlt⟩ := h.looping (by simp [hpc, WorkerPc.isLooping])
  have hshare := nonceShare_le htid
  have hnext : (w.localHashes + 1) % 2 ^ 64 = w.localHashes + 1 := Nat.mod_eq_of_lt (by omega)
  have hat : w.nonce64.toUInt32 = nonceAt cfg tid w.localHashes := by rw [nonceAt, ← hnonce]
  refine ⟨nofun, ?_, fun j hj => ?_, nofun, nofun, nofun, nofun⟩
  all_goals simp only [hnext] at *
  · exact hlt
  · rcases Nat.lt_succ_iff_lt_or_eq.1 hj with hj | rfl
    · exact List.mem_append_left _ (h.hashed j hj)
    · rw [hat]
      exact List.mem_append_right _ List.mem_cons_self

/-- The worker is the first with a solution. -/
theorem WorkerInv.win (h : WorkerInv hash256 cfg new stopRequested stop tid w) (nonce : UInt32)
    (hash : Hash256) :
    WorkerInv hash256 cfg new stopRequested true tid { w with pc := .recording nonce hash } :=
  ⟨nofun, h.within, h.hashed, nofun, nofun, nofun, fun _ _ _ => rfl⟩

/-- The worker has added its hashes to the counter. -/
theorem WorkerInv.done (h : WorkerInv hash256 cfg new stopRequested stop tid w)
    (hpc : w.pc = .exiting) :
    WorkerInv hash256 cfg new stopRequested stop tid { w with pc := .done } := by
  have hholding : w.pc.isHolding = false := by simp [hpc, WorkerPc.isHolding]
  have hleaving := h.leaving (by simp [hpc, WorkerPc.isLeaving])
  exact ⟨nofun, h.within, h.hashed, fun hs _ => h.missed hs hholding, nofun, fun _ => hleaving,
    nofun⟩

/-! ## The verdict -/

/-- A solution was reported, or is being reported. -/
def Winner (m : Machine) : Prop :=
  m.result.found = true ∨ ∃ tid nonce hash, (m.workers tid).pc = .recording nonce hash

/-- What one step of worker `tid` does to the verdict: `stop` and the winner stay, or the worker
becomes the winner. -/
structure Decides (tid : Nat) (m m' : Machine) : Prop where
  main : m'.main = m.main
  aborted : m'.result.aborted = m.result.aborted
  running : (m.workers tid).pc ≠ .notStarted ∧ (m.workers tid).pc ≠ .done
  others : ∀ i, i ≠ tid → m'.workers i = m.workers i
  winner : (m'.stop = m.stop ∧ (Winner m' ↔ Winner m)) ∨
    (m.stop = false ∧ m'.stop = true ∧ Winner m')

theorem Winner.of_recording {nonce : UInt32} {hash : Hash256}
    (h : (m.workers tid).pc = .recording nonce hash) : Winner m := Or.inr ⟨tid, nonce, hash, h⟩

/-- A worker that records nothing before or after its step does not change who has won. -/
theorem winner_setWorker_iff {w : Worker} (hfrom : ∀ n x, (m.workers tid).pc ≠ .recording n x)
    (hto : ∀ n x, w.pc ≠ .recording n x) : Winner (m.setWorker tid w) ↔ Winner m := by
  have hiff : ∀ i, (∃ n x, ((m.setWorker tid w).workers i).pc = .recording n x) ↔
      ∃ n x, (m.workers i).pc = .recording n x := by
    intro i
    rw [Machine.workers_setWorker]
    split
    · rename_i hi
      subst hi
      simp [hfrom, hto]
    · rfl
  unfold Winner
  exact or_congr Iff.rfl (exists_congr hiff)

theorem Decides.setWorker {w : Worker} (hfrom : ∀ n x, (m.workers tid).pc ≠ .recording n x)
    (hto : ∀ n x, w.pc ≠ .recording n x)
    (hrunning : (m.workers tid).pc ≠ .notStarted ∧ (m.workers tid).pc ≠ .done) :
    Decides tid m (m.setWorker tid w) where
  main := rfl
  aborted := rfl
  running := hrunning
  others i hi := by rw [Machine.workers_setWorker, if_neg hi]
  winner := Or.inl ⟨rfl, winner_setWorker_iff hfrom hto⟩

theorem Worker.loopHead_ne_recording (w : Worker) (nonce : UInt32) (hash : Hash256) :
    w.loopHead.pc ≠ .recording nonce hash := by
  rcases w.loopHead_pc with h | h <;> simp [h]

theorem WorkerStep.decides {requested : Bool} {obs : List Obs} {m' : Machine}
    (hstep : WorkerStep hash256 cfg requested tid m obs m') : Decides tid m m' := by
  cases hstep with
  | asked hpc | unasked hpc | stopped hpc | unstopped hpc | hit hpc | loses hpc =>
    exact .setWorker (by simp [hpc]) (by simp) (by simp [hpc])
  | miss hpc => exact .setWorker (by simp [hpc]) (Worker.loopHead_ne_recording _) (by simp [hpc])
  | @wins nonce hash hpc hstop =>
    refine ⟨rfl, rfl, by simp [hpc], ?_, Or.inr ⟨hstop, rfl, ?_⟩⟩
    · intro i hi
      rw [Machine.workers_setWorker, if_neg hi]
    · have hrecording : ((({ m with stop := true } : Machine).setWorker tid
          { m.workers tid with pc := .recording nonce hash }).workers tid).pc =
          .recording nonce hash := by
        rw [Machine.workers_setWorker, if_pos rfl]
      exact Winner.of_recording hrecording
  | records hpc =>
    refine ⟨rfl, rfl, by simp [hpc], ?_, Or.inl ⟨rfl, ?_⟩⟩
    · intro i hi
      rw [Machine.workers_setWorker, if_neg hi]
    · exact ⟨fun _ => Winner.of_recording hpc, fun _ => Or.inl rfl⟩
  | adds hpc =>
    have hadded : Decides tid { m with
        totalHashes := (m.totalHashes + (m.workers tid).localHashes) % 2 ^ 64 } _ :=
      .setWorker (w := { m.workers tid with pc := .done }) (by simp [hpc]) (by simp) (by simp [hpc])
    exact ⟨hadded.main, hadded.aborted, hadded.running, hadded.others, hadded.winner⟩

section

variable {m' : Machine} (hstep : Decides tid m m')
include hstep

theorem Decides.stopped (hstop : m.stop = true) : m'.stop = true := by
  rcases hstep.winner with ⟨hkeep, -⟩ | ⟨-, hnew, -⟩
  · rw [hkeep, hstop]
  · exact hnew

theorem Decides.idle {i : Nat} (hi : (m.workers i).pc = .notStarted) :
    (m'.workers i).pc = .notStarted := by
  rw [hstep.others i (fun heq => hstep.running.1 (heq ▸ hi)), hi]

theorem Decides.done {i : Nat} (hi : (m.workers i).pc = .done) : (m'.workers i).pc = .done := by
  rw [hstep.others i (fun heq => hstep.running.2 (heq ▸ hi)), hi]

end

/-! ## Counting -/

/-- What was observed since `e₀`. -/
def since (e₀ e : Env) : List Obs := e.trace.drop e₀.trace.length

theorem since_eq {e₀ e : Env} {new : List Obs} (h : e.trace = e₀.trace ++ new) :
    since e₀ e = new := by
  rw [since, h, List.drop_left]

/-- What an invariant of the search says of an environment that came from `e₀`. -/
def During (e₀ : Env) (P : List Obs → Bool → Prop) (e : Env) : Prop :=
  ∃ new, e.trace = e₀.trace ++ new ∧ P new e.stopRequested

theorem During.follows {e₀ e e' : Env} {P P' : List Obs → Bool → Prop} {obs : List Obs}
    (h : During e₀ P e) (hfollows : Follows e obs e')
    (hP : ∀ new, P new e.stopRequested → P' (new ++ obs) e.stopRequested) : During e₀ P' e' := by
  obtain ⟨new, htrace, h⟩ := h
  refine ⟨new ++ obs, by rw [hfollows.1, htrace, List.append_assoc], ?_⟩
  rw [hfollows.2]
  exact hP new h

theorem During.and {e₀ e : Env} {P P' : List Obs → Bool → Prop} (h : During e₀ P e)
    (h' : During e₀ P' e) : During e₀ (fun new requested => P new requested ∧ P' new requested) e := by
  obtain ⟨new, htrace, hP⟩ := h
  obtain ⟨new', htrace', hP'⟩ := h'
  obtain rfl : new = new' := List.append_cancel_left (htrace.symm.trans htrace')
  exact ⟨new, htrace, hP, hP'⟩

theorem stable_during {e₀ : Env} {P : List Obs → Bool → Prop}
    (hsignal : ∀ new requested, P new requested → P (new ++ [.signal]) true)
    (harrived : ∀ new requested bytes, P new requested → P (new ++ [.arrived bytes]) requested) :
    Stable (During e₀ P) := by
  refine ⟨?_, ?_⟩
  · rintro e ⟨new, htrace, h⟩
    exact ⟨new ++ [.signal], by rw [Env.signal_trace, htrace, List.append_assoc], hsignal _ _ h⟩
  · rintro e bytes ⟨new, htrace, h⟩
    exact ⟨new ++ [.arrived bytes], by rw [Env.arrive_trace, htrace, List.append_assoc],
      harrived _ _ bytes h⟩

/-- The hashes computed, by all workers together. -/
def hashCount (t : List Obs) : Nat :=
  t.countP fun
    | .hashed .. => true
    | _ => false

@[simp] theorem hashCount_append (t u : List Obs) :
    hashCount (t ++ u) = hashCount t + hashCount u := List.countP_append

variable (hash256 cfg) in
/-- What the workers have done in a search, of which `new` are the observations. -/
structure Counting (new : List Obs) (stopRequested : Bool) (m : Machine) : Prop where
  workers : ∀ tid < cfg.threadCount.toNat,
    WorkerInv hash256 cfg new stopRequested m.stop tid (m.workers tid)
  idle : ∀ tid, cfg.threadCount.toNat ≤ tid → (m.workers tid).pc = .notStarted
  total : m.totalHashes = ∑ tid ∈ Finset.range cfg.threadCount.toNat, credit (m.workers tid)
  hashes : hashCount new = ∑ tid ∈ Finset.range cfg.threadCount.toNat, (m.workers tid).localHashes
  spawning : ∀ t, m.main = .spawning t → ∀ i, t ≤ i → (m.workers i).pc = .notStarted
  joining : ∀ t, m.main = .joining t → ∀ i < t, (m.workers i).pc = .done

theorem Counting.mono (h : Counting hash256 cfg new stopRequested m) (hnew : ∀ o ∈ new, o ∈ new')
    (hrequested : stopRequested = true → stopRequested' = true)
    (hhashes : hashCount new' = hashCount new) : Counting hash256 cfg new' stopRequested' m :=
  { h with
    workers := fun tid htid => (h.workers tid htid).mono hnew hrequested id
    hashes := hhashes.trans h.hashes }

/-- A sum over the workers when one of them changes. -/
theorem sum_setWorker (f : Worker → Nat) (htid : tid < cfg.threadCount.toNat) :
    ∑ i ∈ Finset.range cfg.threadCount.toNat, f ((m.setWorker tid w).workers i) +
        f (m.workers tid) =
      ∑ i ∈ Finset.range cfg.threadCount.toNat, f (m.workers i) + f w := by
  have hmem := Finset.mem_range.2 htid
  rw [← Finset.add_sum_erase _ _ hmem, ← Finset.add_sum_erase _ (fun i => f (m.workers i)) hmem]
  have hrest : ∑ i ∈ (Finset.range cfg.threadCount.toNat).erase tid,
        f ((m.setWorker tid w).workers i) =
      ∑ i ∈ (Finset.range cfg.threadCount.toNat).erase tid, f (m.workers i) := by
    apply Finset.sum_congr rfl
    intro i hi
    rw [Machine.workers_setWorker, if_neg (Finset.ne_of_mem_erase hi)]
  rw [hrest, Machine.workers_setWorker, if_pos rfl]
  omega

theorem Counting.totalHashes_le (h : Counting hash256 cfg new stopRequested m) :
    m.totalHashes ≤ 2 ^ 32 := by
  rw [h.total]
  rcases Nat.eq_zero_or_pos cfg.threadCount.toNat with hzero | hpos
  · simp [hzero]
  · rw [← Striding.sum_share hpos (2 ^ 32)]
    apply Finset.sum_le_sum
    intro i hi
    exact (credit_le _).trans (h.workers i (Finset.mem_range.1 hi)).within

/-- A step of one worker, which leaves its own locals as `w` and the shared state as `m'`. -/
theorem Counting.worker {m' : Machine} (h : Counting hash256 cfg new stopRequested m)
    (hdecides : Decides tid m (m'.setWorker tid w)) (hnew : ∀ o ∈ new, o ∈ new')
    (hworkers : m'.workers = m.workers) (htid : tid < cfg.threadCount.toNat)
    (hw : WorkerInv hash256 cfg new' stopRequested m'.stop tid w)
    (htotal : m'.totalHashes = m.totalHashes + credit w)
    (hhashes : hashCount new' + (m.workers tid).localHashes = hashCount new + w.localHashes) :
    Counting hash256 cfg new' stopRequested (m'.setWorker tid w) where
  workers i hi := by
    rw [Machine.workers_setWorker]
    split
    · rename_i hit
      rw [hit]
      exact hw
    · rw [hworkers]
      exact (h.workers i hi).mono hnew id hdecides.stopped
  idle i hi := hdecides.idle (h.idle i hi)
  total := by
    have hsum := sum_setWorker (m := m') (w := w) credit htid
    have hzero : credit (m.workers tid) = 0 := credit_eq_zero hdecides.running.2
    rw [hworkers, hzero, Nat.add_zero] at hsum
    have hfield : (m'.setWorker tid w).totalHashes = m'.totalHashes := rfl
    rw [hfield, htotal, h.total]
    exact hsum.symm
  hashes := by
    have hsum := sum_setWorker (m := m') (w := w) Worker.localHashes htid
    rw [hworkers, ← h.hashes] at hsum
    omega
  spawning t ht i hi := hdecides.idle (h.spawning t (hdecides.main ▸ ht) i hi)
  joining t ht i hi := hdecides.done (h.joining t (hdecides.main ▸ ht) i hi)

/-- A step that only moves the worker. -/
theorem Counting.goto (h : Counting hash256 cfg new stopRequested m) {pc : WorkerPc}
    (hdecides : Decides tid m (m.setWorker tid { m.workers tid with pc := pc }))
    (htid : tid < cfg.threadCount.toNat) (hpc : pc ≠ .done)
    (hw : WorkerInv hash256 cfg new stopRequested m.stop tid { m.workers tid with pc := pc }) :
    Counting hash256 cfg new stopRequested (m.setWorker tid { m.workers tid with pc := pc }) :=
  h.worker hdecides (fun _ ho => ho) rfl htid hw (by rw [credit_eq_zero hpc, Nat.add_zero]) rfl

/-- **What a step of a worker does to the counts.** -/
theorem Counting.workerStep {obs : List Obs} {m' : Machine}
    (h : Counting hash256 cfg new stopRequested m) (hsound : MachineSound hash256 cfg m)
    (hstep : WorkerStep hash256 cfg stopRequested tid m obs m') :
    Counting hash256 cfg (new ++ obs) stopRequested m' := by
  have hdecides := hstep.decides
  have htid : tid < cfg.threadCount.toNat := by
    by_contra hge
    exact hdecides.running.1 (h.idle tid (by omega))
  have hw := h.workers tid htid
  have hmore : ∀ o ∈ new, o ∈ new ++ obs := fun _ ho => List.mem_append_left _ ho
  cases hstep with
  | asked hpc hasked =>
    rw [List.append_nil]
    exact h.goto hdecides htid (by simp)
      (hw.leave (fun _ => by simp [hpc, WorkerPc.isHolding]) (Or.inr hasked))
  | unasked hpc | unstopped hpc =>
    rw [List.append_nil]
    exact h.goto hdecides htid (by simp) (hw.goto (by simp [hpc, WorkerPc.isLooping]) rfl)
  | stopped hpc hstop | loses hpc hstop =>
    rw [List.append_nil]
    exact h.goto hdecides htid (by simp)
      (hw.leave (fun hs => by rw [hstop] at hs; cases hs) (Or.inl hstop))
  | hit hpc =>
    have hnext := hw.next_mod htid (by simp [hpc, WorkerPc.isLooping])
    refine h.worker hdecides hmore rfl htid (hw.hashedSolution htid hpc _ _ _) rfl ?_
    simp [hashCount, Worker.hashNext]
    omega
  | miss hpc hmiss =>
    have hnext := hw.next_mod htid (by simp [hpc, WorkerPc.isLooping])
    have hpayload := hsound.hashNext_payload tid (by simp [hpc])
    rw [hpayload] at hmiss
    refine h.worker hdecides hmore rfl htid (hw.hashedNext htid hpc hmiss _) ?_ ?_
    · rw [credit_eq_zero (Worker.loopHead_ne_done _), Nat.add_zero]
    · simp [hashCount, Worker.hashNext, Worker.loopHead, Worker.advance]
      omega
  | wins hpc =>
    rw [List.append_nil]
    exact h.worker hdecides (fun _ ho => ho) rfl htid (hw.win _ _) rfl rfl
  | records hpc =>
    rw [List.append_nil]
    have hstop := hw.recording _ _ hpc
    exact h.worker hdecides (fun _ ho => ho) rfl htid
      (hw.leave (fun hs => by rw [hstop] at hs; cases hs) (Or.inl hstop)) rfl rfl
  | adds hpc =>
    rw [List.append_nil]
    have hlocal := hw.within.trans (nonceShare_le htid)
    have htotal := h.totalHashes_le
    have hadd : (m.totalHashes + (m.workers tid).localHashes) % 2 ^ 64 =
        m.totalHashes + (m.workers tid).localHashes := Nat.mod_eq_of_lt (by omega)
    exact h.worker hdecides (fun _ ho => ho) rfl htid (hw.done hpc) hadd rfl

/-- A step of the calling thread that leaves the workers alone. -/
theorem Counting.move {m' : Machine} (h : Counting hash256 cfg new stopRequested m)
    (hworkers : m'.workers = m.workers) (htotal : m'.totalHashes = m.totalHashes)
    (hstop : m.stop = true → m'.stop = true) (hspawning : ∀ t, m'.main ≠ .spawning t)
    (hjoining : ∀ t, m'.main = .joining t → ∀ i < t, (m.workers i).pc = .done) :
    Counting hash256 cfg new stopRequested m' where
  workers tid htid := by
    rw [hworkers]
    exact (h.workers tid htid).mono (fun _ ho => ho) id hstop
  idle := by rw [hworkers]; exact h.idle
  total := by rw [htotal, hworkers, h.total]
  hashes := by rw [hworkers, h.hashes]
  spawning t ht := absurd ht (hspawning t)
  joining := by rw [hworkers]; exact hjoining

/-- The calling thread starts a worker. -/
theorem Counting.spawn (h : Counting hash256 cfg new stopRequested m)
    (hmain : m.main = .spawning tid) (htid : tid < cfg.threadCount.toNat) :
    Counting hash256 cfg new stopRequested
      { m.setWorker tid (startWorker cfg tid) with main := .spawning (tid + 1) } := by
  have hidle := h.spawning tid hmain
  have hfresh := (h.workers tid htid).fresh (hidle tid (Nat.le_refl _))
  have hstart : WorkerInv hash256 cfg new stopRequested m.stop tid (startWorker cfg tid) :=
    WorkerInv.loopHead htid (by simp) (Nat.zero_le _) nofun fun _ => nofun
  have hothers : ∀ i, i ≠ tid →
      (m.setWorker tid (startWorker cfg tid)).workers i = m.workers i := fun i hi => by
    rw [Machine.workers_setWorker, if_neg hi]
  refine ⟨?_, ?_, ?_, ?_, ?_, nofun⟩
  · intro i hi
    by_cases hit : i = tid
    · subst hit
      show WorkerInv _ _ _ _ _ _ ((m.setWorker i (startWorker cfg i)).workers i)
      rw [Machine.workers_setWorker, if_pos rfl]
      exact hstart
    · exact (hothers i hit).symm ▸ h.workers i hi
  · intro i hi
    exact (congrArg Worker.pc (hothers i (by omega))).trans (h.idle i hi)
  · have hsum := sum_setWorker (m := m) (w := startWorker cfg tid) credit htid
    rw [credit_eq_zero (w := m.workers tid) (by simp [hidle tid (Nat.le_refl _)]),
      credit_eq_zero (w := startWorker cfg tid) (Worker.loopHead_ne_done _)] at hsum
    exact h.total.trans hsum.symm
  · have hsum := sum_setWorker (m := m) (w := startWorker cfg tid) Worker.localHashes htid
    rw [hfresh] at hsum
    exact h.hashes.trans hsum.symm
  · intro t ht i hi
    obtain rfl : tid + 1 = t := MainPc.spawning.inj ht
    exact (congrArg Worker.pc (hothers i (by omega))).trans (hidle i (by omega))

theorem Counting.mainStep {obs : List Obs} {m' : Machine}
    (h : Counting hash256 cfg new stopRequested m)
    (hstep : MainStep cfg stopRequested m obs (.inl m')) :
    Counting hash256 cfg (new ++ obs) stopRequested m' := by
  have hmore : ∀ {o}, hashCount [o] = 0 → Counting hash256 cfg (new ++ [o]) stopRequested m :=
    fun ho => h.mono (fun _ ho => List.mem_append_left _ ho) id
      (by rw [hashCount_append, ho, Nat.add_zero])
  cases hstep with
  | spawn hmain htid =>
    rw [List.append_nil]
    exact h.spawn hmain htid
  | counts | reports => exact (hmore rfl).move rfl rfl id nofun nofun
  | spawned | unstopped | asked | unasked =>
    rw [List.append_nil]
    exact h.move rfl rfl id nofun nofun
  | stopped | aborts | stops =>
    rw [List.append_nil]
    refine h.move rfl rfl (by simp) nofun ?_
    rintro t ht i hi
    obtain rfl : 0 = t := MainPc.joining.inj ht
    exact absurd hi (Nat.not_lt_zero i)
  | joins hmain _ hdone =>
    rw [List.append_nil]
    refine h.move rfl rfl id nofun ?_
    rintro t ht i hi
    obtain rfl : _ + 1 = t := MainPc.joining.inj ht
    rcases Nat.lt_succ_iff_lt_or_eq.1 hi with hi | rfl
    · exact h.joining _ hmain i hi
    · exact hdone

theorem Counting.initial (stopRequested : Bool) : Counting hash256 cfg [] stopRequested {} where
  workers _ _ :=
    ⟨fun _ => rfl, Nat.zero_le _, nofun, fun _ _ => nofun, nofun, nofun, nofun⟩
  idle _ _ := rfl
  total := (Finset.sum_eq_zero fun _ _ => rfl).symm
  hashes := (Finset.sum_eq_zero fun _ _ => rfl).symm
  spawning _ _ _ _ := rfl
  joining := nofun

theorem Counting.signal (h : Counting hash256 cfg new stopRequested m) :
    Counting hash256 cfg (new ++ [.signal]) true m :=
  h.mono (fun _ ho => List.mem_append_left _ ho) (fun _ => rfl) (by simp [hashCount])

theorem Counting.arrived (h : Counting hash256 cfg new stopRequested m) (bytes : Bytes) :
    Counting hash256 cfg (new ++ [.arrived bytes]) stopRequested m :=
  h.mono (fun _ ho => List.mem_append_left _ ho) id (by simp [hashCount])

/-- When all workers are done, the counter has all that they hashed. -/
theorem Counting.hashes_of_done (h : Counting hash256 cfg new stopRequested m)
    (hdone : ∀ i < cfg.threadCount.toNat, (m.workers i).pc = .done) :
    m.totalHashes = hashCount new := by
  rw [h.total, h.hashes]
  apply Finset.sum_congr rfl
  intro i hi
  rw [credit, if_pos (hdone i (Finset.mem_range.1 hi))]

/-- The machine is sound, and the workers have done what the observations say. -/
def CountInv (hash256 : Bytes → Hash256) (cfg : MinerConfig) (e₀ : Env) (m : Machine) (e : Env) :
    Prop :=
  MachineSound hash256 cfg m ∧
    During e₀ (fun new requested => Counting hash256 cfg new requested m) e

/-- **The count is right**: what `mine` returns as tried is what its workers have hashed. -/
theorem stepInvariant_count (e₀ : Env) :
    StepInvariant hash256 cfg (CountInv hash256 cfg e₀) fun result e =>
      (result.found = true → Solves hash256 cfg result.nonce) ∧
        result.hashesTried = hashCount (since e₀ e) ∧ result.hashesTried ≤ 2 ^ 32 :=
  stepInvariant_sound.and_of
    (fun _ => stable_during (fun _ _ h => h.signal) fun _ _ bytes h => h.arrived bytes)
    (fun hsound h _ _ _ _ hstep hfollows =>
      h.follows hfollows fun _ h => h.workerStep hsound hstep)
    (by
      intro m e hsound h obs r e' hstep hfollows
      cases r with
      | inl m' =>
        have hmain : During e₀ (fun new requested => Counting hash256 cfg new requested m') e' :=
          h.follows hfollows fun _ h => h.mainStep hstep
        exact hmain
      | inr result =>
        obtain ⟨new, htrace, h⟩ := h
        cases hstep with
        | returns hmain hall =>
          have hdone := h.hashes_of_done fun i hi => h.joining _ hmain i (by omega)
          have hsince : since e₀ e' = new := since_eq (by rw [hfollows.1, List.append_nil, htrace])
          rw [hsince]
          exact ⟨hdone, h.totalHashes_le⟩)

theorem CountInv.initial (e₀ : Env) : CountInv hash256 cfg e₀ {} e₀ :=
  ⟨.initial, [], (List.append_nil _).symm, .initial _⟩

end Search

end HermitMiner
