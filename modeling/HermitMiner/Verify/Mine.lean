import HermitMiner.Verify.Frame

/-!
# The result of mining

* `WorkerStep`, `MainStep`: what a step of each thread can be.
* `wp_mineWith_of_steps`, `rounds_of_steps`: an invariant of the steps is one of the whole.
* `wp_mineWith_aborted`: `mine` reports an abort only when a stop was requested.
* `wp_mineWith_found`: a nonce that `mine` reports solves the puzzle it was given.
-/

namespace HermitMiner

open Oracle

/-! ## Steps -/

section Steps

variable (hash256 : Bytes → Hash256) (cfg : MinerConfig)

/-- What a step of worker `tid` can be, with what is observed in it. -/
inductive WorkerStep (requested : Bool) (tid : Nat) (m : Machine) : List Obs → Machine → Prop where
  | asked (hpc : (m.workers tid).pc = .loadRequest) (h : requested = true) :
      WorkerStep requested tid m [] (m.setWorker tid { m.workers tid with pc := .exiting })
  | unasked (hpc : (m.workers tid).pc = .loadRequest) (h : requested = false) :
      WorkerStep requested tid m [] (m.setWorker tid { m.workers tid with pc := .loadStop })
  | stopped (hpc : (m.workers tid).pc = .loadStop) (h : m.stop = true) :
      WorkerStep requested tid m [] (m.setWorker tid { m.workers tid with pc := .exiting })
  | unstopped (hpc : (m.workers tid).pc = .loadStop) (h : m.stop = false) :
      WorkerStep requested tid m [] (m.setWorker tid { m.workers tid with pc := .hashing })
  | hit (hpc : (m.workers tid).pc = .hashing)
      (h : meetsDifficulty (hash256 (m.workers tid).hashNext.payload) cfg.difficultyBits = true) :
      WorkerStep requested tid m [.hashed tid (m.workers tid).nonce64.toUInt32]
        (m.setWorker tid { (m.workers tid).hashNext with
          pc := .exchange (m.workers tid).nonce64.toUInt32
            (hash256 (m.workers tid).hashNext.payload) })
  | miss (hpc : (m.workers tid).pc = .hashing)
      (h : ¬meetsDifficulty (hash256 (m.workers tid).hashNext.payload) cfg.difficultyBits = true) :
      WorkerStep requested tid m [.hashed tid (m.workers tid).nonce64.toUInt32]
        (m.setWorker tid ((m.workers tid).hashNext.advance cfg).loopHead)
  | loses {nonce : UInt32} {hash : Hash256} (hpc : (m.workers tid).pc = .exchange nonce hash)
      (h : m.stop = true) :
      WorkerStep requested tid m [] (m.setWorker tid { m.workers tid with pc := .exiting })
  | wins {nonce : UInt32} {hash : Hash256} (hpc : (m.workers tid).pc = .exchange nonce hash)
      (h : m.stop = false) :
      WorkerStep requested tid m []
        (Machine.setWorker { m with stop := true } tid
          { m.workers tid with pc := .recording nonce hash })
  | records {nonce : UInt32} {hash : Hash256} (hpc : (m.workers tid).pc = .recording nonce hash) :
      WorkerStep requested tid m []
        (Machine.setWorker
          { m with result := { m.result with found := true, nonce := nonce, hash := hash } } tid
          { m.workers tid with pc := .exiting })
  | adds (hpc : (m.workers tid).pc = .exiting) :
      WorkerStep requested tid m []
        (Machine.setWorker
          { m with totalHashes := (m.totalHashes + (m.workers tid).localHashes) % 2 ^ 64 } tid
          { m.workers tid with pc := .done })

/-- What a step of the calling thread can be, with what is observed in it. -/
inductive MainStep (requested : Bool) (m : Machine) :
    List Obs → Machine ⊕ MiningResult → Prop where
  | spawn {tid : Nat} (hmain : m.main = .spawning tid) (h : tid < cfg.threadCount.toNat) :
      MainStep requested m []
        (.inl { m.setWorker tid (startWorker cfg tid) with main := .spawning (tid + 1) })
  | spawned {tid : Nat} (hmain : m.main = .spawning tid) (h : ¬tid < cfg.threadCount.toNat) :
      MainStep requested m [] (.inl { m with main := .whileTest })
  | stopped (hmain : m.main = .whileTest) (h : m.stop = true) :
      MainStep requested m [] (.inl { m with main := .joining 0 })
  | unstopped (hmain : m.main = .whileTest) (h : m.stop = false) :
      MainStep requested m [] (.inl { m with main := .loadRequest })
  | asked (hmain : m.main = .loadRequest) (h : requested = true) :
      MainStep requested m [] (.inl { m with main := .storeAbort })
  | unasked (hmain : m.main = .loadRequest) (h : requested = false) :
      MainStep requested m [] (.inl { m with main := .sleeping })
  | aborts (hmain : m.main = .storeAbort) :
      MainStep requested m [] (.inl
        { m with stop := true, result := { m.result with aborted := true }, main := .joining 0 })
  | counts (hmain : m.main = .sleeping) (h : maxNonce ≤ m.totalHashes) :
      MainStep requested m [.counted m.totalHashes requested] (.inl { m with main := .storeStop })
  | reports (hmain : m.main = .sleeping) (h : m.totalHashes < maxNonce) :
      MainStep requested m [.counted m.totalHashes requested] (.inl { m with main := .whileTest })
  | stops (hmain : m.main = .storeStop) :
      MainStep requested m [] (.inl { m with stop := true, main := .joining 0 })
  | joins {tid : Nat} (hmain : m.main = .joining tid) (h : tid < cfg.threadCount.toNat)
      (hdone : (m.workers tid).pc = .done) :
      MainStep requested m [] (.inl { m with main := .joining (tid + 1) })
  | returns {tid : Nat} (hmain : m.main = .joining tid) (h : ¬tid < cfg.threadCount.toNat) :
      MainStep requested m [] (.inr { m.result with hashesTried := m.totalHashes })

/-- A step that observes `obs` and leaves the stop request alone. -/
def Follows (e : Env) (obs : List Obs) (e' : Env) : Prop :=
  e'.trace = e.trace ++ obs ∧ e'.stopRequested = e.stopRequested

theorem Follows.refl (e : Env) : Follows e [] e := ⟨(List.append_nil _).symm, rfl⟩

theorem Follows.observe (e : Env) (o : Obs) : Follows e [o] (e.observe o) := ⟨rfl, rfl⟩

/-- The steps of a worker are these. -/
theorem wp_workerStep (tid : Nat) (m : Machine) (e : Env) :
    wp (workerStep hash256 cfg tid m)
      (fun m' e' => ∃ obs, WorkerStep hash256 cfg e.stopRequested tid m obs m' ∧ Follows e obs e')
      (fun _ => True) e := by
  have hfalse : ∀ {b : Bool}, ¬b = true → b = false := Bool.eq_false_of_not_eq_true
  unfold workerStep
  dsimp only
  cases hpc : (m.workers tid).pc with
  | notStarted => exact wp_halt trivial
  | done => exact wp_halt trivial
  | loadRequest =>
    exact wp_read (wp_ite (fun h => wp_pure ⟨_, .asked hpc h, .refl e⟩)
      fun h => wp_pure ⟨_, .unasked hpc (hfalse h), .refl e⟩)
  | loadStop =>
    exact wp_ite (fun h => wp_pure ⟨_, .stopped hpc h, .refl e⟩)
      fun h => wp_pure ⟨_, .unstopped hpc (hfalse h), .refl e⟩
  | hashing =>
    exact wp_update (wp_ite (fun h => wp_pure ⟨_, .hit hpc h, .observe e _⟩)
      fun h => wp_pure ⟨_, .miss hpc h, .observe e _⟩)
  | exchange nonce hash =>
    exact wp_ite (fun h => wp_pure ⟨_, .loses hpc h, .refl e⟩)
      fun h => wp_pure ⟨_, .wins hpc (hfalse h), .refl e⟩
  | recording nonce hash => exact wp_pure ⟨_, .records hpc, .refl e⟩
  | exiting => exact wp_pure ⟨_, .adds hpc, .refl e⟩

/-- The steps of the calling thread are these. -/
theorem wp_mainStep (sec hps : Bytes) (m : Machine) (e : Env) :
    wp (mainStep cfg sec hps m)
      (fun r e' => ∃ obs, MainStep cfg e.stopRequested m obs r ∧ Follows e obs e')
      (fun _ => True) e := by
  have hfalse : ∀ {b : Bool}, ¬b = true → b = false := Bool.eq_false_of_not_eq_true
  unfold mainStep
  cases hmain : m.main with
  | spawning tid =>
    exact wp_ite (fun h => wp_pure ⟨_, .spawn hmain h, .refl e⟩)
      fun h => wp_pure ⟨_, .spawned hmain h, .refl e⟩
  | whileTest =>
    exact wp_ite (fun h => wp_pure ⟨_, .stopped hmain h, .refl e⟩)
      fun h => wp_pure ⟨_, .unstopped hmain (hfalse h), .refl e⟩
  | loadRequest =>
    exact wp_read (wp_ite (fun h => wp_pure ⟨_, .asked hmain h, .refl e⟩)
      fun h => wp_pure ⟨_, .unasked hmain (hfalse h), .refl e⟩)
  | storeAbort => exact wp_pure ⟨_, .aborts hmain, .refl e⟩
  | sleeping =>
    refine wp_read (wp_update (wp_update (wp_ite (fun h => wp_pure ?_) fun h => wp_pure ?_)))
    · exact ⟨_, .counts hmain h, .observe e _⟩
    · exact ⟨_, .reports hmain (Nat.lt_of_not_le h), .observe e _⟩
  | storeStop => exact wp_pure ⟨_, .stops hmain, .refl e⟩
  | joining tid =>
    exact wp_ite
      (fun h => wp_ite (fun hdone => wp_pure ⟨_, .joins hmain h hdone, .refl e⟩)
        fun _ => wp_halt trivial)
      fun h => wp_pure ⟨_, .returns hmain h, .refl e⟩

/-- What every step keeps, and signals and arriving bytes between the steps, and what follows from it
of the result. -/
structure StepInvariant (I : Machine → Env → Prop) (Q : MiningResult → Env → Prop) : Prop where
  stable : ∀ m, Stable (I m)
  worker : ∀ {m e}, I m e → ∀ {tid obs m' e'},
    WorkerStep hash256 cfg e.stopRequested tid m obs m' → Follows e obs e' → I m' e'
  main : ∀ {m e}, I m e → ∀ {obs r e'}, MainStep cfg e.stopRequested m obs r → Follows e obs e' →
    Sum.elim (fun m' => I m' e') (fun result => Q result e') r

variable {hash256 cfg}

/-- What one round does, whichever thread it is of. -/
theorem wp_mineRound {m : Machine} {e : Env} {I : Env → Prop}
    {Q : Machine ⊕ MiningResult → Env → Prop} (hstable : Stable I) (h : I e)
    (hworker : ∀ {e}, I e → ∀ {tid obs m' e'},
      WorkerStep hash256 cfg e.stopRequested tid m obs m' → Follows e obs e' → Q (.inl m') e')
    (hmain : ∀ {e}, I e → ∀ {obs r e'}, MainStep cfg e.stopRequested m obs r → Follows e obs e' →
      Q r e') : wp (mineRound hash256 cfg m) Q (fun _ => True) e := by
  refine wp_bind (wp_awaitEvent hstable h (fun _ _ => trivial) ?_)
  intro ev e h
  cases ev with
  | worker tid =>
    refine wp_call (wp_workerStep hash256 cfg tid m e) ?_ fun _ _ => trivial
    rintro m' e' ⟨obs, hstep, hfollows⟩
    exact wp_pure (hworker h hstep hfollows)
  | reporter sec hps =>
    refine wp_mono (wp_mainStep cfg sec hps m e) ?_ fun _ _ => trivial
    rintro r e' ⟨obs, hstep, hfollows⟩
    exact hmain h hstep hfollows
  | _ => exact wp_halt trivial

variable {I : Machine → Env → Prop} {Q : MiningResult → Env → Prop}
  (h : StepInvariant hash256 cfg I Q)
include h

theorem StepInvariant.round {m : Machine} {e : Env} (hI : I m e) :
    wp (mineRound hash256 cfg m)
      (fun r e' => Sum.elim (fun m' => I m' e') (fun result => Q result e') r)
      (fun _ => True) e :=
  wp_mineRound (h.stable m) hI (fun hI _ _ _ _ hstep hfollows => h.worker hI hstep hfollows)
    fun hI _ _ _ hstep hfollows => h.main hI hstep hfollows

/-- The invariant says of a run that returns what its result is. -/
theorem wp_mineWith_of_steps {e : Env} (hI : I {} e) :
    wp (mineWith hash256 cfg) Q (fun _ => True) e :=
  wp_loop hI (fun _ _ hI => h.round hI) fun _ _ _ => trivial

/-- The invariant holds wherever a round of a run starts. -/
theorem rounds_of_steps {e : Env} (hI : I {} e) (events : List Event) :
    ∀ p ∈ Proc.rounds (mineRound hash256 cfg) {} e events, I p.1 p.2 :=
  rounds_inv hI fun _ _ hI => wp_mono (h.round hI)
    (fun r _ hr => by
      cases r with
      | inl m' => exact hr
      | inr result => trivial) fun _ _ => trivial

/-- An invariant on top of another. -/
theorem StepInvariant.and_of {J : Machine → Env → Prop} {Q' : MiningResult → Env → Prop}
    (hstable : ∀ m, Stable (J m))
    (hworker : ∀ {m e}, I m e → J m e → ∀ {tid obs m' e'},
      WorkerStep hash256 cfg e.stopRequested tid m obs m' → Follows e obs e' → J m' e')
    (hmain : ∀ {m e}, I m e → J m e → ∀ {obs r e'}, MainStep cfg e.stopRequested m obs r →
      Follows e obs e' → Sum.elim (fun m' => J m' e') (fun result => Q' result e') r) :
    StepInvariant hash256 cfg (fun m e => I m e ∧ J m e)
      fun result e => Q result e ∧ Q' result e where
  stable m := (h.stable m).and (hstable m)
  worker hboth _ _ _ _ hstep hfollows :=
    ⟨h.worker hboth.1 hstep hfollows, hworker hboth.1 hboth.2 hstep hfollows⟩
  main := by
    intro m e hboth obs r e' hstep hfollows
    have hI := h.main hboth.1 hstep hfollows
    have hJ := hmain hboth.1 hboth.2 hstep hfollows
    cases r with
    | inl m' => exact ⟨hI, hJ⟩
    | inr result => exact ⟨hI, hJ⟩

end Steps

/-! ## Aborts -/

section Aborted

variable {hash256 : Bytes → Hash256} {cfg : MinerConfig} {e : Env}

/-- An abort, made or about to be made, comes from a stop request. -/
def AbortRequested (m : Machine) (e : Env) : Prop :=
  m.main = .storeAbort ∨ m.result.aborted = true → e.stopRequested = true

theorem stable_abortRequested (m : Machine) : Stable (AbortRequested m) :=
  ⟨fun _ _ => rfl, fun _ h => h⟩

/-- No step touches an abort but the one that stores it. -/
theorem stepInvariant_aborted : StepInvariant hash256 cfg AbortRequested
    fun result e => result.aborted = true → e.stopRequested = true where
  stable := stable_abortRequested
  worker := by
    intro m e h tid obs m' e' hstep hfollows habort
    rw [hfollows.2]
    apply h
    cases hstep <;> exact habort
  main := by
    intro m e h obs r e' hstep hfollows
    have hkeep : ∀ {m' : Machine}, m'.main ≠ .storeAbort → m'.result = m.result →
        AbortRequested m' e' := by
      intro m' hmain hresult habort
      rw [hfollows.2]
      apply h
      rw [← hresult]
      exact Or.inr (habort.resolve_left hmain)
    cases hstep with
    | asked hmain hrequested => exact fun _ => hfollows.2.trans hrequested
    | aborts hmain => exact fun _ => hfollows.2.trans (h (Or.inl hmain))
    | returns => exact fun habort => hfollows.2.trans (h (Or.inr habort))
    | _ => exact hkeep (by simp) rfl

/-- **Only a stop request aborts `mine`.** -/
theorem wp_mineWith_aborted :
    wp (mineWith hash256 cfg) (fun result e' => result.aborted = true → e'.stopRequested = true)
      (fun _ => True) e :=
  wp_mineWith_of_steps stepInvariant_aborted (fun h => by simp at h)

end Aborted

/-! ## Solutions -/

/-- The lowest `k` bytes of a number, little-endian. -/
def leBytes : Nat → Nat → Bytes
  | 0, _ => []
  | k + 1, n => n.toUInt8 :: leBytes k (n / 256)

/-- The payload a nonce is hashed in. -/
def payloadOf (cfg : MinerConfig) (nonce : UInt32) : Bytes :=
  cfg.prefixText ++ leBytes 4 nonce.toNat

/-- The nonce solves the puzzle. -/
def Solves (hash256 : Bytes → Hash256) (cfg : MinerConfig) (nonce : UInt32) : Prop :=
  meetsDifficulty (hash256 (payloadOf cfg nonce)) cfg.difficultyBits = true

theorem and_0xff (x : UInt32) : (x &&& 0xff).toUInt8 = x.toNat.toUInt8 := by
  have hmask : x.toNat &&& 255 = x.toNat % 2 ^ 8 := Nat.and_two_pow_sub_one_eq_mod x.toNat 8
  rw [← UInt8.toNat_inj]
  simp only [UInt32.toNat_toUInt8, UInt32.toNat_and, UInt32.reduceToNat, hmask, Nat.mod_mod]
  simp

theorem shiftRight_and_0xff (x k : UInt32) (hk : k.toNat < 32) :
    ((x >>> k) &&& 0xff).toUInt8 = (x.toNat / 2 ^ k.toNat).toUInt8 := by
  rw [and_0xff, UInt32.toNat_shiftRight, Nat.mod_eq_of_lt hk, Nat.shiftRight_eq_div_pow]

/-- The four stores write the nonce little-endian. -/
theorem writeNonce_eq {front tail : Bytes} (htail : tail.length = 4) (nonce : UInt32) :
    writeNonce (front ++ tail) nonce = front ++ leBytes 4 nonce.toNat := by
  obtain ⟨a, b, c, d, rfl⟩ : ∃ a b c d, tail = [a, b, c, d] := by
    match tail, htail with
    | [a, b, c, d], _ => exact ⟨a, b, c, d, rfl⟩
  have hbase : (front ++ [a, b, c, d]).length - 4 = front.length := by simp
  unfold writeNonce
  dsimp only
  rw [hbase, and_0xff, shiftRight_and_0xff _ 8 (by decide), shiftRight_and_0xff _ 16 (by decide),
    shiftRight_and_0xff _ 24 (by decide)]
  simp [leBytes, Nat.div_div_eq_div_mul]

section Found

variable (hash256 : Bytes → Hash256) (cfg : MinerConfig)

/-- A worker's payload is the prefix and four more bytes, and what it is about to report solves the
puzzle. -/
structure WorkerSound (w : Worker) : Prop where
  payload : w.pc ≠ .notStarted → ∃ tail, tail.length = 4 ∧ w.payload = cfg.prefixText ++ tail
  exchange : ∀ nonce hash, w.pc = .exchange nonce hash → Solves hash256 cfg nonce
  recording : ∀ nonce hash, w.pc = .recording nonce hash → Solves hash256 cfg nonce

structure MachineSound (m : Machine) : Prop where
  workers : ∀ tid, WorkerSound hash256 cfg (m.workers tid)
  found : m.result.found = true → Solves hash256 cfg m.result.nonce

variable {hash256 : Bytes → Hash256} {cfg : MinerConfig} {m : Machine} {e : Env}

theorem Machine.workers_setWorker (m : Machine) (tid : Nat) (w : Worker) (i : Nat) :
    (m.setWorker tid w).workers i = if i = tid then w else m.workers i := by
  simp [Machine.setWorker, Function.update_apply]

/-- A step that changes one worker. -/
theorem MachineSound.setWorker (h : MachineSound hash256 cfg m) {tid : Nat} {w : Worker}
    (hw : WorkerSound hash256 cfg w) : MachineSound hash256 cfg (m.setWorker tid w) := by
  refine ⟨?_, h.found⟩
  intro i
  rw [Machine.workers_setWorker]
  split
  · exact hw
  · exact h.workers i

/-- A worker that goes on without a solution in hand. -/
theorem WorkerSound.of_payload {w : Worker} {tail : Bytes} (htail : tail.length = 4)
    (hpayload : w.payload = cfg.prefixText ++ tail)
    (hpc : w.pc = .loadRequest ∨ w.pc = .loadStop ∨ w.pc = .hashing ∨ w.pc = .exiting ∨
      w.pc = .done) : WorkerSound hash256 cfg w := by
  refine ⟨fun _ => ⟨tail, htail, hpayload⟩, ?_, ?_⟩
  · intro nonce hash hw
    simp [hw] at hpc
  · intro nonce hash hw
    simp [hw] at hpc

theorem Worker.loopHead_pc (w : Worker) :
    w.loopHead.pc = .loadRequest ∨ w.loopHead.pc = .exiting := by
  unfold Worker.loopHead
  dsimp only
  split
  · exact Or.inl rfl
  · exact Or.inr rfl

theorem Worker.loopHead_ne_done (w : Worker) : w.loopHead.pc ≠ .done := by
  rcases w.loopHead_pc with h | h <;> simp [h]

/-- The payload a worker hashes is that of its nonce. -/
theorem MachineSound.hashNext_payload (h : MachineSound hash256 cfg m) (tid : Nat)
    (hpc : (m.workers tid).pc ≠ .notStarted) :
    (m.workers tid).hashNext.payload = payloadOf cfg (m.workers tid).nonce64.toUInt32 := by
  obtain ⟨tail, htail, hpayload⟩ := (h.workers tid).payload hpc
  rw [Worker.hashNext, hpayload, writeNonce_eq htail, payloadOf]

/-- A worker that goes where it has no solution in hand. -/
theorem MachineSound.goto (h : MachineSound hash256 cfg m) {tid : Nat} {pc : WorkerPc}
    (hstarted : (m.workers tid).pc ≠ .notStarted)
    (hpc : pc = .loadRequest ∨ pc = .loadStop ∨ pc = .hashing ∨ pc = .exiting ∨ pc = .done) :
    WorkerSound hash256 cfg { m.workers tid with pc := pc } := by
  obtain ⟨tail, htail, hpayload⟩ := (h.workers tid).payload hstarted
  exact .of_payload htail hpayload hpc

theorem MachineSound.workerStep (h : MachineSound hash256 cfg m) {requested : Bool} {tid : Nat}
    {obs : List Obs} {m' : Machine} (hstep : WorkerStep hash256 cfg requested tid m obs m') :
    MachineSound hash256 cfg m' := by
  have hw := h.workers tid
  cases hstep with
  | asked hpc | unasked hpc | stopped hpc | unstopped hpc | loses hpc =>
    exact h.setWorker (h.goto (by simp [hpc]) (by simp))
  | hit hpc hmeets =>
    have hpayload := h.hashNext_payload tid (by simp [hpc])
    refine h.setWorker ⟨fun _ => ⟨_, rfl, hpayload⟩, ?_, nofun⟩
    intro nonce hash hx
    cases hx
    rw [hpayload] at hmeets
    exact hmeets
  | miss hpc =>
    have hpayload := h.hashNext_payload tid (by simp [hpc])
    have hlength : (leBytes 4 (m.workers tid).nonce64.toUInt32.toNat).length = 4 := rfl
    refine h.setWorker (.of_payload hlength hpayload ?_)
    rcases Worker.loopHead_pc (Worker.advance _ cfg) with hpc' | hpc'
    · exact Or.inl hpc'
    · exact Or.inr (Or.inr (Or.inr (Or.inl hpc')))
  | @wins nonce hash hpc =>
    obtain ⟨tail, htail, hpayload⟩ := hw.payload (by simp [hpc])
    have hstop : MachineSound hash256 cfg { m with stop := true } := ⟨h.workers, h.found⟩
    refine hstop.setWorker ⟨fun _ => ⟨tail, htail, hpayload⟩, nofun, ?_⟩
    intro n x hx
    cases hx
    exact hw.exchange nonce hash hpc
  | @records nonce hash hpc =>
    have hfound : MachineSound hash256 cfg
        { m with result := { m.result with found := true, nonce := nonce, hash := hash } } :=
      ⟨h.workers, fun _ => hw.recording nonce hash hpc⟩
    exact hfound.setWorker (h.goto (by simp [hpc]) (by simp))
  | adds hpc =>
    have hadded : MachineSound hash256 cfg
        { m with totalHashes := (m.totalHashes + (m.workers tid).localHashes) % 2 ^ 64 } :=
      ⟨h.workers, h.found⟩
    exact hadded.setWorker (h.goto (by simp [hpc]) (by simp))

theorem workerSound_startWorker (tid : Nat) : WorkerSound hash256 cfg (startWorker cfg tid) := by
  have hlength : ([0, 0, 0, 0] : Bytes).length = 4 := rfl
  refine .of_payload hlength rfl ?_
  rcases Worker.loopHead_pc _ with hpc | hpc
  · exact Or.inl hpc
  · exact Or.inr (Or.inr (Or.inr (Or.inl hpc)))

theorem stepInvariant_sound : StepInvariant hash256 cfg (fun m _ => MachineSound hash256 cfg m)
    fun result _ => result.found = true → Solves hash256 cfg result.nonce where
  stable := fun _ => ⟨fun h => h, fun _ h => h⟩
  worker := fun h _ _ _ _ hstep _ => h.workerStep hstep
  main := by
    intro m e h obs r e' hstep _
    cases hstep with
    | @spawn tid =>
      have hset : MachineSound hash256 cfg (m.setWorker tid (startWorker cfg tid)) :=
        h.setWorker (workerSound_startWorker tid)
      exact ⟨hset.workers, hset.found⟩
    | returns => exact h.found
    | _ => exact ⟨h.workers, h.found⟩

theorem MachineSound.initial : MachineSound hash256 cfg {} :=
  ⟨fun _ => ⟨fun h => absurd rfl h, nofun, nofun⟩, nofun⟩

/-- **A nonce that `mine` reports solves its puzzle**, whichever worker found it and whenever. -/
theorem wp_mineWith_found :
    wp (mineWith hash256 cfg)
      (fun result _ => result.found = true → Solves hash256 cfg result.nonce) (fun _ => True) e :=
  wp_mineWith_of_steps stepInvariant_sound .initial

end Found

end HermitMiner
