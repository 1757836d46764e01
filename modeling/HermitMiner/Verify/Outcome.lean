import HermitMiner.Oracle.Rounds
import HermitMiner.Verify.Verdict

/-!
# Who records the result

* `Held`: the nonces and hashes that are reported or about to be; each is a nonce with its own hash.
* `OneRecorder`: the exchange on `stop` lets one worker record.
* `mining_sound`: what `mine` returns, under every schedule.
-/

namespace HermitMiner

open Oracle

section Outcome

variable {hash256 : Bytes → Hash256} {cfg : MinerConfig} {requested : Bool} {tid : Nat}
  {m m' : Machine} {obs : List Obs} {nonce : UInt32} {hash : Hash256}

/-! ## Solutions in hand -/

/-- Worker `tid` is about to store this result. -/
def Recording (m : Machine) (tid : Nat) (nonce : UInt32) (hash : Hash256) : Prop :=
  (m.workers tid).pc = .recording nonce hash

/-- A worker has this solution in hand. -/
def Worker.Holds (w : Worker) (nonce : UInt32) (hash : Hash256) : Prop :=
  w.pc = .exchange nonce hash ∨ w.pc = .recording nonce hash

/-- The solution was reported, or a worker has it in hand. -/
def Held (m : Machine) (nonce : UInt32) (hash : Hash256) : Prop :=
  (m.result.found = true ∧ m.result.nonce = nonce ∧ m.result.hash = hash) ∨
    ∃ tid, (m.workers tid).Holds nonce hash

theorem held_setWorker {w : Worker} (h : Held (m.setWorker tid w) nonce hash) :
    Held m nonce hash ∨ w.Holds nonce hash := by
  rcases h with h | ⟨i, h⟩
  · exact Or.inl (Or.inl h)
  · rw [Machine.workers_setWorker] at h
    split at h
    · exact Or.inr h
    · exact Or.inl (Or.inr ⟨i, h⟩)

theorem Worker.not_holds {w : Worker} (h : w.pc.isHolding = false) : ¬w.Holds nonce hash := by
  rintro (hpc | hpc) <;> simp [hpc, WorkerPc.isHolding] at h

theorem Worker.loopHead_isHolding (w : Worker) : w.loopHead.pc.isHolding = false := by
  rcases w.loopHead_pc with h | h <;> simp [h, WorkerPc.isHolding]

/-- A step of a worker brings a solution only by hashing it. -/
theorem WorkerStep.held (hstep : WorkerStep hash256 cfg requested tid m obs m')
    (h : Held m' nonce hash) :
    Held m nonce hash ∨ ((m.workers tid).pc = .hashing ∧
      meetsDifficulty hash cfg.difficultyBits = true ∧ obs = [.hashed tid nonce] ∧
      nonce = (m.workers tid).nonce64.toUInt32 ∧ hash = hash256 (m.workers tid).hashNext.payload) := by
  cases hstep with
  | asked hpc | unasked hpc | stopped hpc | unstopped hpc | loses hpc =>
    exact Or.inl ((held_setWorker h).resolve_right (Worker.not_holds rfl))
  | miss hpc =>
    exact Or.inl ((held_setWorker h).resolve_right (Worker.not_holds (Worker.loopHead_isHolding _)))
  | hit hpc hmeets =>
    rcases held_setWorker h with h | h | h
    · exact Or.inl h
    · obtain ⟨rfl, rfl⟩ := WorkerPc.exchange.inj h
      exact Or.inr ⟨hpc, hmeets, rfl, rfl, rfl⟩
    · cases h
  | @wins n x hpc =>
    have hnow : Held m n x := Or.inr ⟨tid, Or.inl hpc⟩
    rcases held_setWorker h with h | h | h
    · exact Or.inl h
    · cases h
    · obtain ⟨rfl, rfl⟩ := WorkerPc.recording.inj h
      exact Or.inl hnow
  | @records n x hpc =>
    have hnow : Held m n x := Or.inr ⟨tid, Or.inr hpc⟩
    left
    rcases (held_setWorker h).resolve_right (Worker.not_holds rfl) with ⟨-, rfl, rfl⟩ | h
    · exact hnow
    · exact Or.inr h
  | adds hpc => exact Or.inl ((held_setWorker h).resolve_right (Worker.not_holds rfl))

/-- A step of the calling thread brings none. -/
theorem MainStep.held (hstep : MainStep cfg requested m obs (.inl m')) (h : Held m' nonce hash) :
    Held m nonce hash := by
  cases hstep with
  | spawn =>
    have hset : Held (m.setWorker _ (startWorker cfg _)) nonce hash := h
    exact (held_setWorker hset).resolve_right (Worker.not_holds (Worker.loopHead_isHolding _))
  | _ => exact h

/-! ## One recorder -/

/-- Whoever records is alone, has set `stop`, and comes before the result is there. -/
structure OneRecorder (m : Machine) : Prop where
  stopped : Winner m → m.stop = true
  unique : ∀ i n x j n' x', Recording m i n x → Recording m j n' x' → i = j
  recorded : m.result.found = true → ∀ i n x, ¬Recording m i n x

theorem recording_setWorker {w : Worker} {i : Nat} (h : Recording (m.setWorker tid w) i nonce hash) :
    (i ≠ tid ∧ Recording m i nonce hash) ∨ (i = tid ∧ w.pc = .recording nonce hash) := by
  rw [Recording, Machine.workers_setWorker] at h
  split at h
  · exact Or.inr ⟨‹_›, h⟩
  · exact Or.inl ⟨‹_›, h⟩

/-- A worker comes to record by winning the exchange on `stop`. -/
theorem WorkerStep.recording {i : Nat} (hstep : WorkerStep hash256 cfg requested tid m obs m')
    (h : Recording m' i nonce hash) :
    Recording m i nonce hash ∨ (i = tid ∧ m.stop = false) := by
  cases hstep with
  | miss =>
    rcases recording_setWorker h with ⟨-, h⟩ | ⟨-, h⟩
    · exact Or.inl h
    · exact absurd h (Worker.loopHead_ne_recording _ nonce hash)
  | wins _ hstop =>
    rcases recording_setWorker h with ⟨-, h⟩ | ⟨hi, -⟩
    · exact Or.inl h
    · exact Or.inr ⟨hi, hstop⟩
  | _ =>
    rcases recording_setWorker h with ⟨-, h⟩ | ⟨-, h⟩
    · exact Or.inl h
    · cases h

theorem OneRecorder.workerStep (h : OneRecorder m)
    (hstep : WorkerStep hash256 cfg requested tid m obs m') : OneRecorder m' := by
  have hdecides := hstep.decides
  have hold : ∀ {i n x}, Recording m i n x → m.stop = true := fun hi =>
    h.stopped (Or.inr ⟨_, _, _, hi⟩)
  refine ⟨?_, ?_, ?_⟩
  · intro hwinner
    rcases hdecides.winner with ⟨hkeep, hiff⟩ | ⟨-, hset, -⟩
    · rw [hkeep, h.stopped (hiff.1 hwinner)]
    · exact hset
  · intro i n x j n' x' hi hj
    rcases hstep.recording hi with hi | ⟨rfl, hunset⟩
    · rcases hstep.recording hj with hj | ⟨rfl, hunset⟩
      · exact h.unique i n x j n' x' hi hj
      · simp [hold hi] at hunset
    · rcases hstep.recording hj with hj | ⟨rfl, -⟩
      · simp [hold hj] at hunset
      · rfl
  · intro hfound i n x hi
    cases hstep with
    | records hpc =>
      -- the recorder leaves, and nobody else was recording
      rcases recording_setWorker hi with ⟨hne, hi⟩ | ⟨-, hi⟩
      · exact hne (h.unique i n x tid _ _ hi hpc)
      · cases hi
    | wins _ hstop =>
      have hset := h.stopped (Or.inl hfound)
      simp [hstop] at hset
    | miss =>
      rcases recording_setWorker hi with ⟨-, hi⟩ | ⟨-, hi⟩
      · exact h.recorded hfound i n x hi
      · exact Worker.loopHead_ne_recording _ n x hi
    | _ =>
      rcases recording_setWorker hi with ⟨-, hi⟩ | ⟨-, hi⟩
      · exact h.recorded hfound i n x hi
      · cases hi

theorem MainStep.recording {i : Nat} (hstep : MainStep cfg requested m obs (.inl m'))
    (h : Recording m' i nonce hash) : Recording m i nonce hash := by
  cases hstep with
  | spawn =>
    have hset : Recording (m.setWorker _ (startWorker cfg _)) i nonce hash := h
    rcases recording_setWorker hset with ⟨-, h⟩ | ⟨-, h⟩
    · exact h
    · exact absurd h (Worker.loopHead_ne_recording _ nonce hash)
  | _ => exact h

theorem MainStep.keeps (hstep : MainStep cfg requested m obs (.inl m')) :
    (m.stop = true → m'.stop = true) ∧ m'.result.found = m.result.found := by
  cases hstep <;> simp_all [Machine.setWorker]

theorem OneRecorder.mainStep (h : OneRecorder m)
    (hstep : MainStep cfg requested m obs (.inl m')) : OneRecorder m' := by
  obtain ⟨hstop, hfound⟩ := hstep.keeps
  refine ⟨?_, ?_, ?_⟩
  · rintro (hwin | ⟨i, n, x, hi⟩)
    · exact hstop (h.stopped (Or.inl (hfound ▸ hwin)))
    · exact hstop (h.stopped (Or.inr ⟨i, n, x, hstep.recording hi⟩))
  · intro i n x j n' x' hi hj
    exact h.unique i n x j n' x' (hstep.recording hi) (hstep.recording hj)
  · intro hset i n x hi
    exact h.recorded (hfound ▸ hset) i n x (hstep.recording hi)

/-- Once a worker has come to record, no other does in the rest of the run. -/
def Settles (p q : Machine) : Prop :=
  ∀ i n x, Recording p i n x →
    q.stop = true ∧ ∀ j n' x', Recording q j n' x' → (j, n', x') = (i, n, x)

theorem OneRecorder.settles (h : OneRecorder m) : Settles m m := by
  intro i n x hi
  refine ⟨h.stopped (Or.inr ⟨i, n, x, hi⟩), ?_⟩
  intro j n' x' hj
  obtain rfl := h.unique i n x j n' x' hi hj
  obtain ⟨rfl, rfl⟩ := WorkerPc.recording.inj (hi.symm.trans hj)
  rfl

theorem Settles.workerStep {p : Machine} (h : Settles p m)
    (hstep : WorkerStep hash256 cfg requested tid m obs m') : Settles p m' := by
  intro i n x hi
  obtain ⟨hstop, honly⟩ := h i n x hi
  refine ⟨hstep.decides.stopped hstop, ?_⟩
  intro j n' x' hj
  rcases hstep.recording hj with hj | ⟨-, hunset⟩
  · exact honly j n' x' hj
  · simp [hstop] at hunset

theorem Settles.mainStep {p : Machine} (h : Settles p m)
    (hstep : MainStep cfg requested m obs (.inl m')) : Settles p m' := by
  intro i n x hi
  obtain ⟨hstop, honly⟩ := h i n x hi
  exact ⟨hstep.keeps.1 hstop, fun j n' x' hj => honly j n' x' (hstep.recording hj)⟩

/-! ## The result -/

variable (hash256 cfg) in
/-- The solution is the hash of its own payload, and one of those counted. -/
def Genuine (new : List Obs) (nonce : UInt32) (hash : Hash256) : Prop :=
  hash = hash256 (payloadOf cfg nonce) ∧ meetsDifficulty hash cfg.difficultyBits = true ∧
    1 ≤ hashCount new

theorem Genuine.mono {new : List Obs} (h : Genuine hash256 cfg new nonce hash) (more : List Obs) :
    Genuine hash256 cfg (new ++ more) nonce hash :=
  ⟨h.1, h.2.1, h.2.2.trans (by rw [hashCount_append]; exact Nat.le_add_right _ _)⟩

variable (hash256 cfg) in
/-- What a search has found so far. -/
def HeldInv (e₀ : Env) (m : Machine) (e : Env) : Prop :=
  OneRecorder m ∧ During e₀ (fun new _ => ∀ n x, Held m n x → Genuine hash256 cfg new n x) e

theorem HeldInv.workerStep {e₀ e e' : Env} (h : HeldInv hash256 cfg e₀ m e)
    (hsound : MachineSound hash256 cfg m)
    (hstep : WorkerStep hash256 cfg requested tid m obs m') (hfollows : Follows e obs e') :
    HeldInv hash256 cfg e₀ m' e' := by
  refine ⟨h.1.workerStep hstep, h.2.follows hfollows fun new hheld => ?_⟩
  intro n x hx
  rcases hstep.held hx with hx | ⟨hpc, hmeets, rfl, hn, hhash⟩
  · exact (hheld n x hx).mono obs
  · refine ⟨?_, hmeets, ?_⟩
    · rw [hhash, hsound.hashNext_payload tid (by simp [hpc]), hn]
    · rw [hashCount_append]
      exact Nat.le_add_left _ _

theorem HeldInv.mainStep {e₀ e e' : Env} (h : HeldInv hash256 cfg e₀ m e)
    (hstep : MainStep cfg requested m obs (.inl m')) (hfollows : Follows e obs e') :
    HeldInv hash256 cfg e₀ m' e' := by
  refine ⟨h.1.mainStep hstep, h.2.follows hfollows fun new hheld => ?_⟩
  exact fun n x hx => (hheld n x (hstep.held hx)).mono obs

theorem stable_heldInv (e₀ : Env) (m : Machine) : Stable (HeldInv hash256 cfg e₀ m) := by
  have hduring : Stable (During e₀ fun new _ => ∀ n x, Held m n x → Genuine hash256 cfg new n x) :=
    stable_during (fun _ _ h n x hx => (h n x hx).mono _) fun _ _ _ h n x hx => (h n x hx).mono _
  exact ⟨fun h => ⟨h.1, hduring.signal h.2⟩, fun bytes h => ⟨h.1, hduring.arrive bytes h.2⟩⟩

theorem HeldInv.initial (e₀ : Env) : HeldInv hash256 cfg e₀ {} e₀ := by
  refine ⟨⟨?_, nofun, nofun⟩, [], (List.append_nil _).symm, ?_⟩
  · rintro (hfound | ⟨i, n, x, hi⟩)
    · cases hfound
    · cases hi
  · rintro n x (⟨hfound, -⟩ | ⟨i, hi | hi⟩)
    · cases hfound
    · cases hi
    · cases hi

/-- The solutions on top of the counts, and what follows from them of the result. -/
theorem stepInvariant_held (e₀ : Env) :
    StepInvariant hash256 cfg
      (fun m e => CountInv hash256 cfg e₀ m e ∧ HeldInv hash256 cfg e₀ m e) fun result e =>
      ((result.found = true → Solves hash256 cfg result.nonce) ∧
        result.hashesTried = hashCount (since e₀ e) ∧ result.hashesTried ≤ 2 ^ 32) ∧
      (result.found = true → Genuine hash256 cfg (since e₀ e) result.nonce result.hash) := by
  refine (stepInvariant_count e₀).and_of (stable_heldInv e₀)
    (fun hcount h _ _ _ _ hstep hfollows => h.workerStep hcount.1 hstep hfollows) ?_
  intro m e _ h obs r e' hstep hfollows
  cases r with
  | inl m' => exact h.mainStep hstep hfollows
  | inr result =>
    intro hfound
    obtain ⟨-, new, htrace, hheld⟩ := h
    cases hstep with
    | returns =>
      rw [since_eq (by rw [hfollows.1, List.append_nil, htrace])]
      exact hheld _ _ (Or.inl ⟨hfound, rfl, rfl⟩)

theorem rounds_settles (e₀ : Env) (events : List Event) :
    (Proc.rounds (mineRound hash256 cfg) {} e₀ events).Pairwise fun p q => Settles p.1 q.1 := by
  refine rounds_pairwise (I := fun m e => CountInv hash256 cfg e₀ m e ∧ HeldInv hash256 cfg e₀ m e)
    ⟨.initial e₀, .initial e₀⟩ ?_ events
  intro m e hI
  refine wp_mineRound ((stepInvariant_held e₀).stable m) hI ?_ ?_
  · intro e hI tid obs m' e' hstep hfollows
    exact ⟨(stepInvariant_held e₀).worker hI hstep hfollows, hI.2.1.settles.workerStep hstep,
      fun p hp => hp.workerStep hstep⟩
  · intro e hI obs r e' hstep hfollows
    cases r with
    | inr result => trivial
    | inl m' =>
      exact ⟨(stepInvariant_held e₀).main hI hstep hfollows, hI.2.1.settles.mainStep hstep,
        fun p hp => hp.mainStep hstep⟩

/-- Who records in one round is who records in the other. -/
def SameRecorder (p q : Machine × Env) : Prop :=
  ∀ i n x j n' x', Recording p.1 i n x → Recording q.1 j n' x' → (j, n', x') = (i, n, x)

instance : Std.Symm SameRecorder :=
  ⟨fun _ _ h i n x j n' x' hi hj => (h j n' x' i n x hj hi).symm⟩

theorem rounds_sameRecorder (e₀ : Env) (events : List Event) :
    ∀ p ∈ Proc.rounds (mineRound hash256 cfg) {} e₀ events,
      ∀ q ∈ Proc.rounds (mineRound hash256 cfg) {} e₀ events, SameRecorder p q := by
  have hrounds := rounds_of_steps (@stepInvariant_held hash256 cfg e₀)
    ⟨.initial e₀, .initial e₀⟩ events
  have hlater : (Proc.rounds (mineRound hash256 cfg) {} e₀ events).Pairwise SameRecorder :=
    (rounds_settles e₀ events).imp fun h i n x j n' x' hi hj => (h i n x hi).2 j n' x' hj
  refine List.Pairwise.forall_of_forall ?_ hlater
  intro p hp i n x j n' x' hi hj
  exact ((hrounds p hp).2.1.settles i n x hi).2 j n' x' hj

end Outcome

/-- **The result of mining**: in every run of `mine`, under every schedule, one worker at most comes
to record a result, and once; and a result that is returned as found is a nonce with the hash of its
own payload, which meets the difficulty, and comes with the number of hashes that all workers
computed. -/
theorem mining_sound (cfg : MinerConfig) (e₀ : Env) (events : List Event) :
    (∀ p ∈ Proc.rounds (mineRound doubleSha256 cfg) {} e₀ events,
      ∀ q ∈ Proc.rounds (mineRound doubleSha256 cfg) {} e₀ events,
      ∀ i n x j n' x', Recording p.1 i n x → Recording q.1 j n' x' → (j, n', x') = (i, n, x)) ∧
    (∀ p ∈ Proc.rounds (mineRound doubleSha256 cfg) {} e₀ events, p.1.result.found = true →
      ∀ i n x, ¬Recording p.1 i n x) ∧
    ∀ result e rest, (mine cfg).run e₀ events = .done result e rest → result.found = true →
      result.hash = doubleSha256 (cfg.prefixText ++ leBytes 4 result.nonce.toNat) ∧
      meetsDifficulty result.hash cfg.difficultyBits = true ∧
      result.hashesTried = hashCount (since e₀ e) ∧
      1 ≤ result.hashesTried ∧ result.hashesTried ≤ 2 ^ 32 := by
  have hinitial : CountInv doubleSha256 cfg e₀ {} e₀ ∧ HeldInv doubleSha256 cfg e₀ {} e₀ :=
    ⟨.initial e₀, .initial e₀⟩
  refine ⟨?_, ?_, ?_⟩
  · exact rounds_sameRecorder e₀ events
  · intro p hp hfound
    exact (rounds_of_steps (stepInvariant_held e₀) hinitial events p hp).2.1.recorded hfound
  · intro result e rest hrun hfound
    obtain ⟨⟨-, htried, hle⟩, hgenuine⟩ :=
      (wp_mineWith_of_steps (stepInvariant_held e₀) hinitial).done hrun
    obtain ⟨hhash, hmeets, hone⟩ := hgenuine hfound
    exact ⟨hhash, hmeets, htried, htried ▸ hone, hle⟩

theorem value_puzzleScript : ((mine puzzleConfig).run {} puzzleScript).value.map
    (fun result => (result.found, result.nonce)) = some (true, 2) := by
  decide +kernel

/-- Two workers, of which one misses and one finds its second nonce. -/
theorem mining_sound_script : ∃ result e rest,
    (mine puzzleConfig).run {} puzzleScript = .done result e rest ∧ result.nonce = 2 ∧
      result.hash = doubleSha256 (puzzleConfig.prefixText ++ leBytes 4 result.nonce.toNat) ∧
      meetsDifficulty result.hash puzzleConfig.difficultyBits = true ∧
      result.hashesTried = hashCount (since {} e) := by
  obtain ⟨result, hrun, hresult⟩ := Option.map_eq_some_iff.1 value_puzzleScript
  obtain ⟨hfound, hnonce⟩ := Prod.mk.inj hresult
  have hdone := Outcome.eq_done_of_value hrun
  obtain ⟨hhash, hmeets, htried, -⟩ :=
    (mining_sound puzzleConfig {} puzzleScript).2.2 result _ _ hdone hfound
  exact ⟨result, _, _, hdone, hnonce, hhash, hmeets, htried⟩

end HermitMiner
