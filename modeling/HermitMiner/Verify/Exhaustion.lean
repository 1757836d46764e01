import HermitMiner.Verify.Script
import HermitMiner.Verify.Workers

/-!
# Searching the whole nonce space

* `MainInv`, `Searching`: what the place of the calling thread says of the search.
* `Counting.exhausted`: a counter that reads all nonces, or all but one with every worker's share
  above one and no stop requested, means that all nonces were hashed in vain.
* `search_exhaustive_of_counts`: when `mine` has tried every nonce that it reports on.
-/

namespace HermitMiner

open Oracle

section Search

variable (hash256 : Bytes → Hash256) (cfg : MinerConfig)

/-! ## The machine -/

/-- Every nonce was hashed, and none solves the puzzle. -/
def Exhausted (new : List Obs) : Prop :=
  ∀ nonce : UInt32, (∃ tid, .hashed tid nonce ∈ new) ∧ ¬Solves hash256 cfg nonce

/-- What the place of the calling thread says. -/
def MainInv (new : List Obs) (m : Machine) : Prop :=
  match m.main with
  | .spawning tid =>
    (∀ i, tid ≤ i → (m.workers i).pc = .notStarted) ∧ (m.stop = true → Winner m)
  | .whileTest | .loadRequest | .storeAbort | .sleeping => m.stop = true → Winner m
  | .storeStop => Winner m ∨ Exhausted hash256 cfg new
  | .joining tid =>
    (∀ i < tid, (m.workers i).pc = .done) ∧
      (m.result.aborted = true ∨ Winner m ∨ Exhausted hash256 cfg new)

/-- What holds in a search, of which `new` are the observations. -/
structure Searching (new : List Obs) (stopRequested : Bool) (m : Machine) : Prop where
  workers : ∀ tid < cfg.threadCount.toNat,
    WorkerInv hash256 cfg new stopRequested m.stop tid (m.workers tid)
  idle : ∀ tid, cfg.threadCount.toNat ≤ tid → (m.workers tid).pc = .notStarted
  total : m.totalHashes = ∑ tid ∈ Finset.range cfg.threadCount.toNat, credit (m.workers tid)
  main : MainInv hash256 cfg new m

variable {hash256 cfg} {new new' : List Obs}
  {stopRequested stopRequested' : Bool} {tid : Nat} {m m' : Machine}

theorem Exhausted.mono (h : Exhausted hash256 cfg new) (hnew : ∀ o ∈ new, o ∈ new') :
    Exhausted hash256 cfg new' := by
  intro nonce
  obtain ⟨⟨tid, htid⟩, hmiss⟩ := h nonce
  exact ⟨⟨tid, hnew _ htid⟩, hmiss⟩

theorem MainInv.mono {m' : Machine} (h : MainInv hash256 cfg new m) (hmain : m'.main = m.main)
    (hnew : ∀ o ∈ new, o ∈ new')
    (hdone : ∀ i, (m.workers i).pc = .done → (m'.workers i).pc = .done)
    (hidle : ∀ i, (m.workers i).pc = .notStarted → (m'.workers i).pc = .notStarted)
    (hwin : Winner m → Winner m') (hstop : m'.stop = true → m.stop = true ∨ Winner m')
    (haborted : m.result.aborted = true → m'.result.aborted = true) :
    MainInv hash256 cfg new' m' := by
  have hstopped : (m.stop = true → Winner m) → m'.stop = true → Winner m' :=
    fun h' hs => (hstop hs).elim (fun hs' => hwin (h' hs')) id
  unfold MainInv at h ⊢
  rw [hmain]
  cases hpc : m.main with
  | spawning tid =>
    rw [hpc] at h
    exact ⟨fun i hi => hidle i (h.1 i hi), hstopped h.2⟩
  | whileTest => rw [hpc] at h; exact hstopped h
  | loadRequest => rw [hpc] at h; exact hstopped h
  | storeAbort => rw [hpc] at h; exact hstopped h
  | sleeping => rw [hpc] at h; exact hstopped h
  | storeStop =>
    rw [hpc] at h
    exact h.imp hwin fun hx => hx.mono hnew
  | joining tid =>
    rw [hpc] at h
    exact ⟨fun i hi => hdone i (h.1 i hi), h.2.imp haborted (Or.imp hwin fun hx => hx.mono hnew)⟩

theorem Searching.mono (h : Searching hash256 cfg new stopRequested m) (hnew : ∀ o ∈ new, o ∈ new')
    (hrequested : stopRequested = true → stopRequested' = true) :
    Searching hash256 cfg new' stopRequested' m where
  workers tid htid := (h.workers tid htid).mono hnew hrequested id
  idle := h.idle
  total := h.total
  main := h.main.mono rfl hnew (fun _ h => h) (fun _ h => h) id Or.inl id

theorem Counting.searching (h : Counting hash256 cfg new stopRequested m)
    (hmain : MainInv hash256 cfg new m) : Searching hash256 cfg new stopRequested m :=
  ⟨h.workers, h.idle, h.total, hmain⟩

/-- A step of a worker keeps what the place of the calling thread says. -/
theorem MainInv.worker (h : MainInv hash256 cfg new m) (hnew : ∀ o ∈ new, o ∈ new')
    (hstep : Decides tid m m') : MainInv hash256 cfg new' m' := by
  refine h.mono hstep.main hnew (fun _ => hstep.done) (fun _ => hstep.idle) ?_ ?_
    hstep.aborted.trans
  · intro hwin
    rcases hstep.winner with ⟨-, hiff⟩ | ⟨-, -, hnew⟩
    · exact hiff.2 hwin
    · exact hnew
  · intro hstop
    rcases hstep.winner with ⟨hkeep, -⟩ | ⟨-, -, hnew⟩
    · exact Or.inl (hkeep ▸ hstop)
    · exact Or.inr hnew

/-! ## The reporting loop -/

variable (cfg) in
/-- The reading of `total_hashes` decides nothing too early. -/
def SoundCount (hashes : Nat) (stopRequested : Bool) : Prop :=
  hashes = maxNonce → cfg.threadCount.toNat ≤ 2 ^ 31 ∧ stopRequested = false

/-- Workers that have done all nonces, or all but one soundly, have done all. -/
theorem Counting.full (h : Counting hash256 cfg new stopRequested m) (hstop : m.stop = false)
    (hcount : maxNonce ≤ m.totalHashes) (hsound : SoundCount cfg m.totalHashes stopRequested) :
    0 < cfg.threadCount.toNat ∧
      ∀ i < cfg.threadCount.toNat, credit (m.workers i) = nonceShare cfg i := by
  have hpos : 0 < cfg.threadCount.toNat := by
    apply Nat.pos_of_ne_zero
    intro hzero
    have htotal := h.total
    rw [hzero, Finset.range_zero, Finset.sum_empty] at htotal
    rw [htotal] at hcount
    exact absurd hcount (by decide)
  have hle : ∀ i < cfg.threadCount.toNat, credit (m.workers i) ≤ nonceShare cfg i :=
    fun i hi => (credit_le _).trans (h.workers i hi).within
  refine ⟨hpos, ?_⟩
  by_cases hshort : m.totalHashes = maxNonce
  · obtain ⟨hthreads, hrequested⟩ := hsound hshort
    refine Striding.full_of_sum hpos hle ?_ ?_
    · intro i hi
      by_cases hdone : (m.workers i).pc = .done
      · have hall := (h.workers i hi).leaving (by simp [hdone, WorkerPc.isLeaving]) hstop
        left
        rw [credit, if_pos hdone]
        exact hall.resolve_right (by simp [hrequested])
      · right
        rw [credit_eq_zero hdone]
        exact Striding.two_le_share hi (by omega)
    · rw [← h.total, hshort]
      decide
  · apply Striding.full_of_sum_eq hpos hle
    have hmost := h.totalHashes_le
    rw [← h.total]
    unfold maxNonce at hcount hshort
    omega

/-- **A sound count means that the search is exhausted.** -/
theorem Counting.exhausted (h : Counting hash256 cfg new stopRequested m)
    (hstop : m.stop = false) (hcount : maxNonce ≤ m.totalHashes)
    (hsound : SoundCount cfg m.totalHashes stopRequested) : Exhausted hash256 cfg new := by
  obtain ⟨hpos, hfull⟩ := h.full hstop hcount hsound
  intro nonce
  obtain ⟨htid, hindex, hnonce⟩ := Striding.mem_share hpos (n := 2 ^ 32) nonce.toNat_lt
  have hw := h.workers _ htid
  have hcredit := hfull _ htid
  -- a worker with a credit is done, and its credit is what it has hashed
  change _ < nonceShare cfg _ at hindex
  have hdone : (m.workers (nonce.toNat % cfg.threadCount.toNat)).pc = .done := by
    by_contra hrunning
    rw [credit_eq_zero hrunning] at hcredit
    have hnone : nonce.toNat / cfg.threadCount.toNat < 0 := hcredit ▸ hindex
    exact absurd hnone (Nat.not_lt_zero _)
  rw [credit, if_pos hdone] at hcredit
  have hat : nonceAt cfg (nonce.toNat % cfg.threadCount.toNat)
      (nonce.toNat / cfg.threadCount.toNat) = nonce := by
    rw [nonceAt, hnonce, Nat.toUInt32_eq, UInt32.ofNat_toNat]
  have hbelow : nonce.toNat / cfg.threadCount.toNat <
      (m.workers (nonce.toNat % cfg.threadCount.toNat)).localHashes := by
    rw [hcredit]
    exact hindex
  refine ⟨⟨nonce.toNat % cfg.threadCount.toNat, ?_⟩, ?_⟩
  · have hhashed := hw.hashed _ hbelow
    rwa [hat] at hhashed
  · have hmissed := hw.missed hstop (by simp [hdone, WorkerPc.isHolding]) _ hbelow
    rwa [hat] at hmissed

/-- All workers are joined, so that none is about to report. -/
theorem Searching.joined (h : Searching hash256 cfg new stopRequested m)
    (hmain : m.main = .joining tid) (htid : ¬tid < cfg.threadCount.toNat)
    (hfound : m.result.found = false) (haborted : m.result.aborted = false) :
    Exhausted hash256 cfg new := by
  have hinv := h.main
  rw [MainInv, hmain] at hinv
  obtain ⟨hdone, haborted' | (hfound' | ⟨i, nonce, hash, hpc⟩) | hexhausted⟩ := hinv
  · rw [haborted] at haborted'
    cases haborted'
  · rw [hfound] at hfound'
    cases hfound'
  · by_cases hi : i < cfg.threadCount.toNat
    · rw [hdone i (by omega)] at hpc
      cases hpc
    · rw [h.idle i (by omega)] at hpc
      cases hpc
  · exact hexhausted

variable (cfg) in
/-- A reading of `total_hashes` since `e₀` was not sound. -/
def Misread (e₀ e : Env) : Prop :=
  ∃ hashes stopRequested, .counted hashes stopRequested ∈ since e₀ e ∧
    ¬SoundCount cfg hashes stopRequested

variable (cfg) in
theorem aloof_misread (e₀ : Env) : Aloof (Misread cfg e₀) := by
  have hmono : ∀ {e : Env} (o : Obs), Misread cfg e₀ e → Misread cfg e₀ (e.observe o) := by
    rintro e o ⟨hashes, stopRequested, hmem, hcount⟩
    refine ⟨hashes, stopRequested, ?_, hcount⟩
    rw [since, Env.observe_trace, List.drop_append]
    exact List.mem_append_left _ hmem
  exact ⟨⟨fun h => hmono .signal h, fun b h => hmono (.arrived b) h⟩, fun _ _ h => hmono _ h,
    fun _ _ h => hmono _ h, fun _ h => h⟩

/-- The search so far, unless a reading was not sound. -/
def SearchInv (hash256 : Bytes → Hash256) (cfg : MinerConfig) (e₀ : Env) (m : Machine) (e : Env) :
    Prop :=
  MachineSound hash256 cfg m ∧ (Misread cfg e₀ e ∨
    During e₀ (fun new requested => Searching hash256 cfg new requested m) e)

/-- A worker that has not started yet has not won. -/
theorem Winner.spawn (h : Winner m) (hidle : (m.workers tid).pc = .notStarted) :
    Winner { m.setWorker tid (startWorker cfg tid) with main := .spawning (tid + 1) } := by
  have hiff : Winner (m.setWorker tid (startWorker cfg tid)) ↔ Winner m :=
    winner_setWorker_iff (by simp [hidle]) (Worker.loopHead_ne_recording _)
  exact hiff.2 h

/-- A step of the calling thread keeps what its place says, unless its reading is not sound. -/
theorem MainInv.mainStep {obs : List Obs} (h : MainInv hash256 cfg new m)
    (hcounting : Counting hash256 cfg new stopRequested m)
    (hstep : MainStep cfg stopRequested m obs (.inl m')) :
    (∃ hashes requested, .counted hashes requested ∈ obs ∧ ¬SoundCount cfg hashes requested) ∨
      MainInv hash256 cfg (new ++ obs) m' := by
  have hmore : ∀ o ∈ new, o ∈ new ++ obs := fun _ ho => List.mem_append_left _ ho
  unfold MainInv at h
  cases hstep with
  | @spawn tid hmain htid =>
    rw [hmain] at h
    refine Or.inr ⟨?_, fun hset => (h.2 hset).spawn (h.1 tid le_rfl)⟩
    intro i hi
    have hne : i ≠ tid := by omega
    exact (congrArg Worker.pc (by rw [Machine.workers_setWorker, if_neg hne])).trans
      (h.1 i (by omega))
  | spawned hmain =>
    rw [hmain] at h
    exact Or.inr h.2
  | unstopped hmain | asked hmain | unasked hmain | reports hmain =>
    rw [hmain] at h
    exact Or.inr h
  | stopped hmain hstop =>
    rw [hmain] at h
    exact Or.inr ⟨nofun, Or.inr (Or.inl (h hstop))⟩
  | aborts => exact Or.inr ⟨nofun, Or.inl rfl⟩
  | counts hmain hcount =>
    rw [hmain] at h
    by_cases hsound : SoundCount cfg m.totalHashes stopRequested
    · right
      cases hstop : m.stop with
      | true => exact Or.inl (h hstop)
      | false => exact Or.inr ((hcounting.exhausted hstop hcount hsound).mono hmore)
    · exact Or.inl ⟨_, _, List.mem_cons_self, hsound⟩
  | stops hmain =>
    rw [hmain] at h
    exact Or.inr ⟨nofun, Or.inr (h.imp_right fun hx => hx.mono hmore)⟩
  | joins hmain _ hdone =>
    rw [hmain] at h
    refine Or.inr ⟨?_, h.2.imp_right (Or.imp_right fun hx => hx.mono hmore)⟩
    intro i hi
    rcases Nat.lt_succ_iff_lt_or_eq.1 hi with hi | rfl
    · exact h.1 i hi
    · exact hdone

theorem Misread.follows {e₀ e e' : Env} {obs : List Obs} (h : Misread cfg e₀ e)
    (hfollows : Follows e obs e') : Misread cfg e₀ e' := by
  obtain ⟨hashes, requested, hmem, hcount⟩ := h
  refine ⟨hashes, requested, ?_, hcount⟩
  rw [since, hfollows.1, List.drop_append]
  exact List.mem_append_left _ hmem

theorem stable_searchInv (e₀ : Env) (m : Machine) : Stable (SearchInv hash256 cfg e₀ m) := by
  have hstable := (aloof_misread cfg e₀).toStable
  have hduring : Stable (During e₀ fun new requested => Searching hash256 cfg new requested m) :=
    stable_during (fun _ _ h => h.mono (fun _ ho => List.mem_append_left _ ho) fun _ => rfl)
      fun _ _ _ h => h.mono (fun _ ho => List.mem_append_left _ ho) id
  exact ⟨fun h => ⟨h.1, h.2.imp hstable.signal hduring.signal⟩,
    fun bytes h => ⟨h.1, h.2.imp (hstable.arrive bytes) (hduring.arrive bytes)⟩⟩

theorem SearchInv.worker {e₀ e e' : Env} {obs : List Obs} (h : SearchInv hash256 cfg e₀ m e)
    (hcount : CountInv hash256 cfg e₀ m e)
    (hstep : WorkerStep hash256 cfg e.stopRequested tid m obs m') (hfollows : Follows e obs e') :
    SearchInv hash256 cfg e₀ m' e' := by
  refine ⟨h.1.workerStep hstep, h.2.imp (fun h => h.follows hfollows) fun hsearch => ?_⟩
  refine (hcount.2.and hsearch).follows hfollows fun new h => ?_
  exact (h.1.workerStep hcount.1 hstep).searching
    (h.2.main.worker (fun _ ho => List.mem_append_left _ ho) hstep.decides)

theorem SearchInv.main {e₀ e e' : Env} {obs : List Obs} {r : Machine ⊕ MiningResult}
    (h : SearchInv hash256 cfg e₀ m e) (hcount : CountInv hash256 cfg e₀ m e)
    (hstep : MainStep cfg e.stopRequested m obs r) (hfollows : Follows e obs e') :
    Sum.elim (fun m' => SearchInv hash256 cfg e₀ m' e') (fun result => Misread cfg e₀ e' ∨
      (result.found = false → result.aborted = false →
        During e₀ (fun new _ => Exhausted hash256 cfg new) e')) r := by
  obtain ⟨hsound, hmisread | hsearch⟩ := h
  · have hsound' := stepInvariant_sound.main hsound hstep hfollows
    cases r with
    | inl m' => exact ⟨hsound', Or.inl (hmisread.follows hfollows)⟩
    | inr result => exact Or.inl (hmisread.follows hfollows)
  · have hsound' := stepInvariant_sound.main hsound hstep hfollows
    have hboth := hcount.2.and hsearch
    cases r with
    | inl m' =>
      refine ⟨hsound', ?_⟩
      obtain ⟨new, htrace, h, hsearch⟩ := hboth
      have htrace' : e'.trace = e₀.trace ++ (new ++ obs) := by
        rw [hfollows.1, htrace, List.append_assoc]
      rcases hsearch.main.mainStep h hstep with ⟨hashes, requested, hmem, hcount⟩ | hmain
      · refine Or.inl ⟨hashes, requested, ?_, hcount⟩
        rw [since_eq htrace']
        exact List.mem_append_right _ hmem
      · refine Or.inr ⟨_, htrace', ?_⟩
        rw [hfollows.2]
        exact (h.mainStep hstep).searching hmain
    | inr result =>
      right
      intro hfound haborted
      cases hstep with
      | returns hmain hall =>
        refine hsearch.follows hfollows fun new hsearch => ?_
        rw [List.append_nil]
        exact hsearch.joined hmain hall hfound haborted

theorem wp_mineWith_search (e₀ : Env) :
    wp (mineWith hash256 cfg)
      (fun result e => Misread cfg e₀ e ∨ (result.found = false → result.aborted = false →
        During e₀ (fun new _ => Exhausted hash256 cfg new) e))
      (fun _ => True) e₀ := by
  -- the search goes on top of the counts
  have hsteps := (@stepInvariant_count hash256 cfg e₀).and_of (stable_searchInv e₀)
    (fun hcount h _ _ _ _ hstep hfollows => h.worker hcount hstep hfollows)
    fun hcount h _ _ _ hstep hfollows => h.main hcount hstep hfollows
  refine wp_mono (wp_mineWith_of_steps hsteps ⟨.initial e₀, .initial, Or.inr ?_⟩)
    (fun _ _ h => h.2) fun _ h => h
  exact ⟨[], (List.append_nil _).symm, (Counting.initial _).searching ⟨fun _ _ => rfl, nofun⟩⟩

end Search

/-! ## A single worker -/

section Lone

variable {hash256 : Bytes → Hash256} {cfg : MinerConfig}

/-- A search by one worker, with the calling thread asleep. -/
def lone (w : Worker) : Machine where
  workers := Function.update (fun _ => {}) 0 w
  main := .sleeping

/-- The worker that has hashed the nonces below `k`. -/
def loneWorker (cfg : MinerConfig) (tail : Bytes) (k : Nat) : Worker :=
  Worker.loopHead { payload := cfg.prefixText ++ tail, nonce64 := k, localHashes := k }

def hashedBelow (k : Nat) : Env := { trace := (List.range k).map fun j => .hashed 0 j.toUInt32 }

theorem hashedBelow_succ (k : Nat) :
    (hashedBelow k).observe (.hashed 0 k.toUInt32) = hashedBelow (k + 1) := by
  simp [hashedBelow, Env.observe, List.range_succ]

theorem lone_setWorker (w w' : Worker) : (lone w).setWorker 0 w' = lone w' := by
  simp [lone, Machine.setWorker]

/-- A step of the one worker is a round of the loop. -/
theorem leads_worker {m m' : Machine} {e e' : Env} {tid : Nat}
    (h : ∀ rest, (workerStep hash256 cfg tid m).run e rest = .done m' e' rest) :
    Proc.Leads (mineRound hash256 cfg) m e [.worker tid] m' e' := by
  refine .round (advances_mineRound hash256 cfg) ?_
  intro rest
  have hround : (mineRound hash256 cfg m).run e ([.worker tid] ++ rest) =
      (workerStep hash256 cfg tid m >>= fun m' => pure (.inl m')).run e rest := rfl
  rw [hround, Proc.bind_run, h]
  rfl

/-- A step of the calling thread is a round of the loop. -/
theorem leads_reporter {m m' : Machine} {e e' : Env} {sec hps : Bytes}
    (h : ∀ rest, (mainStep cfg sec hps m).run e rest = .done (.inl m') e' rest) :
    Proc.Leads (mineRound hash256 cfg) m e [.reporter sec hps] m' e' :=
  .round (advances_mineRound hash256 cfg) h

theorem leads_loadRequest {w : Worker} {e : Env} (hpc : w.pc = .loadRequest)
    (hrequested : e.stopRequested = false) :
    Proc.Leads (mineRound hash256 cfg) (lone w) e [.worker 0] (lone { w with pc := .loadStop })
      e := by
  apply leads_worker
  intro rest
  have hw : (lone w).workers 0 = w := rfl
  simp only [workerStep, hw, hpc, Proc.bind_run, Proc.get_run, hrequested, lone_setWorker,
    Proc.pure_run, Bool.false_eq_true, if_false]

/-- The worker sees a stop request, and leaves its nonce untried. -/
theorem leads_told {w : Worker} {e : Env} (hpc : w.pc = .loadRequest)
    (hrequested : e.stopRequested = true) :
    Proc.Leads (mineRound hash256 cfg) (lone w) e [.worker 0] (lone { w with pc := .exiting })
      e := by
  apply leads_worker
  intro rest
  have hw : (lone w).workers 0 = w := rfl
  simp only [workerStep, hw, hpc, Proc.bind_run, Proc.get_run, hrequested, lone_setWorker,
    Proc.pure_run, if_true]

theorem leads_loadStop {w : Worker} {e : Env} (hpc : w.pc = .loadStop) :
    Proc.Leads (mineRound hash256 cfg) (lone w) e [.worker 0] (lone { w with pc := .hashing })
      e := by
  apply leads_worker
  intro rest
  have hw : (lone w).workers 0 = w := rfl
  have hstop : (lone w).stop = false := rfl
  simp only [workerStep, hw, hpc, hstop, lone_setWorker, Proc.pure_run, Bool.false_eq_true,
    if_false]

theorem leads_miss {w : Worker} {e : Env} (hpc : w.pc = .hashing) {tail : Bytes}
    (htail : tail.length = 4) (hpayload : w.payload = cfg.prefixText ++ tail)
    (hmiss : ¬Solves hash256 cfg w.nonce64.toUInt32) :
    Proc.Leads (mineRound hash256 cfg) (lone w) e [.worker 0]
      (lone (Worker.advance
        { w with
          payload := payloadOf cfg w.nonce64.toUInt32
          localHashes := (w.localHashes + 1) % 2 ^ 64 } cfg).loopHead)
      (e.observe (.hashed 0 w.nonce64.toUInt32)) := by
  apply leads_worker
  intro rest
  have hw : (lone w).workers 0 = w := rfl
  have hnext : w.hashNext = { w with
      payload := payloadOf cfg w.nonce64.toUInt32
      localHashes := (w.localHashes + 1) % 2 ^ 64 } := by
    rw [Worker.hashNext, hpayload, writeNonce_eq htail, payloadOf]
  have hmeets : ¬meetsDifficulty (hash256 (payloadOf cfg w.nonce64.toUInt32))
      cfg.difficultyBits = true := hmiss
  simp only [workerStep, hw, hpc, hnext, observe, Proc.bind_run, Proc.modify_run]
  rw [if_neg hmeets, lone_setWorker, Proc.pure_run]

theorem loneWorker_pc {tail : Bytes} {k : Nat} (hk : k < 2 ^ 32) :
    (loneWorker cfg tail k).pc = .loadRequest := by
  rw [loneWorker, Worker.loopHead, if_pos (by unfold maxNonce; dsimp only; omega)]

/-- The worker goes on with another nonce. -/
theorem leads_nonce (hthreads : cfg.threadCount = 1) {tail : Bytes} (htail : tail.length = 4)
    {k : Nat} (hk : k < 2 ^ 32) (hmiss : ¬Solves hash256 cfg k.toUInt32) :
    ∃ tail', tail'.length = 4 ∧
      Proc.Leads (mineRound hash256 cfg) (lone (loneWorker cfg tail k)) (hashedBelow k)
        ([.worker 0] ++ [.worker 0] ++ [.worker 0]) (lone (loneWorker cfg tail' (k + 1)))
        (hashedBelow (k + 1)) := by
  have hnext : (k + 1) % 2 ^ 64 = k + 1 := Nat.mod_eq_of_lt (by omega)
  have hhash : Proc.Leads (mineRound hash256 cfg)
      (lone { loneWorker cfg tail k with pc := .hashing }) (hashedBelow k) [.worker 0] _ _ :=
    leads_miss rfl htail rfl hmiss
  rw [← hashedBelow_succ]
  refine ⟨leBytes 4 k.toUInt32.toNat, rfl,
    ((leads_loadRequest (loneWorker_pc hk) rfl).trans (leads_loadStop rfl)).trans ?_⟩
  simpa only [loneWorker, Worker.loopHead, Worker.advance, hnext, hthreads, UInt32.reduceToNat,
    payloadOf] using hhash

/-- The calling thread starts the worker and goes to sleep. -/
theorem leads_start (hthreads : cfg.threadCount = 1) :
    Proc.Leads (mineRound hash256 cfg) {} {}
      ([.reporter [] []] ++ [.reporter [] []] ++ [.reporter [] []] ++ [.reporter [] []])
      (lone (loneWorker cfg [0, 0, 0, 0] 0)) (hashedBelow 0) := by
  have hone : cfg.threadCount.toNat = 1 := by rw [hthreads]; rfl
  have hspawn : Proc.Leads (mineRound hash256 cfg) {} {} [.reporter [] []]
      { lone (startWorker cfg 0) with main := .spawning 1 } {} :=
    leads_reporter fun rest => by simp [mainStep, hone, lone, Machine.setWorker]
  have hspawned : Proc.Leads (mineRound hash256 cfg)
      { lone (startWorker cfg 0) with main := .spawning 1 } {} [.reporter [] []]
      { lone (startWorker cfg 0) with main := .whileTest } {} :=
    leads_reporter fun rest => by simp [mainStep, hone]
  have htest : Proc.Leads (mineRound hash256 cfg)
      { lone (startWorker cfg 0) with main := .whileTest } {} [.reporter [] []]
      { lone (startWorker cfg 0) with main := .loadRequest } {} :=
    leads_reporter fun rest => by simp [mainStep, lone]
  have hload : Proc.Leads (mineRound hash256 cfg)
      { lone (startWorker cfg 0) with main := .loadRequest } {} [.reporter [] []]
      (lone (startWorker cfg 0)) {} :=
    leads_reporter fun rest => by simp [mainStep, lone, Proc.bind_run]
  exact ((hspawn.trans hspawned).trans htest).trans hload

/-- As long as no nonce solves the puzzle, the worker hashes them one by one. -/
theorem leads_nonces (hthreads : cfg.threadCount = 1) {k : Nat} (hk : k ≤ 2 ^ 32)
    (hmiss : ∀ j < k, ¬Solves hash256 cfg j.toUInt32) :
    ∃ events tail, tail.length = 4 ∧
      Proc.Leads (mineRound hash256 cfg) {} {} events (lone (loneWorker cfg tail k))
        (hashedBelow k) := by
  induction k with
  | zero => exact ⟨_, [0, 0, 0, 0], rfl, leads_start hthreads⟩
  | succ k ih =>
    obtain ⟨events, tail, htail, hleads⟩ := ih (by omega) fun j hj => hmiss j (by omega)
    obtain ⟨tail', htail', hnext⟩ := leads_nonce hthreads htail (by omega) (hmiss k (by omega))
    exact ⟨_, tail', htail', hleads.trans hnext⟩

/-- The one worker is done, and the calling thread is at `main`. -/
def loneDone (w : Worker) (main : MainPc) (stop : Bool) : Machine :=
  { lone { w with pc := .done } with main := main, stop := stop, totalHashes := w.localHashes }

/-- The reporting loop has read the counter. -/
def counted (cfg : MinerConfig) (hashes : Nat) (e : Env) : Env :=
  (e.observe (.counted hashes e.stopRequested)).addLog ⟨.info, str "miner", cfg.nodeId,
    str "Progress", str "hashes=" ++ dec hashes ++ str " elapsed=" ++ [] ++ str "s h/s=" ++ []⟩

theorem leads_exit {w : Worker} {e : Env} (hpc : w.pc = .exiting)
    (hlocal : w.localHashes ≤ 2 ^ 32) :
    Proc.Leads (mineRound hash256 cfg) (lone w) e [.worker 0] (loneDone w .sleeping false) e := by
  apply leads_worker
  intro rest
  have hw : (lone w).workers 0 = w := rfl
  have htotal : ((lone w).totalHashes + w.localHashes) % 2 ^ 64 = w.localHashes := by
    rw [show (lone w).totalHashes = 0 from rfl, Nat.zero_add, Nat.mod_eq_of_lt (by omega)]
  simp only [workerStep, hw, hpc, htotal, Proc.pure_run]
  simp [loneDone, lone, Machine.setWorker]

theorem leads_count {w : Worker} {e : Env} (hmost : maxNonce ≤ w.localHashes) :
    Proc.Leads (mineRound hash256 cfg) (loneDone w .sleeping false) e [.reporter [] []]
      (loneDone w .storeStop false) (counted cfg w.localHashes e) :=
  leads_reporter fun rest => by
    have hread : (mainStep cfg [] [] (loneDone w .sleeping false)).run e rest =
        (if maxNonce ≤ w.localHashes then
          (pure (.inl (loneDone w .storeStop false)) : Sys (Machine ⊕ MiningResult))
        else pure (.inl (loneDone w .whileTest false))).run (counted cfg w.localHashes e) rest :=
      rfl
    rw [hread, if_pos hmost, Proc.pure_run]

/-- A worker that leaves with all nonces but at most one ends the search without a result. -/
theorem run_leaving (hthreads : cfg.threadCount = 1) {w : Worker} {e : Env}
    (hpc : w.pc = .exiting) (hmost : maxNonce ≤ w.localHashes) (hlocal : w.localHashes ≤ 2 ^ 32)
    {m : Machine} {e₀ : Env} {events : List Event}
    (hleads : Proc.Leads (mineRound hash256 cfg) m e₀ events (lone w) e) :
    ∃ events' result e', (Proc.loop (mineRound hash256 cfg) m).run e₀ events' = .done result e' [] ∧
      result.found = false ∧ result.aborted = false ∧
      e'.trace = e.trace ++ [.counted w.localHashes e.stopRequested] := by
  have hone : cfg.threadCount.toNat = 1 := by rw [hthreads]; rfl
  have hstore : Proc.Leads (mineRound hash256 cfg) (loneDone w .storeStop false)
      (counted cfg w.localHashes e) [.reporter [] []] (loneDone w (.joining 0) true)
      (counted cfg w.localHashes e) :=
    leads_reporter fun rest => by simp [mainStep, loneDone]
  have hjoin : Proc.Leads (mineRound hash256 cfg) (loneDone w (.joining 0) true)
      (counted cfg w.localHashes e) [.reporter [] []] (loneDone w (.joining 1) true)
      (counted cfg w.localHashes e) :=
    leads_reporter fun rest => by simp [mainStep, hone, loneDone, lone]
  have hreturn : (mainStep cfg [] [] (loneDone w (.joining 1) true)).run
      (counted cfg w.localHashes e) [] =
      .done (.inr { hashesTried := w.localHashes }) (counted cfg w.localHashes e) [] := by
    simp [mainStep, hone, loneDone, lone]
  have hall := (((hleads.trans (leads_exit hpc hlocal)).trans (leads_count hmost)).trans
    hstore).trans hjoin
  exact ⟨_, _, _, hall.done (advances_mineRound hash256 cfg)
    (show (mineRound hash256 cfg _).run _ [.reporter [] []] = _ from hreturn), rfl, rfl, rfl⟩

/-- A stop request that reaches the worker at its last nonce, and not the calling thread. -/
theorem run_shortOfOne (hthreads : cfg.threadCount = 1)
    (hmiss : ∀ j < maxNonce, ¬Solves hash256 cfg j.toUInt32) :
    ∃ events result e, (mineWith hash256 cfg).run {} events = .done result e [] ∧
      result.found = false ∧ result.aborted = false ∧
      ∀ tid, .hashed tid maxNonce.toUInt32 ∉ e.trace := by
  obtain ⟨events, tail, -, hleads⟩ := leads_nonces hthreads (by decide) hmiss
  have hsignal : Proc.Leads (mineRound hash256 cfg) (lone (loneWorker cfg tail maxNonce))
      (hashedBelow maxNonce) [.signal] (lone (loneWorker cfg tail maxNonce))
      (hashedBelow maxNonce).signal := .before (advances_mineRound hash256 cfg) fun _ => rfl
  obtain ⟨events', result, e, hrun, hfound, haborted, htrace⟩ :=
    run_leaving hthreads rfl (Nat.le_refl maxNonce) (show maxNonce ≤ 2 ^ 32 by decide)
      ((hleads.trans hsignal).trans (leads_told (loneWorker_pc (by decide)) rfl))
  refine ⟨events', result, e, hrun, hfound, haborted, ?_⟩
  intro tid hmem
  rw [htrace] at hmem
  simp only [Env.signal_trace, hashedBelow, List.mem_append, List.mem_map, List.mem_range,
    List.mem_singleton, reduceCtorEq, or_false] at hmem
  obtain ⟨j, hj, heq⟩ := hmem
  have hnonce : j.toUInt32 = maxNonce.toUInt32 := by injection heq
  have hvalue := congrArg UInt32.toNat hnonce
  have hbound : j < 2 ^ 32 - 1 := hj
  have hlast : maxNonce.toUInt32.toNat = 2 ^ 32 - 1 := by decide
  rw [hlast, Nat.toUInt32_eq, UInt32.toNat_ofNat', Nat.mod_eq_of_lt (by omega)] at hvalue
  omega

end Lone

/-! ## When `mine` searches everything -/

/-- **When `mine` searches everything**: if every reading of the counter is sound, a search that
ends without a solution and without an abort has hashed every nonce, and none solves the puzzle. -/
theorem search_exhaustive_of_counts (hash256 : Bytes → Hash256) (cfg : MinerConfig) (e₀ e : Env)
    (events rest : List Event) (result : MiningResult)
    (hrun : (mineWith hash256 cfg).run e₀ events = .done result e rest)
    (hcounts : ∀ hashes stopRequested, .counted hashes stopRequested ∈ since e₀ e →
      SoundCount cfg hashes stopRequested)
    (hfound : result.found = false) (haborted : result.aborted = false) :
    Exhausted hash256 cfg (since e₀ e) := by
  rcases (wp_mineWith_search e₀).done hrun with ⟨hashes, stopRequested, hmem, hcount⟩ | h
  · exact absurd (hcounts hashes stopRequested hmem) hcount
  · obtain ⟨new, htrace, hexhausted⟩ := h hfound haborted
    rw [since_eq htrace]
    exact hexhausted

/-- A hash that meets no difficulty but 0. -/
def onesHash : Bytes → Hash256 := fun _ => Vector.replicate 32 0xff

theorem not_solves_onesHash (nonce : UInt32) : ¬Solves onesHash scriptConfig nonce := by
  unfold Solves onesHash
  decide

theorem search_exhaustive_of_counts_lone : ∃ events result e,
    (mineWith onesHash scriptConfig).run {} events = .done result e [] ∧ result.found = false ∧
      Exhausted onesHash scriptConfig (since {} e) := by
  have hthreads : scriptConfig.threadCount = 1 := rfl
  obtain ⟨events, tail, -, hleads⟩ := leads_nonces hthreads (Nat.le_refl (2 ^ 32)) fun j _ =>
    not_solves_onesHash j.toUInt32
  obtain ⟨events', result, e, hrun, hfound, haborted, htrace⟩ :=
    run_leaving hthreads rfl (show maxNonce ≤ 2 ^ 32 by decide) (Nat.le_refl _) hleads
  refine ⟨events', result, e, hrun, hfound,
    search_exhaustive_of_counts onesHash scriptConfig {} e events' [] result hrun ?_ hfound
      haborted⟩
  intro hashes stopRequested hmem hshort
  rw [since, List.length_nil, List.drop_zero, htrace] at hmem
  simp only [hashedBelow, List.mem_append, List.mem_map, List.mem_singleton, reduceCtorEq,
    and_false, exists_false, false_or] at hmem
  obtain ⟨heq, -⟩ : hashes = 2 ^ 32 ∧ _ := by injection hmem with h h'; exact ⟨h, h'⟩
  rw [heq] at hshort
  exact absurd hshort (by decide)

/-- A search of one thread that is told to stop at its last nonce, with every other nonce tried in
vain, does not end as an abort. For the double SHA-256 this needs a puzzle without a solution. -/
theorem search_not_exhaustive :
    (¬∀ hash256 cfg events result e rest, validateConfig cfg = .ok () →
      (mineWith hash256 cfg).run {} events = .done result e rest →
      result.found = false → result.aborted = false → Exhausted hash256 cfg (since {} e)) ∧
    ∀ cfg, cfg.threadCount = 1 → (∀ j < maxNonce, ¬Solves doubleSha256 cfg j.toUInt32) →
      ∃ events result e, (mine cfg).run {} events = .done result e [] ∧ result.found = false ∧
        result.aborted = false ∧ ∀ tid, .hashed tid maxNonce.toUInt32 ∉ e.trace := by
  refine ⟨?_, fun cfg hthreads hmiss => run_shortOfOne hthreads hmiss⟩
  intro hclaim
  have hthreads : scriptConfig.threadCount = 1 := rfl
  obtain ⟨events, result, e, hrun, hfound, haborted, hmissing⟩ :=
    run_shortOfOne hthreads fun j _ => not_solves_onesHash j.toUInt32
  obtain ⟨⟨tid, htid⟩, -⟩ := hclaim onesHash scriptConfig events result e []
    validateConfig_scriptConfig hrun hfound haborted maxNonce.toUInt32
  exact hmissing tid htid

end HermitMiner
