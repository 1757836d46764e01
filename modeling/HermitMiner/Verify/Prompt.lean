import HermitMiner.Verify.Protocol
import HermitMiner.Verify.Workers
import Mathlib.Data.Multiset.AddSub

/-!
# A stop is prompt

What the program still does after a stop request, whatever it was doing when the request came.

* `late`: what is observed from the request on.
* `Effort`, `efforts`: the kinds of what a session does, and how much of each was done.
* `Clear`, `Since`: nothing is late, and what was done since.
* `stop_is_prompt`: at most the rest of a handshake, of one job, or of one sleep, and one more hash
  for each worker.
-/

namespace HermitMiner

open Oracle StratumClient

/-! ## What is late -/

/-- What is observed from the first stop request on. -/
def late (t : List Obs) : List Obs := t.dropWhile (· ≠ .signal)

theorem late_eq_nil {t : List Obs} : late t = [] ↔ .signal ∉ t := by
  rw [late, List.dropWhile_eq_nil_iff]
  simp only [decide_eq_true_eq]
  exact ⟨fun h hmem => h _ hmem rfl, fun h o hmem heq => h (heq ▸ hmem)⟩

theorem late_append {t : List Obs} (h : late t = []) (new : List Obs) :
    late (t ++ new) = late new := by
  unfold late at *
  rw [List.dropWhile_append, h]
  rfl

theorem late_sublist (t : List Obs) : (late t).Sublist t := (List.dropWhile_suffix _).sublist

theorem late_concat (t : List Obs) (o : Obs) :
    late (t ++ [o]) = if .signal ∈ t then late t ++ [o] else late [o] := by
  by_cases h : .signal ∈ t
  · have hlate : late t ≠ [] := fun hnil => late_eq_nil.1 hnil h
    unfold late at *
    rw [if_pos h, List.dropWhile_append, if_neg (by simpa using hlate)]
  · rw [if_neg h, late_append (late_eq_nil.2 h)]

/-! ## Efforts -/

/-- What the program can do after a stop request. -/
inductive Effort where
  | start
  | connect
  | send
  | deliver
  | accept
  | sleep
  deriving DecidableEq

def Obs.effort : Obs → Option Effort
  | .sessionStarted => some .start
  | .connected => some .connect
  | .sent _ => some .send
  | .delivered _ => some .deliver
  | .accepted .. => some .accept
  | .slept _ => some .sleep
  | _ => none

def efforts (t : List Obs) : Multiset Effort := t.filterMap Obs.effort

/-- The rest of a handshake. -/
def handshake : Multiset Effort := {.connect, .send, .send}

/-- The rest of a round: a job and a share. -/
def oneJob : Multiset Effort := {.deliver, .send, .accept}

def oneSleep : Multiset Effort := {.sleep}

theorem efforts_append (t u : List Obs) : efforts (t ++ u) = efforts t + efforts u := by
  rw [efforts, List.filterMap_append, ← Multiset.coe_add]
  rfl

theorem efforts_mono {t u : List Obs} (h : t.Sublist u) : efforts t ≤ efforts u :=
  (h.filterMap _).subperm

theorem effort_of_not_step {o : Obs} (ho : o.isStep = false) : o.effort = none := by
  cases o with
  | connected | sent | delivered | accepted | sessionStarted | slept => cases ho
  | _ => rfl

/-! ## Hashes -/

def Obs.isHash : Obs → Bool
  | .hashed .. => true
  | _ => false

/-- How many hashes are late. -/
def lateHashes (t : List Obs) : Nat := (late t).countP Obs.isHash

theorem lateHashes_concat {t : List Obs} {o : Obs} (ho : o.isHash = false) :
    lateHashes (t ++ [o]) = lateHashes t := by
  have hone : ∀ u : List Obs, u.Sublist [o] → u.countP Obs.isHash = 0 := by
    intro u hu
    refine Nat.eq_zero_of_le_zero (hu.countP_le.trans_eq ?_)
    rw [List.countP_singleton, ho]
    rfl
  unfold lateHashes
  rw [late_concat]
  split
  · rw [List.countP_append, hone _ (List.Sublist.refl _), Nat.add_zero]
  · rename_i h
    rw [late_eq_nil.2 h, hone _ (late_sublist _)]
    rfl

theorem isHash_of_not_step {o : Obs} (ho : o.isStep = false) : o.isHash = false := by
  cases o with
  | hashed tid nonce => cases ho
  | _ => rfl

/-! ## Where a session stands -/

/-- A request has been noted in the flag. -/
def Heard (e : Env) : Prop := .signal ∈ e.trace → e.stopRequested = true

/-- No stop has been requested. -/
structure Clear (e : Env) : Prop where
  heard : Heard e
  late : late e.trace = []

/-- What was done since `e₀`, where nothing was late, and how many hashes are. -/
structure Since (e₀ : Env) (B : Multiset Effort) (hashes : Nat) (e : Env) : Prop where
  heard : Heard e
  within : ∃ new, e.trace = e₀.trace ++ new ∧ efforts new ≤ B
  hashes : lateHashes e.trace ≤ hashes

theorem Heard.concat {e e' : Env} (h : Heard e) (o : Obs) (ho : o ≠ .signal)
    (htrace : e'.trace = e.trace ++ [o]) (hstop : e'.stopRequested = e.stopRequested) : Heard e' := by
  intro hmem
  rw [hstop]
  rw [htrace] at hmem
  exact h ((List.mem_append.1 hmem).resolve_right fun hlast => ho (List.mem_singleton.1 hlast).symm)

section Since

variable {e₀ e e' : Env} {B B' : Multiset Effort} {n n' : Nat}

theorem Since.mono (h : Since e₀ B n e) (hB : B ≤ B') (hn : n ≤ n') : Since e₀ B' n' e :=
  ⟨h.heard, h.within.imp fun _ h => ⟨h.1, h.2.trans hB⟩, h.hashes.trans hn⟩

theorem Clear.since (h : Clear e) : Since e 0 0 e := by
  refine ⟨h.heard, ⟨[], (List.append_nil _).symm, le_rfl⟩, ?_⟩
  rw [lateHashes, h.late]
  rfl

theorem Since.quiet (h : Since e₀ B n e) {o : Obs} (hheard : Heard e') (ho : o.effort = none)
    (hhash : o.isHash = false) (htrace : e'.trace = e.trace ++ [o]) : Since e₀ B n e' := by
  obtain ⟨new, hnew, hle⟩ := h.within
  refine ⟨hheard, ⟨new ++ [o], by rw [htrace, hnew, List.append_assoc], ?_⟩, ?_⟩
  · have hnone : efforts [o] = 0 := by rw [efforts, List.filterMap_cons_none ho]; rfl
    rwa [efforts_append, hnone, add_zero]
  · rw [htrace, lateHashes_concat hhash]
    exact h.hashes

variable (e₀ B n) in
theorem silent_since : Silent (Since e₀ B n) where
  signal h := h.quiet (fun _ => rfl) rfl rfl rfl
  arrive bytes h := h.quiet (h.heard.concat (.arrived bytes) nofun rfl rfl) rfl rfl rfl
  observe o ho h := by
    have hsignal : o ≠ .signal := by
      rintro rfl
      cases ho
    exact h.quiet (h.heard.concat o hsignal rfl rfl) (effort_of_not_step ho)
      (isHash_of_not_step ho) rfl
  pop c _ h := h.quiet (h.heard.concat (.received c) nofun rfl rfl) rfl rfl rfl
  disconnect h := ⟨h.heard, h.within, h.hashes⟩
  addLog _ h := ⟨h.heard, h.within, h.hashes⟩

/-- One more effort. -/
theorem Since.act (h : Since e₀ B n e) {o : Obs} {k : Effort} (ho : o.effort = some k)
    (hheard : Heard e') (htrace : e'.trace = e.trace ++ [o]) : Since e₀ (B + {k}) n e' := by
  obtain ⟨new, hnew, hle⟩ := h.within
  have hhash : o.isHash = false := by
    cases o with
    | hashed tid nonce => cases ho
    | _ => rfl
  refine ⟨hheard, ⟨new ++ [o], by rw [htrace, hnew, List.append_assoc], ?_⟩, ?_⟩
  · have hone : efforts [o] = {k} := by rw [efforts, List.filterMap_cons_some ho]; rfl
    rw [efforts_append, hone]
    exact add_le_add hle le_rfl
  · rw [htrace, lateHashes_concat hhash]
    exact h.hashes

theorem Since.observe (h : Since e₀ B n e) {o : Obs} {k : Effort} (ho : o.effort = some k) :
    Since e₀ (B + {k}) n (e.observe o) := by
  refine h.act ho (h.heard.concat o ?_ rfl rfl) rfl
  rintro rfl
  cases ho

/-! ## The client -/

variable (self : StratumClient)

theorem wp_connectToPool_since (h : Since e₀ B n e) :
    wp self.connectToPool (fun _ => Since e₀ (B + {.connect}) n) (Since e₀ (B + {.connect}) n) e := by
  have hI := silent_since e₀ B n
  have hmore : ∀ {e}, Since e₀ B n e → Since e₀ (B + {.connect}) n e :=
    fun h => h.mono le_self_add le_rfl
  have hlost : ∀ message context e, Since e₀ B n e → wp (do
      observe .unreachable
      self.logLine .err message context
      return false) (fun _ => Since e₀ (B + {.connect}) n) (Since e₀ (B + {.connect}) n) e :=
    fun message context e h =>
      wp_update (wp_update (wp_pure (hmore (hI.addLog _ (hI.observe _ rfl h)))))
  refine wp_bind (wp_resolve hI.toStable h (fun _ h => hmore h) fun addresses e h => ?_)
  refine wp_ite (fun _ => hlost _ _ e h) fun _ => wp_call (hI.dialLoop addresses e h)
    (fun ok e h => ?_) fun _ h => hmore h
  refine wp_ite (fun _ => wp_update (wp_update (wp_pure ?_))) fun _ => hlost _ _ e h
  have hconnected : Since e₀ (B + {.connect}) n e.connect :=
    h.act rfl (h.heard.concat .connected nofun rfl rfl) rfl
  exact (silent_since e₀ _ n).addLog _ hconnected

/-- A request, and what is done with its response. -/
theorem wp_request_since {α : Type} {request : Nat → Bytes} {timeoutSec : UInt32}
    {f : Nat → Option Bytes → Sys α} {Q : α → Env → Prop} {R : Env → Prop} (h : Since e₀ B n e)
    (hf : ∀ id response e, Since e₀ (B + {.send}) n e → wp (f id response) Q R e)
    (hR : ∀ e, Since e₀ (B + {.send}) n e → R e) :
    wp (do
      let id ← takeId
      let response ← self.requestResponse (request id) timeoutSec
      f id response) Q R e := by
  have htaken : Since e₀ B n e.takeId := ⟨h.heard, h.within, h.hashes⟩
  have hmore : ∀ {e}, Since e₀ B n e → Since e₀ (B + {.send}) n e :=
    fun h => h.mono le_self_add le_rfl
  refine wp_bind (wp_read (wp_update (wp_pure ?_)))
  refine wp_call ((silent_since e₀ B n).requestResponse self (silent_since e₀ (B + {.send}) n)
    (K := fun _ => Since e₀ (B + {.send}) n) htaken (fun _ h => h.observe rfl)
    fun line e h => ?_) (fun response e h => hf _ _ _ ?_) fun e h => hR e (h.elim hmore id)
  · exact h.quiet (h.heard.concat _ (Obs.noConfusion ·) rfl rfl) rfl rfl rfl
  · cases response with
    | none => exact h.elim hmore id
    | some line => exact h

theorem wp_subscribe_since (h : Since e₀ B n e) (agent : Bytes) :
    wp (self.subscribe agent) (fun _ => Since e₀ (B + {.send}) n) (Since e₀ (B + {.send}) n) e := by
  have hI := silent_since e₀ (B + {.send}) n
  refine wp_request_since self h (fun id response e h => ?_) fun _ h => h
  cases response with
  | none => exact wp_update (wp_pure (hI.addLog _ h))
  | some line =>
    exact wp_ite (fun _ => wp_update (wp_pure (hI.addLog _ h)))
      fun _ => wp_update (wp_pure (hI.addLog _ h))

theorem wp_authorize_since (h : Since e₀ B n e) (username password : Bytes) :
    wp (self.authorize username password) (fun _ => Since e₀ (B + {.send}) n)
      (Since e₀ (B + {.send}) n) e := by
  have hI := silent_since e₀ (B + {.send}) n
  refine wp_request_since self h (fun id response e h => ?_) fun _ h => h
  cases response with
  | none => exact wp_update (wp_pure (hI.addLog _ h))
  | some line =>
    exact wp_ite (fun _ => wp_update (wp_pure (hI.addLog _ h)))
      fun _ => wp_update (wp_pure (hI.addLog _ h))

theorem wp_submitShare_since (h : Since e₀ B n e) (username jobId : Bytes) (nonce : UInt32) :
    wp (self.submitShare username jobId nonce) (fun _ => Since e₀ (B + {.send} + {.accept}) n)
      (Since e₀ (B + {.send} + {.accept}) n) e := by
  have hI := silent_since e₀ (B + {.send} + {.accept}) n
  have hmore : ∀ {e}, Since e₀ (B + {.send}) n e → Since e₀ (B + {.send} + {.accept}) n e :=
    fun h => h.mono le_self_add le_rfl
  refine wp_request_since self h (fun id response e h => ?_) fun _ h => hmore h
  cases response with
  | none => exact wp_update (wp_pure (hI.addLog _ (hmore h)))
  | some line =>
    dsimp only
    cases parseBoolResult line with
    | none => exact wp_update (wp_pure (hI.addLog _ (hmore h)))
    | some ok =>
      cases ok with
      | false => exact wp_update (wp_pure (hI.addLog _ (hmore h)))
      | true => exact wp_update (wp_update (wp_pure (hI.addLog _ (h.observe rfl))))

end Since

/-! ## The search -/

section Search

variable {hash256 : Bytes → Hash256} {cfg : MinerConfig} {m m' : Machine} {e e' e₀ : Env}
  {B : Multiset Effort} {tid : Nat} {w : Worker}

/-- The worker is past the test of the stop request, and before its next hash. -/
def Worker.unasked (w : Worker) : Nat :=
  match w.pc with
  | .loadStop | .hashing => 1
  | _ => 0

variable (cfg) in
/-- How many workers are. -/
def unaskedWorkers (m : Machine) : Nat :=
  ∑ tid ∈ Finset.range cfg.threadCount.toNat, (m.workers tid).unasked

theorem Worker.unasked_le (w : Worker) : w.unasked ≤ 1 := by
  unfold Worker.unasked
  split <;> omega

theorem Worker.unasked_loopHead (w : Worker) : w.loopHead.unasked = 0 := by
  unfold Worker.unasked
  rcases w.loopHead_pc with h | h <;> rw [h]

theorem unaskedWorkers_le (m : Machine) : unaskedWorkers cfg m ≤ cfg.threadCount.toNat := by
  have hsum := Finset.sum_le_card_nsmul (Finset.range cfg.threadCount.toNat)
    (fun tid => (m.workers tid).unasked) 1 fun tid _ => (m.workers tid).unasked_le
  simpa [unaskedWorkers] using hsum

theorem unaskedWorkers_setWorker (htid : tid < cfg.threadCount.toNat) :
    unaskedWorkers cfg (m.setWorker tid w) + (m.workers tid).unasked =
      unaskedWorkers cfg m + w.unasked := sum_setWorker Worker.unasked htid

variable (cfg) in
/-- The late hashes, and those that can still come late. -/
structure Winding (e₀ : Env) (B : Multiset Effort) (m : Machine) (e : Env) : Prop where
  heard : Heard e
  within : ∃ new, e.trace = e₀.trace ++ new ∧ efforts new ≤ B
  hashes : e.stopRequested = true →
    lateHashes e.trace + unaskedWorkers cfg m ≤ cfg.threadCount.toNat

theorem Winding.since (h : Winding cfg e₀ B m e) : Since e₀ B cfg.threadCount.toNat e := by
  refine ⟨h.heard, h.within, ?_⟩
  cases hstop : e.stopRequested with
  | true => exact Nat.le_trans (Nat.le_add_right _ _) (h.hashes hstop)
  | false =>
    have hnone : late e.trace = [] := late_eq_nil.2 fun hmem => by
      rw [h.heard hmem] at hstop
      cases hstop
    rw [lateHashes, hnone]
    exact Nat.zero_le _

/-- A step that does not take place changes nothing. -/
theorem wp_workerStep_halts (m : Machine) (e : Env) :
    wp (workerStep hash256 cfg tid m) (fun _ _ => True) (fun e' => e' = e) e := by
  unfold workerStep
  dsimp only
  cases (m.workers tid).pc with
  | notStarted => exact wp_halt rfl
  | done => exact wp_halt rfl
  | loadRequest => exact wp_read (wp_ite (fun _ => wp_pure trivial) fun _ => wp_pure trivial)
  | hashing => exact wp_update (wp_ite (fun _ => wp_pure trivial) fun _ => wp_pure trivial)
  | loadStop | exchange => exact wp_ite (fun _ => wp_pure trivial) fun _ => wp_pure trivial
  | recording | exiting => exact wp_pure trivial

theorem wp_mainStep_halts (sec hps : Bytes) (m : Machine) (e : Env) :
    wp (mainStep cfg sec hps m) (fun _ _ => True) (fun e' => e' = e) e := by
  unfold mainStep
  cases m.main with
  | loadRequest => exact wp_read (wp_ite (fun _ => wp_pure trivial) fun _ => wp_pure trivial)
  | sleeping =>
    exact wp_read (wp_update (wp_update (wp_ite (fun _ => wp_pure trivial) fun _ => wp_pure trivial)))
  | joining tid =>
    exact wp_ite (fun _ => wp_ite (fun _ => wp_pure trivial) fun _ => wp_halt rfl)
      fun _ => wp_pure trivial
  | spawning | whileTest => exact wp_ite (fun _ => wp_pure trivial) fun _ => wp_pure trivial
  | storeAbort | storeStop => exact wp_pure trivial

/-- What the steps keep holds in every state of a search. -/
theorem StepInvariant.everywhere {I : Machine → Env → Prop} {Q : MiningResult → Env → Prop}
    {R : Env → Prop} (h : StepInvariant hash256 cfg I Q) (hI : I {} e)
    (hR : ∀ m e, I m e → R e) : wp (mineWith hash256 cfg) Q R e := by
  refine wp_loop (I := I) hI (fun m e hI => ?_) hR
  refine wp_bind (wp_awaitEvent (h.stable m) hI (hR m) ?_)
  intro ev e hI
  cases ev with
  | worker tid =>
    refine wp_call (wp_and (wp_workerStep hash256 cfg tid m e) (wp_workerStep_halts m e)) ?_ ?_
    · rintro m' e' ⟨⟨obs, hstep, hfollows⟩, -⟩
      exact wp_again (h.worker hI hstep hfollows)
    · rintro _ ⟨-, rfl⟩
      exact hR m _ hI
  | reporter sec hps =>
    refine wp_mono (wp_and (wp_mainStep cfg sec hps m e) (wp_mainStep_halts sec hps m e)) ?_ ?_
    · rintro r e' ⟨⟨obs, hstep, hfollows⟩, -⟩
      exact h.main hI hstep hfollows
    · rintro _ ⟨-, rfl⟩
      exact hR m _ hI
  | _ => exact wp_halt (hR m e hI)

theorem lateHashes_hashed (t : List Obs) (tid : Nat) (nonce : UInt32) :
    lateHashes (t ++ [.hashed tid nonce]) ≤ lateHashes t + 1 := by
  unfold lateHashes
  rw [late_concat]
  split
  · rw [List.countP_append]
    exact Nat.add_le_add_left (List.countP_le_length.trans_eq rfl) _
  · exact Nat.zero_le _

/-- No flag, no late hash. -/
theorem Heard.lateHashes (h : Heard e) (hstop : e.stopRequested = false) :
    lateHashes e.trace = 0 := by
  have hnone : late e.trace = [] := late_eq_nil.2 fun hmem => by
    rw [h hmem] at hstop
    cases hstop
  rw [HermitMiner.lateHashes, hnone]
  rfl

/-- What the search observes is no effort. -/
theorem Winding.follows {obs : List Obs} (h : Winding cfg e₀ B m e) (hfollows : Follows e obs e')
    (hobs : obs = [] ∨ ∃ o, obs = [o] ∧ o ≠ .signal ∧ o.effort = none)
    (hhashes : e.stopRequested = true →
      lateHashes e'.trace + unaskedWorkers cfg m' ≤ cfg.threadCount.toNat) :
    Winding cfg e₀ B m' e' := by
  obtain ⟨new, hnew, hle⟩ := h.within
  have hstop := hfollows.2
  refine ⟨?_, ⟨new ++ obs, by rw [hfollows.1, hnew, List.append_assoc], ?_⟩, fun hs => ?_⟩
  · rcases hobs with rfl | ⟨o, rfl, ho, -⟩
    · intro hmem
      rw [hfollows.1, List.append_nil] at hmem
      rw [hstop]
      exact h.heard hmem
    · exact h.heard.concat o ho hfollows.1 hstop
  · rcases hobs with rfl | ⟨o, rfl, -, ho⟩
    · rwa [List.append_nil]
    · have hnone : efforts [o] = 0 := by rw [efforts, List.filterMap_cons_none ho]; rfl
      rwa [efforts_append, hnone, add_zero]
  · exact hhashes (hstop ▸ hs)

theorem Winding.workerStep {obs : List Obs} (h : Winding cfg e₀ B m e)
    (htid : tid < cfg.threadCount.toNat)
    (hstep : WorkerStep hash256 cfg e.stopRequested tid m obs m') (hfollows : Follows e obs e') :
    Winding cfg e₀ B m' e' := by
  have hnothing : ∀ {m' : Machine}, Follows e [] e' →
      (e.stopRequested = true → unaskedWorkers cfg m' ≤ unaskedWorkers cfg m) →
      Winding cfg e₀ B m' e' := by
    intro m' hfollows hle
    refine h.follows hfollows (Or.inl rfl) fun hs => ?_
    rw [hfollows.1, List.append_nil]
    exact (Nat.add_le_add_left (hle hs) _).trans (h.hashes hs)
  have hset : ∀ {n : Machine} {w : Worker}, n.workers = m.workers →
      w.unasked ≤ (m.workers tid).unasked →
      unaskedWorkers cfg (n.setWorker tid w) ≤ unaskedWorkers cfg m := by
    intro n w hn hw
    have hsum := @unaskedWorkers_setWorker cfg n tid w htid
    have hsame : unaskedWorkers cfg n = unaskedWorkers cfg m := by rw [unaskedWorkers, hn]; rfl
    rw [hn, hsame] at hsum
    omega
  have hhash : ∀ {w : Worker} {nonce : UInt32}, Follows e [.hashed tid nonce] e' →
      (m.workers tid).unasked = 1 → w.unasked = 0 →
      Winding cfg e₀ B (m.setWorker tid w) e' := by
    intro w nonce hfollows hone hzero
    refine h.follows hfollows (Or.inr ⟨_, rfl, nofun, rfl⟩) fun hs => ?_
    have hsum := @unaskedWorkers_setWorker cfg m tid w htid
    have hlate := lateHashes_hashed e.trace tid nonce
    have hbound := h.hashes hs
    rw [hfollows.1]
    omega
  have hat : ∀ {pc : WorkerPc}, (m.workers tid).pc = pc →
      (m.workers tid).unasked = Worker.unasked { pc := pc } := by
    intro pc hpc
    rw [Worker.unasked, hpc]
    rfl
  cases hstep with
  | asked hpc => exact hnothing hfollows fun _ => hset rfl (Nat.zero_le _)
  | unasked hpc hasked =>
    refine hnothing hfollows fun hs => ?_
    rw [hasked] at hs
    cases hs
  | stopped hpc => exact hnothing hfollows fun _ => hset rfl (Nat.zero_le _)
  | unstopped hpc => exact hnothing hfollows fun _ => hset rfl (hat hpc).ge
  | hit hpc => exact hhash hfollows (hat hpc) rfl
  | miss hpc => exact hhash hfollows (hat hpc) (Worker.unasked_loopHead _)
  | loses | wins | records | adds => exact hnothing hfollows fun _ => hset rfl (Nat.zero_le _)

theorem stable_winding (m : Machine) : Stable (Winding cfg e₀ B m) where
  signal {e} h := by
    obtain ⟨new, hnew, hle⟩ := h.within
    refine ⟨fun _ => rfl, ⟨new ++ [.signal], by rw [Env.signal_trace, hnew, List.append_assoc], ?_⟩,
      fun _ => ?_⟩
    · rw [efforts_append]
      exact (add_zero _).trans_le hle
    · rw [Env.signal_trace, lateHashes_concat rfl]
      cases hstop : e.stopRequested with
      | true => exact h.hashes hstop
      | false =>
        rw [h.heard.lateHashes hstop, Nat.zero_add]
        exact unaskedWorkers_le m
  arrive {e} bytes h := by
    refine h.follows (Follows.observe _ (.arrived bytes)) (Or.inr ⟨_, rfl, nofun, rfl⟩) fun hs => ?_
    rw [Env.arrive_trace, lateHashes_concat rfl]
    exact h.hashes hs

theorem stepInvariant_winding (e₁ : Env) : StepInvariant hash256 cfg
    (fun m e => CountInv hash256 cfg e₁ m e ∧ Winding cfg e₀ B m e)
    fun _ e => Since e₀ B cfg.threadCount.toNat e := by
  have hcount := @stepInvariant_count hash256 cfg e₁
  refine ⟨fun m => (hcount.stable m).and (stable_winding m), ?_, ?_⟩
  · intro m e h tid obs m' e' hstep hfollows
    obtain ⟨_, -, hcounting⟩ := h.1.2
    have htid : tid < cfg.threadCount.toNat := by
      by_contra hge
      exact hstep.decides.running.1 (hcounting.idle tid (by omega))
    exact ⟨hcount.worker h.1 hstep hfollows, h.2.workerStep htid hstep hfollows⟩
  · intro m e h obs r e' hstep hfollows
    have hinv := hcount.main h.1 hstep hfollows
    have hsame : ∀ {m' : Machine}, Follows e [] e' → m'.workers = m.workers →
        Winding cfg e₀ B m' e' := by
      intro m' hfollows hworkers
      refine h.2.follows hfollows (Or.inl rfl) fun hs => ?_
      rw [hfollows.1, List.append_nil, unaskedWorkers, hworkers]
      exact h.2.hashes hs
    have hcounted : ∀ {m' : Machine} {hashes : Nat} {asked : Bool},
        Follows e [.counted hashes asked] e' → m'.workers = m.workers →
        Winding cfg e₀ B m' e' := by
      intro m' hashes asked hfollows hworkers
      refine h.2.follows hfollows (Or.inr ⟨_, rfl, nofun, rfl⟩) fun hs => ?_
      rw [hfollows.1, lateHashes_concat rfl, unaskedWorkers, hworkers]
      exact h.2.hashes hs
    cases hstep with
    | @spawn tid hmain htid =>
      refine ⟨hinv, h.2.follows hfollows (Or.inl rfl) fun hs => ?_⟩
      have hsum := @unaskedWorkers_setWorker cfg m tid (startWorker cfg tid) htid
      have hzero : (startWorker cfg tid).unasked = 0 := Worker.unasked_loopHead _
      have hbound := h.2.hashes hs
      rw [hfollows.1, List.append_nil]
      show _ + unaskedWorkers cfg (m.setWorker tid (startWorker cfg tid)) ≤ _
      omega
    | counts | reports => exact ⟨hinv, hcounted hfollows rfl⟩
    | returns => exact (@hsame m hfollows rfl).since
    | _ => exact ⟨hinv, hsame hfollows rfl⟩

theorem wp_mineWith_since (h : Since e₀ B 0 e) :
    wp (mineWith hash256 cfg) (fun _ => Since e₀ B cfg.threadCount.toNat)
      (Since e₀ B cfg.threadCount.toNat) e := by
  refine (stepInvariant_winding e).everywhere ⟨.initial e, h.heard, h.within, fun _ => ?_⟩
    fun _ _ h => h.2.since
  have hzero : unaskedWorkers cfg {} = 0 := Finset.sum_eq_zero fun _ _ => rfl
  rw [hzero]
  exact h.hashes.trans (Nat.zero_le _)

end Search

/-! ## Sessions -/

/-- What may be late: the rest of a handshake, of one job or of one sleep, and a hash for each
worker. -/
structure Prompt (cfg : MinerConfig) (e : Env) : Prop where
  heard : Heard e
  efforts : ∃ B ∈ [handshake, oneJob, oneSleep], efforts (late e.trace) ≤ B
  hashes : lateHashes e.trace ≤ cfg.threadCount.toNat

section Session

variable {cfg : MinerConfig} {client : StratumClient} {e₀ e : Env} {B : Multiset Effort} {n : Nat}
  {w : Miner}

theorem Since.prompt (h : Since e₀ B n e) (hclear : Clear e₀)
    (hB : B ∈ [handshake, oneJob, oneSleep]) (hn : n ≤ cfg.threadCount.toNat) : Prompt cfg e := by
  obtain ⟨new, hnew, hle⟩ := h.within
  refine ⟨h.heard, ⟨B, hB, ?_⟩, h.hashes.trans hn⟩
  rw [hnew, late_append hclear.late]
  exact (efforts_mono (late_sublist new)).trans hle

theorem Prompt.clear (h : Prompt cfg e) (hstop : e.stopRequested = false) : Clear e := by
  refine ⟨h.heard, late_eq_nil.2 fun hmem => ?_⟩
  rw [h.heard hmem] at hstop
  cases hstop

/-- An observation that is no effort. -/
theorem Prompt.quiet {e' : Env} (h : Prompt cfg e) {o : Obs} (hheard : Heard e')
    (ho : o.effort = none) (hhash : o.isHash = false) (htrace : e'.trace = e.trace ++ [o]) :
    Prompt cfg e' := by
  obtain ⟨B, hB, hle⟩ := h.efforts
  have hnone : HermitMiner.efforts [o] = 0 := by
    rw [HermitMiner.efforts, List.filterMap_cons_none ho]
    rfl
  refine ⟨hheard, ⟨B, hB, ?_⟩, ?_⟩
  · rw [htrace, late_concat]
    split
    · rwa [efforts_append, hnone, add_zero]
    · exact (efforts_mono (late_sublist [o])).trans (hnone.trans_le (Multiset.zero_le B))
  · rw [htrace, lateHashes_concat hhash]
    exact h.hashes

theorem silent_prompt : Silent (Prompt cfg) where
  signal h := h.quiet (fun _ => rfl) rfl rfl rfl
  arrive bytes h := h.quiet (h.heard.concat (.arrived bytes) nofun rfl rfl) rfl rfl rfl
  observe o ho h := by
    have hsignal : o ≠ .signal := by
      rintro rfl
      cases ho
    exact h.quiet (h.heard.concat o hsignal rfl rfl) (effort_of_not_step ho)
      (isHash_of_not_step ho) rfl
  pop c _ h := h.quiet (h.heard.concat (.received c) nofun rfl rfl) rfl rfl rfl
  disconnect h := ⟨h.heard, h.efforts, h.hashes⟩
  addLog _ h := ⟨h.heard, h.efforts, h.hashes⟩

theorem wp_startStratumSession_since (h : Since e₀ 0 n w.env) :
    wp (startStratumSession cfg client) (fun _ w => Since e₀ handshake n w.env)
      (fun w => Since e₀ handshake n w.env) w := by
  have hconnect : (0 + {.connect} : Multiset Effort) ≤ handshake := by decide
  have hsend : (0 + {.connect} + {.send} : Multiset Effort) ≤ handshake := by decide
  have hall : (0 + {.connect} + {.send} + {.send} : Multiset Effort) ≤ handshake := by decide
  refine wp_callEnv (wp_connectToPool_since client h) (fun ok e h => ?_)
    fun _ h => h.mono hconnect le_rfl
  refine wp_ite (fun _ => ?_) fun _ => wp_pure (h.mono hconnect le_rfl)
  refine wp_callEnv (wp_subscribe_since client h _) (fun ok e h => ?_)
    fun _ h => h.mono hsend le_rfl
  refine wp_ite (fun _ => ?_) fun _ => wp_pure (h.mono hsend le_rfl)
  refine wp_callEnv (wp_authorize_since client h _ _) (fun ok e h => ?_)
    fun _ h => h.mono hall le_rfl
  refine wp_ite (fun _ => ?_) fun _ => wp_pure (h.mono hall le_rfl)
  exact wp_updateEnv (wp_pure ((silent_since e₀ _ n).addLog _ (h.mono hall le_rfl)))

theorem wp_mineJob_since {job : StratumJob} (h : Since e₀ {.deliver} 0 w.env) :
    wp (mineJob cfg client job) (fun _ w => Since e₀ oneJob cfg.threadCount.toNat w.env)
      (fun w => Since e₀ oneJob cfg.threadCount.toNat w.env) w := by
  have hI := silent_since e₀ oneJob cfg.threadCount.toNat
  have hall : ({.deliver} + {.send} + {.accept} : Multiset Effort) ≤ oneJob := by decide
  have hmore : ∀ {e}, Since e₀ {.deliver} cfg.threadCount.toNat e →
      Since e₀ oneJob cfg.threadCount.toNat e := fun h => h.mono (by decide) le_rfl
  refine wp_update (wp_updateEnv (wp_callEnv (@wp_mineWith_since doubleSha256
    (miningConfig cfg job) _ _ _ ((silent_since e₀ _ 0).addLog _ h)) (fun result e h => ?_)
    fun _ h => hmore h))
  refine wp_ite (fun _ => wp_pure (hmore h)) fun _ => wp_ite (fun _ => ?_) fun _ => ?_
  · exact wp_updateEnv (wp_pure (hI.addLog _ (hmore h)))
  · refine wp_update (wp_callEnv (wp_submitShare_since client h _ _ _) (fun ok e h => ?_)
      fun _ h => h.mono hall le_rfl)
    have h := h.mono hall le_rfl
    refine wp_ite (fun _ => ?_) fun _ => wp_update (wp_updateEnv (wp_pure (hI.addLog _ h)))
    refine wp_update (wp_update (wp_call (hI.maybeWriteHealthSnapshotIncremental cfg _ h) ?_
      fun _ h => h))
    exact fun _ w h => wp_updateEnv (wp_pure (hI.addLog _ h))

theorem wp_loadStop_prompt (h : Prompt cfg w.env) :
    wp (onEnv loadStop) (fun stop w => Prompt cfg w.env ∧ stop = w.env.stopRequested)
      (fun w => Prompt cfg w.env) w :=
  wp_onEnv (wp_loadStop silent_prompt.toStable h (fun _ h => h) fun _ h => ⟨h, rfl⟩)

theorem wp_sessionRound_prompt (h : Prompt cfg w.env) :
    wp (sessionRound cfg client ()) (fun _ w => Prompt cfg w.env) (fun w => Prompt cfg w.env) w := by
  have hI := @silent_prompt cfg
  refine wp_call (wp_loadStop_prompt h) ?_ fun _ h => h
  rintro stop w ⟨h, rfl⟩
  refine wp_read (wp_ite (fun hgo => ?_) fun _ => wp_updateEnv (wp_pure (hI.addLog _ h)))
  simp only [Bool.and_eq_true, Bool.not_eq_true'] at hgo
  have hclear := h.clear hgo.1
  have hnone : ∀ {e}, Since w.env 0 0 e → Prompt cfg e :=
    fun h => (h.mono (Multiset.zero_le handshake) (Nat.zero_le _)).prompt hclear (.head _) le_rfl
  have hjob : ∀ {e}, Since w.env oneJob cfg.threadCount.toNat e → Prompt cfg e :=
    fun h => h.prompt hclear (.tail _ (.head _)) le_rfl
  refine wp_callEnv ((silent_since w.env 0 0).waitForJob client
    (fun _ => silent_since w.env {.deliver} 0) hclear.since fun job e h => ?_) ?_ fun _ h => hnone h
  · exact h.observe (o := .delivered job) rfl
  intro r e h
  cases r with
  | none =>
    refine wp_call (hI.loadStop _ (hnone h)) ?_ fun _ h => h
    exact fun stop w h => wp_ite (fun _ => wp_pure h) fun _ =>
      wp_updateEnv (wp_pure (hI.addLog _ h))
  | some job => exact wp_mono (wp_mineJob_since h) (fun _ _ h => hjob h) fun _ h => hjob h

theorem wp_runStratumSession_prompt (h : Clear w.env) :
    wp (runStratumSession cfg) (fun _ w => Prompt cfg w.env) (fun w => Prompt cfg w.env) w := by
  have hnew : Clear (w.setEnv w.env.newClient).env := ⟨h.heard, h.late⟩
  have hshake : ∀ {e}, Since w.env.newClient handshake 0 e → Prompt cfg e :=
    fun h => h.prompt hnew (.head _) (Nat.zero_le _)
  refine wp_updateEnv (wp_call (wp_startStratumSession_since hnew.since) (fun ok w h => ?_)
    fun _ h => hshake h)
  refine wp_ite (fun _ => ?_) fun _ => wp_pure (hshake h)
  have hstart : Prompt cfg w.env := hshake h
  refine wp_loop (I := fun _ w => Prompt cfg w.env) hstart (fun _ w h => ?_) fun _ _ h => h
  exact wp_mono (wp_sessionRound_prompt h) (fun r w h => by cases r <;> exact h) fun _ h => h

/-! ## Runs -/

theorem wp_sessionFailed_prompt (backoffSec : UInt32) (rc : Int) (h : Prompt cfg w.env) :
    wp (sessionFailed cfg backoffSec rc) (fun _ w => Prompt cfg w.env)
      (fun w => Prompt cfg w.env) w := by
  have hI := @silent_prompt cfg
  refine wp_update (wp_call (hI.maybeWriteHealthSnapshotIncremental cfg _ h) ?_ fun _ h => h)
  refine fun _ w h => wp_read (wp_ite (fun _ => wp_updateEnv (wp_pure (hI.addLog _ h))) fun _ => ?_)
  refine wp_updateEnv (wp_call (wp_loadStop_prompt (hI.addLog _ h)) ?_ fun _ h => h)
  rintro stop w ⟨h, rfl⟩
  refine wp_ite (fun _ => wp_pure h) fun hgo => ?_
  have hclear := h.clear (Bool.eq_false_of_not_eq_true hgo)
  have hsleep : ∀ {e}, Since w.env oneSleep 0 e → Prompt cfg e :=
    fun h => h.prompt hclear (.tail _ (.tail _ (.head _))) (Nat.zero_le _)
  refine wp_callEnv (wp_sleepFor (silent_since w.env 0 0).toStable hclear.since
    (R := Since w.env oneSleep 0) (Q := fun _ => Since w.env oneSleep 0)
    (fun e h => h.mono (Multiset.zero_le _) le_rfl) fun e h => ?_)
    (fun _ e h => wp_pure (hsleep h)) fun _ h => hsleep h
  exact h.observe (o := .slept backoffSec) rfl

theorem wp_loopRound_prompt (backoffSec : UInt32) (h : Prompt cfg w.env) :
    wp (loopRound cfg backoffSec) (fun _ w => Prompt cfg w.env) (fun w => Prompt cfg w.env) w := by
  refine wp_call (wp_loadStop_prompt h) ?_ fun _ h => h
  rintro stop w ⟨h, rfl⟩
  refine wp_read (wp_ite (fun hgo => ?_) fun _ => wp_pure h)
  simp only [Bool.and_eq_true, Bool.not_eq_true'] at hgo
  have hclear := h.clear hgo.1
  have hstarted : Clear (w.env.observe .sessionStarted) :=
    ⟨hclear.heard.concat .sessionStarted nofun rfl rfl, late_append hclear.late _⟩
  refine wp_updateEnv (wp_call (wp_runStratumSession_prompt hstarted) ?_ fun _ h => h)
  intro rc w h
  have hended : Prompt cfg (w.env.observe (.sessionEnded rc)) :=
    h.quiet (h.heard.concat (.sessionEnded rc) nofun rfl rfl) rfl rfl rfl
  exact wp_updateEnv (wp_ite (fun _ => wp_pure hended) fun _ => wp_sessionFailed_prompt _ _ hended)

theorem wp_shutdown_prompt (h : Prompt cfg w.env) :
    wp (shutdown cfg) (fun _ w => Prompt cfg w.env) (fun w => Prompt cfg w.env) w := by
  have hI := @silent_prompt cfg
  refine wp_call (hI.clock _ h) (fun _ w h => wp_read (wp_updateEnv ?_)) fun _ h => h
  refine wp_updateEnv (wp_updateEnv (wp_call (hI.writeHealthSnapshot cfg _ _ _ _ ?_) ?_ fun _ h => h))
  · exact hI.addLog _ (hI.addLog _ (hI.observe _ rfl h))
  · exact fun _ w h => wp_onEnv (wp_modify (hI.addLog _ h))

end Session

/-- **A stop is prompt.** In every state of every run, what has been done since the stop was
requested is at most the rest of a handshake, or of one job and its share, or of one sleep; no
session was started; and each worker has computed at most one more hash. -/
theorem stop_is_prompt (cfg : MinerConfig) (events : List Event) :
    (∃ B ∈ [handshake, oneJob, oneSleep],
      efforts (late ((runStratumLoop cfg).run {} events).state.env.trace) ≤ B) ∧
    Effort.start ∉ efforts (late ((runStratumLoop cfg).run {} events).state.env.trace) ∧
    lateHashes ((runStratumLoop cfg).run {} events).state.env.trace ≤ cfg.threadCount.toNat := by
  have hstart : Prompt cfg ({} : Miner).env := by
    refine ⟨nofun, ⟨handshake, .head _, ?_⟩, Nat.zero_le _⟩
    exact Multiset.zero_le handshake
  have hloop : wp (Proc.loop (loopRound cfg) (backoffInitial cfg)) (fun _ w => Prompt cfg w.env)
      (fun w => Prompt cfg w.env) {} := by
    refine wp_loop (I := fun _ w => Prompt cfg w.env) hstart (fun backoffSec w h => ?_)
      fun _ _ h => h
    exact wp_mono (wp_loopRound_prompt backoffSec h) (fun r w h => by cases r <;> exact h)
      fun _ h => h
  have hrun : wp (runStratumLoop cfg) (fun _ w => Prompt cfg w.env) (fun w => Prompt cfg w.env) {} :=
    wp_call hloop (fun rc w h => wp_call (wp_shutdown_prompt h) (fun _ _ h => wp_pure h)
      fun _ h => h) fun _ h => h
  have hprompt := hrun.state events
  refine ⟨hprompt.efforts, fun hmem => ?_, hprompt.hashes⟩
  obtain ⟨B, hB, hle⟩ := hprompt.efforts
  have hnone : ∀ B ∈ [handshake, oneJob, oneSleep], Effort.start ∉ B := by decide
  exact hnone B hB (Multiset.mem_of_le hle hmem)

end HermitMiner
