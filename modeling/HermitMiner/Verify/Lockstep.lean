import HermitMiner.Oracle.Couple
import HermitMiner.Verify.Lasting

/-!
# Two runs of the client

Two runs whose environments answer alike: the same events at the same points, except that a request
may leave in other pieces, and that the measured times may be others. What the two have in common
then: the flags, the bytes to be received, the next id, and, as far as they are compared, the
entries that were logged and the snapshots that were written.

* `SameAnswer`, `Event.isWrite`: what may differ between the answers of the two environments.
* `Comparison`: how answers, entries and snapshots are compared.
* `InStep`: the relation of the states of the two runs.
* `couple_loadStop`, `couple_receiveLine`, …: one lemma for each function of the client that makes no
  request, and for `mine`.
-/

namespace HermitMiner

open Oracle

/-! ## Comparisons -/

/-- The two environments give the same answer, or measure other times. -/
inductive SameAnswer : Event → Event → Prop
  | refl (ev : Event) : SameAnswer ev ev
  | clock (durationSec durationSec' : Nat) (acceptedPerMin acceptedPerMin' : Bytes) :
    SameAnswer (.clock durationSec acceptedPerMin) (.clock durationSec' acceptedPerMin')
  | reporter (sec sec' hps hps' : Bytes) : SameAnswer (.reporter sec hps) (.reporter sec' hps')

/-- A piece of a request leaves. -/
def Event.isWrite : Event → Bool
  | .send 0 => false
  | .send _ => true
  | _ => false

/-- The text of a health snapshot, in a list. -/
def Obs.shown : Obs → List Bytes
  | .snapshot _ _ text => [text]
  | _ => []

/-- The health snapshots written so far. -/
def Env.snapshots (e : Env) : List Bytes := e.trace.flatMap Obs.shown

/-- The entry of the reporting loop of `mine`. -/
def progressEntry (cfg : MinerConfig) (hashes : Nat) (sec hps : Bytes) : LogEntry where
  level := .info
  component := str "miner"
  nodeId := cfg.nodeId
  message := str "Progress"
  context := str "hashes=" ++ dec hashes ++ str " elapsed=" ++ sec ++ str "s h/s=" ++ hps

/-- The entry with the shutdown summary. -/
def summaryEntry (cfg : MinerConfig) (stats : SessionStats) (durationSec : Nat)
    (acceptedPerMin : Bytes) : LogEntry where
  level := .info
  component := str "stratum"
  nodeId := cfg.nodeId
  message := str "Shutdown summary"
  context := summaryContext stats durationSec acceptedPerMin

/-- How two runs of `cfg` are compared. -/
structure Comparison (cfg : MinerConfig) where
  /-- The answers that count as the same. -/
  same : Event → Event → Prop
  entries : LogEntry → LogEntry → Prop
  snapshots : Bytes → Bytes → Prop
  answer : ∀ {ev₁ ev₂}, same ev₁ ev₂ → SameAnswer ev₁ ev₂
  entries_refl : ∀ entry, entries entry entry
  progress : ∀ {sec hps sec' hps'}, same (.reporter sec hps) (.reporter sec' hps') →
    ∀ hashes, entries (progressEntry cfg hashes sec hps) (progressEntry cfg hashes sec' hps')
  summary : ∀ {d a d' a'}, same (.clock d a) (.clock d' a') →
    ∀ stats, entries (summaryEntry cfg stats d a) (summaryEntry cfg stats d' a')
  snapshot : ∀ {d a d' a'}, same (.clock d a) (.clock d' a') →
    ∀ stats status, snapshots (healthSnapshot cfg stats status d a)
      (healthSnapshot cfg stats status d' a')

namespace Comparison

variable {cfg : MinerConfig} (c : Comparison cfg)

/-- What is seen of the two runs compares. -/
def near (e₁ e₂ : Env) : Prop :=
  List.Forall₂ c.entries e₁.log e₂.log ∧ List.Forall₂ c.snapshots e₁.snapshots e₂.snapshots

def pairing : Pairing Env Event where
  own := Event.isWrite
  same := c.same
  near := c.near

end Comparison

/-- The two runs are in step, and their next id is `n`. -/
structure InStep {cfg : MinerConfig} (c : Comparison cfg) (n : Nat) (e₁ e₂ : Env) : Prop where
  stop : e₁.stopRequested = e₂.stopRequested
  connected : e₁.connected = e₂.connected
  inbox : e₁.inbox = e₂.inbox
  nextId₁ : e₁.nextId = n
  nextId₂ : e₂.nextId = n
  near : c.near e₁ e₂

namespace InStep

variable {cfg : MinerConfig} {c : Comparison cfg} {n : Nat} {e₁ e₂ : Env} (h : InStep c n e₁ e₂)
include h

/-- Both runs observe something; snapshots are to compare. -/
theorem near_observe {o₁ o₂ : Obs} (ho : List.Forall₂ c.snapshots o₁.shown o₂.shown) :
    c.near (e₁.observe o₁) (e₂.observe o₂) := by
  refine ⟨h.near.1, ?_⟩
  simp only [Env.snapshots, Env.observe_trace, List.flatMap_append, List.flatMap_singleton]
  exact List.rel_append h.near.2 ho

theorem observe {o₁ o₂ : Obs} (ho : List.Forall₂ c.snapshots o₁.shown o₂.shown) :
    InStep c n (e₁.observe o₁) (e₂.observe o₂) :=
  { h with near := h.near_observe ho }

theorem observe_same (o : Obs) (ho : o.shown = []) :
    InStep c n (e₁.observe o) (e₂.observe o) :=
  h.observe (ho ▸ .nil)

/-- The first run alone observes something that is not a snapshot. -/
theorem observe_left {o : Obs} (ho : o.shown = []) : InStep c n (e₁.observe o) e₂ := by
  refine { h with near := ⟨h.near.1, ?_⟩ }
  simp only [Env.snapshots, Env.observe_trace, List.flatMap_append, List.flatMap_singleton, ho,
    List.append_nil]
  exact h.near.2

theorem observe_right {o : Obs} (ho : o.shown = []) : InStep c n e₁ (e₂.observe o) := by
  refine { h with near := ⟨h.near.1, ?_⟩ }
  simp only [Env.snapshots, Env.observe_trace, List.flatMap_append, List.flatMap_singleton, ho,
    List.append_nil]
  exact h.near.2

theorem signal : InStep c n e₁.signal e₂.signal :=
  { h with stop := rfl, near := h.near_observe .nil }

theorem arrive (bytes : Bytes) : InStep c n (e₁.arrive bytes) (e₂.arrive bytes) :=
  { h with inbox := congrArg (· ++ bytes) h.inbox, near := h.near_observe .nil }

theorem pop (b : UInt8) (rest : Bytes) : InStep c n (e₁.pop b rest) (e₂.pop b rest) :=
  { h with inbox := rfl, near := h.near_observe .nil }

theorem connect : InStep c n e₁.connect e₂.connect :=
  { h with connected := rfl, inbox := rfl, near := h.near_observe .nil }

theorem disconnect : InStep c n e₁.disconnect e₂.disconnect := { h with connected := rfl }

theorem takeId : InStep c (n + 1) e₁.takeId e₂.takeId :=
  { h with nextId₁ := congrArg (· + 1) h.nextId₁, nextId₂ := congrArg (· + 1) h.nextId₂ }

theorem newClient : InStep c 1 e₁.newClient e₂.newClient :=
  { h with connected := rfl, nextId₁ := rfl, nextId₂ := rfl }

theorem addLog {entry₁ entry₂ : LogEntry} (hentry : c.entries entry₁ entry₂) :
    InStep c n (e₁.addLog entry₁) (e₂.addLog entry₂) :=
  { h with near := ⟨List.rel_append h.near.1 (.cons hentry .nil), h.near.2⟩ }

end InStep

/-- Both runs return the same value, in step. -/
def Agree {cfg : MinerConfig} {α : Type} (c : Comparison cfg) (n : Nat) (a₁ a₂ : α)
    (e₁ e₂ : Env) : Prop := a₁ = a₂ ∧ InStep c n e₁ e₂

/-- A round of a loop whose states are the same in both runs. -/
theorem rounds_of_agree {cfg : MinerConfig} {c : Comparison cfg} {α β : Type} {r₁ r₂ : β ⊕ α}
    {n : Nat} {e₁ e₂ : Env} (h : Agree c n r₁ r₂ e₁ e₂) :
    Rounds (fun b₁ b₂ => Agree c n b₁ b₂) (Agree c n) r₁ r₂ e₁ e₂ := by
  obtain ⟨rfl, h⟩ := h
  cases r₁ with
  | inl b => exact ⟨rfl, h⟩
  | inr a => exact ⟨rfl, h⟩

section Client

variable {cfg : MinerConfig} {c : Comparison cfg} {n : Nat} {e₁ e₂ : Env} {X : Env → Prop}
  (h : InStep c n e₁ e₂)
include h

/-! ## Operations -/

section Operations

variable {α : Type} {Q : α → α → Env → Env → Prop}

/-- The rule for waiting, for runs in step. -/
theorem couple_event {f₁ f₂ : Event → Sys α}
    (hwrite : ∀ k, f₁ (.send (k + 1)) = Proc.halt ∧ f₂ (.send (k + 1)) = Proc.halt)
    (hf : ∀ ev₁ ev₂ e₁ e₂, c.same ev₁ ev₂ → InStep c n e₁ e₂ →
      Couple c.pairing X (f₁ ev₁) (f₂ ev₂) Q e₁ e₂) :
    Couple c.pairing X (await >>= f₁) (await >>= f₂) Q e₁ e₂ := by
  refine couple_await h ?_ ?_ ?_ (fun _ _ ht => ht.near) hf
  · intro ev hev
    cases ev with
    | send k =>
      cases k with
      | zero => cases hev
      | succ k => exact ⟨rfl, hwrite k⟩
    | _ => cases hev
  · intro ev₁ ev₂ hsame
    cases c.answer hsame with
    | _ => rfl
  · intro ev g hg t₁ t₂ ht
    cases ev with
    | signal =>
      cases hg
      exact ht.signal
    | arrive bytes =>
      cases hg
      exact ht.arrive bytes
    | _ => cases hg

/-- The rule for operations that are not answered by a measured time. -/
theorem couple_answer {f₁ f₂ : Event → Sys α}
    (hwrite : ∀ k, f₁ (.send (k + 1)) = Proc.halt ∧ f₂ (.send (k + 1)) = Proc.halt)
    (hclock : ∀ d a, f₁ (.clock d a) = Proc.halt) (hreporter : ∀ s r, f₁ (.reporter s r) = Proc.halt)
    (hf : ∀ ev e₁ e₂, InStep c n e₁ e₂ → Couple c.pairing X (f₁ ev) (f₂ ev) Q e₁ e₂) :
    Couple c.pairing X (await >>= f₁) (await >>= f₂) Q e₁ e₂ := by
  apply couple_event h hwrite
  intro ev₁ ev₂ t₁ t₂ hsame ht
  cases c.answer hsame with
  | refl => exact hf ev₁ t₁ t₂ ht
  | clock d d' a a' =>
    rw [hclock]
    exact couple_halt
  | reporter s s' r r' =>
    rw [hreporter]
    exact couple_halt

theorem couple_loadStop : Couple c.pairing X loadStop loadStop (Agree c n) e₁ e₂ := by
  apply couple_answer h (fun _ => ⟨rfl, rfl⟩) (fun _ _ => rfl) (fun _ _ => rfl)
  intro ev t₁ t₂ ht
  cases ev with
  | load => exact couple_read (couple_pure ⟨ht.stop, ht⟩)
  | _ => exact couple_halt

theorem couple_resolve : Couple c.pairing X resolve resolve (Agree c n) e₁ e₂ := by
  apply couple_answer h (fun _ => ⟨rfl, rfl⟩) (fun _ _ => rfl) (fun _ _ => rfl)
  intro ev t₁ t₂ ht
  cases ev with
  | resolve addresses => exact couple_pure ⟨rfl, ht⟩
  | _ => exact couple_halt

theorem couple_dial : Couple c.pairing X dial dial (Agree c n) e₁ e₂ := by
  apply couple_answer h (fun _ => ⟨rfl, rfl⟩) (fun _ _ => rfl) (fun _ _ => rfl)
  intro ev t₁ t₂ ht
  cases ev with
  | dial ok => exact couple_pure ⟨rfl, ht⟩
  | _ => exact couple_halt

theorem couple_tick (deadline : Deadline) :
    Couple c.pairing X (tick deadline) (tick deadline) (Agree c n) e₁ e₂ := by
  apply couple_answer h (fun _ => ⟨rfl, rfl⟩) (fun _ _ => rfl) (fun _ _ => rfl)
  intro ev t₁ t₂ ht
  cases ev with
  | tick expired =>
    refine couple_ite Iff.rfl (fun _ => ?_) fun _ => couple_pure ⟨rfl, ht⟩
    exact couple_update (couple_pure ⟨rfl, ht.observe .nil⟩)
  | _ => exact couple_halt

theorem couple_select : Couple c.pairing X select select (Agree c n) e₁ e₂ := by
  apply couple_answer h (fun _ => ⟨rfl, rfl⟩) (fun _ _ => rfl) (fun _ _ => rfl)
  intro ev t₁ t₂ ht
  cases ev with
  | select result =>
    cases result with
    | failed => exact couple_update (couple_pure ⟨rfl, ht.observe .nil⟩)
    | idle => exact couple_pure ⟨rfl, ht⟩
    | ready => exact couple_pure ⟨rfl, ht⟩
  | _ => exact couple_halt

theorem couple_recv : Couple c.pairing X recv recv (Agree c n) e₁ e₂ := by
  apply couple_answer h (fun _ => ⟨rfl, rfl⟩) (fun _ _ => rfl) (fun _ _ => rfl)
  intro ev t₁ t₂ ht
  cases ev with
  | recv ok =>
    cases ok with
    | false => exact couple_update (couple_pure ⟨rfl, ht.observe .nil⟩)
    | true =>
      apply couple_read
      rw [← ht.inbox]
      cases t₁.inbox with
      | nil => exact couple_halt
      | cons b rest => exact couple_update (couple_pure ⟨rfl, ht.pop b rest⟩)
  | _ => exact couple_halt

theorem couple_openFile : Couple c.pairing X openFile openFile (Agree c n) e₁ e₂ := by
  apply couple_answer h (fun _ => ⟨rfl, rfl⟩) (fun _ _ => rfl) (fun _ _ => rfl)
  intro ev t₁ t₂ ht
  cases ev with
  | openFile ok => exact couple_pure ⟨rfl, ht⟩
  | _ => exact couple_halt

theorem couple_sleepFor (sec : UInt32) :
    Couple c.pairing X (sleepFor sec) (sleepFor sec) (Agree c n) e₁ e₂ := by
  apply couple_answer h (fun _ => ⟨rfl, rfl⟩) (fun _ _ => rfl) (fun _ _ => rfl)
  intro ev t₁ t₂ ht
  cases ev with
  | wake => exact couple_modify ⟨rfl, ht.observe .nil⟩
  | _ => exact couple_halt

/-- The two runs may measure other times. -/
theorem couple_clock : Couple c.pairing X clock clock (fun a₁ a₂ e₁ e₂ =>
    c.same (.clock a₁.1 a₁.2) (.clock a₂.1 a₂.2) ∧ InStep c n e₁ e₂) e₁ e₂ := by
  apply couple_event h (fun _ => ⟨rfl, rfl⟩)
  intro ev₁ ev₂ t₁ t₂ hsame ht
  cases c.answer hsame with
  | clock d d' a a' => exact couple_pure ⟨hsame, ht⟩
  | reporter s s' r r' => exact couple_halt
  | refl =>
    cases ev₁ with
    | clock d a => exact couple_pure ⟨hsame, ht⟩
    | _ => exact couple_halt

end Operations

/-! ## The client -/

open StratumClient

variable (self : StratumClient)

omit h in
theorem couple_dialLoop (addresses : Nat) : ∀ {e₁ e₂ : Env}, InStep c n e₁ e₂ →
    Couple c.pairing X (dialLoop addresses) (dialLoop addresses) (Agree c n) e₁ e₂ := by
  induction addresses with
  | zero =>
    intro e₁ e₂ h
    exact couple_pure ⟨rfl, h⟩
  | succ addresses ih =>
    intro e₁ e₂ h
    apply couple_call (couple_dial h)
    rintro ok _ t₁ t₂ ⟨rfl, ht⟩
    exact couple_ite Iff.rfl (fun _ => couple_pure ⟨rfl, ht⟩) fun _ => ih ht

theorem couple_connectToPool :
    Couple c.pairing X self.connectToPool self.connectToPool (Agree c n) e₁ e₂ := by
  have hlost : ∀ message {t₁ t₂}, InStep c n t₁ t₂ → Couple c.pairing X
      (do observe .unreachable; self.logLine .err message self.endpoint; return false)
      (do observe .unreachable; self.logLine .err message self.endpoint; return false)
      (Agree c n) t₁ t₂ := by
    intro message t₁ t₂ ht
    exact couple_update (couple_update (couple_pure
      ⟨rfl, (ht.observe .nil).addLog (c.entries_refl _)⟩))
  apply couple_call (couple_resolve h)
  rintro addrs _ t₁ t₂ ⟨rfl, ht⟩
  refine couple_ite Iff.rfl (fun _ => hlost _ ht) fun _ => ?_
  apply couple_call (couple_dialLoop addrs ht)
  rintro ok _ t₁ t₂ ⟨rfl, ht⟩
  refine couple_ite Iff.rfl (fun _ => ?_) fun _ => hlost _ ht
  exact couple_update (couple_update (couple_pure ⟨rfl, ht.connect.addLog (c.entries_refl _)⟩))

theorem couple_receiveRound (timeoutSec : UInt32) (outLine : Bytes) :
    Couple c.pairing X (self.receiveRound timeoutSec outLine)
      (self.receiveRound timeoutSec outLine) (Agree c n) e₁ e₂ := by
  apply couple_call (couple_tick h _)
  rintro on _ t₁ t₂ ⟨rfl, ht⟩
  refine couple_ite Iff.rfl (fun _ => ?_) fun _ => couple_pure ⟨rfl, ht⟩
  apply couple_call (couple_select ht)
  rintro result _ t₁ t₂ ⟨rfl, ht⟩
  cases result with
  | failed => exact couple_update (couple_pure ⟨rfl, ht.disconnect⟩)
  | idle => exact couple_pure ⟨rfl, ht⟩
  | ready =>
    apply couple_call (couple_recv ht)
    rintro received _ t₁ t₂ ⟨rfl, ht⟩
    cases received with
    | none => exact couple_update (couple_pure ⟨rfl, ht.disconnect⟩)
    | some b =>
      refine couple_ite Iff.rfl (fun _ => ?_) fun _ => couple_ite Iff.rfl
        (fun _ => couple_pure ⟨rfl, ht⟩) fun _ => couple_ite Iff.rfl (fun _ => ?_)
          fun _ => couple_pure ⟨rfl, ht⟩
      · exact couple_update (couple_pure ⟨rfl, ht.observe .nil⟩)
      · exact couple_update (couple_update (couple_update (couple_pure
          ⟨rfl, ((ht.observe .nil).addLog (c.entries_refl _)).disconnect⟩)))

/-- A loop of which every round does the same in both runs. -/
theorem couple_sameLoop {α β : Type} {body : β → Sys (β ⊕ α)} (hc : Proc.Advances body)
    (hbody : ∀ b {e₁ e₂}, InStep c n e₁ e₂ →
      Couple c.pairing Never (body b) (body b) (Agree c n) e₁ e₂) (b : β) :
    Couple c.pairing X (Proc.loop body b) (Proc.loop body b) (Agree c n) e₁ e₂ := by
  apply Couple.of_never
  refine couple_loop hc hc (I := fun b₁ b₂ => Agree c n b₁ b₂) (fun b => keeps_never _)
    (fun b => keeps_never _) ?_ ⟨rfl, h⟩
  rintro b _ t₁ t₂ ⟨rfl, ht⟩
  exact couple_mono (hbody b ht) (fun _ hs => hs) fun _ _ _ _ => rounds_of_agree

theorem couple_receiveLine (timeoutSec : UInt32) :
    Couple c.pairing X (self.receiveLine timeoutSec) (self.receiveLine timeoutSec) (Agree c n)
      e₁ e₂ := by
  refine couple_read (couple_ite ?_ (fun _ => couple_pure ⟨rfl, h⟩) fun _ => ?_)
  · rw [h.connected]
  · exact couple_sameLoop h (self.advances_receiveRound timeoutSec)
      (fun outLine _ _ ht => couple_receiveRound ht self timeoutSec outLine) []

theorem couple_jobRound (timeoutSec : UInt32) :
    Couple c.pairing X (self.jobRound timeoutSec ()) (self.jobRound timeoutSec ()) (Agree c n)
      e₁ e₂ := by
  apply couple_call (couple_tick h _)
  rintro on _ t₁ t₂ ⟨rfl, ht⟩
  refine couple_ite Iff.rfl (fun _ => ?_) fun _ => couple_update (couple_pure
    ⟨rfl, ht.addLog (c.entries_refl _)⟩)
  apply couple_call (couple_loadStop ht)
  rintro stop _ t₁ t₂ ⟨rfl, ht⟩
  refine couple_ite Iff.rfl (fun _ => couple_update (couple_pure
    ⟨rfl, ht.addLog (c.entries_refl _)⟩)) fun _ => ?_
  apply couple_call (couple_receiveLine ht self 1)
  rintro line _ t₁ t₂ ⟨rfl, ht⟩
  cases line with
  | none =>
    refine couple_read (couple_ite ?_ (fun _ => ?_) fun _ => couple_pure ⟨rfl, ht⟩)
    · rw [ht.connected]
    · exact couple_update (couple_pure ⟨rfl, ht.addLog (c.entries_refl _)⟩)
  | some line =>
    dsimp only
    cases parseNotify line with
    | none => exact couple_pure ⟨rfl, ht⟩
    | some job =>
      exact couple_update (couple_update (couple_pure
        ⟨rfl, (ht.observe .nil).addLog (c.entries_refl _)⟩))

theorem couple_waitForJob (timeoutSec : UInt32) :
    Couple c.pairing X (self.waitForJob timeoutSec) (self.waitForJob timeoutSec) (Agree c n)
      e₁ e₂ :=
  couple_sameLoop h (self.advances_jobRound timeoutSec)
    (fun _ _ _ ht => couple_jobRound ht self timeoutSec) ()

theorem couple_responseRound (request₁ request₂ : Bytes) (requestId : Nat) (timeoutSec : UInt32) :
    Couple c.pairing X (self.responseRound request₁ requestId timeoutSec ())
      (self.responseRound request₂ requestId timeoutSec ()) (Agree c n) e₁ e₂ := by
  apply couple_call (couple_tick h _)
  rintro on _ t₁ t₂ ⟨rfl, ht⟩
  refine couple_ite Iff.rfl (fun _ => ?_) fun _ => couple_pure ⟨rfl, ht⟩
  apply couple_call (couple_receiveLine ht self 1)
  rintro line _ t₁ t₂ ⟨rfl, ht⟩
  cases line with
  | none =>
    refine couple_read (couple_ite ?_ (fun _ => couple_pure ⟨rfl, ht⟩)
      fun _ => couple_pure ⟨rfl, ht⟩)
    rw [ht.connected]
  | some line =>
    refine couple_ite Iff.rfl (fun _ => ?_) fun _ => ?_
    · exact couple_update (couple_pure ⟨rfl, ht.observe .nil⟩)
    · cases parseNotify line with
      | none => exact couple_pure ⟨rfl, ht⟩
      | some job => exact couple_update (couple_pure ⟨rfl, ht.addLog (c.entries_refl _)⟩)

end Client

/-! ## Mining -/

section Mining

variable {cfg : MinerConfig} {c : Comparison cfg} {n : Nat} {e₁ e₂ : Env} {X : Env → Prop}
  (h : InStep c n e₁ e₂) (hash256 : Bytes → Hash256) (miningCfg : MinerConfig)
include h

theorem couple_workerStep (tid : Nat) (m : Machine) :
    Couple c.pairing X (workerStep hash256 miningCfg tid m) (workerStep hash256 miningCfg tid m)
      (Agree c n) e₁ e₂ := by
  unfold workerStep
  dsimp only
  cases (m.workers tid).pc with
  | notStarted => exact couple_halt
  | loadRequest =>
    refine couple_read (couple_ite ?_ (fun _ => couple_pure ⟨rfl, h⟩) fun _ => couple_pure ⟨rfl, h⟩)
    rw [h.stop]
  | loadStop =>
    exact couple_ite Iff.rfl (fun _ => couple_pure ⟨rfl, h⟩) fun _ => couple_pure ⟨rfl, h⟩
  | hashing =>
    have hhashed := h.observe_same (.hashed tid (m.workers tid).nonce64.toUInt32) rfl
    exact couple_update (couple_ite Iff.rfl (fun _ => couple_pure ⟨rfl, hhashed⟩)
      fun _ => couple_pure ⟨rfl, hhashed⟩)
  | exchange nonce hash =>
    exact couple_ite Iff.rfl (fun _ => couple_pure ⟨rfl, h⟩) fun _ => couple_pure ⟨rfl, h⟩
  | recording nonce hash => exact couple_pure ⟨rfl, h⟩
  | exiting => exact couple_pure ⟨rfl, h⟩
  | done => exact couple_halt

theorem couple_mainStep (hnode : miningCfg.nodeId = cfg.nodeId) {sec hps sec' hps' : Bytes}
    (hsame : c.same (.reporter sec hps) (.reporter sec' hps')) (m : Machine) :
    Couple c.pairing X (mainStep miningCfg sec hps m) (mainStep miningCfg sec' hps' m) (Agree c n)
      e₁ e₂ := by
  unfold mainStep
  cases m.main with
  | spawning tid =>
    exact couple_ite Iff.rfl (fun _ => couple_pure ⟨rfl, h⟩) fun _ => couple_pure ⟨rfl, h⟩
  | whileTest =>
    exact couple_ite Iff.rfl (fun _ => couple_pure ⟨rfl, h⟩) fun _ => couple_pure ⟨rfl, h⟩
  | loadRequest =>
    refine couple_read (couple_ite ?_ (fun _ => couple_pure ⟨rfl, h⟩) fun _ => couple_pure ⟨rfl, h⟩)
    rw [h.stop]
  | storeAbort => exact couple_pure ⟨rfl, h⟩
  | sleeping =>
    have hcounted : InStep c n (e₁.observe (.counted m.totalHashes e₁.stopRequested))
        (e₂.observe (.counted m.totalHashes e₂.stopRequested)) := h.observe .nil
    have hlogged := hcounted.addLog (c.progress hsame m.totalHashes)
    rw [progressEntry, progressEntry, ← hnode] at hlogged
    exact couple_read (couple_update (couple_update (couple_ite Iff.rfl
      (fun _ => couple_pure ⟨rfl, hlogged⟩) fun _ => couple_pure ⟨rfl, hlogged⟩)))
  | storeStop => exact couple_pure ⟨rfl, h⟩
  | joining tid =>
    exact couple_ite Iff.rfl
      (fun _ => couple_ite Iff.rfl (fun _ => couple_pure ⟨rfl, h⟩) fun _ => couple_halt)
      fun _ => couple_pure ⟨rfl, h⟩

theorem couple_mineRound (hnode : miningCfg.nodeId = cfg.nodeId) (m : Machine) :
    Couple c.pairing X (mineRound hash256 miningCfg m) (mineRound hash256 miningCfg m) (Agree c n)
      e₁ e₂ := by
  apply couple_event h (fun _ => ⟨rfl, rfl⟩)
  intro ev₁ ev₂ t₁ t₂ hsame ht
  cases c.answer hsame with
  | clock d d' a a' => exact couple_halt
  | reporter sec sec' hps hps' => exact couple_mainStep ht miningCfg hnode hsame m
  | refl =>
    cases ev₁ with
    | worker tid =>
      apply couple_call (couple_workerStep ht hash256 miningCfg tid m)
      rintro m' _ t₁ t₂ ⟨rfl, ht⟩
      exact couple_pure ⟨rfl, ht⟩
    | reporter sec hps => exact couple_mainStep ht miningCfg hnode hsame m
    | _ => exact couple_halt

theorem couple_mineWith (hnode : miningCfg.nodeId = cfg.nodeId) :
    Couple c.pairing X (mineWith hash256 miningCfg) (mineWith hash256 miningCfg) (Agree c n)
      e₁ e₂ :=
  couple_sameLoop h (advances_mineRound hash256 miningCfg)
    (fun m _ _ ht => couple_mineRound ht hash256 miningCfg hnode m) {}

end Mining

end HermitMiner
