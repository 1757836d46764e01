import HermitMiner.Oracle.Couple
import HermitMiner.Verify.Bookkeeping
import HermitMiner.Verify.Causal
import HermitMiner.Verify.Reading

/-!
# The bytes on the wire

What a client writes is the requests it makes, one line after another; without a connection it
writes and reads nothing, and its calls return false.

* `written`, `traffic`: what a history says of the bytes that were moved.
* `Call`, `runCalls`: any calls of a client, one after another.
* `Wired`: the bytes written are those of the lines issued, all of them while the client is
  connected (`wp_call_up`).
* `Down`: the connection is lost, and no byte has been moved since (`wp_call_down`).
* `wp_runCalls`, `freezes_runCalls`: the two, over any calls.
-/

namespace HermitMiner

open Oracle StratumClient

/-! ## Traffic -/

/-- Bytes were moved, or a new connection was made. -/
def Obs.isTraffic : Obs → Bool
  | .connected | .wrote _ | .received _ => true
  | _ => false

/-- The part of a history that is about bytes on a connection. -/
def traffic (t : List Obs) : List Obs := t.filter Obs.isTraffic

def writeStep (s : Bytes) : Obs → Bytes
  | .connected => []
  | .wrote bytes => s ++ bytes
  | _ => s

/-- The bytes written since the client last connected. -/
def written (t : List Obs) : Bytes := t.foldl writeStep []

/-- How many connections were made. -/
def connects (t : List Obs) : Nat := t.count .connected

section Traffic

variable {o : Obs}

@[simp] theorem written_concat (t : List Obs) (o : Obs) :
    written (t ++ [o]) = writeStep (written t) o := by
  simp [written]

theorem writeStep_of_not_traffic (ho : o.isTraffic = false) (s : Bytes) : writeStep s o = s := by
  cases o with
  | connected => cases ho
  | wrote bytes => cases ho
  | _ => rfl

theorem traffic_concat (ho : o.isTraffic = false) (t : List Obs) :
    traffic (t ++ [o]) = traffic t := by
  simp [traffic, ho]

theorem written_traffic (t : List Obs) : written (traffic t) = written t := by
  induction t using List.reverseRecOn with
  | nil => rfl
  | append_singleton t o ih =>
    rw [written_concat, ← ih]
    cases ho : o.isTraffic with
    | true =>
      have hmore : traffic (t ++ [o]) = traffic t ++ [o] := by simp [traffic, ho]
      rw [hmore, written_concat]
    | false => rw [traffic_concat ho, writeStep_of_not_traffic ho]

theorem connects_traffic (t : List Obs) : connects (traffic t) = connects t :=
  List.count_filter rfl

end Traffic

/-! ## Lines on the wire -/

/-- The bytes of lines, each with its end. -/
def wire (lines : List Bytes) : Bytes := lines.flatMap fun line => line ++ [ch '\n']

theorem wire_append (lines more : List Bytes) : wire (lines ++ more) = wire lines ++ wire more :=
  List.flatMap_append

theorem wire_singleton (line : Bytes) : wire [line] = line ++ [ch '\n'] := by
  simp [wire]

theorem wire_mono {lines more : List Bytes} (h : lines <+: more) : wire lines <+: wire more := by
  obtain ⟨rest, rfl⟩ := h
  exact ⟨wire rest, (wire_append lines rest).symm⟩

/-! ## Invariants that only traffic touches -/

/-- Nothing but traffic, numbering and connecting touches `I`. -/
structure Unmoved (I : Env → Prop) : Prop extends Stable I where
  observe : ∀ {e} o, Obs.isTraffic o = false → I e → I (e.observe o)
  disconnect : ∀ {e}, I e → I e.disconnect
  addLog : ∀ {e} entry, I e → I (e.addLog entry)

theorem Obs.isTraffic_of_isReport {o : Obs} (ho : o.isReport = true) : o.isTraffic = false := by
  cases o with
  | connected | wrote | received => cases ho
  | _ => rfl

/-- The client is connected. -/
abbrev Up (e : Env) : Prop := e.connected = true

section Unmoved

variable {I : Env → Prop} (hI : Unmoved I)
include hI

theorem stable_up : Stable fun e => I e ∧ Up e :=
  ⟨fun h => ⟨hI.signal h.1, h.2⟩, fun bytes h => ⟨hI.arrive bytes h.1, h.2⟩⟩

theorem aloof_up : Aloof fun e => I e ∧ Up e where
  toStable := stable_up hI
  hashed _ _ h := ⟨hI.observe _ rfl h.1, h.2⟩
  counted _ _ h := ⟨hI.observe _ rfl h.1, h.2⟩
  addLog entry h := ⟨hI.addLog entry h.1, h.2⟩

theorem bystander_up : Bystander fun e => I e ∧ Up e where
  toStable := stable_up hI
  report ho h := ⟨hI.observe _ (Obs.isTraffic_of_isReport ho) h.1, h.2⟩
  addLog entry h := ⟨hI.addLog entry h.1, h.2⟩

end Unmoved

/-- The connection is lost, and `moved` is all the traffic there was. -/
def Down (moved : List Obs) (e : Env) : Prop := e.connected = false ∧ traffic e.trace = moved

theorem unmoved_down (moved : List Obs) : Unmoved (Down moved) where
  signal h := ⟨h.1, (traffic_concat rfl _).trans h.2⟩
  arrive _ h := ⟨h.1, (traffic_concat rfl _).trans h.2⟩
  observe _ ho h := ⟨h.1, (traffic_concat ho _).trans h.2⟩
  disconnect h := ⟨rfl, h.2⟩
  addLog _ h := h

/-- The bytes written are those of the lines `L`; of the last of them perhaps not all, if the
connection was lost. No request is issued with an id above 64 bits. -/
structure Wired (L : List Bytes) (e : Env) : Prop where
  within : written e.trace <+: wire L
  whole : Up e → e.nextId ≤ 2 ^ 64 → written e.trace = wire L

theorem Wired.same {L : List Bytes} {e e' : Env} (h : Wired L e)
    (hwritten : written e'.trace = written e.trace) (hup : Up e' → Up e)
    (hn : e'.nextId = e.nextId) : Wired L e' where
  within := hwritten ▸ h.within
  whole hup' hn' := hwritten.trans (h.whole (hup hup') (hn ▸ hn'))

theorem written_observe {o : Obs} (ho : o.isTraffic = false) (t : List Obs) :
    written (t ++ [o]) = written t :=
  (written_concat t o).trans (writeStep_of_not_traffic ho _)

theorem written_signal (e : Env) : written e.signal.trace = written e.trace := written_observe rfl _

theorem written_arrive (e : Env) (bytes : Bytes) :
    written (e.arrive bytes).trace = written e.trace := written_observe rfl _

theorem unmoved_wired (L : List Bytes) : Unmoved (Wired L) where
  signal h := h.same (written_observe rfl _) id rfl
  arrive _ h := h.same (written_observe rfl _) id rfl
  observe _ ho h := h.same (written_observe ho _) id rfl
  disconnect h := h.same rfl nofun rfl
  addLog _ h := h.same rfl id rfl

/-! ## A connected client -/

section Up

variable {I : Env → Prop} (hI : Unmoved I) (hpop : ∀ {e} c rest, I e → I (e.pop c rest))
  (self : StratumClient) {e : Env}
include hI hpop

/-- Whoever has a result is connected. -/
def Obtained (I : Env → Prop) {α : Type} (r : Option α) (e : Env) : Prop :=
  I e ∧ (r.isSome = true → Up e)

theorem wp_receiveLine_up {timeoutSec : UInt32} (h : I e) (hup : Up e) :
    wp (self.receiveLine timeoutSec) (Obtained I) (fun e => I e ∧ Up e) e := by
  have hlost : ∀ e, I e → wp (do disconnect; return .inr none : Sys (Bytes ⊕ Option Bytes))
      (fun r e => Sum.elim (fun _ => I e ∧ Up e) (fun line => Obtained I line e) r)
      (fun e => I e ∧ Up e) e :=
    fun e h => wp_update (wp_leave ⟨hI.disconnect h, nofun⟩)
  refine wp_read (wp_ite (fun hc => ?_) fun _ => ?_)
  · rw [hup] at hc
    cases hc
  refine wp_loop (I := fun _ e => I e ∧ Up e) ⟨h, hup⟩ ?_ fun _ _ h => h
  intro outLine e h
  refine wp_bind (wp_tick (stable_up hI) h (fun _ h => h) (fun e h => ?_) fun e h => ?_)
  · refine wp_bind (wp_select (stable_up hI) h (fun _ h => h) ?_ ?_ ?_)
    · exact fun e h => hlost _ (hI.observe _ rfl h.1)
    · exact fun e h => wp_again h
    intro e h
    refine wp_bind (wp_recv (stable_up hI) h (fun _ h => h) ?_ ?_)
    · exact fun e h => hlost _ (hI.observe _ rfl h.1)
    intro c rest e h _
    have hpopped : I (e.pop c rest) := hpop c rest h.1
    refine wp_ite ?_ fun _ => wp_ite ?_ fun _ => wp_ite ?_ ?_
    · exact fun _ => wp_update (wp_leave ⟨hI.observe _ rfl hpopped, fun _ => h.2⟩)
    · exact fun _ => wp_again ⟨hpopped, h.2⟩
    · exact fun _ => wp_update (wp_update (hlost _ (hI.addLog _ (hI.observe _ rfl hpopped))))
    · exact fun _ => wp_again ⟨hpopped, h.2⟩
  · exact wp_leave ⟨hI.observe _ rfl h.1, nofun⟩

/-- The loop of `request_response`. -/
theorem wp_responseLoop_up {request : Bytes} {requestId : Nat} {timeoutSec : UInt32} (h : I e)
    (hup : Up e) : wp (Proc.loop (self.responseRound request requestId timeoutSec) ()) (Obtained I)
      (fun e => I e ∧ Up e) e := by
  refine wp_loop (I := fun _ e => I e ∧ Up e) ⟨h, hup⟩ ?_ fun _ _ h => h
  intro _ e h
  refine wp_bind (wp_tick (stable_up hI) h (fun _ h => h) (fun e h => ?_) fun e h => ?_)
  · refine wp_call (wp_receiveLine_up hI hpop self h.1 h.2) ?_ fun _ h => h
    intro line e h
    cases line with
    | none =>
      refine wp_read (wp_ite (fun _ => wp_leave ⟨h.1, nofun⟩) fun hc => wp_again ⟨h.1, ?_⟩)
      simpa using hc
    | some line =>
      have hup := h.2 rfl
      refine wp_ite (fun _ => wp_update (wp_leave ⟨hI.observe _ rfl h.1, fun _ => hup⟩)) fun _ => ?_
      cases parseNotify line with
      | none => exact wp_again ⟨h.1, hup⟩
      | some job => exact wp_update (wp_again ⟨hI.addLog _ h.1, hup⟩)
  · exact wp_leave ⟨hI.observe _ rfl h.1, nofun⟩

theorem wp_waitForJob_up {timeoutSec : UInt32} (h : I e) (hup : Up e) :
    wp (self.waitForJob timeoutSec) (Obtained I) (fun e => I e ∧ Up e) e := by
  have hgone : ∀ level message e, I e → wp (do
      self.logLine level message []
      return .inr none : Sys (Unit ⊕ Option StratumJob))
      (fun r e => Sum.elim (fun _ => I e ∧ Up e) (fun job => Obtained I job e) r)
      (fun e => I e ∧ Up e) e :=
    fun level message e h => wp_update (wp_leave ⟨hI.addLog _ h, nofun⟩)
  refine wp_loop (I := fun _ e => I e ∧ Up e) ⟨h, hup⟩ ?_ fun _ _ h => h
  intro _ e h
  refine wp_bind (wp_tick (stable_up hI) h (fun _ h => h) (fun e h => ?_) fun e h => ?_)
  · refine wp_bind (wp_loadStop (stable_up hI) h (fun _ h => h) fun e h => ?_)
    refine wp_ite (fun _ => hgone _ _ e h.1) fun _ => ?_
    refine wp_call (wp_receiveLine_up hI hpop self h.1 h.2) ?_ fun _ h => h
    intro line e h
    cases line with
    | none =>
      refine wp_read (wp_ite (fun _ => hgone _ _ e h.1) fun hc => wp_again ⟨h.1, ?_⟩)
      simpa using hc
    | some line =>
      have hup := h.2 rfl
      dsimp only
      cases parseNotify line with
      | none => exact wp_again ⟨h.1, hup⟩
      | some job => exact wp_update (wp_update
          (wp_leave ⟨hI.addLog _ (hI.observe _ rfl h.1), fun _ => hup⟩))
  · exact hgone _ _ _ (hI.observe _ rfl h.1)

end Up

section Request

variable {L : List Bytes} {line : Bytes} {id : Nat} (self : StratumClient) {e : Env}

/-- One more line is issued, as the request `id`. -/
def Issued (L : List Bytes) (line : Bytes) (id : Nat) (e : Env) : Prop :=
  Wired (L ++ [line]) e ∧ e.nextId = id + 1

theorem unmoved_issued (L : List Bytes) (line : Bytes) (id : Nat) : Unmoved (Issued L line id) where
  signal h := ⟨(unmoved_wired _).signal h.1, h.2⟩
  arrive bytes h := ⟨(unmoved_wired _).arrive bytes h.1, h.2⟩
  observe o ho h := ⟨(unmoved_wired _).observe o ho h.1, h.2⟩
  disconnect h := ⟨(unmoved_wired _).disconnect h.1, h.2⟩
  addLog entry h := ⟨(unmoved_wired _).addLog entry h.1, h.2⟩

theorem Wired.pop (h : Wired L e) (c : UInt8) (rest : Bytes) : Wired L (e.pop c rest) :=
  h.same (written_concat _ (.received c)) id rfl

theorem Issued.pop (h : Issued L line id e) (c : UInt8) (rest : Bytes) :
    Issued L line id (e.pop c rest) := ⟨h.1.pop c rest, h.2⟩

/-- **A line on the wire**: `send_line` writes all of it, or loses the connection. -/
theorem wp_sendLine_up (hwritten : written e.trace = wire L) (hn : e.nextId = id + 1)
    (hup : Up e) : wp (self.sendLine line) (fun ok e => Issued L line id e ∧ (ok = true → Up e))
      (fun e => written e.trace <+: wire (L ++ [line]) ∧ Up e) e := by
  -- the bytes that `left` leaves out are written
  have hwithin : ∀ {t done left : Bytes}, t = wire L ++ done →
      done ++ left = line ++ [ch '\n'] → t <+: wire (L ++ [line]) := by
    rintro t done left rfl hsplit
    refine ⟨left, ?_⟩
    rw [wire_append, wire_singleton, ← hsplit, List.append_assoc]
  refine wp_read (wp_ite (fun hc => ?_) fun _ => wp_ite (fun _ => ?_) fun _ => ?_)
  · rw [hup] at hc
    cases hc
  · refine wp_update (wp_update (wp_update (wp_pure ⟨⟨⟨?_, nofun⟩, hn⟩, nofun⟩)))
    refine @hwithin _ [] _ ?_ rfl
    rw [List.append_nil, ← hwritten]
    exact written_observe rfl _
  let I : Bytes → Env → Prop := fun left e =>
    (∃ done, written e.trace = wire L ++ done ∧ done ++ left = line ++ [ch '\n']) ∧
      e.nextId = id + 1 ∧ Up e
  have hI : ∀ left, Stable (I left) := by
    intro left
    refine ⟨fun h => ⟨?_, h.2⟩, fun bytes h => ⟨?_, h.2⟩⟩
    · obtain ⟨done, hdone, hsplit⟩ := h.1
      exact ⟨done, (written_concat _ .signal).trans hdone, hsplit⟩
    · obtain ⟨done, hdone, hsplit⟩ := h.1
      exact ⟨done, (written_concat _ (.arrived bytes)).trans hdone, hsplit⟩
  have hR : ∀ left e, I left e → written e.trace <+: wire (L ++ [line]) ∧ Up e :=
    fun left e ⟨⟨done, hdone, hsplit⟩, _, hup⟩ => ⟨hwithin hdone hsplit, hup⟩
  refine wp_loop (I := I) ⟨⟨[], by rw [hwritten, List.append_nil], rfl⟩, hn, hup⟩ ?_ hR
  intro left e h
  refine wp_ite (fun hleft => ?_) fun _ => ?_
  · obtain ⟨⟨done, hdone, hsplit⟩, hn, hup⟩ := h
    have hall : written (e.observe (.sent line)).trace = wire (L ++ [line]) := by
      rw [wire_append, wire_singleton, ← hsplit, hleft, List.append_nil, ← hdone]
      exact written_concat _ (.sent line)
    exact wp_update (wp_leave ⟨⟨⟨hall ▸ List.prefix_refl _, fun _ _ => hall⟩, hn⟩, fun _ => hup⟩)
  · refine wp_bind (wp_send (hI left) h (hR left) ?_ ?_)
    · rintro e ⟨⟨done, hdone, hsplit⟩, hn, -⟩
      refine wp_ite (fun _ => wp_update (wp_leave ⟨⟨⟨hwithin ?_ hsplit, nofun⟩, hn⟩, nofun⟩)) ?_
      · exact (written_concat _ .sendFailed).trans hdone
      · exact fun h0 => absurd rfl h0
    · rintro n e ⟨⟨done, hdone, hsplit⟩, hn, hup⟩ hpos _
      refine wp_ite (fun h0 => absurd h0 (Nat.ne_of_gt hpos)) fun _ => wp_again ⟨?_, hn, hup⟩
      refine ⟨done ++ left.take n, ?_, ?_⟩
      · rw [← List.append_assoc, ← hdone]
        exact written_concat _ _
      · rw [List.append_assoc, List.take_append_drop, hsplit]

theorem wp_requestResponse_up {timeoutSec : UInt32}
    (hid : parseMessageId line = if 2 ^ 64 ≤ id then none else some id) (h : Wired L e)
    (hn : e.nextId = id + 1) (hup : Up e) :
    wp (self.requestResponse line timeoutSec) (Obtained (Issued L line id))
      (fun e => written e.trace <+: wire (L ++ [line]) ∧ Up e) e := by
  unfold requestResponse
  by_cases hbig : 2 ^ 64 ≤ id
  · rw [hid, if_pos hbig]
    have h' := (unmoved_wired L).observe .unsendable rfl h
    refine wp_update (wp_pure ⟨⟨⟨h'.within.trans (wire_mono (List.prefix_append _ _)), ?_⟩, hn⟩,
      nofun⟩)
    intro _ hle
    have hlt : id + 1 ≤ 2 ^ 64 := hn ▸ hle
    omega
  · rw [hid, if_neg hbig]
    refine wp_call (wp_sendLine_up self (h.whole hup (by omega)) hn hup) ?_ fun _ h => h
    intro ok e h
    refine wp_ite (fun hok => ?_) fun _ => wp_pure ⟨h.1, nofun⟩
    exact wp_mono (wp_responseLoop_up (unmoved_issued L line id) (fun c rest h => h.pop c rest) self
      h.1 (h.2 hok)) (fun _ _ h => h) fun e h => ⟨h.1.1.within, h.2⟩

end Request

/-! ## Calls -/

/-- A call of a connected client. -/
inductive Call where
  | request (r : Request)
  | waitForJob (timeoutSec : UInt32)

/-- What the call returns; of a job, whether there is one. -/
def Call.run (self : StratumClient) : Call → Sys Bool
  | .request (.subscribe userAgent) => self.subscribe userAgent
  | .request (.authorize username password) => self.authorize username password
  | .request (.submit username jobId nonce) => self.submitShare username jobId nonce
  | .waitForJob timeoutSec => do
    let job ← self.waitForJob timeoutSec
    return job.isSome

def runCalls (self : StratumClient) : List Call → Sys (List Bool)
  | [] => return []
  | c :: calls => do
    let ok ← c.run self
    let oks ← runCalls self calls
    return ok :: oks

/-- The lines of the requests that a call makes, the next id being `n`. -/
def Call.lines (n : Nat) : Call → List Bytes
  | .request r => [r.line n]
  | .waitForJob _ => []

/-- The lines of the requests among the calls, in the order of the calls. -/
def requestLines : Nat → List Call → List Bytes
  | _, [] => []
  | n, c :: calls => c.lines n ++ requestLines (n + (c.lines n).length) calls

section Calls

variable (self : StratumClient) {e : Env}

/-- The result of a request follows at once from the response. -/
def Concludes (next : Option Bytes → Sys Bool) : Prop :=
  ∀ response e, ∃ ok e', (∀ events, (next response).run e events = .done ok e' events) ∧
    (∀ I, Unmoved I → I e → I e') ∧ e'.connected = e.connected ∧
    (ok = true → response.isSome = true)

/-- A request takes the next id, sends its line, and makes its result of the response. -/
theorem request_run (r : Request) : ∃ next : Nat → Option Bytes → Sys Bool,
    (∀ id, Concludes (next id)) ∧ (Call.request r).run self = (do
      let id ← takeId
      let response ← self.requestResponse (r.line id) 10
      next id response) := by
  cases r with
  | subscribe userAgent =>
    refine ⟨_, ?_, rfl⟩
    intro id response e
    cases response with
    | none =>
      exact ⟨false, e.addLog _, fun _ => rfl, fun I hI h => hI.addLog _ h, rfl, nofun⟩
    | some response =>
      by_cases hnull : parseErrorIsNull response
      · exact ⟨true, e.addLog _, fun _ => by simp only [hnull]; rfl, fun I hI h => hI.addLog _ h,
          rfl, fun _ => rfl⟩
      · exact ⟨false, e.addLog _, fun _ => by simp only [hnull]; rfl, fun I hI h => hI.addLog _ h,
          rfl, nofun⟩
  | authorize username password =>
    refine ⟨_, ?_, rfl⟩
    intro id response e
    cases response with
    | none =>
      exact ⟨false, e.addLog _, fun _ => rfl, fun I hI h => hI.addLog _ h, rfl, nofun⟩
    | some response =>
      by_cases htrue : parseBoolResult response = some true
      · exact ⟨true, e.addLog _, fun _ => by simp only [htrue]; rfl, fun I hI h => hI.addLog _ h,
          rfl, fun _ => rfl⟩
      · exact ⟨false, e.addLog _, fun _ => by simp only [htrue]; rfl, fun I hI h => hI.addLog _ h,
          rfl, nofun⟩
  | submit username jobId nonce =>
    refine ⟨_, ?_, rfl⟩
    intro id response e
    cases response with
    | none =>
      exact ⟨false, e.addLog _, fun _ => rfl, fun I hI h => hI.addLog _ h, rfl, nofun⟩
    | some response =>
      cases hresult : parseBoolResult response with
      | none =>
        exact ⟨false, e.addLog _, fun _ => by simp only [hresult]; rfl,
          fun I hI h => hI.addLog _ h, rfl, nofun⟩
      | some ok =>
        cases ok with
        | false =>
          exact ⟨false, e.addLog _, fun _ => by simp only [hresult]; rfl,
            fun I hI h => hI.addLog _ h, rfl, nofun⟩
        | true =>
          exact ⟨true, (e.observe _).addLog _, fun _ => by simp only [hresult]; rfl,
            fun I hI h => hI.addLog _ (hI.observe _ rfl h), rfl, fun _ => rfl⟩

theorem Concludes.wp {next : Option Bytes → Sys Bool} (h : Concludes next)
    {response : Option Bytes} {Q : Bool → Env → Prop} {R : Env → Prop}
    (hQ : ∀ ok e', (∀ I, Unmoved I → I e → I e') → e'.connected = e.connected →
      (ok = true → response.isSome = true) → Q ok e') : wp (next response) Q R e := by
  obtain ⟨ok, e', hrun, hkeeps, hconnected, hok⟩ := h response e
  intro events
  rw [hrun]
  exact hQ ok e' hkeeps hconnected hok

/-- A call of a connected client writes its lines, or loses the connection. -/
theorem wp_call_up {L : List Bytes} {n : Nat} (c : Call) (h : Wired L e) (hn : e.nextId = n)
    (hup : Up e) : wp (c.run self) (fun ok e => Wired (L ++ c.lines n) e ∧
        e.nextId = n + (c.lines n).length ∧ (ok = true → Up e))
      (fun e => written e.trace <+: wire (L ++ c.lines n) ∧ Up e) e := by
  subst hn
  cases c with
  | request r =>
    obtain ⟨next, hnext, hrun⟩ := request_run self r
    rw [hrun]
    refine wp_bind (wp_read (wp_update (wp_pure ?_)))
    have htaken : Wired L e.takeId := ⟨h.within, fun hup hle => h.whole hup (Nat.le_of_succ_le hle)⟩
    refine wp_call (wp_requestResponse_up self (parseMessageId_line _ r) htaken rfl hup) ?_
      fun _ h => h
    intro response e' h'
    refine (hnext e.nextId).wp fun ok e'' hkeeps hconnected hok => ?_
    have hissued := hkeeps _ (unmoved_issued L (r.line e.nextId) e.nextId) h'.1
    exact ⟨hissued.1, hissued.2, fun h => hconnected.trans (h'.2 (hok h))⟩
  | waitForJob timeoutSec =>
    have hI : Unmoved fun e' => Wired L e' ∧ e'.nextId = e.nextId :=
      { signal := fun h => ⟨(unmoved_wired L).signal h.1, h.2⟩
        arrive := fun bytes h => ⟨(unmoved_wired L).arrive bytes h.1, h.2⟩
        observe := fun o ho h => ⟨(unmoved_wired L).observe o ho h.1, h.2⟩
        disconnect := fun h => ⟨(unmoved_wired L).disconnect h.1, h.2⟩
        addLog := fun entry h => ⟨(unmoved_wired L).addLog entry h.1, h.2⟩ }
    have hlines : L ++ (Call.waitForJob timeoutSec).lines e.nextId = L := List.append_nil L
    rw [hlines]
    refine wp_call (wp_waitForJob_up hI (fun c rest h => ⟨h.1.pop c rest, h.2⟩) self ⟨h, rfl⟩ hup)
      ?_ fun e h => ⟨h.1.1.within, h.2⟩
    intro job e' h'
    exact wp_pure ⟨h'.1.1, h'.1.2, h'.2⟩

/-! ## A client that lost its connection -/

theorem requestResponse_down {moved : List Obs} (h : Down moved e) (request : Bytes)
    (timeoutSec : UInt32) : ∃ e', Down moved e' ∧
      ∀ events, (self.requestResponse request timeoutSec).run e events = .done none e' events := by
  unfold requestResponse
  cases parseMessageId request with
  | none => exact ⟨_, (unmoved_down moved).observe .unsendable rfl h, fun _ => rfl⟩
  | some id =>
    refine ⟨e, h, fun events => ?_⟩
    have hsend : (self.sendLine request).run e events = .done false e events := by
      show (if !e.connected then _ else _ : Sys Bool).run e events = _
      rw [if_pos (by simp [h.1])]
      rfl
    show Proc.bindRun _ _ _ _ = _
    rw [Proc.bindRun, hsend]
    rfl

/-- A request of such a client returns at once. -/
theorem request_down {moved : List Obs} (h : Down moved e) (r : Request) : ∃ e', Down moved e' ∧
    ∀ events, ((Call.request r).run self).run e events = .done false e' events := by
  obtain ⟨next, hnext, hrun⟩ := request_run self r
  obtain ⟨e₁, h₁, hrun₁⟩ := requestResponse_down self (e := e.takeId) h (r.line e.nextId) 10
  obtain ⟨ok, e₂, hrun₂, hkeeps, -, hok⟩ := hnext e.nextId none e₁
  obtain rfl : ok = false := by simpa using hok
  refine ⟨e₂, hkeeps _ (unmoved_down moved) h₁, fun events => ?_⟩
  rw [hrun]
  show Proc.bindRun _ _ _ _ = _
  rw [Proc.bindRun, hrun₁]
  exact hrun₂ events

theorem wp_waitForJob_down {moved : List Obs} (h : Down moved e) {timeoutSec : UInt32} :
    wp (self.waitForJob timeoutSec) (fun job e => job = none ∧ Down moved e) (Down moved) e := by
  have hI := unmoved_down moved
  have hgone : ∀ level message e, Down moved e → wp (do
      self.logLine level message []
      return .inr none : Sys (Unit ⊕ Option StratumJob))
      (fun r e => Sum.elim (fun _ => Down moved e) (fun job => job = none ∧ Down moved e) r)
      (Down moved) e :=
    fun level message e h => wp_update (wp_leave ⟨rfl, hI.addLog _ h⟩)
  refine wp_loop (I := fun _ => Down moved) h ?_ fun _ _ h => h
  intro _ e h
  refine wp_bind (wp_tick hI.toStable h (fun _ h => h) (fun e h => ?_) fun e h => ?_)
  · refine wp_bind (wp_loadStop hI.toStable h (fun _ h => h) fun e h => ?_)
    refine wp_ite (fun _ => hgone _ _ e h) fun _ => ?_
    have hreceive : wp (self.receiveLine 1) (fun line e => line = none ∧ Down moved e)
        (Down moved) e := by
      refine wp_read (wp_ite (fun _ => wp_pure ⟨rfl, h⟩) fun hc => absurd ?_ hc)
      simp [h.1]
    refine wp_call hreceive ?_ fun _ h => h
    rintro line e ⟨rfl, h⟩
    refine wp_read (wp_ite (fun _ => hgone _ _ e h) fun hc => absurd ?_ hc)
    simp [h.1]
  · exact hgone _ _ _ (hI.observe _ rfl h)

/-- No call of such a client moves a byte, and none succeeds. -/
theorem wp_call_down {moved : List Obs} (c : Call) (h : Down moved e) :
    wp (c.run self) (fun ok e => ok = false ∧ Down moved e) (Down moved) e := by
  cases c with
  | request r =>
    obtain ⟨e', h', hrun⟩ := request_down self h r
    intro events
    rw [hrun]
    exact ⟨rfl, h'⟩
  | waitForJob timeoutSec =>
    refine wp_call (wp_waitForJob_down self h) ?_ fun _ h => h
    rintro job e ⟨rfl, h⟩
    exact wp_pure ⟨rfl, h⟩

theorem keeps_runCalls_down (moved : List Obs) (calls : List Call) :
    Keeps (Down moved) (runCalls self calls) := by
  induction calls with
  | nil => exact .pure
  | cons c calls ih =>
    have hcall : Keeps (Down moved) (c.run self) :=
      fun _ h => wp_mono (wp_call_down self c h) (fun _ _ h => h.2) fun _ h => h
    exact hcall.bind fun _ => ih.bind fun _ => .pure

/-- Nothing but what happens without the miner's doing. -/
def Spontaneous (events : List Event) : Prop := ∀ ev ∈ events, (async ev).isSome = true

/-- They touch no `Stable` invariant, and the program goes on waiting. -/
theorem run_spontaneous {I : Env → Prop} (hI : Stable I) {α : Type} {m : Sys α}
    {next : Event → Sys α} (hm : Waits async m next) {between : List Event}
    (hbetween : Spontaneous between) (h : I e) :
    ∃ e', I e' ∧ ∀ events, m.run e (between ++ events) = m.run e' events := by
  induction between generalizing e with
  | nil => exact ⟨e, h, fun _ => rfl⟩
  | cons ev between ih =>
    obtain ⟨f, hf⟩ := Option.isSome_iff_exists.1 (hbetween ev List.mem_cons_self)
    have hfe : I (f e) := by
      cases ev with
      | signal => cases hf; exact hI.signal h
      | arrive bytes => cases hf; exact hI.arrive bytes h
      | _ => cases hf
    obtain ⟨e', h', hrun⟩ := ih (fun ev hev => hbetween ev (List.mem_cons_of_mem _ hev)) hfe
    exact ⟨e', h', fun events => (hm.slip hf _).trans (hrun events)⟩

/-- `wait_for_job` returns as soon as its deadline is past, or the stop flag is loaded. -/
theorem waitForJob_returns {moved : List Obs} (h : Down moved e) (timeoutSec : UInt32)
    {between : List Event} (hbetween : Spontaneous between) (after : List Event) :
    (∃ e', (self.waitForJob timeoutSec).run e (between ++ .tick true :: after) =
      .done none e' after) ∧
    ∀ between', Spontaneous between' → ∃ e', (self.waitForJob timeoutSec).run e
      (between ++ .tick false :: (between' ++ .load :: after)) = .done none e' after := by
  have hI := (unmoved_down moved).toStable
  have hround : ∀ {events r e'}, (self.jobRound timeoutSec ()).run e events =
      .done (.inr r) e' after → (self.waitForJob timeoutSec).run e events = .done r e' after := by
    intro events r e' hr
    show (Proc.loop _ ()).run e events = _
    rw [Proc.loop_eq (advances_jobRound self timeoutSec), hr]
  have htick : Waits async (self.jobRound timeoutSec ()) _ :=
    Waits.bind (m := tick (.job timeoutSec)) (fun _ _ => rfl) _
  obtain ⟨e₁, h₁, hrun₁⟩ := run_spontaneous hI htick hbetween h
  refine ⟨⟨_, hround ((hrun₁ _).trans rfl)⟩, fun between' hbetween' => ?_⟩
  have hload : Waits async loadStop _ := fun _ _ => rfl
  obtain ⟨e₂, h₂, hrun₂⟩ := run_spontaneous hI hload hbetween' h₁
  have hstop : loadStop.run e₁ (between' ++ .load :: after) = .done e₂.stopRequested e₂ after :=
    hrun₂ _
  have hreceive : (self.receiveLine 1).run e₂ after = .done none e₂ after := by
    simp [receiveLine, Proc.bind_run, h₂.1]
  have hfound : ∃ e', (self.jobRound timeoutSec ()).run e₁
      (.tick false :: (between' ++ .load :: after)) = .done (.inr none) e' after := by
    simp only [jobRound, Proc.bind_run, tick_run, if_true, hstop]
    cases e₂.stopRequested with
    | true => exact ⟨_, rfl⟩
    | false =>
      simp only [Bool.false_eq_true, if_false, Proc.bind_run, hreceive, Proc.get_run, h₂.1,
        Bool.not_false, if_true]
      exact ⟨_, rfl⟩
  obtain ⟨e', hlast⟩ := hfound
  exact ⟨e', hround ((hrun₁ _).trans hlast)⟩

end Calls

/-! ## Calls one after another -/

theorem requestLines_append (n : Nat) (calls more : List Call) :
    requestLines n (calls ++ more) =
      requestLines n calls ++ requestLines (n + (requestLines n calls).length) more := by
  induction calls generalizing n with
  | nil => rfl
  | cons c calls ih =>
    simp only [List.cons_append, requestLines, ih, List.append_assoc, List.length_append,
      Nat.add_assoc]

section RunCalls

variable (self : StratumClient) {e : Env} {L : List Bytes} {n : Nat}

theorem wp_runCalls (calls : List Call) (h : Wired L e) (hn : Up e → e.nextId = n) :
    wp (runCalls self calls) (fun _ e => written e.trace <+: wire (L ++ requestLines n calls))
      (fun e => written e.trace <+: wire (L ++ requestLines n calls)) e := by
  have hmore : ∀ {L' more : List Bytes} {t}, t <+: wire L' → t <+: wire (L' ++ more) :=
    fun ht => ht.trans (wire_mono (List.prefix_append _ _))
  induction calls generalizing e L n with
  | nil => exact wp_pure (hmore h.within)
  | cons c calls ih =>
    have hlines : L ++ requestLines n (c :: calls) =
        (L ++ c.lines n) ++ requestLines (n + (c.lines n).length) calls :=
      (List.append_assoc ..).symm
    rw [hlines]
    by_cases hup : Up e
    · refine wp_call (wp_call_up self c h (hn hup) hup) ?_ fun e h => hmore h.1
      intro ok e h
      exact wp_call (ih h.1 fun _ => h.2.1) (fun _ _ h => wp_pure h) fun _ h => h
    · -- what was written before is all there is
      have hdown : Down (traffic e.trace) e := ⟨by simpa using hup, rfl⟩
      have hwritten : ∀ e', Down (traffic e.trace) e' → written e'.trace <+: wire L := by
        intro e' h'
        rw [← written_traffic, h'.2, written_traffic]
        exact h.within
      exact wp_mono (keeps_runCalls_down self _ (c :: calls) e hdown)
        (fun _ e' h' => hmore (hmore (hwritten e' h'))) fun e' h' => hmore (hmore (hwritten e' h'))

theorem causal_call (c : Call) : (c.run self).Causal := by
  cases c with
  | request r =>
    cases r with
    | subscribe userAgent => exact causal_subscribe self userAgent
    | authorize username password => exact causal_authorize self username password
    | submit username jobId nonce => exact causal_submitShare self username jobId nonce
  | waitForJob timeoutSec => exact (causal_waitForJob self timeoutSec).bind fun _ => .pure

theorem causal_runCalls (calls : List Call) : (runCalls self calls).Causal := by
  induction calls with
  | nil => exact .pure
  | cons c calls ih => exact (causal_call self c).bind fun _ => ih.bind fun _ => .pure

/-- A loss is final, whatever the calls. -/
theorem freezes_runCalls (calls : List Call) (h : Wired L e) (hn : Up e → e.nextId = n) :
    Freezes (fun e => e.connected = false) (fun e => traffic e.trace) (runCalls self calls) e := by
  induction calls generalizing e L n with
  | nil => exact freezes_of_still (fun _ => .pure) .pure
  | cons c calls ih =>
    by_cases hup : Up e
    · have hcall := wp_call_up self c h (hn hup) hup
      refine .bind (causal_call self c) (freezes_of_wp (by simp [hup]) hcall ?_) ?_
      · exact fun e h => by simp [h.2]
      refine wp_mono hcall ?_ fun _ _ => trivial
      intro ok e h
      refine .bind (causal_runCalls self calls) (ih h.1 fun _ => h.2.1) ?_
      refine wp_mono (Keeps.const (p := True) _ e trivial) ?_ fun _ h => h
      exact fun _ _ _ => freezes_of_still (fun _ => .pure) .pure
    · exact freezes_of_keeps (fun x => keeps_runCalls_down self x (c :: calls)) (by simpa using hup)

end RunCalls

end HermitMiner
