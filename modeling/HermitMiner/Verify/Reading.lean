import HermitMiner.Verify.Requests
import HermitMiner.Verify.Script

/-!
# Reading a line that is there

The client's side of `readScript` and `waitScript`, for any line.

* `receiveLine_line`, `receiveLine_overlong`: a line is received when it fits, and breaks the
  connection when it does not.
* `accepts_iff`: `wait_for_job` accepts a job exactly from a line that fits and announces it.
-/

namespace HermitMiner

open Oracle

/-! ## Bytes -/

section Reading

variable {self : StratumClient} {timeoutSec : UInt32} {e : Env} {c : UInt8} {line rest : Bytes}
  {outLine : Bytes} {events : List Event}

theorem tick_run (deadline : Deadline) :
    (tick deadline).run e (.tick false :: events) = .done true e events := rfl

theorem loadStop_run : loadStop.run e (.load :: events) = .done e.stopRequested e events := rfl

theorem select_run : select.run e (.select .ready :: events) = .done .ready e events := rfl

theorem recv_run (hinbox : e.inbox = c :: rest) :
    recv.run e (.recv true :: events) = .done (some c) (e.pop c rest) events := by
  obtain ⟨_, _, _, _, _⟩ := e
  simp only at hinbox
  subst hinbox
  rfl

/-- The events with which a byte is read. -/
def byteScript : List Event := [.tick false, .select .ready, .recv true]

theorem receiveRound_newline (hinbox : e.inbox = ch '\n' :: rest) :
    (self.receiveRound timeoutSec outLine).run e (byteScript ++ events) =
      .done (.inr (some outLine)) ((e.pop (ch '\n') rest).observe (.handed outLine)) events := by
  simp only [byteScript, List.cons_append, List.nil_append, StratumClient.receiveRound,
    Proc.bind_run, tick_run, select_run, recv_run hinbox, if_true, observe, Proc.modify_run,
    Proc.pure_run]

theorem receiveRound_byte (hinbox : e.inbox = c :: rest) (hn : c ≠ ch '\n') (hr : c ≠ ch '\r')
    (hlen : outLine.length < StratumClient.kMaxJsonLineBytes) :
    (self.receiveRound timeoutSec outLine).run e (byteScript ++ events) =
      .done (.inl (outLine ++ [c])) (e.pop c rest) events := by
  simp only [byteScript, List.cons_append, List.nil_append, StratumClient.receiveRound,
    Proc.bind_run, tick_run, select_run, recv_run hinbox, if_true, if_neg hn, if_neg hr,
    if_neg (Nat.not_le.2 hlen), Proc.pure_run]

variable (self timeoutSec events) in
theorem receiveRound_overlong (hinbox : e.inbox = c :: rest) (hn : c ≠ ch '\n') (hr : c ≠ ch '\r')
    (hlen : StratumClient.kMaxJsonLineBytes ≤ outLine.length) :
    ∃ e', (self.receiveRound timeoutSec outLine).run e (byteScript ++ events) =
      .done (.inr none) e' events ∧ e'.connected = false := by
  simp only [byteScript, List.cons_append, List.nil_append, StratumClient.receiveRound,
    Proc.bind_run, tick_run, select_run, recv_run hinbox, if_true, if_neg hn, if_neg hr,
    if_pos hlen, observe, StratumClient.logLine, log, disconnect, Proc.modify_run, Proc.pure_run]
  exact ⟨_, rfl, rfl⟩

/-! ## Lines -/

theorem readScript_succ (count : Nat) : readScript (count + 1) = byteScript ++ readScript count :=
  rfl

theorem readScript_add (m n : Nat) : readScript (m + n) = readScript m ++ readScript n := by
  rw [readScript, List.replicate_add, List.flatten_append]
  rfl

/-- What reading leaves alone. -/
def SameFlags (e e' : Env) : Prop :=
  e'.connected = e.connected ∧ e'.stopRequested = e.stopRequested

variable (self timeoutSec) in
/-- The bytes of a line are read one after another, as long as they fit. -/
theorem leads_bytes (hline : InLine line) :
    ∀ {e : Env} {outLine : Bytes}, e.inbox = line ++ rest →
      outLine.length + line.length ≤ StratumClient.kMaxJsonLineBytes →
      ∃ e', Proc.Leads (self.receiveRound timeoutSec) outLine e (readScript line.length)
        (outLine ++ line) e' ∧ e'.inbox = rest ∧ SameFlags e e' := by
  induction line with
  | nil =>
    intro e outLine hinbox _
    exact ⟨e, by rw [List.append_nil]; exact .refl, hinbox, rfl, rfl⟩
  | cons c line ih =>
    intro e outLine hinbox hfit
    rw [List.length_cons] at hfit
    obtain ⟨hn, hr⟩ := hline c List.mem_cons_self
    have hbyte : Proc.Leads (self.receiveRound timeoutSec) outLine e byteScript (outLine ++ [c])
        (e.pop c (line ++ rest)) :=
      .round (self.advances_receiveRound timeoutSec) fun events =>
        receiveRound_byte hinbox hn hr (by omega)
    have hroom : (outLine ++ [c]).length + line.length ≤ StratumClient.kMaxJsonLineBytes := by
      rw [List.length_append, List.length_singleton]
      omega
    obtain ⟨e', hleads, hrest, hconnected, hstop⟩ :=
      ih (fun d hd => hline d (List.mem_cons_of_mem c hd)) (e := e.pop c (line ++ rest)) rfl hroom
    refine ⟨e', ?_, hrest, hconnected, hstop⟩
    have htrans := hbyte.trans hleads
    rwa [List.append_assoc, List.singleton_append] at htrans

variable (self timeoutSec events) in
/-- A line that fits is received. -/
theorem receiveLine_line (hconnected : e.connected = true) (hline : InLine line)
    (hinbox : e.inbox = line ++ ch '\n' :: rest)
    (hfit : line.length ≤ StratumClient.kMaxJsonLineBytes) :
    ∃ e', (self.receiveLine timeoutSec).run e (readScript (line.length + 1) ++ events) =
      .done (some line) e' events ∧ SameFlags e e' := by
  have hroom : ([] : Bytes).length + line.length ≤ StratumClient.kMaxJsonLineBytes := by
    simpa using hfit
  obtain ⟨e', hleads, hrest, hsame⟩ := leads_bytes self timeoutSec hline hinbox hroom
  refine ⟨(e'.pop (ch '\n') rest).observe (.handed line), ?_, hsame⟩
  have hrun := hleads.done (self.advances_receiveRound timeoutSec)
    (@receiveRound_newline _ _ _ _ _ events hrest)
  rw [readScript_add, List.append_assoc, StratumClient.receiveLine, Proc.bind_run, Proc.get_run]
  simp only [hconnected, Bool.not_true, Bool.false_eq_true, if_false]
  exact hrun

variable (self timeoutSec events) in
/-- A line that does not fit breaks the connection. -/
theorem receiveLine_overlong (hconnected : e.connected = true) (hline : InLine line)
    (hinbox : e.inbox = line ++ ch '\n' :: rest)
    (hlong : StratumClient.kMaxJsonLineBytes < line.length) :
    ∃ e' es, (self.receiveLine timeoutSec).run e (readScript (line.length + 1) ++ events) =
      .done none e' es ∧ e'.connected = false := by
  obtain ⟨front, c, back, rfl, hfront⟩ : ∃ front c back, line = front ++ c :: back ∧
      front.length = StratumClient.kMaxJsonLineBytes := by
    refine ⟨line.take StratumClient.kMaxJsonLineBytes,
      line.get ⟨StratumClient.kMaxJsonLineBytes, hlong⟩,
      line.drop (StratumClient.kMaxJsonLineBytes + 1), ?_, ?_⟩
    · rw [List.cons_get_drop_succ, List.take_append_drop]
    · rw [List.length_take]
      omega
  obtain ⟨hn, hr⟩ := hline c (by simp)
  rw [List.append_assoc, List.cons_append] at hinbox
  have hroom : ([] : Bytes).length + front.length ≤ StratumClient.kMaxJsonLineBytes := by
    rw [List.length_nil, hfront]
    omega
  have hline' : InLine front := fun d hd => hline d (List.mem_append_left _ hd)
  obtain ⟨e', hleads, hrest, -⟩ := leads_bytes self timeoutSec hline' hinbox hroom
  have hfull : StratumClient.kMaxJsonLineBytes ≤ ([] ++ front).length := by
    rw [List.nil_append, hfront]
  obtain ⟨e'', hround, hlost⟩ := receiveRound_overlong self timeoutSec
    (readScript (back.length + 1) ++ events) hrest hn hr hfull
  refine ⟨e'', readScript (back.length + 1) ++ events, ?_, hlost⟩
  have hrun := hleads.done (self.advances_receiveRound timeoutSec) hround
  have hlength : (front ++ c :: back).length + 1 = front.length + (back.length + 1 + 1) := by
    simp only [List.length_append, List.length_cons]
    omega
  rw [hlength, readScript_add, readScript_succ (back.length + 1), List.append_assoc,
    List.append_assoc, StratumClient.receiveLine, Proc.bind_run, Proc.get_run]
  simp only [hconnected, Bool.not_true, Bool.false_eq_true, if_false]
  exact hrun

/-! ## Jobs -/

variable (self timeoutSec events) in
/-- The round of `wait_for_job` in which the line is received. -/
theorem jobRound_line (hconnected : e.connected = true) (hstop : e.stopRequested = false)
    (hline : InLine line) (hinbox : e.inbox = line ++ ch '\n' :: rest)
    (hfit : line.length ≤ StratumClient.kMaxJsonLineBytes) :
    ∃ e', (self.jobRound timeoutSec ()).run e (waitScript line ++ events) =
      .done (match parseNotify line with
        | some job => .inr (some job)
        | none => .inl ()) e' events := by
  obtain ⟨e', hread, -⟩ := receiveLine_line self 1 events hconnected hline hinbox hfit
  simp only [waitScript, List.cons_append, List.nil_append, StratumClient.jobRound, Proc.bind_run,
    tick_run, loadStop_run, hstop, hread, if_true, Bool.false_eq_true,
    if_false]
  cases parseNotify line with
  | none => exact ⟨e', rfl⟩
  | some job =>
    simp only [observe, StratumClient.logLine, log, Proc.bind_run, Proc.modify_run, Proc.pure_run]
    exact ⟨_, rfl⟩

variable (self timeoutSec events) in
/-- The round of `wait_for_job` in which the connection is lost. -/
theorem jobRound_overlong (hconnected : e.connected = true) (hstop : e.stopRequested = false)
    (hline : InLine line) (hinbox : e.inbox = line ++ ch '\n' :: rest)
    (hlong : StratumClient.kMaxJsonLineBytes < line.length) :
    ∃ e' es, (self.jobRound timeoutSec ()).run e (waitScript line ++ events) =
      .done (.inr none) e' es := by
  obtain ⟨e', es, hread, hlost⟩ := receiveLine_overlong self 1 events hconnected hline hinbox hlong
  simp only [waitScript, List.cons_append, List.nil_append, StratumClient.jobRound, Proc.bind_run,
    tick_run, loadStop_run, hstop, hread, if_true, Bool.false_eq_true,
    if_false, Proc.get_run, hlost, Bool.not_false, StratumClient.logLine, log, Proc.modify_run,
    Proc.pure_run]
  exact ⟨_, _, rfl⟩

end Reading

/-- `wait_for_job` returns the job when the line is there to be read, whatever follows. -/
def Accepts (line : Bytes) (job : StratumJob) : Prop :=
  ∀ (client : StratumClient) (timeoutSec : UInt32) (e : Env) (rest : Bytes) (events : List Event),
    e.connected = true → e.stopRequested = false → e.inbox = line ++ ch '\n' :: rest →
      ((client.waitForJob timeoutSec).run e (waitScript line ++ events)).value = some (some job)

/-- **What `wait_for_job` accepts**: the job of a line that fits and announces one. -/
theorem accepts_iff {line : Bytes} (hline : InLine line) (job : StratumJob) :
    Accepts line job ↔
      line.length ≤ StratumClient.kMaxJsonLineBytes ∧ parseNotify line = some job := by
  constructor
  · intro h
    let e : Env := { connected := true, inbox := line ++ [ch '\n'] }
    have hvalue := h ⟨[], 0, []⟩ 0 e [] [] rfl rfl rfl
    rw [StratumClient.waitForJob, Proc.loop_eq (StratumClient.advances_jobRound _ 0)] at hvalue
    by_cases hfit : line.length ≤ StratumClient.kMaxJsonLineBytes
    · refine ⟨hfit, ?_⟩
      have hinbox : e.inbox = line ++ ch '\n' :: [] := rfl
      obtain ⟨e', hround⟩ := jobRound_line ⟨[], 0, []⟩ 0 [] rfl rfl hline hinbox hfit
      rw [hround] at hvalue
      cases hparse : parseNotify line with
      | none =>
        rw [hparse] at hvalue
        cases hvalue
      | some job' =>
        rw [hparse] at hvalue
        exact Option.some.inj hvalue
    · have hinbox : e.inbox = line ++ ch '\n' :: [] := rfl
      obtain ⟨e', es, hround⟩ :=
        jobRound_overlong ⟨[], 0, []⟩ 0 [] rfl rfl hline hinbox (Nat.lt_of_not_le hfit)
      rw [hround] at hvalue
      cases hvalue
  · rintro ⟨hfit, hparse⟩ client timeoutSec e rest events hconnected hstop hinbox
    obtain ⟨e', hround⟩ := jobRound_line client timeoutSec events hconnected hstop hline hinbox hfit
    rw [StratumClient.waitForJob, Proc.loop_eq (client.advances_jobRound timeoutSec), hround,
      hparse]
    rfl

end HermitMiner
