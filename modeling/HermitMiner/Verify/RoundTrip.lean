import HermitMiner.Verify.Reliable

/-!
# Lines from one end to the other

One client sends lines, another one receives them, and nothing fails: every `send` takes some bytes
and no deadline expires.

* `sendLines`, `receiveLines`: `send_line` and `receive_line`, again and again.
* `Joined`: the two ends, with the bytes of the one arriving at the other.
* `lines_round_trip`: lines that fit are received as they were sent, and a line that does not fit is
  neither sent nor received.
-/

namespace HermitMiner

open Oracle StratumClient

namespace StratumClient

/-- `send_line` for each of the lines. -/
def sendLines (self : StratumClient) : List Bytes → Sys (List Bool)
  | [] => return []
  | line :: lines => do
    let ok ← self.sendLine line
    let oks ← self.sendLines lines
    return ok :: oks

/-- `receive_line` with each of the timeouts. -/
def receiveLines (self : StratumClient) : List UInt32 → Sys (List (Option Bytes))
  | [] => return []
  | timeoutSec :: timeouts => do
    let line ← self.receiveLine timeoutSec
    let lines ← self.receiveLines timeouts
    return line :: lines

end StratumClient

/-- The lines have no line end in them, and fit. -/
def Fit (lines : List Bytes) : Prop :=
  ∀ line ∈ lines, InLine line ∧ line.length ≤ kMaxJsonLineBytes

theorem wire_cons (line : Bytes) (lines : List Bytes) :
    wire (line :: lines) = (line ++ [ch '\n']) ++ wire lines := by
  simp [wire]

/-! ## The sender -/

/-- The world of the sender: anything can come from the other end, and a stop can be requested. -/
abbrev senderSide : Oracle.Setting Env Event := reliable (fun _ _ => True) True

section Sender

variable (self : StratumClient) {e : Env} {lines : List Bytes} {sent : Bytes}

theorem causal_sendLines : (self.sendLines lines).Causal := by
  induction lines with
  | nil => exact .pure
  | cons line lines ih => exact (causal_sendLine self line).bind fun _ => ih.bind fun _ => .pure

/-- A line that does not fit costs the connection, and nothing of it is written. -/
theorem sendLine_overlong (hup : Up e) {line : Bytes} (hlong : kMaxJsonLineBytes < line.length) :
    ∃ e', (∀ es, (self.sendLine line).run e es = .done false e' es) ∧
      written e'.trace = written e.trace ∧ e'.connected = false := by
  have hrun : ∀ es, (self.sendLine line).run e es = .done false ((e.observe .unsendable).addLog
      ⟨.err, str "stratum", self.nodeId, str "Outgoing JSON line exceeds size limit",
        []⟩).disconnect es := by
    intro es
    simp only [sendLine, Proc.bind_run, Proc.get_run, hup, Bool.not_true, Bool.false_eq_true,
      if_false, if_pos hlong]
    rfl
  exact ⟨_, hrun, written_observe rfl _, rfl⟩

/-- Lines that fit are sent; `last` is the line after them, which does not fit, if there is one. -/
theorem live_sendLines {last : Option Bytes} (hfit : Fit lines)
    (hlast : ∀ line ∈ last, kMaxJsonLineBytes < line.length) (hup : Up e)
    (hsent : written e.trace = sent) :
    Live senderSide (self.sendLines (lines ++ last.toList))
      (fun oks e => oks = (lines.map fun _ => true) ++ last.toList.map (fun _ => false) ∧
        written e.trace = sent ++ wire lines ∧ (Up e ↔ last = none))
      (fun e => written e.trace <+: sent ++ wire lines) e := by
  induction lines generalizing e sent with
  | nil =>
    have hnil : sent ++ wire [] = written e.trace := by rw [hsent]; exact List.append_nil _
    rw [hnil]
    cases last with
    | none => exact .pure ⟨rfl, rfl, iff_of_true hup rfl⟩
    | some line =>
      obtain ⟨e', hrun, hwritten, hdown⟩ := sendLine_overlong self hup (hlast line rfl)
      have hrun' : ∀ es, (self.sendLines [line]).run e es = .done [false] e' es := by
        intro es
        simp only [sendLines, Proc.bind_run, hrun, Proc.pure_run]
      exact .of_done hrun' (prefix_of_written hwritten) ⟨rfl, hwritten, by simp [hdown]⟩
  | cons line lines ih =>
    have hassoc : sent ++ wire (line :: lines) = (sent ++ (line ++ [ch '\n'])) ++ wire lines := by
      rw [wire_cons, ← List.append_assoc]
    rw [hassoc]
    have hhears : Hears (fun _ _ => True) True fun _ => True :=
      ⟨fun _ _ => trivial, fun _ _ _ => trivial⟩
    have hline : Live senderSide (self.sendLine line)
        (fun ok e => ok = true ∧ Up e ∧ written e.trace = sent ++ (line ++ [ch '\n']))
        (fun e => written e.trace <+: (sent ++ (line ++ [ch '\n'])) ++ wire lines) e := by
      refine live_sendLine self hhears (fun _ _ => trivial) ?_ ?_ trivial hup hsent
        (hfit line List.mem_cons_self).2
      · exact fun e _ h => h.trans (List.prefix_append _ _)
      · exact fun e _ hup h => ⟨rfl, hup, (written_observe rfl _).trans h⟩
    refine .bind (causal_sendLine self line) hline ?_
    rintro _ e ⟨rfl, hup, hwritten⟩
    refine .bind (causal_sendLines self)
      (ih (fun l hl => hfit l (List.mem_cons_of_mem _ hl)) hup hwritten) ?_
    rintro _ e ⟨rfl, hwritten, hup⟩
    exact .pure ⟨rfl, hwritten, hup⟩

end Sender

/-! ## The receiver -/

/-- The world of the receiver of a stream. -/
abbrev receiverSide (stream : Bytes) : Oracle.Setting Env Event :=
  reliable (Carries fun _ => stream) True

section Receiver

variable (self : StratumClient) {e : Env} {stream : Bytes}

theorem causal_receiveLines (timeouts : List UInt32) : (self.receiveLines timeouts).Causal := by
  induction timeouts with
  | nil => exact .pure
  | cons timeoutSec timeouts ih =>
    exact (causal_receiveLine self timeoutSec).bind fun _ => ih.bind fun _ => .pure

/-- Without a connection nothing is received. -/
theorem receiveLines_down (hdown : e.connected = false) (timeouts : List UInt32) (es : List Event) :
    (self.receiveLines timeouts).run e es = .done (timeouts.map fun _ => none) e es := by
  induction timeouts with
  | nil => rfl
  | cons timeoutSec timeouts ih =>
    simp only [receiveLines, receiveLine, Proc.bind_run, Proc.get_run, hdown, Bool.not_false,
      if_true, Proc.pure_run, ih, List.map_cons]

/-- The lines of the connection that were received so far. -/
def Received (lines : List Bytes) (e : Env) : Prop := e.conn.handed = lines

theorem hears_received (lines : List Bytes) :
    Hears (Carries fun _ => stream) True (Received lines) where
  signal _ h := by
    rw [Received, Env.conn_signal]
    exact h
  arrive bytes _ h := by
    rw [Received, Env.conn_arrive]
    exact h

theorem Received.pop {lines : List Bytes} (h : Received lines e) (c : UInt8) (rest : Bytes) :
    Received lines (e.pop c rest) := by
  rw [Received, Env.conn_pop, (Connection.receive_frame _ _).2.1]
  exact h

/-- Lines that fit are received; a line after them that does not fit costs the connection. -/
theorem live_receiveLines {before lines : List Bytes} {timeouts timeouts' : List UInt32}
    {more : Bytes} (hfit : Fit lines) (hcount : timeouts.length = lines.length)
    (hlast : timeouts' ≠ [] → ∃ long rest, InLine long ∧ kMaxJsonLineBytes < long.length ∧
      more = long ++ ch '\n' :: rest)
    (h : Ahead (fun _ => stream) (wire lines ++ more) e) (hbefore : Received before e) :
    Live (receiverSide stream) (self.receiveLines (timeouts ++ timeouts'))
      (fun got e => got = lines.map some ++ timeouts'.map (fun _ => none) ∧
        Received (before ++ lines) e ∧ (Up e ↔ timeouts' = []))
      (fun e => e.conn.handed <+: before ++ lines) e := by
  have hR : ∀ e, Received before e → e.conn.handed <+: before ++ lines :=
    fun e he => he ▸ List.prefix_append _ _
  induction lines generalizing e before timeouts with
  | nil =>
    obtain rfl := List.length_eq_zero_iff.1 hcount
    have hmore : wire [] ++ more = more := rfl
    rw [hmore] at h
    cases timeouts' with
    | nil => exact .pure ⟨rfl, by rwa [List.append_nil], iff_of_true h.up rfl⟩
    | cons timeoutSec timeouts' =>
      obtain ⟨long, rest, hline, hlong, rfl⟩ := hlast (List.cons_ne_nil _ _)
      have hread : Live (receiverSide stream) (self.receiveLine timeoutSec)
          (fun got e => got = none ∧ e.connected = false ∧ Received before e)
          (fun e => e.conn.handed <+: before ++ []) e := by
        refine live_receiveLine self (hears_received before) (fun c rest he => he.pop c rest) hR h
          hbefore hline (fun hshort => absurd hlong (Nat.not_lt.2 hshort)) fun _ e entry he => ?_
        refine ⟨rfl, rfl, ?_⟩
        rw [Received, Env.conn_disconnect, Env.conn_addLog, Env.conn_observe]
        exact he
      refine .bind (causal_receiveLine self timeoutSec) hread ?_
      rintro _ e ⟨rfl, hdown, he⟩
      have hrest : Live (receiverSide stream) (self.receiveLines timeouts')
          (fun got e' => got = timeouts'.map (fun _ => none) ∧ e' = e)
          (fun e => e.conn.handed <+: before ++ []) e :=
        .of_done (receiveLines_down self hdown timeouts') (List.prefix_refl _) ⟨rfl, rfl⟩
      refine .bind (causal_receiveLines self timeouts') hrest ?_
      rintro _ _ ⟨rfl, rfl⟩
      refine .pure ⟨rfl, by rwa [List.append_nil], iff_of_false ?_ (List.cons_ne_nil _ _)⟩
      rw [Up, hdown]
      exact Bool.false_ne_true
  | cons line lines ih =>
    obtain ⟨timeoutSec, timeouts, rfl⟩ : ∃ t ts, timeouts = t :: ts :=
      List.exists_cons_of_length_eq_add_one hcount
    obtain ⟨hline, hshort⟩ := hfit line List.mem_cons_self
    have hassoc : before ++ line :: lines = (before ++ [line]) ++ lines := by simp
    have hstream : wire (line :: lines) ++ more = line ++ ch '\n' :: (wire lines ++ more) := by
      simp [wire_cons]
    rw [hstream] at h
    have hread : Live (receiverSide stream) (self.receiveLine timeoutSec)
        (fun got e => got = some line ∧ Ahead (fun _ => stream) (wire lines ++ more) e ∧
          Received (before ++ [line]) e)
        (fun e => e.conn.handed <+: before ++ line :: lines) e := by
      refine live_receiveLine self (hears_received before) (fun c rest he => he.pop c rest) hR h
        hbefore hline (fun _ e hahead he => ⟨rfl, hahead.handed line, ?_⟩)
        fun hlong => absurd hlong (Nat.not_lt.2 hshort)
      rw [Received, Env.conn_observe]
      exact congrArg (· ++ [line]) he
    refine .bind (causal_receiveLine self timeoutSec) hread ?_
    rintro _ e ⟨rfl, hahead, he⟩
    rw [hassoc] at hR ⊢
    refine .bind (causal_receiveLines self _) (ih (fun l hl => hfit l (List.mem_cons_of_mem _ hl))
      (Nat.succ.inj hcount) hahead he fun e he => he ▸ List.prefix_append _ _) ?_
    rintro _ e ⟨rfl, hgot, hup⟩
    exact .pure ⟨rfl, hgot, hup⟩

end Receiver

/-! ## Both ends -/

theorem ahead_connect (f : Env) (stream : Bytes) : Ahead (fun _ => stream) stream f.connect :=
  ⟨rfl, stream, rfl, by rw [Env.conn_connect]; rfl⟩

theorem Carries.mono {stream more : Bytes} (h : stream <+: more) (f : Env) (ev : Event) :
    (receiverSide stream).admits f ev → (receiverSide more).admits f ev := by
  intro hev
  cases ev with
  | arrive bytes => exact List.IsPrefix.trans hev h
  | _ => exact hev

/-- Both ends on one connection: no call fails and no deadline expires, and what arrives at the
receiver is what the sender has written. -/
structure Joined (m : Sys (List Bool)) (m' : Sys (List (Option Bytes))) (e f : Env)
    (es rs : List Event) : Prop where
  sends : m.Legal senderSide.admits e.connect es
  receives : m'.Legal (receiverSide (written (m.run e.connect es).state.trace)).admits f.connect rs

/-- **Lines that fit arrive as they were sent**, whatever pieces the bytes are written and read in:
neither end returns anything else, and as long as neither is stuck both can return. Of a line that
does not fit nothing is written, and a client that is sent one disconnects without it. -/
theorem lines_round_trip (sender receiver : StratumClient) (e f : Env) {lines : List Bytes}
    {timeouts : List UInt32} (hfit : Fit lines) (hcount : timeouts.length = lines.length) :
    (∀ es rs, Joined (sender.sendLines lines) (receiver.receiveLines timeouts) e f es rs →
      ((sender.sendLines lines).run e.connect es).Sat
        (fun oks e => oks = lines.map (fun _ => true) ∧ written e.trace = wire lines)
        (fun e => written e.trace <+: wire lines) ∧
      ((receiver.receiveLines timeouts).run f.connect rs).Sat
        (fun got _ => got = lines.map some) (fun f => f.conn.handed <+: lines) ∧
      (¬Proc.Stuck (sender.sendLines lines) e.connect es →
        ¬Proc.Stuck (receiver.receiveLines timeouts) f.connect rs → ∃ more more',
          Joined (sender.sendLines lines) (receiver.receiveLines timeouts) e f (es ++ more)
            (rs ++ more') ∧
          ((sender.sendLines lines).run e.connect (es ++ more)).value =
            some (lines.map fun _ => true) ∧
          ((receiver.receiveLines timeouts).run f.connect (rs ++ more')).value =
            some (lines.map some))) ∧
    ∀ long, InLine long → kMaxJsonLineBytes < long.length →
      (∀ es, (sender.sendLines (lines ++ [long])).Legal senderSide.admits e.connect es →
        ((sender.sendLines (lines ++ [long])).run e.connect es).Sat
          (fun oks e => oks = lines.map (fun _ => true) ++ [false] ∧
            written e.trace = wire lines ∧ ¬Up e)
          (fun e => written e.trace <+: wire lines)) ∧
      ∀ rest timeouts', timeouts' ≠ [] →
        ∀ rs, (receiver.receiveLines (timeouts ++ timeouts')).Legal
            (receiverSide (wire lines ++ (long ++ ch '\n' :: rest))).admits f.connect rs →
          ((receiver.receiveLines (timeouts ++ timeouts')).run f.connect rs).Sat
            (fun got f => got = lines.map some ++ timeouts'.map (fun _ => none) ∧ ¬Up f)
            (fun f => f.conn.handed <+: lines) ∧
          (¬Proc.Stuck (receiver.receiveLines (timeouts ++ timeouts')) f.connect rs → ∃ more,
            ((receiver.receiveLines (timeouts ++ timeouts')).run f.connect (rs ++ more)).value =
              some (lines.map some ++ timeouts'.map fun _ => none)) := by
  have hreceive : ∀ timeouts' more, (timeouts' ≠ [] → ∃ long rest, InLine long ∧
      kMaxJsonLineBytes < long.length ∧ more = long ++ ch '\n' :: rest) →
      Live (receiverSide (wire lines ++ more)) (receiver.receiveLines (timeouts ++ timeouts'))
        (fun got f => got = lines.map some ++ timeouts'.map (fun _ => none) ∧
          Received lines f ∧ (Up f ↔ timeouts' = []))
        (fun f => f.conn.handed <+: lines) f.connect := by
    intro timeouts' more hlast
    have hnone : Received [] f.connect := by rw [Received, Env.conn_connect]
    exact live_receiveLines receiver hfit hcount hlast (ahead_connect f _) hnone
  have hstart : written e.connect.trace = [] := written_concat e.trace _
  refine ⟨fun es rs hjoined => ?_, fun long hline hlong => ⟨fun es hl => ?_, ?_⟩⟩
  · have hs := @live_sendLines sender e.connect lines [] none hfit nofun rfl hstart
    have hr := hreceive [] [] (absurd rfl)
    simp only [Option.toList_none, List.append_nil, List.map_nil, List.nil_append] at hs hr
    have hpart : written ((sender.sendLines lines).run e.connect es).state.trace <+: wire lines := by
      have hsafe := hs.safe es hjoined.sends
      cases hrun : (sender.sendLines lines).run e.connect es with
      | done oks t rest =>
        rw [hrun] at hsafe
        exact hsafe.2.1 ▸ List.prefix_refl _
      | pending t =>
        rw [hrun] at hsafe
        exact hsafe
    have hlegal := hjoined.receives.mono (Carries.mono hpart)
    refine ⟨?_, ?_, fun hstuck hstuck' => ?_⟩
    · exact (hs.mono (fun _ _ h => ⟨h.1, h.2.1⟩) fun _ h => h).safe es hjoined.sends
    · exact (hr.mono (fun _ _ h => h.1) fun _ h => h).safe rs hlegal
    · obtain ⟨more, oks, t, back, hl, hrun, rfl, hwritten, -⟩ := hs.complete hjoined.sends hstuck
      obtain ⟨more', got, u, back', hl', hrun', rfl, -⟩ := hr.complete hlegal hstuck'
      refine ⟨more, more', ⟨hl, ?_⟩, by rw [hrun]; rfl, by rw [hrun']; rfl⟩
      have hall : written ((sender.sendLines lines).run e.connect (es ++ more)).state.trace =
          wire lines := by
        rw [hrun]
        exact hwritten
      rw [hall]
      exact hl'
  · have hlast : ∀ line ∈ some long, kMaxJsonLineBytes < line.length := by
      intro line h
      rw [← Option.some.inj h]
      exact hlong
    have hs := live_sendLines sender hfit hlast rfl hstart
    exact (hs.mono (fun _ _ h => ⟨h.1, h.2.1, fun hup => nomatch h.2.2.1 hup⟩) fun _ h => h).safe es hl
  · intro rest timeouts' hmore rs hl
    have hr := hreceive timeouts' (long ++ ch '\n' :: rest) fun _ => ⟨long, rest, hline, hlong, rfl⟩
    refine ⟨?_, fun hstuck => ?_⟩
    · exact (hr.mono (fun _ _ h => ⟨h.1, fun hup => hmore (h.2.2.1 hup)⟩) fun _ h => h).safe rs hl
    · obtain ⟨more, got, u, back, -, hrun, rfl, -⟩ := hr.complete hl hstuck
      exact ⟨more, by rw [hrun]; rfl⟩

theorem lines_round_trip_two :
    let client : StratumClient := ⟨[], 0, []⟩
    ∃ es rs, Joined (client.sendLines [str "ab", []]) (client.receiveLines [1, 1]) {} {} es rs ∧
      ((client.sendLines [str "ab", []]).run (Env.connect {}) es).value = some [true, true] ∧
      ((client.receiveLines [1, 1]).run (Env.connect {}) rs).value =
        some [some (str "ab"), some []] := by
  have hfit : Fit [str "ab", []] := by
    unfold Fit
    decide +kernel
  have hsent : ((sendLines ⟨[], 0, []⟩ [str "ab", []]).run (Env.connect {})
      [.send 1, .send 2, .send 1]).value = some [true, true] := rfl
  have hgot : ((receiveLines ⟨[], 0, []⟩ [1, 1]).run (Env.connect {})
      (.arrive (str "ab\n\n") :: readScript 4)).value = some [some (str "ab"), some []] := rfl
  have hboth := (@lines_round_trip ⟨[], 0, []⟩ ⟨[], 0, []⟩ {} {} _ [1, 1] hfit rfl).1 [] []
    ⟨legal_nil, legal_nil⟩
  obtain ⟨more, more', hjoined, hs, hr⟩ :=
    hboth.2.2 (Proc.not_stuck_of_value hsent) (Proc.not_stuck_of_value hgot)
  exact ⟨more, more', hjoined, hs, hr⟩

end HermitMiner
