import HermitMiner.Oracle.Live
import HermitMiner.Verify.Attribution
import HermitMiner.Verify.Wire

/-!
# A reliable connection

Runs of a client whose connection does not fail and whose deadlines do not expire: every `send`
takes some of its bytes, and what arrives is the start of a stream.

* `Reliable`, `reliable`: these events.
* `live_tick`, `live_select`, `live_send`, `live_recv`, …: one rule for each operation, as in `Env`.
* `Ahead`: what is still to be received of the stream.
* `live_sendLine`, `live_receiveLine`: a line that fits is sent, and received.
-/

namespace HermitMiner

open Oracle StratumClient

/-- The events of a reliable connection; `brings` says what can arrive in a state, and `stops`
whether a stop can be requested. -/
def Reliable (brings : Env → Bytes → Prop) (stops : Prop) (e : Env) : Event → Prop
  | .signal => stops
  | .arrive bytes => brings e bytes
  | .resolve addresses => addresses ≠ 0
  | .dial ok => ok = true
  | .send count => count ≠ 0
  | .tick expired => expired = false
  | .select result => result ≠ .failed
  | .recv ok => ok = true
  | _ => True

/-- The world of a client on a reliable connection: it takes back nothing it has written. -/
def reliable (brings : Env → Bytes → Prop) (stops : Prop) : Oracle.Setting Env Event where
  admits := Reliable brings stops
  onward e e' := written e.trace <+: written e'.trace
  refl _ := List.prefix_refl _
  trans h h' := h.trans h'

/-- What arrives is the start of the stream that answers the bytes written. -/
def Carries (output : Bytes → Bytes) (e : Env) (bytes : Bytes) : Prop :=
  e.conn.arrived.flatten ++ bytes <+: output (written e.trace)

/-- What happens without the client's doing keeps `I`. -/
structure Hears (brings : Env → Bytes → Prop) (stops : Prop) (I : Env → Prop) : Prop where
  signal : ∀ {e}, stops → I e → I e.signal
  arrive : ∀ {e} bytes, brings e bytes → I e → I (e.arrive bytes)

variable {brings : Env → Bytes → Prop} {stops : Prop} {output : Bytes → Bytes}

theorem prefix_of_written {e e' : Env} (h : written e'.trace = written e.trace) :
    written e.trace <+: written e'.trace := by
  rw [h]

theorem prefix_observe {o : Obs} (ho : o.isTraffic = false) (e : Env) :
    written e.trace <+: written (e.observe o).trace := prefix_of_written (written_observe ho _)

/-! ## Operations -/

section Rules

variable {α : Type} {I R : Env → Prop} {e : Env} (hI : Hears brings stops I) (h : I e)
  (hR : ∀ e, I e → R e)
include hI h hR

/-- The rule for waiting. -/
theorem live_event {f : Event → Sys α} {Q : α → Env → Prop}
    (hnext : ∀ ev e, Reliable brings stops e ev → I e →
      Live (reliable brings stops) (f ev) Q R e ∨ ∀ es, (f ev).run e es = .pending e)
    (hanswer : ∀ e, I e → Can (reliable brings stops) (await >>= f) (fun _ _ => True) e) :
    Live (reliable brings stops) (await >>= f) Q R e := by
  have hwaits : Waits async (await >>= f) f := fun _ _ => rfl
  refine .await hwaits h ?_ hR ?_ hanswer
  · intro ev g t hg hev ht
    cases ev with
    | signal =>
      cases hg
      exact ⟨hI.signal hev ht, prefix_observe rfl t⟩
    | arrive bytes =>
      cases hg
      exact ⟨hI.arrive bytes hev ht, prefix_observe rfl t⟩
    | _ => cases hg
  · exact fun ev t _ hev ht => hnext ev t hev ht

theorem live_tick (deadline : Deadline) :
    Live (reliable brings stops) (tick deadline) (fun on e => on = true ∧ I e) R e := by
  refine live_event hI h hR ?_ fun e _ => ?_
  · intro ev e hev he
    cases ev with
    | tick expired =>
      obtain rfl : expired = false := hev
      exact .inl (.pure ⟨rfl, he⟩)
    | _ => exact .inr fun _ => rfl
  · have hev : (reliable brings stops).admits e (.tick false) := rfl
    have hrun : (tick deadline).run e [.tick false] = .done true e [] := rfl
    exact .event rfl hev hrun trivial

theorem live_select :
    Live (reliable brings stops) select (fun result e => result ≠ .failed ∧ I e) R e := by
  refine live_event hI h hR ?_ fun e _ => ?_
  · intro ev e hev he
    cases ev with
    | select result =>
      refine .inl ?_
      cases result with
      | failed => exact absurd rfl hev
      | idle => exact .pure ⟨hev, he⟩
      | ready => exact .pure ⟨hev, he⟩
    | _ => exact .inr fun _ => rfl
  · have hev : (reliable brings stops).admits e (.select .ready) := SelectResult.noConfusion
    have hrun : select.run e [.select .ready] = .done .ready e [] := rfl
    exact .event rfl hev hrun trivial

/-- Some of the bytes are written. -/
theorem live_send {bytes : Bytes} (hbytes : bytes ≠ []) {Q : Nat → Env → Prop}
    (hQ : ∀ n e, I e → 0 < n → n ≤ bytes.length → Q n (e.observe (.wrote (bytes.take n)))) :
    Live (reliable brings stops) (send bytes) Q R e := by
  have hwrite : ∀ n e, I e → n ≠ 0 → n ≤ bytes.length → Live (reliable brings stops) (do
      observe (.wrote (bytes.take n))
      return n) Q R e := by
    intro n e he hn hle
    have hmore : written (e.observe (.wrote (bytes.take n))).trace =
        written e.trace ++ bytes.take n := written_concat e.trace _
    exact .update ⟨_, hmore.symm⟩ (.pure (hQ n e he (Nat.pos_of_ne_zero hn) hle))
  refine live_event hI h hR ?_ fun e _ => ?_
  · intro ev e hev he
    cases ev with
    | send count =>
      have hcount : count ≠ 0 := hev
      by_cases hle : count ≤ bytes.length
      · exact .inl (.ite (fun h0 => absurd h0 hcount) fun hn => .ite (fun hle =>
          hwrite count e he hn hle) fun hbig => absurd hle hbig)
      · refine .inr fun es => ?_
        simp [hcount, hle, Proc.halt]
    | _ => exact .inr fun _ => rfl
  · have hpos : bytes.length ≠ 0 := fun h0 => hbytes (List.length_eq_zero_iff.1 h0)
    have hev : (reliable brings stops).admits e (.send bytes.length) := hpos
    have hrun : (send bytes).run e [.send bytes.length] =
        .done bytes.length (e.observe (.wrote (bytes.take bytes.length))) [] := by
      simp [send, Proc.bind_run, await, Proc.await, Proc.awaitRun, async, hpos, observe]
    exact .event rfl hev hrun trivial

/-- A byte is received, where one can come. -/
theorem live_recv {Q : Option UInt8 → Env → Prop}
    (hcan : ∀ e, I e → Can (reliable brings stops) recv (fun _ _ => True) e)
    (hQ : ∀ c rest e, I e → e.inbox = c :: rest → Q (some c) (e.pop c rest)) :
    Live (reliable brings stops) recv Q R e := by
  refine live_event hI h hR ?_ hcan
  intro ev e hev he
  cases ev with
  | recv ok =>
    obtain rfl : ok = true := hev
    cases hinbox : e.inbox with
    | nil => exact .inr fun _ => by simp [Proc.bind_run, hinbox, Proc.halt]
    | cons c rest =>
      refine .inl (.read ?_)
      rw [hinbox]
      have hsame : written (e.pop c rest).trace = written e.trace := written_concat e.trace _
      exact .update (prefix_of_written hsame) (.pure (hQ c rest e he hinbox))
  | _ => exact .inr fun _ => rfl

theorem live_loadStop :
    Live (reliable brings stops) loadStop (fun stop e => stop = e.stopRequested ∧ I e) R e := by
  refine live_event hI h hR ?_ fun e _ => ?_
  · intro ev e _ he
    cases ev with
    | load => exact .inl (.read (.pure ⟨rfl, he⟩))
    | _ => exact .inr fun _ => rfl
  · have hev : (reliable brings stops).admits e .load := trivial
    have hrun : loadStop.run e [.load] = .done e.stopRequested e [] := rfl
    exact .event rfl hev hrun trivial

/-- The pool's host is found. -/
theorem live_resolve :
    Live (reliable brings stops) resolve (fun addresses e => addresses ≠ 0 ∧ I e) R e := by
  refine live_event hI h hR ?_ fun e _ => ?_
  · intro ev e hev he
    cases ev with
    | resolve addresses => exact .inl (.pure ⟨hev, he⟩)
    | _ => exact .inr fun _ => rfl
  · have hev : (reliable brings stops).admits e (.resolve 1) := Nat.one_ne_zero
    have hrun : resolve.run e [.resolve 1] = .done 1 e [] := rfl
    exact .event rfl hev hrun trivial

theorem live_dial : Live (reliable brings stops) dial (fun ok e => ok = true ∧ I e) R e := by
  refine live_event hI h hR ?_ fun e _ => ?_
  · intro ev e hev he
    cases ev with
    | dial ok => exact .inl (.pure ⟨hev, he⟩)
    | _ => exact .inr fun _ => rfl
  · have hev : (reliable brings stops).admits e (.dial true) := rfl
    have hrun : dial.run e [.dial true] = .done true e [] := rfl
    exact .event rfl hev hrun trivial

theorem live_clock : Live (reliable brings stops) clock (fun _ => I) R e := by
  refine live_event hI h hR ?_ fun e _ => ?_
  · intro ev e _ he
    cases ev with
    | clock durationSec acceptedPerMin => exact .inl (.pure he)
    | _ => exact .inr fun _ => rfl
  · have hev : (reliable brings stops).admits e (.clock 0 []) := trivial
    have hrun : clock.run e [.clock 0 []] = .done (0, []) e [] := rfl
    exact .event rfl hev hrun trivial

theorem live_openFile : Live (reliable brings stops) openFile (fun _ => I) R e := by
  refine live_event hI h hR ?_ fun e _ => ?_
  · intro ev e _ he
    cases ev with
    | openFile ok => exact .inl (.pure he)
    | _ => exact .inr fun _ => rfl
  · have hev : (reliable brings stops).admits e (.openFile true) := trivial
    have hrun : openFile.run e [.openFile true] = .done true e [] := rfl
    exact .event rfl hev hrun trivial

end Rules

/-! ## The stream -/

/-- The client is connected, and `todo` is what it has still to receive of its stream. -/
structure Ahead (output : Bytes → Bytes) (todo : Bytes) (e : Env) : Prop where
  up : Up e
  left : ∃ later, e.inbox ++ later = todo ∧
    e.conn.arrived.flatten ++ later = output (written e.trace)

namespace Ahead

variable {todo : Bytes} {c : UInt8} {e e' : Env}

theorem same (h : Ahead output todo e) (hup : Up e') (hinbox : e'.inbox = e.inbox)
    (harrived : e'.conn.arrived = e.conn.arrived) (hwritten : written e'.trace = written e.trace) :
    Ahead output todo e' where
  up := hup
  left := by
    rw [hinbox, harrived, hwritten]
    exact h.left

theorem signal (h : Ahead output todo e) : Ahead output todo e.signal :=
  h.same h.up rfl (by rw [Env.conn_signal]) (written_observe rfl _)

theorem arrive (h : Ahead output todo e) {bytes : Bytes} (hbytes : Carries output e bytes) :
    Ahead output todo (e.arrive bytes) := by
  obtain ⟨hup, later, htodo, hlater⟩ := h
  rw [Carries, ← hlater, List.prefix_append_right_inj] at hbytes
  obtain ⟨rest, rfl⟩ := hbytes
  have hwritten : written (e.arrive bytes).trace = written e.trace := written_observe rfl _
  refine ⟨hup, rest, ?_, ?_⟩
  · rw [Env.arrive_inbox, List.append_assoc, htodo]
  · rw [Env.conn_arrive, hwritten, ← hlater]
    simp [Connection.step]

theorem addLog (h : Ahead output todo e) (entry : LogEntry) : Ahead output todo (e.addLog entry) :=
  h.same h.up rfl rfl rfl

theorem handed (h : Ahead output todo e) (line : Bytes) :
    Ahead output todo (e.observe (.handed line)) :=
  h.same h.up rfl (by rw [Env.conn_observe]; rfl) (written_observe rfl _)

/-- The next byte is received. -/
theorem pop (h : Ahead output (c :: todo) e) {d : UInt8} {rest : Bytes}
    (hinbox : e.inbox = d :: rest) : d = c ∧ Ahead output todo (e.pop d rest) := by
  obtain ⟨hup, later, htodo, hlater⟩ := h
  rw [hinbox] at htodo
  obtain ⟨rfl, hrest⟩ := List.cons.inj htodo
  have hwritten : written (e.pop d rest).trace = written e.trace := written_concat e.trace _
  refine ⟨rfl, hup, later, hrest, ?_⟩
  rw [Env.conn_pop, hwritten, ← hlater, (Connection.receive_frame _ _).1]

/-- The next byte can come, if it is not there already. -/
theorem can_recv (h : Ahead output (c :: todo) e) :
    Can (reliable (Carries output) stops) recv (fun _ _ => True) e := by
  have hthere : ∀ e, e.inbox ≠ [] →
      Can (reliable (Carries output) stops) recv (fun _ _ => True) e := by
    intro e hne
    obtain ⟨d, rest, hinbox⟩ := List.exists_cons_of_ne_nil hne
    have hev : (reliable (Carries output) stops).admits e (.recv true) := rfl
    exact .event rfl hev (recv_run hinbox) trivial
  by_cases hinbox : e.inbox = []
  · obtain ⟨hup, later, htodo, hlater⟩ := h
    rw [hinbox, List.nil_append] at htodo
    have hcarries : Carries output e later := by rw [Carries, hlater]
    have hev : (reliable (Carries output) stops).admits e (.arrive later) := hcarries
    have hwaits : Waits async recv _ := fun _ _ => rfl
    refine .before hwaits rfl hev (hthere _ ?_)
    rw [Env.arrive_inbox, hinbox, htodo]
    exact List.cons_ne_nil c todo
  · exact hthere e hinbox

end Ahead

/-! ## Lines -/

/-- What a round of `receive_line` does with the next byte `c` of the stream. -/
inductive Took (output : Bytes → Bytes) (K : Env → Prop) (c : UInt8) (todo outLine : Bytes) :
    Bytes ⊕ Option Bytes → Env → Prop where
  | newline {e : Env} (hc : c = ch '\n') (h : Ahead output todo e) (hK : K e) :
    Took output K c todo outLine (.inr (some outLine)) (e.observe (.handed outLine))
  | carriage {e : Env} (hc : c = ch '\r') (h : Ahead output todo e) (hK : K e) :
    Took output K c todo outLine (.inl outLine) e
  | overlong {e : Env} (hfull : kMaxJsonLineBytes ≤ outLine.length) (entry : LogEntry)
    (hc : c ≠ ch '\n') (hK : K e) :
    Took output K c todo outLine (.inr none) ((e.observe .overlong).addLog entry).disconnect
  | byte {e : Env} (hc : c ≠ ch '\n') (hroom : outLine.length < kMaxJsonLineBytes)
    (h : Ahead output todo e) (hK : K e) :
    Took output K c todo outLine (.inl (outLine ++ [c])) e

/-- The client is connected, and has still to write `left` of the bytes `whole`. -/
structure Unsent (K : Env → Prop) (whole left : Bytes) (e : Env) : Prop where
  calm : K e
  up : Up e
  rest : written e.trace ++ left = whole

theorem Unsent.same {K : Env → Prop} {whole left : Bytes} {e e' : Env} (h : Unsent K whole left e)
    (hcalm : K e') (hup : Up e') (hwritten : written e'.trace = written e.trace) :
    Unsent K whole left e' := ⟨hcalm, hup, by rw [hwritten, h.rest]⟩

section Lines

variable {K R : Env → Prop} {e : Env} {line : Bytes} (self : StratumClient)

section Sending

variable {Q : Bool → Env → Prop} {sent : Bytes}
  (hK : Hears brings stops fun e => K e ∧ written e.trace <+: sent ++ (line ++ [ch '\n']))
  (hwrote : ∀ {e} bytes, K e → K (e.observe (.wrote bytes)))
  (hR : ∀ e, K e → written e.trace <+: sent ++ (line ++ [ch '\n']) → R e)
  (hQ : ∀ e, K e → Up e → written e.trace = sent ++ (line ++ [ch '\n']) →
    Q true (e.observe (.sent line)))
include hK hwrote hR hQ

/-- A round writes some bytes, or there are none left. -/
theorem live_sendRound {left : Bytes} (h : Unsent K (sent ++ (line ++ [ch '\n'])) left e) :
    Live (reliable brings stops) (sendRound line left)
      (fun r e => Sum.elim (fun left' => left'.length < left.length ∧
        Unsent K (sent ++ (line ++ [ch '\n'])) left' e) (fun ok => Q ok e) r) R e := by
  refine .ite (fun hleft => ?_) fun hleft => ?_
  · subst hleft
    refine .update (prefix_observe rfl e) (.pure (hQ e h.calm h.up ?_))
    rw [← h.rest, List.append_nil]
  · have hI : Hears brings stops (Unsent K (sent ++ (line ++ [ch '\n'])) left) :=
      ⟨fun hs he => he.same (hK.signal hs ⟨he.calm, left, he.rest⟩).1 he.up
          (written_observe rfl _),
        fun bytes hb he => he.same (hK.arrive bytes hb ⟨he.calm, left, he.rest⟩).1 he.up
          (written_observe rfl _)⟩
    have hsend : Live (reliable brings stops) (send left) (fun n e => 0 < n ∧
        Unsent K (sent ++ (line ++ [ch '\n'])) (left.drop n) e) R e := by
      refine live_send hI h (fun e he => hR e he.calm ⟨left, he.rest⟩) hleft ?_
      intro n e he hpos _
      have hwritten : written (e.observe (.wrote (left.take n))).trace =
          written e.trace ++ left.take n := written_concat e.trace _
      refine ⟨hpos, hwrote _ he.calm, he.up, ?_⟩
      rw [hwritten, List.append_assoc, List.take_append_drop, he.rest]
    refine .bind (causal_send left) hsend ?_
    rintro n e ⟨hn, he⟩
    refine .ite (fun h0 => absurd h0 (Nat.ne_of_gt hn)) fun _ => .pure ⟨?_, he⟩
    have hpos := List.length_pos_of_ne_nil hleft
    rw [List.length_drop]
    omega

/-- A line that fits is sent; `K` has to hold up to its end only. -/
theorem live_sendLine_within (h : K e) (hup : Up e) (hsent : written e.trace = sent)
    (hfit : line.length ≤ kMaxJsonLineBytes) :
    Live (reliable brings stops) (self.sendLine line) Q R e := by
  have hround := fun left e =>
    @live_sendRound brings stops K R e line Q sent hK hwrote hR hQ left
  refine .read (.ite (fun hdown => ?_) fun _ => .ite (fun hlong => ?_) fun _ => ?_)
  · rw [hup] at hdown
    cases hdown
  · exact absurd hfit (Nat.not_le.2 hlong)
  · have hstart : Unsent K (sent ++ (line ++ [ch '\n'])) (line ++ [ch '\n']) e :=
      ⟨h, hup, by rw [hsent]⟩
    refine .loop (advances_sendRound line) (causal_sendRound line) (fun left e he =>
      (hround left e he).mono ?_ fun _ hR => hR) (fun left _ => left.length) ?_ hstart
    · rintro (left' | ok) t hr
      · exact hr.2
      · exact hr
    · refine fun left e he => (hround left e he).can.mono ?_
      rintro r t hr left' rfl
      exact hr.1

end Sending

/-- A line that fits is sent. -/
theorem live_sendLine {Q : Bool → Env → Prop} {sent : Bytes} (hK : Hears brings stops K)
    (hwrote : ∀ {e} bytes, K e → K (e.observe (.wrote bytes)))
    (hR : ∀ e, K e → written e.trace <+: sent ++ (line ++ [ch '\n']) → R e)
    (hQ : ∀ e, K e → Up e → written e.trace = sent ++ (line ++ [ch '\n']) →
      Q true (e.observe (.sent line)))
    (h : K e) (hup : Up e) (hsent : written e.trace = sent)
    (hfit : line.length ≤ kMaxJsonLineBytes) :
    Live (reliable brings stops) (self.sendLine line) Q R e := by
  have hwithin : Hears brings stops fun e =>
      K e ∧ written e.trace <+: sent ++ (line ++ [ch '\n']) :=
    ⟨fun hs h => ⟨hK.signal hs h.1, (written_signal _).symm ▸ h.2⟩,
      fun bytes hb h => ⟨hK.arrive bytes hb h.1, (written_arrive _ bytes).symm ▸ h.2⟩⟩
  exact live_sendLine_within self hwithin hwrote hR hQ h hup hsent hfit

section Receiving

variable {Q : Option Bytes → Env → Prop} {timeoutSec : UInt32} {more outLine : Bytes}
  (hK : Hears (Carries output) stops K) (hpop : ∀ {e} c rest, K e → K (e.pop c rest))
  (hR : ∀ e, K e → R e)
include hK hpop hR

omit hpop hR in
theorem hears_ahead (todo : Bytes) :
    Hears (Carries output) stops fun e => Ahead output todo e ∧ K e :=
  ⟨fun hs he => ⟨he.1.signal, hK.signal hs he.2⟩,
    fun bytes hb he => ⟨he.1.arrive hb, hK.arrive bytes hb he.2⟩⟩

section Round

variable {c : UInt8} {todo : Bytes} (h : Ahead output (c :: todo) e ∧ K e)
include h

/-- The next byte is received and dealt with. -/
theorem live_ready :
    Live (reliable (Carries output) stops) (do
      match ← recv with
      | none =>
        disconnect
        return .inr none
      | some c =>
        if c = ch '\n' then
          observe (.handed outLine)
          return .inr (some outLine)
        else if c = ch '\r' then return .inl outLine
        else if kMaxJsonLineBytes ≤ outLine.length then
          observe .overlong
          self.logLine .err (str "Incoming JSON line exceeded size limit") []
          disconnect
          return .inr none
        else return .inl (outLine ++ [c])) (Took output K c todo outLine) R e := by
  have hrecv : Live (reliable (Carries output) stops) recv
      (fun got e => got = some c ∧ Ahead output todo e ∧ K e) R e := by
    refine live_recv (hears_ahead hK (c :: todo)) h (fun e he => hR e he.2)
      (fun e he => he.1.can_recv) ?_
    intro d rest e he hinbox
    obtain ⟨rfl, hahead⟩ := he.1.pop hinbox
    exact ⟨rfl, hahead, hpop d rest he.2⟩
  refine .bind causal_recv hrecv ?_
  rintro _ e ⟨rfl, he⟩
  refine .ite (fun hc => ?_) fun hn => .ite (fun hc => ?_) fun _ => .ite (fun hfull => ?_)
    fun hroom => ?_
  · exact .update (prefix_observe rfl e) (.pure (.newline hc he.1 he.2))
  · exact .pure (.carriage hc he.1 he.2)
  · refine .update (prefix_observe rfl e) (.update (List.prefix_refl _)
      (.update (List.prefix_refl _) (.pure ?_)))
    exact .overlong hfull _ hn he.2
  · exact .pure (.byte hn (Nat.not_le.1 hroom) he.1 he.2)

theorem live_receiveRound :
    Live (reliable (Carries output) stops) (self.receiveRound timeoutSec outLine)
      (fun r e => (r = .inl outLine ∧ Ahead output (c :: todo) e ∧ K e) ∨
        Took output K c todo outLine r e) R e := by
  have hI := @hears_ahead stops output K hK (c :: todo)
  have hIR : ∀ e, Ahead output (c :: todo) e ∧ K e → R e := fun e he => hR e he.2
  refine .bind (causal_tick _) (live_tick hI h hIR _) ?_
  rintro _ e ⟨rfl, he⟩
  refine .ite (fun _ => ?_) fun hno => absurd rfl hno
  refine .bind causal_select (live_select hI he hIR) ?_
  rintro result e ⟨hresult, he⟩
  cases result with
  | failed => exact absurd rfl hresult
  | idle => exact .pure (.inl ⟨rfl, he⟩)
  | ready => exact (live_ready self hK hpop hR he).mono (fun _ _ => .inr) fun _ => id

/-- Some round receives the next byte. -/
theorem can_receiveRound :
    Can (reliable (Carries output) stops) (self.receiveRound timeoutSec outLine)
      (Took output K c todo outLine) e := by
  have hI := @hears_ahead stops output K hK (c :: todo)
  refine .bind (causal_tick _) (live_tick hI h (fun e he => hR e he.2) _).can ?_
  rintro _ e ⟨rfl, he⟩
  refine .ite (fun _ => ?_) fun hno => absurd rfl hno
  have hev : (reliable (Carries output) stops).admits e (.select .ready) :=
    SelectResult.noConfusion
  have hselect : Can (reliable (Carries output) stops) select
      (fun result e' => result = .ready ∧ e' = e) e :=
    .event rfl hev (@select_run e []) ⟨rfl, rfl⟩
  refine .bind causal_select hselect ?_
  rintro _ _ ⟨rfl, rfl⟩
  exact (live_ready self hK hpop hR he).can

end Round

/-- **A line is received when it fits**, and breaks the connection when it does not. -/
theorem live_receiveLine (h : Ahead output (line ++ ch '\n' :: more) e) (he : K e)
    (hline : InLine line)
    (hQ : line.length ≤ kMaxJsonLineBytes → ∀ e, Ahead output more e → K e →
      Q (some line) (e.observe (.handed line)))
    (hlong : kMaxJsonLineBytes < line.length → ∀ e entry, K e →
      Q none ((e.observe .overlong).addLog entry).disconnect) :
    Live (reliable (Carries output) stops) (self.receiveLine timeoutSec) Q R e := by
  -- what is in hand is the start of the line
  let I : Bytes → Env → Prop := fun outLine e => outLine.length ≤ kMaxJsonLineBytes ∧
    ∃ l, line = outLine ++ l ∧ Ahead output (l ++ ch '\n' :: more) e ∧ K e
  have hnext : ∀ outLine e, I outLine e → ∃ c todo, (Ahead output (c :: todo) e ∧ K e) ∧
      (∀ e, Ahead output (c :: todo) e ∧ K e → I outLine e) ∧
      ∀ r e, Took output K c todo outLine r e →
        Sum.elim (fun out => I out e ∧ outLine.length < out.length) (fun got => Q got e) r := by
    rintro outLine e ⟨hlen, l, hl, hahead, hKe⟩
    cases l with
    | nil =>
      rw [List.append_nil] at hl
      subst hl
      refine ⟨ch '\n', more, ⟨hahead, hKe⟩, fun e h => ⟨hlen, [], by simp, h⟩, ?_⟩
      rintro _ _ (⟨-, h, hK⟩ | ⟨hc, -, -⟩ | ⟨-, -, hc, -⟩ | ⟨hc, -, -, -⟩)
      · exact hQ hlen _ h hK
      · cases hc
      · exact absurd rfl hc
      · exact absurd rfl hc
    | cons c l =>
      obtain ⟨hn, hr⟩ := hline c (by simp [hl])
      refine ⟨c, l ++ ch '\n' :: more, ⟨hahead, hKe⟩, fun e h => ⟨hlen, c :: l, hl, h⟩, ?_⟩
      rintro _ _ (⟨hc, -, -⟩ | ⟨hc, -, -⟩ | ⟨hfull, entry, -, hK⟩ | ⟨-, hroom, h, hK⟩)
      · exact absurd hc hn
      · exact absurd hc hr
      · refine hlong ?_ _ entry hK
        rw [hl, List.length_append, List.length_cons]
        omega
      · have hgrown : (outLine ++ [c]).length = outLine.length + 1 := List.length_append
        exact ⟨⟨by omega, l, by rw [hl, List.append_assoc]; rfl, h, hK⟩, by omega⟩
  refine .read (.ite (fun hdown => ?_) fun _ => ?_)
  · rw [h.up] at hdown
    cases hdown
  · have hstart : I [] e := ⟨Nat.zero_le _, line, rfl, h, he⟩
    refine .loop (self.advances_receiveRound timeoutSec)
      (fun outLine => causal_receiveRound self timeoutSec outLine) ?_
      (fun outLine _ => line.length - outLine.length) ?_ hstart
    · intro outLine e hI
      obtain ⟨c, todo, hahead, hsame, htook⟩ := hnext outLine e hI
      refine (live_receiveRound self hK hpop hR hahead).mono ?_ fun _ => id
      rintro r t (⟨rfl, h⟩ | h)
      · exact hsame t h
      · have hr := htook r t h
        cases r with
        | inl out => exact hr.1
        | inr got => exact hr
    · intro outLine e hI
      obtain ⟨c, todo, hahead, -, htook⟩ := hnext outLine e hI
      refine (can_receiveRound self hK hpop hR hahead).mono ?_
      rintro r t h out rfl
      have hr := htook _ t h
      obtain ⟨⟨-, l, hl, -⟩, hlt⟩ := hr
      have hle := congrArg List.length hl
      rw [List.length_append] at hle
      show line.length - out.length < line.length - outLine.length
      omega

end Receiving

end Lines

end HermitMiner
