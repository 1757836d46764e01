import HermitMiner.Runtime
import HermitMiner.Verify.Frame
import HermitMiner.Verify.Messages

/-!
# The books of a connection

What the history of a connection says of the lines on it, and that every function of the client
keeps these books, whatever the pool, the clock and the stop signal do.

* `WellRead`: the readings of a connection against the bytes received on it.
* `Lawful`: what must have come before a request, a response and an accepted share.
* `Ledger`: every line read is handed on, and every job in one, unless a request was waiting.
* `Stage`, `On`: where a connected client stands between two of its steps.
* `wp_receiveLine`, `wp_requestResponse`, `wp_waitForJob`, …: one lemma for each function.
-/

namespace HermitMiner

open Oracle

/-! ## Readings -/

/-- The readings of a connection are what a reader of its bytes makes of them: with the deadlines
that expired between them, and without. -/
structure WellRead (k : Connection) : Prop where
  held : Framing.read (ch '\n') isCR k.rx = ⟨k.held, k.readings.map Reading.held⟩
  whole : Framing.read (ch '\n') isCR (k.received.map .item) =
    ⟨k.whole, k.readings.map Reading.whole⟩
  suffix : k.held <:+ k.whole
  suffixes : ∀ r ∈ k.readings, r.held <:+ r.whole

@[simp] theorem Connection.received_receive (k : Connection) (c : UInt8) :
    (k.receive c).received = k.received ++ [c] := by
  have hrx : (k.receive c).rx = k.rx ++ [.item c] := by
    unfold Connection.receive
    dsimp only
    split
    · rfl
    · split <;> rfl
  simp [Connection.received, hrx]

theorem WellRead.receive {k : Connection} (h : WellRead k) (c : UInt8) :
    WellRead (k.receive c) := by
  have hheld : Framing.read (ch '\n') isCR (k.rx ++ [.item c]) =
      Framing.Reader.step (ch '\n') isCR ⟨k.held, k.readings.map Reading.held⟩ (.item c) := by
    rw [Framing.read_concat, h.held]
  have hwhole : Framing.read (ch '\n') isCR ((k.receive c).received.map .item) =
      Framing.Reader.step (ch '\n') isCR ⟨k.whole, k.readings.map Reading.whole⟩ (.item c) := by
    rw [Connection.received_receive, List.map_append, List.map_singleton, Framing.read_concat,
      h.whole]
  by_cases hnl : c = ch '\n'
  · have hk : k.receive c =
        { k with
          rx := k.rx ++ [.item c], whole := [], held := []
          readings := k.readings ++ [⟨k.whole, k.held, k.awaiting⟩] } := if_pos hnl
    rw [hk] at hwhole ⊢
    refine ⟨hheld.trans ?_, hwhole.trans ?_, List.suffix_refl _, ?_⟩
    · simp [Framing.Reader.step, hnl]
    · simp [Framing.Reader.step, hnl]
    · intro r hr
      rcases List.mem_append.1 hr with hr | hr
      · exact h.suffixes r hr
      · rw [List.mem_singleton.1 hr]
        exact h.suffix
  by_cases hcr : c = ch '\r'
  · have hk : k.receive c = { k with rx := k.rx ++ [.item c] } := by
      rw [Connection.receive, if_neg hnl, if_pos hcr]
    have hskip : isCR c = true := by simp [isCR, hcr]
    rw [hk] at hwhole ⊢
    refine ⟨hheld.trans ?_, hwhole.trans ?_, h.suffix, h.suffixes⟩
    · simp [Framing.Reader.step, Framing.hold, hnl, hskip]
    · simp [Framing.Reader.step, Framing.hold, hnl, hskip]
  · have hk : k.receive c =
        { k with
          rx := k.rx ++ [.item c], whole := k.whole ++ [c], held := k.held ++ [c] } := by
      rw [Connection.receive, if_neg hnl, if_neg hcr]
    have hskip : isCR c = false := by simp [isCR, hcr]
    rw [hk] at hwhole ⊢
    refine ⟨hheld.trans ?_, hwhole.trans ?_, ?_, h.suffixes⟩
    · simp [Framing.Reader.step, Framing.hold, hnl, hskip]
    · simp [Framing.Reader.step, Framing.hold, hnl, hskip]
    · obtain ⟨front, hfront⟩ := h.suffix
      exact ⟨front, by rw [← hfront, List.append_assoc]⟩

theorem WellRead.step {k : Connection} (h : WellRead k) (o : Obs) : WellRead (k.step o) := by
  cases o with
  | connected =>
    exact ⟨rfl, rfl, List.suffix_refl _, fun r hr => by simp [Connection.step] at hr⟩
  | received c => exact h.receive c
  | expired deadline =>
    cases deadline with
    | line timeoutSec =>
      refine ⟨?_, ?_, List.nil_suffix, h.suffixes⟩
      · simp only [Connection.step]
        rw [Framing.read_concat, h.held]
        simp [Framing.Reader.step, Framing.hold]
      · simpa [Connection.step, Connection.received] using h.whole
    | request timeoutSec => exact ⟨h.held, h.whole, h.suffix, h.suffixes⟩
    | job timeoutSec => exact h
  | _ => exact ⟨h.held, h.whole, h.suffix, h.suffixes⟩

theorem wellRead (t : List Obs) : WellRead (connection t) := by
  induction t using List.reverseRecOn with
  | nil => exact ⟨rfl, rfl, List.suffix_refl _, fun r hr => by simp at hr⟩
  | append_singleton t o ih =>
    rw [connection_concat]
    exact ih.step o

theorem Env.wellRead (e : Env) : WellRead e.conn := HermitMiner.wellRead e.trace

/-- The readings are the lines the pool sent, in order. -/
theorem WellRead.lines {k : Connection} (h : WellRead k) :
    k.readings.map Reading.whole = streamLines k.received := by
  have hlines := congrArg Framing.Reader.lines h.whole
  rw [Framing.read_map_item] at hlines
  exact hlines.symm

/-! ## The books -/

/-- The requests of a session, for shares that are `valid`. -/
inductive IsRequest (user : Bytes) (valid : StratumJob → UInt32 → Prop) (d : Dealings) (id : Nat) :
    Bytes → Prop
  | subscribe (userAgent : Bytes) : IsRequest user valid d id (subscribeRequest id userAgent)
  | authorize (password : Bytes) : IsRequest user valid d id (authorizeRequest id user password)
  | submit (job : StratumJob) (nonce : UInt32) (hjob : d.delivered.getLast? = some job)
    (hvalid : valid job nonce) : IsRequest user valid d id (submitRequest id user job.jobId nonce)

/-- The id is above those of all requests that were sent. -/
def Dealings.Fresh (d : Dealings) (id : Nat) : Prop :=
  ∀ line ∈ d.sent, ∀ id', parseMessageId line = some id' → id' < id

section Books

variable (user : Bytes) (valid : StratumJob → UInt32 → Prop)

/-- What must have come before an observation on a connection. -/
def Lawful (k : Connection) : Obs → Prop
  | .received c => ∃ rest, k.arrived.flatten = k.received ++ c :: rest
  | .handed line => ∃ r ∈ k.readings, r.held = line
  | .sent line =>
    ∃ id, IsRequest user valid k.toDealings id line ∧ parseMessageId line = some id ∧
      k.Fresh id
  | .answered request line =>
    k.sent.getLast? = some request ∧ k.handed.getLast? = some line ∧
      ∃ id, parseMessageId request = some id ∧ parseMessageId line = some id
  | .accepted id jobId nonce =>
    (∃ line, k.answered.getLast? = some (submitRequest id user jobId nonce, line) ∧
      parseBoolResult line = some true) ∧
    parseMessageId (submitRequest id user jobId nonce) = some id ∧
    ∀ share ∈ k.accepted, share.1 < id
  | _ => True

/-- The job that reading a line obliges to deliver. -/
def Reading.notice (r : Reading) : Option StratumJob :=
  if r.awaiting then none else parseNotify r.held

/-- The books of the current connection, when the jobs `owed` are still to be delivered. -/
structure Ledger (owed : List StratumJob) (e : Env) : Prop where
  along : Along (fun t o => Lawful user valid (connection t) o) e.trace
  stream : e.conn.arrived.flatten = e.conn.received ++ e.inbox
  handed : e.conn.handed = e.conn.readings.map Reading.held
  delivered : e.conn.delivered ++ owed = e.conn.readings.filterMap Reading.notice

/-- Where a connected client stands. -/
structure Stage where
  /-- What `receive_line` has in hand. -/
  held : Bytes := []
  owed : List StratumJob := []
  /-- A request waits for its response. -/
  awaiting : Bool := false
  dealings : Dealings := {}
  nextId : Nat := 1

/-- The client is connected and stands at `p`, with its books in order. -/
structure On (p : Stage) (e : Env) : Prop where
  ledger : Ledger user valid p.owed e
  connected : e.connected = true
  held : e.conn.held = p.held
  awaiting : e.conn.awaiting = p.awaiting
  dealings : e.conn.toDealings = p.dealings
  nextId : e.nextId = p.nextId

end Books

/-! ## Observations that touch no line -/

/-- Neither a line nor a request is concerned. -/
def Obs.isAside : Obs → Bool
  | .connected | .arrived _ | .received _ | .handed _ | .sent _ | .answered .. | .delivered _
  | .accepted .. | .expired (.line _) | .expired (.request _) => false
  | _ => true

theorem Connection.step_of_isAside {o : Obs} (ho : o.isAside = true) (k : Connection) :
    k.step o = k := by
  cases o with
  | expired deadline => cases deadline <;> first | rfl | cases ho
  | _ => first | rfl | cases ho

variable {user : Bytes} {valid : StratumJob → UInt32 → Prop} {owed : List StratumJob} {p : Stage}
  {e : Env}

theorem lawful_of_isAside {o : Obs} (ho : o.isAside = true) (k : Connection) :
    Lawful user valid k o := by
  cases o <;> trivial

/-! ## What keeps the books -/

theorem Ledger.init : Ledger user valid [] {} := ⟨along_nil, rfl, rfl, rfl⟩

theorem Ledger.along_observe (h : Ledger user valid owed e) {o : Obs}
    (ho : Lawful user valid e.conn o) :
    Along (fun t o => Lawful user valid (connection t) o) (e.trace ++ [o]) :=
  along_concat.2 ⟨h.along, ho⟩

theorem Ledger.aside (h : Ledger user valid owed e) {o : Obs} (ho : o.isAside = true) :
    Ledger user valid owed (e.observe o) := by
  have hconn : (e.observe o).conn = e.conn := by rw [Env.conn_observe, e.conn.step_of_isAside ho]
  refine ⟨h.along_observe (lawful_of_isAside ho _), ?_, ?_, ?_⟩
  all_goals rw [hconn]
  · exact h.stream
  · exact h.handed
  · exact h.delivered

theorem Ledger.signal (h : Ledger user valid owed e) : Ledger user valid owed e.signal :=
  let h' := h.aside (o := .signal) rfl
  ⟨h'.along, h'.stream, h'.handed, h'.delivered⟩

theorem Ledger.arrive (h : Ledger user valid owed e) (bytes : Bytes) :
    Ledger user valid owed (e.arrive bytes) where
  along := h.along_observe trivial
  stream := by
    have hstream := h.stream
    rw [Env.conn_arrive]
    simp only [Connection.step, List.flatten_append, List.flatten_singleton, Env.arrive_inbox,
      hstream, List.append_assoc]
    rfl
  handed := by rw [Env.conn_arrive]; exact h.handed
  delivered := by rw [Env.conn_arrive]; exact h.delivered

theorem Ledger.connect (h : Ledger user valid owed e) : Ledger user valid [] e.connect where
  along := h.along_observe trivial
  stream := by rw [Env.conn_connect]; rfl
  handed := by rw [Env.conn_connect]; rfl
  delivered := by rw [Env.conn_connect]; rfl

theorem Ledger.disconnect (h : Ledger user valid owed e) : Ledger user valid owed e.disconnect :=
  ⟨h.along, h.stream, h.handed, h.delivered⟩

theorem Ledger.takeId (h : Ledger user valid owed e) : Ledger user valid owed e.takeId :=
  ⟨h.along, h.stream, h.handed, h.delivered⟩

theorem Ledger.newClient (h : Ledger user valid owed e) : Ledger user valid owed e.newClient :=
  ⟨h.along, h.stream, h.handed, h.delivered⟩

theorem Ledger.addLog (h : Ledger user valid owed e) (entry : LogEntry) :
    Ledger user valid owed (e.addLog entry) :=
  ⟨h.along, h.stream, h.handed, h.delivered⟩

/-- A byte that ends no line. -/
theorem Ledger.pop (h : Ledger user valid owed e) {c : UInt8} {rest : Bytes}
    (hin : e.inbox = c :: rest) (hc : c ≠ ch '\n') : Ledger user valid owed (e.pop c rest) := by
  have hk : (e.conn.receive c).arrived = e.conn.arrived ∧
      (e.conn.receive c).handed = e.conn.handed ∧
      (e.conn.receive c).readings = e.conn.readings ∧
      (e.conn.receive c).delivered = e.conn.delivered := by
    rw [Connection.receive, if_neg hc]
    split <;> exact ⟨rfl, rfl, rfl, rfl⟩
  obtain ⟨harrived, hhanded, hreadings, hdelivered⟩ := hk
  refine ⟨h.along_observe ⟨rest, by rw [← hin]; exact h.stream⟩, ?_, ?_, ?_⟩
  all_goals rw [Env.conn_pop]
  · rw [harrived, h.stream, hin, Connection.received_receive, List.append_assoc]
    rfl
  · rw [hhanded, hreadings]
    exact h.handed
  · rw [hdelivered, hreadings]
    exact h.delivered

/-- Reading a line obliges to deliver the job in it, unless a request was waiting. -/
def dues (awaiting : Bool) (line : Bytes) : List StratumJob :=
  if awaiting then [] else (parseNotify line).toList

/-- A byte that ends the line in hand, and its return. -/
theorem Ledger.line (h : Ledger user valid [] e) {rest : Bytes} (hin : e.inbox = ch '\n' :: rest) :
    Ledger user valid (dues e.conn.awaiting e.conn.held)
      ((e.pop (ch '\n') rest).observe (.handed e.conn.held)) := by
  have hconn : ((e.pop (ch '\n') rest).observe (.handed e.conn.held)).conn =
      { e.conn with
        rx := e.conn.rx ++ [.item (ch '\n')], whole := [], held := []
        readings := e.conn.readings ++ [⟨e.conn.whole, e.conn.held, e.conn.awaiting⟩]
        handed := e.conn.handed ++ [e.conn.held] } := by
    rw [Env.conn_observe, Env.conn_pop]
    rfl
  have hread : (e.pop (ch '\n') rest).conn.readings =
      e.conn.readings ++ [⟨e.conn.whole, e.conn.held, e.conn.awaiting⟩] := by
    rw [Env.conn_pop]
    rfl
  have hreceived : Lawful user valid e.conn (.received (ch '\n')) :=
    ⟨rest, by rw [← hin]; exact h.stream⟩
  have hhanded : Lawful user valid (e.pop (ch '\n') rest).conn (.handed e.conn.held) :=
    ⟨⟨e.conn.whole, e.conn.held, e.conn.awaiting⟩, by rw [hread]; simp, rfl⟩
  refine ⟨along_concat.2 ⟨h.along_observe hreceived, hhanded⟩, ?_, ?_, ?_⟩
  all_goals rw [hconn]
  · have hstream := h.stream
    simp only [Connection.received, Framing.items_append, hin] at hstream ⊢
    rw [hstream, List.append_assoc]
    rfl
  · simp [h.handed]
  · have hdelivered := h.delivered
    rw [List.append_nil] at hdelivered
    rw [hdelivered, List.filterMap_append]
    congr 1
    cases hb : e.conn.awaiting with
    | true => simp [dues, Reading.notice]
    | false => cases hj : parseNotify e.conn.held <;> simp [dues, Reading.notice, hj]

theorem Ledger.expired (h : Ledger user valid owed e) (deadline : Deadline) :
    Ledger user valid owed (e.observe (.expired deadline)) := by
  cases deadline with
  | line timeoutSec =>
    refine ⟨h.along_observe trivial, ?_, ?_, ?_⟩
    all_goals rw [Env.conn_observe]
    · simpa [Connection.step, Connection.received] using h.stream
    · exact h.handed
    · exact h.delivered
  | request timeoutSec =>
    refine ⟨h.along_observe trivial, ?_, ?_, ?_⟩
    all_goals rw [Env.conn_observe]
    · exact h.stream
    · exact h.handed
    · exact h.delivered
  | job timeoutSec => exact h.aside rfl

theorem Ledger.sent (h : Ledger user valid owed e) {line : Bytes}
    (ho : Lawful user valid e.conn (.sent line)) :
    Ledger user valid owed (e.observe (.sent line)) := by
  refine ⟨h.along_observe ho, ?_, ?_, ?_⟩
  all_goals rw [Env.conn_observe]
  · exact h.stream
  · exact h.handed
  · exact h.delivered

theorem Ledger.answered (h : Ledger user valid owed e) {request line : Bytes}
    (ho : Lawful user valid e.conn (.answered request line)) :
    Ledger user valid owed (e.observe (.answered request line)) := by
  refine ⟨h.along_observe ho, ?_, ?_, ?_⟩
  all_goals rw [Env.conn_observe]
  · exact h.stream
  · exact h.handed
  · exact h.delivered

theorem Ledger.accepted (h : Ledger user valid owed e) {id : Nat} {jobId : Bytes} {nonce : UInt32}
    (ho : Lawful user valid e.conn (.accepted id jobId nonce)) :
    Ledger user valid owed (e.observe (.accepted id jobId nonce)) := by
  refine ⟨h.along_observe ho, ?_, ?_, ?_⟩
  all_goals rw [Env.conn_observe]
  · exact h.stream
  · exact h.handed
  · exact h.delivered

theorem Ledger.deliver {job : StratumJob} (h : Ledger user valid [job] e) :
    Ledger user valid [] (e.observe (.delivered job)) := by
  refine ⟨h.along_observe trivial, ?_, ?_, ?_⟩
  all_goals rw [Env.conn_observe]
  · exact h.stream
  · exact h.handed
  · exact (List.append_nil _).trans h.delivered

/-! ## Where the client stands -/

namespace On

theorem aside (h : On user valid p e) {o : Obs} (ho : o.isAside = true) :
    On user valid p (e.observe o) := by
  have hconn : (e.observe o).conn = e.conn := by rw [Env.conn_observe, e.conn.step_of_isAside ho]
  exact ⟨h.ledger.aside ho, h.connected, by rw [hconn]; exact h.held,
    by rw [hconn]; exact h.awaiting, by rw [hconn]; exact h.dealings, h.nextId⟩

theorem signal (h : On user valid p e) : On user valid p e.signal :=
  let h' := h.aside (o := .signal) rfl
  ⟨h.ledger.signal, h'.connected, h'.held, h'.awaiting, h'.dealings, h'.nextId⟩

theorem arrive (h : On user valid p e) (bytes : Bytes) : On user valid p (e.arrive bytes) :=
  ⟨h.ledger.arrive bytes, h.connected, by rw [Env.conn_arrive]; exact h.held,
    by rw [Env.conn_arrive]; exact h.awaiting, by rw [Env.conn_arrive]; exact h.dealings, h.nextId⟩

theorem addLog (h : On user valid p e) (entry : LogEntry) : On user valid p (e.addLog entry) :=
  ⟨h.ledger.addLog entry, h.connected, h.held, h.awaiting, h.dealings, h.nextId⟩

theorem takeId (h : On user valid p e) :
    On user valid { p with nextId := p.nextId + 1 } e.takeId :=
  ⟨h.ledger.takeId, h.connected, h.held, h.awaiting, h.dealings, congrArg Nat.succ h.nextId⟩

theorem connect (h : Ledger user valid [] e) :
    On user valid { nextId := e.nextId } e.connect :=
  ⟨h.connect, rfl, by rw [Env.conn_connect], by rw [Env.conn_connect], by rw [Env.conn_connect],
    rfl⟩

/-- `mine` moves the client nowhere. -/
theorem aloof : Aloof (On user valid p) where
  signal h := h.signal
  arrive bytes h := h.arrive bytes
  hashed _ _ h := h.aside rfl
  counted _ _ h := h.aside rfl
  addLog entry h := h.addLog entry

theorem stable : Stable (On user valid p) := aloof.toStable

/-- A byte that ends no line. -/
theorem pop (h : On user valid p e) {c : UInt8} {rest : Bytes} (hin : e.inbox = c :: rest)
    (hc : c ≠ ch '\n') :
    On user valid { p with held := if c = ch '\r' then p.held else p.held ++ [c] }
      (e.pop c rest) := by
  refine ⟨h.ledger.pop hin hc, h.connected, ?_, ?_, ?_, h.nextId⟩
  all_goals rw [Env.conn_pop, Connection.receive, if_neg hc]
  · split
    · exact h.held
    · exact congrArg (· ++ [c]) h.held
  · split <;> exact h.awaiting
  · split <;> exact h.dealings

/-- A byte that ends the line in hand, and its return. -/
theorem line (h : On user valid p e) (howed : p.owed = []) {rest : Bytes}
    (hin : e.inbox = ch '\n' :: rest) :
    On user valid { p with held := [], owed := dues p.awaiting p.held }
      ((e.pop (ch '\n') rest).observe (.handed p.held)) := by
  have hledger := h.ledger
  rw [howed] at hledger
  replace hledger := hledger.line hin
  rw [h.held, h.awaiting] at hledger
  refine ⟨hledger, h.connected, ?_, ?_, ?_, h.nextId⟩
  all_goals rw [Env.conn_observe, Env.conn_pop]
  · rfl
  · exact h.awaiting
  · exact h.dealings

theorem expiredLine (h : On user valid p e) (timeoutSec : UInt32) :
    On user valid { p with held := [] } (e.observe (.expired (.line timeoutSec))) := by
  refine ⟨h.ledger.expired _, h.connected, ?_, ?_, ?_, h.nextId⟩
  all_goals rw [Env.conn_observe]
  · rfl
  · exact h.awaiting
  · exact h.dealings

theorem sent (h : On user valid p e) {line : Bytes}
    (ho : Lawful user valid e.conn (.sent line)) :
    On user valid
      { p with awaiting := true, dealings := { p.dealings with sent := p.dealings.sent ++ [line] } }
      (e.observe (.sent line)) := by
  refine ⟨h.ledger.sent ho, h.connected, ?_, ?_, ?_, h.nextId⟩
  all_goals rw [Env.conn_observe]
  · exact h.held
  · rfl
  · simp only [Connection.step, ← h.dealings]

theorem answered (h : On user valid p e) {request line : Bytes}
    (ho : Lawful user valid e.conn (.answered request line)) :
    On user valid
      { p with
        awaiting := false
        dealings := { p.dealings with answered := p.dealings.answered ++ [(request, line)] } }
      (e.observe (.answered request line)) := by
  refine ⟨h.ledger.answered ho, h.connected, ?_, ?_, ?_, h.nextId⟩
  all_goals rw [Env.conn_observe]
  · exact h.held
  · rfl
  · simp only [Connection.step, ← h.dealings]

theorem deliver {job : StratumJob} (h : On user valid p e) (howed : p.owed = [job]) :
    On user valid
      { p with
        owed := [], dealings := { p.dealings with delivered := p.dealings.delivered ++ [job] } }
      (e.observe (.delivered job)) := by
  have hledger := h.ledger
  rw [howed] at hledger
  refine ⟨hledger.deliver, h.connected, ?_, ?_, ?_, h.nextId⟩
  all_goals rw [Env.conn_observe]
  · exact h.held
  · exact h.awaiting
  · simp only [Connection.step, ← h.dealings]

theorem accepted (h : On user valid p e) {id : Nat} {jobId : Bytes} {nonce : UInt32}
    (ho : Lawful user valid e.conn (.accepted id jobId nonce)) :
    On user valid
      { p with
        dealings := { p.dealings with accepted := p.dealings.accepted ++ [(id, jobId, nonce)] } }
      (e.observe (.accepted id jobId nonce)) := by
  refine ⟨h.ledger.accepted ho, h.connected, ?_, ?_, ?_, h.nextId⟩
  all_goals rw [Env.conn_observe]
  · exact h.held
  · exact h.awaiting
  · simp only [Connection.step, ← h.dealings]

end On

end HermitMiner
