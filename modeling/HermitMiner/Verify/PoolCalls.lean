import HermitMiner.Verify.Reliable
import HermitMiner.Verify.Replies

/-!
# Calls that the fake pool answers

The client and the fake pool over a reliable connection: nothing is lost, no deadline expires and
nobody asks for a stop. Every call of a session comes to its end, with what the pool has to say.

* `Standing`: where a session stands after some of its requests.
* `live_connectToPool`, `live_subscribe`, `live_authorize`, `live_submitShare`: the requests.
* `live_waitForJob`: the job that comes next.
-/

namespace HermitMiner

open Oracle StratumClient FakePool

/-- The world of the client: what arrives is what the pool has to send by then. -/
abbrev toPool : Oracle.Setting Env Event := reliable (Carries poolOutput) False

/-! ## Where a session stands -/

/-- What no call changes on its way. -/
structure Tranquil (jobs : List StratumJob) (id : Nat) (e : Env) : Prop where
  requested : e.stopRequested = false
  delivered : e.conn.delivered = jobs
  nextId : e.nextId = id

/-- The lines of the first `n` requests of a session. -/
structure Asked (n : Nat) (lines : List Bytes) : Prop where
  served : serveAll {} lines = (poolState n, repliesUpTo n)
  inLine : ∀ line ∈ lines, InLine line

/-- After `n` requests, with `todo` still to be received and `jobs` delivered. -/
structure Standing (n : Nat) (todo : Bytes) (jobs : List StratumJob) (e : Env) : Prop where
  ahead : Ahead poolOutput todo e
  asked : ∃ lines, Asked n lines ∧ written e.trace = wire lines
  rest : Tranquil jobs (n + 1) e

section Standing

variable {n id : Nat} {todo : Bytes} {jobs : List StratumJob} {e : Env} {lines : List Bytes}

/-- What leaves the delivered jobs alone changes nothing. -/
theorem Tranquil.observe {o : Obs} (h : Tranquil jobs id e)
    (ho : ∀ k : Connection, (k.step o).delivered = k.delivered) : Tranquil jobs id (e.observe o) :=
  ⟨h.requested, by rw [Env.conn_observe, ho, h.delivered], h.nextId⟩

theorem Tranquil.arrive (h : Tranquil jobs id e) (bytes : Bytes) : Tranquil jobs id (e.arrive bytes) :=
  ⟨h.requested, by rw [Env.conn_arrive]; exact h.delivered, h.nextId⟩

theorem Tranquil.pop (h : Tranquil jobs id e) (c : UInt8) (rest : Bytes) : Tranquil jobs id (e.pop c rest) :=
  ⟨h.requested, by rw [Env.conn_pop, (Connection.receive_frame _ _).2.2]; exact h.delivered,
    h.nextId⟩

theorem Asked.poolOutput (h : Asked n lines) : poolOutput (wire lines) = wire (repliesUpTo n) := by
  have hwire := poolOutput_wire h.inLine (List.forall_mem_nil _ : InLine [])
  rwa [List.append_nil, h.served] at hwire

theorem Asked.next (h : Asked n lines) {r : Request} (hr : r.IsNth (n + 1)) (hn : n + 1 < 2 ^ 64) :
    Asked (n + 1) (lines ++ [r.line (n + 1)]) := by
  refine ⟨?_, fun line hline => ?_⟩
  · rw [serveAll_concat, h.served, serve_line hr hn, repliesUpTo_succ]
  · rcases List.mem_append.1 hline with hline | hline
    · exact h.inLine line hline
    · obtain rfl := List.mem_singleton.1 hline
      exact inLine_line _ r

theorem hears_standing : Hears (Carries poolOutput) False (Standing n todo jobs) where
  signal := False.elim
  arrive bytes hbytes h := ⟨h.ahead.arrive hbytes,
    h.asked.imp fun _ hl => ⟨hl.1, (written_observe rfl _).trans hl.2⟩, h.rest.arrive bytes⟩

theorem Standing.addLog (h : Standing n todo jobs e) (entry : LogEntry) :
    Standing n todo jobs (e.addLog entry) :=
  ⟨h.ahead.addLog entry, h.asked, h.rest.requested, h.rest.delivered, h.rest.nextId⟩

/-- An observation that is not of bytes on the connection, nor of a delivery. -/
theorem Standing.observe {o : Obs} (h : Standing n todo jobs e) (htraffic : o.isTraffic = false)
    (ho : ∀ k : Connection, (k.step o).delivered = k.delivered ∧ (k.step o).arrived = k.arrived) :
    Standing n todo jobs (e.observe o) where
  ahead := h.ahead.same h.ahead.up rfl (by rw [Env.conn_observe]; exact (ho _).2)
    (written_observe htraffic _)
  asked := h.asked.imp fun _ hl => ⟨hl.1, (written_observe htraffic _).trans hl.2⟩
  rest := h.rest.observe fun k => (ho k).1

end Standing

/-! ## Requests -/

section Requests

variable {n id : Nat} {jobs : List StratumJob} {e : Env} {R : Env → Prop} (self : StratumClient)
  (hR : ∀ e, e.conn.delivered = jobs → R e)
include hR

/-- The next line of the pool is received. -/
theorem live_nextLine {line more : Bytes} {timeoutSec : UInt32}
    (h : Standing n (line ++ ch '\n' :: more) jobs e) (hline : InLine line)
    (hshort : line.length ≤ kMaxJsonLineBytes) :
    Live toPool (self.receiveLine timeoutSec)
      (fun got e => got = some line ∧ Standing n more jobs e) R e := by
  let K (e : Env) : Prop :=
    (∃ lines, Asked n lines ∧ written e.trace = wire lines) ∧ Tranquil jobs (n + 1) e
  have hK : Hears (Carries poolOutput) False K := by
    refine ⟨False.elim, fun bytes _ hK => ⟨?_, hK.2.arrive bytes⟩⟩
    exact hK.1.imp fun _ hl => ⟨hl.1, (written_observe rfl _).trans hl.2⟩
  have hpop : ∀ {e : Env} c rest, K e → K (e.pop c rest) := by
    intro e c rest hK
    have hwritten : written (e.pop c rest).trace = written e.trace := written_concat e.trace _
    exact ⟨hK.1.imp fun _ hl => ⟨hl.1, hwritten.trans hl.2⟩, hK.2.pop c rest⟩
  refine live_receiveLine self hK hpop (fun e hK => hR e hK.2.delivered) h.ahead
    ⟨h.asked, h.rest⟩ hline (fun _ e hahead hK => ⟨rfl, ?_⟩) fun hlong => ?_
  · exact Standing.observe ⟨hahead, hK.1, hK.2⟩ rfl fun _ => ⟨rfl, rfl⟩
  · exact absurd hshort (Nat.not_le.2 hlong)

/-- The line of a request is sent, and its answers are to come. -/
theorem live_sendRequest {lines : List Bytes} {line todo : Bytes}
    (hfit : line.length ≤ kMaxJsonLineBytes) (hwritten : written e.trace = wire lines)
    (hasked : Asked (n + 1) (lines ++ [line]))
    (hanswer : poolOutput (wire (lines ++ [line])) = poolOutput (wire lines) ++ todo)
    (hahead : Ahead poolOutput [] e) (hrest : Tranquil jobs (n + 2) e) :
    Live toPool (self.sendLine line) (fun ok e => ok = true ∧ Standing (n + 1) todo jobs e) R e := by
  have hwhole : wire (lines ++ [line]) = wire lines ++ (line ++ [ch '\n']) := by
    rw [wire_append, wire_singleton]
  -- what arrives while the line is being sent is of the answers to all of it
  let K (e : Env) : Prop :=
    Ahead (fun _ => poolOutput (wire (lines ++ [line]))) todo e ∧ Tranquil jobs (n + 2) e
  have hK : Hears (Carries poolOutput) False
      fun e => K e ∧ written e.trace <+: wire lines ++ (line ++ [ch '\n']) := by
    refine ⟨False.elim, fun {e} bytes hbytes hK => ⟨⟨hK.1.1.arrive ?_, hK.1.2.arrive bytes⟩, ?_⟩⟩
    · exact hbytes.trans (poolOutput_mono (hwhole ▸ hK.2))
    · exact (written_arrive e bytes).symm ▸ hK.2
  have hwrote : ∀ {e : Env} bytes, K e → K (e.observe (.wrote bytes)) := by
    intro e bytes hK
    refine ⟨⟨hK.1.up, ?_⟩, hK.2.observe fun _ => rfl⟩
    rw [Env.conn_observe]
    exact hK.1.left
  refine live_sendLine_within (K := K) self hK hwrote (fun e hK _ => hR e hK.2.delivered) ?_ ?_ hahead.up hwritten
    hfit
  · intro e hK hup hall
    have hahead : Ahead poolOutput todo e := by
      refine ⟨hup, ?_⟩
      rw [hall, ← hwhole]
      exact hK.1.left
    exact ⟨rfl, Standing.observe ⟨hahead, ⟨_, hasked, hall.trans hwhole.symm⟩, hK.2⟩ rfl
      fun _ => ⟨rfl, rfl⟩⟩
  · obtain ⟨hup, later, hinbox, hlater⟩ := hahead
    obtain ⟨hempty, rfl⟩ := List.append_eq_nil_iff.1 hinbox
    refine ⟨⟨hup, todo, by rw [hempty, List.nil_append], ?_⟩, hrest⟩
    rw [List.append_nil, hwritten] at hlater
    rw [hlater, hanswer]

/-- The response that comes next is the one that is awaited. -/
theorem live_responseRound {request response more : Bytes} {timeoutSec : UInt32}
    (hresponse : parseMessageId response = some id) (hin : InLine response)
    (hshort : response.length ≤ kMaxJsonLineBytes)
    (h : Standing n (response ++ ch '\n' :: more) jobs e) :
    Live toPool (self.responseRound request id timeoutSec ())
      (fun r e => r = .inr (some response) ∧ Standing n more jobs e) R e := by
  have hIR : ∀ e, Standing n (response ++ ch '\n' :: more) jobs e → R e :=
    fun e h => hR e h.rest.delivered
  refine .bind (causal_tick _) (live_tick hears_standing h hIR _) ?_
  rintro _ e ⟨rfl, h⟩
  refine .ite (fun _ => ?_) fun hno => absurd rfl hno
  refine .bind (causal_receiveLine self 1) (live_nextLine self hR h hin hshort) ?_
  rintro _ e ⟨rfl, h⟩
  refine .ite (fun _ => ?_) fun hno => absurd hresponse hno
  exact .update (prefix_observe rfl e) (.pure ⟨rfl, h.observe rfl fun _ => ⟨rfl, rfl⟩⟩)

/-- A request that fits gets the response that comes next. -/
theorem live_requestResponse {lines : List Bytes} {line response more : Bytes}
    (hid : parseMessageId line = some (n + 1)) (hresponse : parseMessageId response = some (n + 1))
    (hin : InLine response) (hshort : response.length ≤ kMaxJsonLineBytes)
    (hfit : line.length ≤ kMaxJsonLineBytes) (hwritten : written e.trace = wire lines)
    (hasked : Asked (n + 1) (lines ++ [line]))
    (hanswer : poolOutput (wire (lines ++ [line])) =
      poolOutput (wire lines) ++ (response ++ ch '\n' :: more))
    (hahead : Ahead poolOutput [] e) (hrest : Tranquil jobs (n + 2) e) :
    Live toPool (self.requestResponse line 10)
      (fun got e => got = some response ∧ Standing (n + 1) more jobs e) R e := by
  unfold requestResponse
  rw [hid]
  refine .bind (causal_sendLine self line)
    (live_sendRequest self hR hfit hwritten hasked hanswer hahead hrest) ?_
  rintro _ e ⟨rfl, h⟩
  refine .ite (fun _ => ?_) fun hno => absurd rfl hno
  have hround := fun e (h : Standing (n + 1) (response ++ ch '\n' :: more) jobs e) =>
    @live_responseRound (n + 1) (n + 1) jobs e R self hR line response more 10 hresponse hin hshort h
  refine .loop (advances_responseRound self line (n + 1) 10)
    (causal_responseRound self line (n + 1) 10)
    (fun _ e h => (hround e h).mono ?_ fun _ h => h) (fun _ _ => 0) ?_ h
  · rintro _ t ⟨rfl, ht⟩
    exact ⟨rfl, ht⟩
  · refine fun _ e h => (hround e h).can.mono ?_
    rintro _ t ⟨rfl, -⟩ u hu
    cases hu

/-- A request of the session, up to its response; then `f` makes its result of it. -/
theorem live_asking (r : Request) {f : Nat → Option Bytes → Sys Bool} {Q : Bool → Env → Prop}
    {response more : Bytes} (hr : r.IsNth (n + 1)) (hn : n + 1 < 2 ^ 64)
    (hfit : (r.line (n + 1)).length ≤ kMaxJsonLineBytes)
    (hreplies : wire (replies (n + 1)) = response ++ ch '\n' :: more)
    (hresponse : parseMessageId response = some (n + 1)) (hin : InLine response)
    (hshort : response.length ≤ kMaxJsonLineBytes) (h : Standing n [] jobs e)
    (hf : ∀ e, Standing (n + 1) more jobs e → Live toPool (f (n + 1) (some response)) Q R e) :
    Live toPool (takeId >>= fun id => self.requestResponse (r.line id) 10 >>= f id) Q R e := by
  obtain ⟨lines, hasked, hwritten⟩ := h.asked
  have hid : parseMessageId (r.line (n + 1)) = some (n + 1) := by
    rw [parseMessageId_line, if_neg (Nat.not_le.2 hn)]
  have hnext := hasked.next hr hn
  have hanswer : poolOutput (wire (lines ++ [r.line (n + 1)])) =
      poolOutput (wire lines) ++ (response ++ ch '\n' :: more) := by
    rw [hnext.poolOutput, hasked.poolOutput, repliesUpTo_succ, wire_append, hreplies]
  have htake : Live toPool takeId (fun id e' => id = n + 1 ∧ e' = e.takeId) R e :=
    .read (.update (List.prefix_refl _) (.pure ⟨h.rest.nextId, rfl⟩))
  refine .bind causal_takeId htake ?_
  rintro _ _ ⟨rfl, rfl⟩
  have hahead : Ahead poolOutput [] e.takeId := h.ahead.same h.ahead.up rfl rfl rfl
  have hrest : Tranquil jobs (n + 2) e.takeId :=
    ⟨h.rest.requested, h.rest.delivered, congrArg (· + 1) h.rest.nextId⟩
  refine .bind (causal_requestResponse self _ 10) (live_requestResponse self hR hid hresponse hin
    hshort hfit hwritten hnext hanswer hahead hrest) ?_
  rintro _ e ⟨rfl, h⟩
  exact hf e h

theorem live_subscribe {userAgent : Bytes}
    (hfit : (Request.line 1 (.subscribe userAgent)).length ≤ kMaxJsonLineBytes)
    (h : Standing 0 [] jobs e) :
    Live toPool (self.subscribe userAgent) (fun ok e => ok = true ∧ Standing 1 [] jobs e) R e := by
  have hn : 1 < 2 ^ 64 := by decide
  refine live_asking self hR (.subscribe userAgent) (n := 0) rfl hn hfit (wire_singleton _)
    (parseMessageId_jsonResp hn subscription) (inLine_jsonResp (inLine_of_all rfl))
    (length_jsonResp hn (by decide)) h fun e h => ?_
  refine .ite (fun hno => ?_) fun _ => .update (List.prefix_refl _) (.pure ⟨rfl, h.addLog _⟩)
  rw [parseErrorIsNull_jsonResp] at hno
  cases hno

omit hR in
/-- A request of which the pool says it is granted, and after which it announces a job. -/
theorem wire_replies (hn : 1 ≤ n) : wire (replies (n + 1)) =
    jsonResp (n + 1) (str "true") ++ ch '\n' :: (notify (.ofNat n) ++ [ch '\n']) := by
  have hreplies : replies (n + 1) = [jsonResp (n + 1) (str "true"), notify (.ofNat n)] := by
    rw [replies, if_neg (by omega), Nat.add_sub_cancel]
  simp [hreplies, wire]

theorem live_authorize {username password : Bytes}
    (hfit : (Request.line 2 (.authorize username password)).length ≤ kMaxJsonLineBytes)
    (h : Standing 1 [] jobs e) :
    Live toPool (self.authorize username password)
      (fun ok e => ok = true ∧ Standing 2 (notify 1 ++ [ch '\n']) jobs e) R e := by
  have hn : 2 < 2 ^ 64 := by decide
  refine live_asking self hR (.authorize username password) (n := 1) rfl hn hfit
    (wire_replies le_rfl) (parseMessageId_jsonResp hn _) (inLine_jsonResp (inLine_of_all rfl))
    (length_jsonResp hn (by decide)) h fun e h => ?_
  refine .ite (fun _ => .update (List.prefix_refl _) (.pure ⟨rfl, h.addLog _⟩)) fun hno => ?_
  exact absurd (parseBoolResult_accepted _) hno

theorem live_submitShare {username jobId : Bytes} {nonce : UInt32} (hn : 2 ≤ n)
    (hmost : n + 1 < 2 ^ 64)
    (hfit : (Request.line (n + 1) (.submit username jobId nonce)).length ≤ kMaxJsonLineBytes)
    (h : Standing n [] jobs e) :
    Live toPool (self.submitShare username jobId nonce)
      (fun ok e => ok = true ∧ Standing (n + 1) (notify (.ofNat n) ++ [ch '\n']) jobs e) R e := by
  have hnth : Request.IsNth (.submit username jobId nonce) (n + 1) := by
    show 3 ≤ n + 1
    omega
  refine live_asking self hR (.submit username jobId nonce) hnth hmost hfit
    (wire_replies (by omega)) (parseMessageId_jsonResp hmost _) (inLine_jsonResp (inLine_of_all rfl))
    (length_jsonResp hmost (by decide)) h fun e h => ?_
  dsimp only
  rw [parseBoolResult_accepted]
  exact .update (prefix_observe rfl e) (.update (List.prefix_refl _)
    (.pure ⟨rfl, (h.observe rfl fun _ => ⟨rfl, rfl⟩).addLog _⟩))

omit hR in
theorem Standing.deliver {todo : Bytes} (h : Standing n todo jobs e) (job : StratumJob) :
    Standing n todo (jobs ++ [job]) (e.observe (.delivered job)) where
  ahead := h.ahead.same h.ahead.up rfl (by rw [Env.conn_observe]; rfl) (written_observe rfl _)
  asked := h.asked.imp fun _ hl => ⟨hl.1, (written_observe rfl _).trans hl.2⟩
  rest := ⟨h.rest.requested, by rw [Env.conn_observe, ← h.rest.delivered]; rfl, h.rest.nextId⟩

/-- The job that comes next is delivered. -/
theorem live_waitForJob {i : Nat} {timeoutSec : UInt32} (hi : i < 2 ^ 32)
    (h : Standing n (notify (.ofNat i) ++ [ch '\n']) jobs e) :
    Live toPool (self.waitForJob timeoutSec)
      (fun got e => got = some (poolJob i) ∧ Standing n [] (jobs ++ [poolJob i]) e) R e := by
  have hIR : ∀ e, Standing n (notify (.ofNat i) ++ [ch '\n']) jobs e → R e :=
    fun e h => hR e h.rest.delivered
  have hround : ∀ e, Standing n (notify (.ofNat i) ++ [ch '\n']) jobs e →
      Live toPool (self.jobRound timeoutSec ()) (fun r e => r = .inr (some (poolJob i)) ∧
        Standing n [] (jobs ++ [poolJob i]) e) R e := by
    intro e h
    refine .bind (causal_tick _) (live_tick hears_standing h hIR _) ?_
    rintro _ e ⟨rfl, h⟩
    refine .ite (fun _ => ?_) fun hno => absurd rfl hno
    refine .bind causal_loadStop (live_loadStop hears_standing h hIR) ?_
    rintro stop e ⟨hstop, h⟩
    rw [h.rest.requested] at hstop
    refine .ite (fun hno => absurd hno (by rw [hstop]; exact Bool.false_ne_true)) fun _ => ?_
    refine .bind (causal_receiveLine self 1)
      (live_nextLine self hR h (inLine_notify _) (length_notify _)) ?_
    rintro _ e ⟨rfl, h⟩
    dsimp only
    rw [parseNotify_notify hi]
    exact .update (prefix_observe rfl e) (.update (List.prefix_refl _)
      (.pure ⟨rfl, (h.deliver _).addLog _⟩))
  refine .loop (advances_jobRound self timeoutSec) (causal_jobRound self timeoutSec)
    (fun _ e h => (hround e h).mono ?_ fun _ h => h) (fun _ _ => 0) ?_ h
  · rintro _ t ⟨rfl, ht⟩
    exact ⟨rfl, ht⟩
  · refine fun _ e h => (hround e h).can.mono ?_
    rintro _ t ⟨rfl, -⟩ u hu
    cases hu

omit hR in
/-- A client that has not connected yet finds the pool. -/
theorem live_connectToPool {R : Env → Prop} (hR : ∀ e, e.conn.delivered = [] → R e)
    (hwritten : written e.trace = []) (hrest : Tranquil [] 1 e) :
    Live toPool self.connectToPool (fun ok e => ok = true ∧ Standing 0 [] [] e) R e := by
  have hI : Hears (Carries poolOutput) False fun e => written e.trace = [] ∧ Tranquil [] 1 e :=
    ⟨False.elim, fun bytes _ h => ⟨(written_arrive _ bytes).trans h.1, h.2.arrive bytes⟩⟩
  have hIR : ∀ e, written e.trace = [] ∧ Tranquil [] 1 e → R e := fun e h => hR e h.2.delivered
  refine .bind causal_resolve (live_resolve hI ⟨hwritten, hrest⟩ hIR) ?_
  rintro addresses e ⟨haddresses, h⟩
  refine .ite (fun h0 => absurd h0 haddresses) fun _ => ?_
  obtain ⟨addresses, rfl⟩ := Nat.exists_eq_succ_of_ne_zero haddresses
  have hdial : Live toPool (dialLoop (addresses + 1))
      (fun ok e => ok = true ∧ written e.trace = [] ∧ Tranquil [] 1 e) R e := by
    refine .bind causal_dial (live_dial hI h hIR) ?_
    rintro _ e ⟨rfl, h⟩
    exact .ite (fun _ => .pure ⟨rfl, h⟩) fun hno => absurd rfl hno
  refine .bind (causal_dialLoop _) hdial ?_
  rintro _ e ⟨rfl, hwritten, hrest⟩
  refine .ite (fun _ => ?_) fun hno => absurd rfl hno
  have hempty : written e.connect.trace = [] := written_concat e.trace .connected
  have hgrown : toPool.onward e e.connect := by
    show written e.trace <+: _
    rw [hwritten]
    exact List.nil_prefix
  refine .update hgrown (.update (List.prefix_refl _) (.pure ⟨rfl, Standing.addLog ⟨?_, ?_, ?_⟩ _⟩))
  · refine ⟨rfl, [], rfl, ?_⟩
    rw [Env.conn_connect, hempty]
    rfl
  · exact ⟨[], ⟨rfl, nofun⟩, hempty⟩
  · exact ⟨hrest.requested, by rw [Env.conn_connect], hrest.nextId⟩

end Requests

end HermitMiner
