import HermitMiner.Verify.Ledger

/-!
# The client keeps its books

From a connected client with its books in order, every call of a session leaves them in order, and
says where the client stands when it succeeds. A run that is cut off in a call leaves them in order
too.

* `wp_receiveLine`, `wp_requestResponse`, `wp_waitForJob`, `wp_submitShare`
-/

namespace HermitMiner

open Oracle StratumClient

variable {user : Bytes} {valid : StratumJob → UInt32 → Prop} {awaiting : Bool} {d : Dealings}
  {n : Nat} {e : Env} (self : StratumClient)

/-! ## Connecting -/

theorem wp_connectToPool {Q : Bool → Env → Prop} (h : Ledger user valid [] e) (hn : e.nextId = n)
    (hfalse : ∀ e, Ledger user valid [] e → Q false e)
    (htrue : ∀ e, On user valid { nextId := n } e → Q true e) :
    wp self.connectToPool Q (Ledger user valid []) e := by
  have hI : Stable fun e => Ledger user valid [] e ∧ e.nextId = n :=
    ⟨fun h => ⟨h.1.signal, h.2⟩, fun bytes h => ⟨h.1.arrive bytes, h.2⟩⟩
  have hlost : ∀ message context e, Ledger user valid [] e → wp (do
      observe .unreachable
      self.logLine .err message context
      return false) Q (Ledger user valid []) e := fun message context e h =>
    wp_update (wp_update (wp_pure (hfalse _ ((h.aside rfl).addLog _))))
  refine wp_bind (wp_resolve hI ⟨h, hn⟩ (fun _ he => he.1) ?_)
  intro addrs e he
  refine wp_ite (fun _ => hlost _ _ e he.1) fun _ => wp_bind ?_
  have hdial : ∀ addrs e, (Ledger user valid [] e ∧ e.nextId = n) →
      wp (dialLoop addrs) (fun _ e => Ledger user valid [] e ∧ e.nextId = n)
        (Ledger user valid []) e := by
    intro addrs
    induction addrs with
    | zero => exact fun e he => wp_pure he
    | succ addrs ih =>
      intro e he
      refine wp_bind (wp_dial hI he (fun _ he => he.1) ?_)
      intro ok e he
      exact wp_ite (fun _ => wp_pure he) fun _ => ih e he
  refine wp_mono (hdial addrs e he) ?_ fun _ hR => hR
  intro ok e he
  refine wp_ite (fun _ => wp_update (wp_update (wp_pure ?_))) fun _ => hlost _ _ e he.1
  have hon := On.connect he.1
  rw [he.2] at hon
  exact htrue _ (hon.addLog _)

/-! ## Lines -/

theorem wp_sendLine {Q : Bool → Env → Prop} {line : Bytes}
    (h : On user valid { awaiting, dealings := d, nextId := n } e)
    (hlawful : ∀ k : Connection, k.toDealings = d → Lawful user valid k (.sent line))
    (hfalse : ∀ e, Ledger user valid [] e → Q false e)
    (htrue : ∀ e, On user valid
      { awaiting := true, dealings := { d with sent := d.sent ++ [line] }, nextId := n } e →
        Q true e) :
    wp (self.sendLine line) Q (Ledger user valid []) e := by
  refine wp_read (wp_ite ?_ fun _ => wp_ite (fun _ => ?_) fun _ => ?_)
  · intro hc
    simp [h.connected] at hc
  · exact wp_update (wp_update (wp_update (wp_pure
      (hfalse _ ((h.aside rfl).ledger.addLog _).disconnect))))
  · refine wp_loop (I := fun _ => On user valid { awaiting, dealings := d, nextId := n }) h
      ?_ fun _ _ h => h.ledger
    intro left e h
    refine wp_ite (fun _ => wp_update (wp_pure ?_)) fun _ => ?_
    · exact htrue _ (h.sent (hlawful e.conn h.dealings))
    · refine wp_bind (wp_send On.stable h (fun _ h => h.ledger) ?_ ?_)
      · intro e h
        exact wp_ite (fun _ => wp_update (wp_pure
          (hfalse _ (h.aside rfl).ledger.disconnect))) fun h0 => absurd rfl h0
      · intro count e h hpos _
        exact wp_ite (fun h0 => absurd h0 (Nat.ne_of_gt hpos)) fun _ => wp_pure (h.aside rfl)

/-- A line that is returned has been read to its end; without one, the client has read no line, or
has lost the connection. -/
theorem wp_receiveLine {timeoutSec : UInt32} {Q : Option Bytes → Env → Prop}
    (h : On user valid { awaiting, dealings := d, nextId := n } e)
    (hexpired : ∀ e, On user valid { awaiting, dealings := d, nextId := n } e → Q none e)
    (hlost : ∀ e, Ledger user valid [] e → e.connected = false → Q none e)
    (hsome : ∀ line e, On user valid
      { owed := dues awaiting line, awaiting, dealings := d, nextId := n } e →
        e.conn.handed.getLast? = some line → Q (some line) e) :
    wp (self.receiveLine timeoutSec) Q (Ledger user valid []) e := by
  refine wp_read (wp_ite ?_ fun _ => ?_)
  · intro hc
    simp [h.connected] at hc
  -- the line in hand is the one that the history holds
  refine wp_loop (I := fun outLine => On user valid
    { held := outLine, awaiting, dealings := d, nextId := n }) h ?_ fun _ _ h => h.ledger
  intro outLine e h
  refine wp_bind (wp_tick On.stable h (fun _ h => h.ledger) ?_ ?_)
  · intro e h
    refine wp_bind (wp_select On.stable h (fun _ h => h.ledger) ?_ ?_ ?_)
    · intro e h
      exact wp_update (wp_pure (hlost _ (h.aside rfl).ledger.disconnect rfl))
    · intro e h
      exact wp_pure h
    · intro e h
      refine wp_bind (wp_recv On.stable h (fun _ h => h.ledger) ?_ ?_)
      · intro e h
        exact wp_update (wp_pure (hlost _ (h.aside rfl).ledger.disconnect rfl))
      · intro c rest e h hin
        refine wp_ite ?_ fun hnl => wp_ite ?_ fun hcr => wp_ite (fun _ => ?_) fun _ => ?_
        · intro hnl
          subst hnl
          refine wp_update (wp_pure (hsome outLine _ (h.line rfl hin) ?_))
          rw [Env.conn_observe]
          simp [Connection.step]
        · intro hcr
          apply wp_pure
          have h' := h.pop hin hnl
          rw [if_pos hcr] at h'
          exact h'
        · have h' := h.pop hin hnl
          exact wp_update (wp_update (wp_update (wp_pure
            (hlost _ ((h'.aside rfl).ledger.addLog _).disconnect rfl))))
        · apply wp_pure
          have h' := h.pop hin hnl
          rw [if_neg hcr] at h'
          exact h'
  · intro e h
    exact wp_pure (hexpired _ (h.expiredLine timeoutSec))

/-! ## Requests -/

/-- The stage after a request was answered. -/
def Stage.answeredWith (request line : Bytes) (d : Dealings) (n : Nat) : Stage where
  dealings :=
    { d with sent := d.sent ++ [request], answered := d.answered ++ [(request, line)] }
  nextId := n

theorem wp_requestResponse {request : Bytes} {timeoutSec : UInt32} {id : Nat}
    {Q : Option Bytes → Env → Prop}
    (h : On user valid { awaiting, dealings := d, nextId := n } e)
    (hid : parseMessageId request = none ∨ parseMessageId request = some id)
    (hrequest : IsRequest user valid d id request) (hfresh : d.Fresh id)
    (hnone : ∀ e, Ledger user valid [] e → Q none e)
    (hsome : ∀ line e, parseMessageId request = some id →
      On user valid (.answeredWith request line d n) e → Q (some line) e) :
    wp (self.requestResponse request timeoutSec) Q (Ledger user valid []) e := by
  unfold requestResponse
  rcases hid with hid | hid
  · rw [hid]
    exact wp_update (wp_pure (hnone _ (h.aside rfl).ledger))
  rw [hid]
  refine wp_bind (wp_sendLine self h ?_ ?_ ?_)
  · intro k hk
    subst hk
    exact ⟨id, hrequest, hid, hfresh⟩
  · intro e h
    exact wp_ite (fun h0 => by cases h0) fun _ => wp_pure (hnone e h)
  intro e h
  refine wp_ite (fun _ => ?_) fun h0 => absurd rfl h0
  refine wp_loop (I := fun _ => On user valid
    { awaiting := true, dealings := { d with sent := d.sent ++ [request] }, nextId := n }) h
    ?_ fun _ _ h => h.ledger
  intro _ e h
  refine wp_bind (wp_tick On.stable h (fun _ h => h.ledger) ?_ ?_)
  · intro e h
    refine wp_bind (wp_receiveLine self h ?_ ?_ ?_)
    · intro e h
      refine wp_read (wp_ite ?_ fun _ => wp_pure h)
      intro hc
      simp [h.connected] at hc
    · intro e h hc
      refine wp_read (wp_ite (fun _ => wp_pure (hnone e h)) ?_)
      intro hc'
      simp [hc] at hc'
    · intro line e h hlast
      -- while the request waits, the line obliges to nothing
      refine wp_ite ?_ fun _ => ?_
      · intro hline
        refine wp_update (wp_pure (hsome line _ hid (h.answered ⟨?_, hlast, id, hid, hline⟩)))
        have hsent := congrArg Dealings.sent h.dealings
        rw [hsent, List.getLast?_concat]
      · cases parseNotify line with
        | none => exact wp_pure h
        | some job => exact wp_update (wp_pure (h.addLog _))
  · intro e h
    exact wp_pure (hnone _ (h.ledger.expired _))

/-- Between two requests: `d` are the client's dealings, and `n` is its next id. -/
structure Numbered (d : Dealings) (n : Nat) : Prop where
  fresh : d.Fresh n
  accepted : ∀ share ∈ d.accepted, share.1 < n

theorem Numbered.init (n : Nat) : Numbered {} n :=
  ⟨fun line h => by simp at h, fun share h => by simp at h⟩

/-- A request with the next id was answered. -/
theorem Numbered.answered (h : Numbered d n) {request line : Bytes}
    (hid : parseMessageId request = some n) :
    Numbered (Stage.answeredWith request line d (n + 1)).dealings (n + 1) where
  fresh := by
    intro l hl id hid'
    rcases List.mem_append.1 hl with hl | hl
    · exact Nat.lt_succ_of_lt (h.fresh l hl id hid')
    · rw [List.mem_singleton.1 hl, hid, Option.some.injEq] at hid'
      omega
  accepted share hshare := Nat.lt_succ_of_lt (h.accepted share hshare)

/-- The client is between two calls of a session. -/
def Idle (user : Bytes) (valid : StratumJob → UInt32 → Prop) (d : Dealings) (e : Env) : Prop :=
  ∃ n, On user valid { dealings := d, nextId := n } e ∧ Numbered d n

theorem Idle.ledger (h : Idle user valid d e) : Ledger user valid [] e :=
  h.choose_spec.1.ledger

theorem Idle.addLog (h : Idle user valid d e) (entry : LogEntry) :
    Idle user valid d (e.addLog entry) := by
  obtain ⟨n, hon, hn⟩ := h
  exact ⟨n, hon.addLog entry, hn⟩

theorem aloof_idle : Aloof (Idle user valid d) where
  signal := fun ⟨n, hon, hn⟩ => ⟨n, hon.signal, hn⟩
  arrive bytes := fun ⟨n, hon, hn⟩ => ⟨n, hon.arrive bytes, hn⟩
  hashed _ _ := fun ⟨n, hon, hn⟩ => ⟨n, hon.aside rfl, hn⟩
  counted _ _ := fun ⟨n, hon, hn⟩ => ⟨n, hon.aside rfl, hn⟩
  addLog entry h := h.addLog entry

/-- A request of an idle client, made with the next id. -/
theorem wp_request {α : Type} {makeRequest : Nat → Bytes} {timeoutSec : UInt32}
    {next : Nat → Option Bytes → Sys α} {Q : α → Env → Prop} (h : Idle user valid d e)
    (hrequest : ∀ id, IsRequest user valid d id (makeRequest id))
    (hid : ∀ id, parseMessageId (makeRequest id) = if 2 ^ 64 ≤ id then none else some id)
    (hnone : ∀ id e, Ledger user valid [] e → wp (next id none) Q (Ledger user valid []) e)
    (hsome : ∀ id line e, Numbered d id → parseMessageId (makeRequest id) = some id →
      On user valid (.answeredWith (makeRequest id) line d (id + 1)) e →
        wp (next id (some line)) Q (Ledger user valid []) e) :
    wp (do
      let id ← takeId
      let response ← self.requestResponse (makeRequest id) timeoutSec
      next id response) Q (Ledger user valid []) e := by
  obtain ⟨n, hon, hn⟩ := h
  refine wp_bind (wp_read (wp_update (wp_pure ?_)))
  rw [hon.nextId]
  have hid' : parseMessageId (makeRequest n) = none ∨ parseMessageId (makeRequest n) = some n := by
    rw [hid]
    split
    · exact Or.inl rfl
    · exact Or.inr rfl
  exact wp_bind (wp_requestResponse self hon.takeId hid' (hrequest n) hn.fresh (hnone n)
    fun line e hline h => hsome n line e hn hline h)

/-- How a request that yields no more than its success leaves the client. -/
def Settled (user : Bytes) (valid : StratumJob → UInt32 → Prop) (ok : Bool) (e : Env) : Prop :=
  if ok then ∃ d, Idle user valid d e else Ledger user valid [] e

theorem Settled.addLog {ok : Bool} (h : Settled user valid ok e) (entry : LogEntry) :
    Settled user valid ok (e.addLog entry) := by
  cases ok with
  | true =>
    obtain ⟨d, hd⟩ := h
    exact ⟨d, hd.addLog entry⟩
  | false => exact Ledger.addLog h entry

/-- The client idles again. -/
theorem settled_answered {request line : Bytes} {id : Nat} (hn : Numbered d id)
    (hid : parseMessageId request = some id)
    (h : On user valid (.answeredWith request line d (id + 1)) e) (ok : Bool) :
    Settled user valid ok e := by
  cases ok with
  | true => exact ⟨_, id + 1, h, hn.answered hid⟩
  | false => exact h.ledger

theorem wp_subscribe {userAgent : Bytes} (h : Idle user valid d e) :
    wp (self.subscribe userAgent) (Settled user valid) (Ledger user valid []) e := by
  refine wp_request self h (fun id => .subscribe userAgent)
    (fun id => parseMessageId_subscribeRequest id userAgent) ?_ ?_
  · intro id e h
    exact wp_update (wp_pure (h.addLog _))
  · intro id line e hn hid h
    refine wp_ite (fun _ => wp_update (wp_pure ?_)) fun _ => wp_update (wp_pure ?_)
    · exact (settled_answered hn hid h false).addLog _
    · exact (settled_answered hn hid h true).addLog _

theorem wp_authorize {password : Bytes} (h : Idle user valid d e) :
    wp (self.authorize user password) (Settled user valid) (Ledger user valid []) e := by
  refine wp_request self h (fun id => .authorize password)
    (fun id => parseMessageId_authorizeRequest id user password) ?_ ?_
  · intro id e h
    exact wp_update (wp_pure (h.addLog _))
  · intro id line e hn hid h
    refine wp_ite (fun _ => wp_update (wp_pure ?_)) fun _ => wp_update (wp_pure ?_)
    · exact (settled_answered hn hid h true).addLog _
    · exact (settled_answered hn hid h false).addLog _

/-- A share is submitted for the job delivered last, and counts as accepted only by the response
to its own request. -/
theorem wp_submitShare {job : StratumJob} {nonce : UInt32} (h : Idle user valid d e)
    (hjob : d.delivered.getLast? = some job) (hvalid : valid job nonce) :
    wp (self.submitShare user job.jobId nonce) (Settled user valid) (Ledger user valid []) e := by
  refine wp_request self h (fun id => .submit job nonce hjob hvalid)
    (fun id => parseMessageId_submitRequest id user job.jobId nonce) ?_ ?_
  · intro id e h
    exact wp_update (wp_pure (h.addLog _))
  intro id line e hn hid h
  dsimp only
  cases hresult : parseBoolResult line with
  | none => exact wp_update (wp_pure ((settled_answered hn hid h false).addLog _))
  | some ok =>
    cases ok with
    | false => exact wp_update (wp_pure ((settled_answered hn hid h false).addLog _))
    | true =>
      refine wp_update (wp_update (wp_pure ?_))
      have hanswered := congrArg Dealings.answered h.dealings
      have haccepted := congrArg Dealings.accepted h.dealings
      have hlawful : Lawful user valid e.conn (.accepted id job.jobId nonce) := by
        refine ⟨⟨line, ?_, hresult⟩, hid, ?_⟩
        · rw [hanswered]
          exact List.getLast?_concat
        · rw [haccepted]
          exact hn.accepted
      have hnumbered : Numbered (Stage.answeredWith _ line d (id + 1)).dealings (id + 1) :=
        hn.answered hid
      have hbelow : ∀ share ∈ d.accepted ++ [(id, job.jobId, nonce)], share.1 < id + 1 := by
        intro share hshare
        rcases List.mem_append.1 hshare with hshare | hshare
        · exact hnumbered.accepted share hshare
        · rw [List.mem_singleton.1 hshare]
          exact Nat.lt_succ_self id
      have hsettled : Settled user valid true (e.observe (.accepted id job.jobId nonce)) :=
        ⟨_, id + 1, h.accepted hlawful, hnumbered.fresh, hbelow⟩
      exact hsettled.addLog _

/-! ## Jobs -/

theorem wp_waitForJob {timeoutSec : UInt32} (h : Idle user valid d e) :
    wp (self.waitForJob timeoutSec)
      (fun job e => match job with
        | some job => Idle user valid { d with delivered := d.delivered ++ [job] } e
        | none => Ledger user valid [] e)
      (Ledger user valid []) e := by
  obtain ⟨n, hon, hn⟩ := h
  refine wp_loop (I := fun _ => On user valid { dealings := d, nextId := n }) hon ?_
    fun _ _ h => h.ledger
  intro _ e h
  refine wp_bind (wp_tick On.stable h (fun _ h => h.ledger) ?_ ?_)
  · intro e h
    refine wp_bind (wp_loadStop On.stable h (fun _ h => h.ledger) ?_)
    intro e h
    refine wp_ite (fun _ => wp_update (wp_pure (h.ledger.addLog _))) fun _ => ?_
    refine wp_bind (wp_receiveLine self h ?_ ?_ ?_)
    · intro e h
      refine wp_read (wp_ite ?_ fun _ => wp_pure h)
      intro hc
      simp [h.connected] at hc
    · intro e h hc
      refine wp_read (wp_ite (fun _ => wp_update (wp_pure (h.addLog _))) ?_)
      intro hc'
      simp [hc] at hc'
    · intro line e h _
      dsimp only
      cases hjob : parseNotify line with
      | none =>
        simp only [dues, hjob, Bool.false_eq_true, if_false, Option.toList_none] at h
        exact wp_pure h
      | some job =>
        simp only [dues, hjob, Bool.false_eq_true, if_false, Option.toList_some] at h
        refine wp_update (wp_update (wp_pure ⟨n, (h.deliver rfl).addLog _, ?_⟩))
        exact ⟨hn.fresh, hn.accepted⟩
  · intro e h
    exact wp_update (wp_pure ((h.aside rfl).ledger.addLog _))

end HermitMiner
