import HermitMiner.Verify.Bookkeeping
import HermitMiner.Verify.PoolLines
import HermitMiner.Verify.Script
import HermitMiner.Verify.Sessions

/-!
# Accepted shares and the responses of the pool

* `Audited`, `audited`: what lawful books say of a connection as a whole.
* `WellBehaved`: the pool answers only requests it has received, and else announces jobs.
* `accepted_shares_attributed`: a share is counted as accepted only by the pool's own positive
  response to the request that submitted it.
-/

namespace HermitMiner

open Oracle

/-! ## What the books say -/

/-- The books of a connection as a whole. -/
structure Audited (k : Connection) : Prop where
  received : k.received <+: k.arrived.flatten
  handed : ∀ line ∈ k.handed, ∃ r ∈ k.readings, r.held = line
  answered : ∀ p ∈ k.answered, p.1 ∈ k.sent ∧ p.2 ∈ k.handed ∧
    ∃ id, parseMessageId p.1 = some id ∧ parseMessageId p.2 = some id
  sent : k.sent.Pairwise fun a b =>
    ∀ i j, parseMessageId a = some i → parseMessageId b = some j → i < j

theorem Connection.readings_receive (k : Connection) (c : UInt8) :
    k.readings <+: (k.receive c).readings := by
  unfold Connection.receive
  dsimp only
  split
  · exact List.prefix_append _ _
  · split <;> exact List.prefix_refl _

/-- A byte changes neither what arrived nor what was done with whole lines. -/
theorem Connection.receive_frame (k : Connection) (c : UInt8) :
    (k.receive c).arrived = k.arrived ∧ (k.receive c).handed = k.handed ∧
      (k.receive c).toDealings = k.toDealings := by
  unfold Connection.receive
  dsimp only
  split
  · exact ⟨rfl, rfl, rfl⟩
  · split <;> exact ⟨rfl, rfl, rfl⟩

section Audit

variable {user : Bytes} {valid : StratumJob → UInt32 → Prop} {k : Connection}

theorem Audited.step (h : Audited k) {o : Obs} (ho : Lawful user valid k o) :
    Audited (k.step o) := by
  cases o with
  | connected => exact ⟨List.prefix_refl _, nofun, nofun, List.Pairwise.nil⟩
  | arrived bytes =>
    refine ⟨?_, h.handed, h.answered, h.sent⟩
    simp only [Connection.step, List.flatten_append]
    exact h.received.trans (List.prefix_append _ _)
  | received c =>
    obtain ⟨rest, hrest⟩ := ho
    obtain ⟨harrived, hhanded, hdealings⟩ := k.receive_frame c
    have hsent := congrArg Dealings.sent hdealings
    have hanswered := congrArg Dealings.answered hdealings
    refine ⟨?_, ?_, ?_, ?_⟩
    all_goals simp only [Connection.step]
    · rw [Connection.received_receive, harrived, hrest]
      exact ⟨rest, by simp⟩
    · rw [hhanded]
      intro line hline
      obtain ⟨r, hr, hheld⟩ := h.handed line hline
      exact ⟨r, (k.readings_receive c).subset hr, hheld⟩
    · rw [hanswered, hsent, hhanded]
      exact h.answered
    · rw [hsent]
      exact h.sent
  | expired deadline =>
    cases deadline with
    | line timeoutSec =>
      refine ⟨?_, h.handed, h.answered, h.sent⟩
      simpa [Connection.step, Connection.received] using h.received
    | request timeoutSec => exact ⟨h.received, h.handed, h.answered, h.sent⟩
    | job timeoutSec => exact h
  | handed line =>
    refine ⟨h.received, ?_, ?_, h.sent⟩
    · intro l hl
      rcases List.mem_append.1 hl with hl | hl
      · exact h.handed l hl
      · rw [List.mem_singleton.1 hl]
        exact ho
    · intro p hp
      obtain ⟨hsent, hhanded, hid⟩ := h.answered p hp
      exact ⟨hsent, List.mem_append_left _ hhanded, hid⟩
  | sent line =>
    obtain ⟨id, -, hid, hfresh⟩ := ho
    refine ⟨h.received, h.handed, ?_, ?_⟩
    · intro p hp
      obtain ⟨hsent, hhanded, hid⟩ := h.answered p hp
      exact ⟨List.mem_append_left _ hsent, hhanded, hid⟩
    · refine List.pairwise_append.2 ⟨h.sent, List.pairwise_singleton _ _, ?_⟩
      intro a ha b hb i j hi hj
      rw [List.mem_singleton.1 hb, hid, Option.some.injEq] at hj
      exact hj ▸ hfresh a ha i hi
  | answered request line =>
    obtain ⟨hsent, hhanded, hid⟩ := ho
    refine ⟨h.received, h.handed, ?_, h.sent⟩
    intro p hp
    rcases List.mem_append.1 hp with hp | hp
    · exact h.answered p hp
    · rw [List.mem_singleton.1 hp]
      exact ⟨List.mem_of_getLast? hsent, List.mem_of_getLast? hhanded, hid⟩
  | _ => exact ⟨h.received, h.handed, h.answered, h.sent⟩

theorem audited {t : List Obs} (h : Along (fun t o => Lawful user valid (connection t) o) t) :
    Audited (connection t) := by
  induction t using List.reverseRecOn with
  | nil => exact ⟨List.prefix_refl _, nofun, nofun, List.Pairwise.nil⟩
  | append_singleton t o ih =>
    obtain ⟨ht, ho⟩ := along_concat.1 h
    rw [connection_concat]
    exact (ih ht).step ho

/-- No two requests of a connection have one id. -/
theorem Audited.eq_of_id (h : Audited k) {a b : Bytes} {id : Nat} (ha : a ∈ k.sent)
    (hb : b ∈ k.sent) (hida : parseMessageId a = some id) (hidb : parseMessageId b = some id) :
    a = b := by
  have hpairs := h.sent
  generalize k.sent = l at ha hb hpairs
  induction l with
  | nil => cases ha
  | cons x l ih =>
    obtain ⟨hx, hl⟩ := List.pairwise_cons.1 hpairs
    rcases List.mem_cons.1 ha with rfl | hal
    · rcases List.mem_cons.1 hb with rfl | hbl
      · rfl
      · exact absurd (hx b hbl id id hida hidb) (Nat.lt_irrefl id)
    · rcases List.mem_cons.1 hb with rfl | hbl
      · exact absurd (hx a hal id id hidb hida) (Nat.lt_irrefl id)
      · exact ih hal hbl hl

end Audit

/-! ## The pool -/

/-- A line of a pool that has received the requests `sent`. -/
inductive PoolLine (sent : List Bytes) : Bytes → Prop
  | response (request : Bytes) (n : Nat) (result error : Bytes) (hsent : request ∈ sent)
    (hid : parseMessageId request = some n) (hresult : IsValue result) (herror : IsValue error) :
    PoolLine sent (responseLine n result error)
  | notify (params : Bytes) (hparams : IsValue params) : PoolLine sent (notifyLine params)

/-- The lines that the pool has completed with these bytes answer requests that it had received
then, or announce jobs. -/
def WellBehaved (t : List Obs) (o : Obs) : Prop :=
  ∀ bytes, o = .arrived bytes →
    ∀ line ∈ streamLines ((connection t).arrived.flatten ++ bytes), PoolLine (connection t).sent line

theorem PoolLine.mono {sent sent' : List Bytes} {line : Bytes} (h : PoolLine sent line)
    (hsub : ∀ request ∈ sent, request ∈ sent') : PoolLine sent' line := by
  cases h with
  | response request n result error hsent hid hresult herror =>
    exact .response request n result error (hsub request hsent) hid hresult herror
  | notify params hparams => exact .notify params hparams

theorem poolLines {t : List Obs} (h : Along WellBehaved t) :
    ∀ line ∈ streamLines (connection t).arrived.flatten, PoolLine (connection t).sent line := by
  induction t using List.reverseRecOn with
  | nil => exact nofun
  | append_singleton t o ih =>
    obtain ⟨ht, ho⟩ := along_concat.1 h
    have hold := ih ht
    rw [connection_concat]
    cases o with
    | connected => exact nofun
    | arrived bytes =>
      simp only [Connection.step, List.flatten_append, List.flatten_singleton]
      exact ho bytes rfl
    | received c =>
      obtain ⟨harrived, -, hdealings⟩ := (connection t).receive_frame c
      have hsent := congrArg Dealings.sent hdealings
      simp only [Connection.step]
      rw [harrived, hsent]
      exact hold
    | sent request =>
      exact fun line hline => (hold line hline).mono fun r hr => List.mem_append_left _ hr
    | expired deadline => cases deadline <;> exact hold
    | _ => exact hold

/-! ## Attribution -/

/-- The pool answered this request, which alone has its id, and `line` is what was read of the
answer. -/
def AnsweredOwn (k : Connection) (request line : Bytes) : Prop :=
  ∃ id result error, IsValue result ∧ IsValue error ∧ parseMessageId request = some id ∧
    request ∈ k.sent ∧ (∀ other ∈ k.sent, parseMessageId other = some id → other = request) ∧
    responseLine id result error ∈ streamLines k.received ∧ line <:+ responseLine id result error

/-- The share was submitted on this connection by a request of its own, to which the pool sent a
response with result `true`. -/
structure Attributed (cfg : MinerConfig) (k : Connection) (id : Nat) (jobId : Bytes)
    (nonce : UInt32) : Prop where
  sent : submitRequest id (poolUsername cfg) jobId nonce ∈ k.sent
  only : ∀ other ∈ k.sent, parseMessageId other = some id →
    other = submitRequest id (poolUsername cfg) jobId nonce
  distinct : ∀ share ∈ k.accepted, share.1 ≠ id
  response : ∃ error, IsValue error ∧
    responseLine id (str "true") error ∈ streamLines k.received

/-- What is taken as the answer to a request is what was read of the pool's answer to it. -/
theorem answeredOwn {user : Bytes} {valid : StratumJob → UInt32 → Prop} {t : List Obs}
    (hlawful : Along (fun t o => Lawful user valid (connection t) o) t) (hpool : Along WellBehaved t)
    {request line : Bytes} {id : Nat} (hsent : request ∈ (connection t).sent)
    (hhanded : line ∈ (connection t).handed) (hid : parseMessageId request = some id)
    (hline : parseMessageId line = some id) : AnsweredOwn (connection t) request line := by
  have haudit := audited hlawful
  obtain ⟨r, hr, rfl⟩ := haudit.handed line hhanded
  have hread := wellRead t
  have hwhole : r.whole ∈ streamLines (connection t).received := by
    rw [← hread.lines]
    exact List.mem_map_of_mem hr
  have harrived : r.whole ∈ streamLines (connection t).arrived.flatten := by
    obtain ⟨rest, hrest⟩ := haudit.received
    rw [← hrest]
    exact (Framing.lines_prefix _ rest).subset hwhole
  have hsuffix := hread.suffixes r hr
  generalize hw : r.whole = whole at harrived hwhole hsuffix
  cases poolLines hpool whole harrived with
  | response request' n result error hsent' hid' hresult herror =>
    obtain rfl := parseMessageId_response hresult herror hsuffix hline
    exact ⟨id, result, error, hresult, herror, hid, hsent,
      fun other hother hid'' => haudit.eq_of_id hother hsent hid'' hid, hwhole, hsuffix⟩
  | notify params hparams =>
    rw [parseMessageId_notify hparams hsuffix] at hline
    cases hline

/-- **Attribution**: against a well-behaved pool, with any delays, duplicates and expired
deadlines, the accepted shares are those counted, each was submitted on its connection by a request
of its own that the pool answered with `true`, and no response is ever taken as the answer to
another request. A connection is taken to have fewer than `2 ^ 64` requests, after which `next_id_`
would wrap. -/
theorem accepted_shares_attributed (cfg : MinerConfig) (events : List Event)
    (hpool : Along WellBehaved ((runStratumLoop cfg).run {} events).state.env.trace) :
    ((runStratumLoop cfg).run {} events).state.stats.acceptedCount =
        (sessions ((runStratumLoop cfg).run {} events).state.env.trace).accepted.length ∧
      Along (fun t o => ∀ id jobId nonce, o = .accepted id jobId nonce →
          Attributed cfg (connection t) id jobId nonce)
        ((runStratumLoop cfg).run {} events).state.env.trace ∧
      Along (fun t o => ∀ request line, o = .answered request line →
          AnsweredOwn (connection t) request line)
        ((runStratumLoop cfg).run {} events).state.env.trace := by
  have hbooks := (run_ledger cfg events).along
  refine ⟨(run_tracked cfg events).accepted, ?_, ?_⟩
  · intro t o after ht id jobId nonce ho
    have hlaw := hbooks t o after ht
    have hbefore := hbooks.of_prefix ⟨_, ht.symm⟩
    have hpool' := hpool.of_prefix ⟨_, ht.symm⟩
    subst ho
    obtain ⟨⟨line, hanswered, hresult⟩, hid, hbelow⟩ := hlaw
    obtain ⟨hsent, hhanded, id', hid', hline⟩ :=
      (audited hbefore).answered _ (List.mem_of_getLast? hanswered)
    obtain rfl : id' = id := Option.some.inj (hid'.symm.trans hid)
    obtain ⟨id', result, error, hvalue, herror, hid'', -, honly, hresponse, hsuffix⟩ :=
      answeredOwn hbefore hpool' hsent hhanded hid hline
    obtain rfl := Option.some.inj (hid''.symm.trans hid)
    obtain rfl := parseBoolResult_response hvalue herror hsuffix hresult
    exact ⟨hsent, honly, fun share hshare => Nat.ne_of_lt (hbelow share hshare),
      error, herror, hresponse⟩
  · intro t o after ht request line ho
    have hlaw := hbooks t o after ht
    subst ho
    obtain ⟨hsent, hhanded, id, hid, hline⟩ := hlaw
    exact answeredOwn (hbooks.of_prefix ⟨_, ht.symm⟩) (hpool.of_prefix ⟨_, ht.symm⟩)
      (List.mem_of_getLast? hsent) (List.mem_of_getLast? hhanded) hid hline

/-- Whenever bytes arrived: the requests sent before, and the lines completed with them. -/
def arrivals (t : List Obs) : List (List Bytes × List Bytes) :=
  (List.range t.length).filterMap fun i =>
    match t[i]? with
    | some (Obs.arrived bytes) =>
      let k := connection (t.take i)
      some (k.sent, streamLines (k.arrived.flatten ++ bytes))
    | _ => none

theorem wellBehaved_of_arrivals {t : List Obs}
    (h : ∀ p ∈ arrivals t, ∀ line ∈ p.2, PoolLine p.1 line) : Along WellBehaved t := by
  intro before o after ht bytes ho
  subst ho
  refine h (_, _) (List.mem_filterMap.2 ⟨before.length, by simp [ht], ?_⟩)
  have hobs : t[before.length]? = some (.arrived bytes) := by simp [ht]
  have htake : t.take before.length = before := by simp [ht]
  rw [hobs, htake]
  rfl

/-- A session in which one share is accepted. -/
def acceptScript : List Event :=
  [.load] ++ startScript scriptConfig ++ cycleScript scriptConfig 3

theorem arrivals_acceptScript :
    arrivals ((runStratumLoop scriptConfig).run {} acceptScript).state.env.trace =
      let subscribe := subscribeRequest 1 userAgent
      let authorize := authorizeRequest 2 (poolUsername scriptConfig) scriptConfig.poolPassword
      let submit := submitRequest 3 (poolUsername scriptConfig) (str "j") 0
      [([subscribe], [okResponse 1]), ([subscribe, authorize], [okResponse 1, okResponse 2]),
        ([subscribe, authorize], [okResponse 1, okResponse 2, easyNotify]),
        ([subscribe, authorize, submit], [okResponse 1, okResponse 2, easyNotify, okResponse 3])] := by
  decide +kernel

theorem poolLine_okResponse {sent : List Bytes} {request : Bytes} {id : Nat}
    (hsent : request ∈ sent) (hid : parseMessageId request = some id) :
    PoolLine sent (okResponse id) := by
  have hresponse : okResponse id = responseLine id (str "true") (str "null") := by
    have htail : str ",\"result\":true,\"error\":null\x7d" =
        str ",\"result\":" ++ (str "true" ++ (str ",\"error\":" ++ (str "null" ++ str "\x7d"))) := by
      decide
    simp only [okResponse, responseLine, htail, List.append_assoc]
  rw [hresponse]
  exact .response request id _ _ hsent hid (.bool true) .null

theorem poolLine_easyNotify (sent : List Bytes) : PoolLine sent easyNotify := by
  have hnotify : easyNotify = notifyLine (ch '[' :: [ch ','].intercalate
      [ch '"' :: str "j" ++ [ch '"'], ch '"' :: [] ++ [ch '"'], str "0", str "true"]
        ++ [ch ']']) := by
    decide
  rw [hnotify]
  refine .notify _ (.array _ ?_)
  simp only [List.forall_mem_cons]
  exact ⟨.string _ (by decide) (by decide), .string _ (by decide) (by decide),
    .number _ (by decide +kernel), .bool true, nofun⟩

theorem accepted_shares_attributed_script :
    Along (fun t o => ∀ id jobId nonce, o = .accepted id jobId nonce →
        Attributed scriptConfig (connection t) id jobId nonce)
      ((runStratumLoop scriptConfig).run {} acceptScript).state.env.trace := by
  refine (accepted_shares_attributed scriptConfig acceptScript (wellBehaved_of_arrivals ?_)).2.1
  have hids : parseMessageId (subscribeRequest 1 userAgent) = some 1 ∧
      parseMessageId (authorizeRequest 2 (poolUsername scriptConfig) scriptConfig.poolPassword) =
        some 2 ∧
      parseMessageId (submitRequest 3 (poolUsername scriptConfig) (str "j") 0) = some 3 := by
    rw [parseMessageId_subscribeRequest, parseMessageId_authorizeRequest,
      parseMessageId_submitRequest]
    decide
  rw [arrivals_acceptScript]
  simp only [List.forall_mem_cons, List.not_mem_nil, false_imp_iff, implies_true, and_true]
  exact ⟨poolLine_okResponse (by simp) hids.1,
    ⟨poolLine_okResponse (by simp) hids.1, poolLine_okResponse (by simp) hids.2.1⟩,
    ⟨poolLine_okResponse (by simp) hids.1, poolLine_okResponse (by simp) hids.2.1,
      poolLine_easyNotify _⟩,
    poolLine_okResponse (by simp) hids.1, poolLine_okResponse (by simp) hids.2.1,
    poolLine_easyNotify _, poolLine_okResponse (by simp) hids.2.2⟩

end HermitMiner
