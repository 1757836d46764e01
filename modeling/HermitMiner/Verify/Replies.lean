import HermitMiner.Verify.Notify
import HermitMiner.Verify.Wire

/-!
# The answers of the fake pool

What the fake pool sends for the requests of a session, whatever their users and nonces, and what the
client reads in it.

* `serverAfter_wire`: the pool takes whole lines, one after another.
* `serve_line`: the answers to a request, by its number in the session (`replies`).
* `parseMessageId_jsonResp`, `parseBoolResult_accepted`, `parseNotify_notify`, …: what the client
  reads in the answers.
-/

namespace HermitMiner

open FakePool Regex Regex.Pat Rfc8259

/-! ## Lines into the pool -/

namespace FakePool

/-- The loop over lines: its state, and all it sends. -/
def serveAll (s : State) (lines : List Bytes) : State × List Bytes :=
  lines.foldl (fun (s, sent) line => ((serve s line).1, sent ++ (serve s line).2)) (s, [])

theorem serveAll_concat (s : State) (lines : List Bytes) (line : Bytes) :
    serveAll s (lines ++ [line]) =
      ((serve (serveAll s lines).1 line).1,
        (serveAll s lines).2 ++ (serve (serveAll s lines).1 line).2) := by
  simp [serveAll]

theorem receive_inLine {part : Bytes} (hpart : InLine part) (s : Server) :
    part.foldl Server.receive s = { s with line := s.line ++ part } := by
  induction part generalizing s with
  | nil => simp
  | cons c part ih =>
    obtain ⟨hn, hr⟩ := hpart c List.mem_cons_self
    have hstep : s.receive c = { s with line := s.line ++ [c] } := by
      rw [Server.receive, if_neg hn, if_pos hr]
    rw [List.foldl_cons, hstep, ih fun d hd => hpart d (List.mem_cons_of_mem c hd)]
    simp

theorem serverAfter_append (received more : Bytes) :
    serverAfter (received ++ more) = more.foldl Server.receive (serverAfter received) :=
  List.foldl_append

/-- The pool takes whole lines, and keeps what it has of the next one. -/
theorem serverAfter_wire {lines : List Bytes} (hlines : ∀ line ∈ lines, InLine line)
    {part : Bytes} (hpart : InLine part) :
    serverAfter (wire lines ++ part) =
      { toState := (serveAll {} lines).1, line := part, sending := wire (serveAll {} lines).2 } := by
  induction lines using List.reverseRecOn generalizing part with
  | nil =>
    rw [serverAfter_append, receive_inLine hpart]
    rfl
  | append_singleton lines line ih =>
    have hline := hlines line (by simp)
    have hsplit : wire (lines ++ [line]) = wire lines ++ line ++ [ch '\n'] := by
      rw [wire_append, wire_singleton, List.append_assoc]
    rw [serverAfter_append, hsplit, serverAfter_append,
      ih (fun l hl => hlines l (List.mem_append_left _ hl)) hline, serveAll_concat,
      receive_inLine hpart]
    simp [Server.receive, wire]
    rfl

theorem poolOutput_wire {lines : List Bytes} (hlines : ∀ line ∈ lines, InLine line)
    {part : Bytes} (hpart : InLine part) :
    poolOutput (wire lines ++ part) = wire (serveAll {} lines).2 := by
  rw [poolOutput, serverAfter_wire hlines hpart]

/-- The pool takes back nothing it has to send. -/
theorem sending_receive (s : Server) (c : UInt8) : s.sending <+: (s.receive c).sending := by
  unfold Server.receive
  split
  · exact List.prefix_append _ _
  · split <;> exact List.prefix_refl _

theorem poolOutput_mono {received more : Bytes} (h : received <+: more) :
    poolOutput received <+: poolOutput more := by
  obtain ⟨rest, rfl⟩ := h
  rw [poolOutput, poolOutput, serverAfter_append]
  generalize serverAfter received = s
  induction rest generalizing s with
  | nil => exact List.prefix_refl _
  | cons c rest ih => exact (sending_receive s c).trans (ih (s.receive c))

end FakePool

/-! ## The answers by number -/

/-- `result` of the answer to a subscription. -/
def subscription : Bytes := str "[[\"mining.notify\",\"deadbeef\"],\"abcdef01\",4]"

/-- The job that the `i`-th notification announces. -/
def poolJob (i : Nat) : StratumJob where
  jobId := str "job-" ++ dec i
  prefixText := str "offline-job-" ++ dec i
  difficultyBits := 20
  cleanJob := true

/-- The state of the pool after `n` requests of a session. -/
def poolState (n : Nat) : State := ⟨decide (2 ≤ n), .ofNat (max 1 (n - 1))⟩

/-- The answers to the `n`-th request of a session. -/
def replies (n : Nat) : List Bytes :=
  if n = 1 then [jsonResp n subscription] else [jsonResp n (str "true"), notify (.ofNat (n - 1))]

/-- The answers to the first `n` requests. -/
def repliesUpTo (n : Nat) : List Bytes := (List.range n).flatMap fun i => replies (i + 1)

theorem repliesUpTo_succ (n : Nat) : repliesUpTo (n + 1) = repliesUpTo n ++ replies (n + 1) := by
  simp [repliesUpTo, List.range_succ]

/-- The request that a session makes as its `n`-th. -/
def Request.IsNth (r : Request) (n : Nat) : Prop :=
  match r.method with
  | .subscribe => n = 1
  | .authorize => n = 2
  | .submit => 3 ≤ n

theorem serve_line {r : Request} {n : Nat} (hr : r.IsNth (n + 1)) (hn : n + 1 < 2 ^ 64) :
    serve (poolState n) (r.line (n + 1)) = (poolState (n + 1), replies (n + 1)) := by
  have hid : parseId (r.line (n + 1)) = n + 1 := by
    rw [parseId_eq, parseMessageId_line, if_neg (Nat.not_le.2 hn)]
    rfl
  unfold Request.IsNth at hr
  rw [serve, handler_line, hid]
  cases hm : r.method with
  | subscribe =>
    rw [hm] at hr
    obtain rfl : n = 0 := by simpa using hr
    rfl
  | authorize =>
    rw [hm] at hr
    obtain rfl : n = 1 := by simpa using hr
    rfl
  | submit =>
    rw [hm] at hr
    have hge : 2 ≤ n := by simpa using hr
    have hseq : UInt32.ofNat (n - 1) + 1 = UInt32.ofNat n := by
      rw [← UInt32.ofNat_one, ← UInt32.ofNat_add, Nat.sub_add_cancel (by omega)]
    have hmax : max 1 (n - 1) = n - 1 ∧ max 1 n = n := by omega
    have hnotified : 2 ≤ n + 1 := by omega
    have hfirst : n + 1 ≠ 1 := by omega
    simp only [poolState, replies, hmax.1, hmax.2, hseq, Nat.add_sub_cancel, hge, hnotified,
      decide_true, if_neg hfirst]

/-! ## What the client reads -/

theorem length_dec_le {n k : Nat} (hk : 0 < k) (h : n < 10 ^ k) : (dec n).length ≤ k := by
  rw [dec, List.length_map]
  exact (Nat.length_toDigits_le_iff (by decide) hk).2 h

section Responses

variable {n : Nat}

theorem parseMessageId_jsonResp (hn : n < 2 ^ 64) (result : Bytes) :
    parseMessageId (jsonResp n result) = some n := by
  have hsplit : jsonResp n result = str "\x7b\"id\":" ++ dec n ++
      (str ",\"result\":" ++ result ++ str ",\"error\":" ++ str "null" ++ str "\x7d") := by
    simp [jsonResp]
  rw [hsplit, parseMessageId_request (by simp [str]), if_neg (Nat.not_le.2 hn)]

theorem isValue_true : IsValue (str "true") := .bool true

/-- The answer to a request that the pool grants is read so. -/
theorem parseBoolResult_accepted (n : Nat) : parseBoolResult (jsonResp n (str "true")) = some true := by
  have htail : str ",\"result\":true,\"error\":null\x7d" <:+ jsonResp n (str "true") := by
    refine ⟨str "\x7b\"id\":" ++ dec n, ?_⟩
    simp [jsonResp, str]
  have hfound : (search resultPattern (jsonResp n (str "true"))).isSome :=
    firstSuffix_mono htail (by rfl)
  obtain ⟨cs, hcs⟩ := Option.isSome_iff_exists.1 hfound
  obtain ⟨r₁, r₂, r₃, hline⟩ := responseLine_members n isValue_true IsValue.null
  obtain ⟨t, ht, hmatch⟩ := firstSuffix_sound hcs
  have hpattern : resultPattern =
      member (.word (quotedKey (fun c d => lower d == lower c) (str "result"))) boolToken := by
    have hkey : str "\"result\"" = ch '"' :: str "result" ++ [ch '"'] := by decide
    rw [resultPattern, litNocase, hkey]
    rfl
  rw [hpattern] at hmatch
  obtain ⟨s, text, hmem, hlen, -, hvalue⟩ :=
    member_of_match hline ht keyTest_result spaceless_boolToken hmatch
  have htext : text = str "true" ++ ch ',' :: r₂ := by
    have hother : (str "id").length ≠ (str "result").length ∧
        (str "error").length ≠ (str "result").length := by decide
    simp only [List.mem_cons, Prod.mk.injEq, List.not_mem_nil, or_false] at hmem
    rcases hmem with ⟨rfl, -⟩ | ⟨-, htext⟩ | ⟨rfl, -⟩
    · exact absurd hlen hother.1
    · exact htext
    · exact absurd hlen hother.2
  have htrue : str "true" = ch 't' :: str "rue" := by decide
  rw [htext, htrue, List.cons_append, dropWhile_isSpace_of_head (by decide)] at hvalue
  rcases matchAt_boolToken hvalue with ⟨-, hcs'⟩ | ⟨hlower, -⟩
  · rw [← List.cons_append, ← htrue, List.take_left' (by decide)] at hcs'
    rw [parseBoolResult, hcs, hcs']
    decide
  · exact absurd hlower (by decide)

theorem keyTest_method : KeyTest (fun c d => d == c) (str "method") where
  quote d := beq_iff_eq
  noQuote c hc := by
    have hall : (str "method").all fun c => !(ch '"' == c) := rfl
    simpa using List.all_eq_true.1 hall c hc
  opens := by
    refine ⟨ch 'm', str "ethod", by decide, ?_⟩
    intro d hd
    rw [beq_eq_false_iff_ne]
    rintro rfl
    revert hd
    decide

theorem spaceless_mining : Spaceless (lit "\"mining.notify\"") :=
  spaceless_lit (by simp [str, isSpace, ch]) (by decide)

/-- A response announces nothing. -/
theorem parseNotify_response {result error : Bytes} (hresult : IsValue result)
    (herror : IsValue error) : parseNotify (responseLine n result error) = none := by
  have hnone : search methodPattern (responseLine n result error) = none := by
    rw [Option.eq_none_iff_forall_ne_some]
    intro cs hcs
    obtain ⟨r₁, r₂, r₃, hline⟩ := responseLine_members n hresult herror
    obtain ⟨t, ht, hmatch⟩ := firstSuffix_sound hcs
    have hpattern : methodPattern =
        member (.word (quotedKey (fun c d => d == c) (str "method"))) (lit "\"mining.notify\"") := by
      have hkey : str "\"method\"" = ch '"' :: str "method" ++ [ch '"'] := by decide
      rw [methodPattern, lit, hkey]
      rfl
    rw [hpattern] at hmatch
    obtain ⟨s, text, hmem, hlen, hs, -⟩ :=
      member_of_match hline ht keyTest_method spaceless_mining hmatch
    rw [startsWith_eq hlen hs] at hmem
    have hother : str "method" ≠ str "id" ∧ str "method" ≠ str "result" ∧
        str "method" ≠ str "error" := by decide
    simp [hother] at hmem
  rw [parseNotify, hnone]
  rfl

theorem isValue_subscription : IsValue subscription := by
  have htext : subscription = ch '[' :: [ch ','].intercalate [
      ch '[' :: [ch ','].intercalate [ch '"' :: str "mining.notify" ++ [ch '"'],
        ch '"' :: str "deadbeef" ++ [ch '"']] ++ [ch ']'],
      ch '"' :: str "abcdef01" ++ [ch '"'], str "4"] ++ [ch ']'] := by rfl
  have hstring : ∀ s, ch '"' ∉ s → ch '\\' ∉ s → IsValue (ch '"' :: s ++ [ch '"']) := .string
  rw [htext]
  refine .array _ (List.forall_mem_cons.2 ⟨.array _ ?_, ?_⟩)
  · simp only [List.forall_mem_cons, List.not_mem_nil, false_implies, implies_true, and_true]
    exact ⟨hstring _ (by decide) (by decide), hstring _ (by decide) (by decide)⟩
  · simp only [List.forall_mem_cons, List.not_mem_nil, false_implies, implies_true, and_true]
    refine ⟨hstring _ (by simp [str, ch]) (by simp [str, ch]), .number _ fun c hc => ?_⟩
    have hall : (str "4").all isDigit := rfl
    exact .inl (List.all_eq_true.1 hall c hc)

theorem parseErrorIsNull_jsonResp (result : Bytes) : parseErrorIsNull (jsonResp n result) = true := by
  have htail : str ",\"error\":null\x7d" <:+ jsonResp n result := by
    refine ⟨str "\x7b\"id\":" ++ dec n ++ str ",\"result\":" ++ result, ?_⟩
    simp [jsonResp, str]
  exact firstSuffix_mono htail (by rfl)

theorem inLine_of_all {s : Bytes} (h : (s.all fun c => c != ch '\n' && c != ch '\r') = true) :
    InLine s := by
  intro c hc
  simpa using List.all_eq_true.1 h c hc

theorem inLine_jsonResp {result : Bytes} (hresult : InLine result) : InLine (jsonResp n result) := by
  have hopen : InLine (str "\x7b\"id\":") := inLine_of_all rfl
  have hmiddle : InLine (str ",\"result\":") := inLine_of_all rfl
  have hclose : InLine (str ",\"error\":" ++ str "null" ++ str "\x7d") := inLine_of_all rfl
  have hall := (((hopen.append (inLine_dec n)).append hmiddle).append hresult).append hclose
  simpa [jsonResp] using hall

theorem length_jsonResp (hn : n < 2 ^ 64) {result : Bytes} (hresult : result.length ≤ 100) :
    (jsonResp n result).length ≤ StratumClient.kMaxJsonLineBytes := by
  have hdec : (dec n).length ≤ 20 := length_dec_le (by decide) (Nat.lt_trans hn (by decide))
  simp only [jsonResp, List.length_append, StratumClient.kMaxJsonLineBytes]
  have htexts : (str "\x7b\"id\":").length = 6 ∧ (str ",\"result\":").length = 10 ∧
      (str ",\"error\":").length = 9 ∧ (str "null").length = 4 ∧ (str "\x7d").length = 1 := by
    decide
  omega

end Responses

section Notifications

/-- The client takes the job that the pool announces. -/
theorem parseNotify_notify {i : Nat} (hi : i < 2 ^ 32) :
    parseNotify (notify (.ofNat i)) = some (poolJob i) := by
  have hseq : (UInt32.ofNat i).toNat = i := by
    rw [UInt32.toNat_ofNat', Nat.mod_eq_of_lt hi]
  have hgap : ∀ j, ∀ c ∈ (fun _ => [] : Nat → Bytes) j, isSpace c = true := fun _ => nofun
  have hquote : ∀ name : Bytes, ch '"' ∉ name → ch '"' ∉ name ++ dec i := by
    intro name hname hmem
    rcases List.mem_append.1 hmem with hmem | hmem
    · exact hname hmem
    · exact quote_not_mem_dec i hmem
  have hmethod := (methodMember_opening fun _ => []).trans (List.prefix_append (opening fun _ => [])
    (jobParams (fun _ => []) (str "job-" ++ dec i) (str "offline-job-" ++ dec i)
      (dec (20 : UInt32).toNat) true ([] ++ ch ']' :: ([] ++ ch '\x7d' :: [])))).isInfix
  rw [notify_eq, hseq, announcement, parseNotify_jobParams (keyless_opening hgap) (hgap 6) (hgap 7)
    hmethod hgap (by simp [str]) (hquote _ (by simp [str, ch])) (hquote _ (by simp [str, ch]))
    ⟨dec_ne_nil _, fun _ => isDigit_of_mem_dec⟩, parseU32_dec]
  rfl

theorem inLine_notify (jobSeq : UInt32) : InLine (notify jobSeq) := by
  have hopen : InLine (str "\x7b\"id\":null,\"method\":\"mining.notify\",\"params\":[\"job-") :=
    inLine_of_all rfl
  have hmiddle : InLine (str "\",\"offline-job-") := inLine_of_all rfl
  have hclose : InLine (str "\",20,true]\x7d") := inLine_of_all rfl
  exact (((hopen.append (inLine_dec _)).append hmiddle).append (inLine_dec _)).append hclose

theorem length_notify (jobSeq : UInt32) :
    (notify jobSeq).length ≤ StratumClient.kMaxJsonLineBytes := by
  have hdec : (dec jobSeq.toNat).length ≤ 10 :=
    length_dec_le (by decide) (Nat.lt_trans jobSeq.toNat_lt (by decide))
  simp only [notify, List.length_append, StratumClient.kMaxJsonLineBytes]
  have htexts : (str "\x7b\"id\":null,\"method\":\"mining.notify\",\"params\":[\"job-").length = 51 ∧
      (str "\",\"offline-job-").length = 15 ∧ (str "\",20,true]\x7d").length = 11 := by
    decide
  omega

end Notifications

end HermitMiner
