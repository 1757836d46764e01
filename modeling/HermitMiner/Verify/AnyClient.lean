import HermitMiner.Verify.MessageFields
import HermitMiner.Verify.Objects

/-!
# The fake pool with any client

Whatever bytes a client sends, the pool answers each line of them once, and what the miner's readers
find in its answers is a conversation that depends on the lines alone.

* `serverAfter_read`: the loop of the pool reads the lines of the stream, byte by byte.
* `PoolMessage`, `conversation`: what the pool tells a client.
* `pool_conversation`: the readers of the client find the conversation in what the pool sends.
-/

namespace HermitMiner

open FakePool
open Rfc8259 (Chars Value ValueText Elements Element Members Document fields)

/-! ## Any bytes -/

namespace FakePool

/-- What the loop has read of a stream: the lines, and what it holds of the next one. -/
def readStream (received : Bytes) : Framing.Reader UInt8 :=
  Framing.read (ch '\n') isCR (received.map .item)

theorem readStream_concat (received : Bytes) (c : UInt8) :
    readStream (received ++ [c]) = (readStream received).step (ch '\n') isCR (.item c) := by
  rw [readStream, List.map_append, List.map_singleton]
  exact Framing.read_concat _ _

/-- The state of the loop is a matter of what it has read. -/
theorem serverAfter_read (received : Bytes) :
    serverAfter received = {
      toState := (serveAll {} (readStream received).lines).1
      line := (readStream received).held
      sending := wire (serveAll {} (readStream received).lines).2 } := by
  induction received using List.reverseRecOn with
  | nil => rfl
  | append_singleton received c ih =>
    rw [serverAfter_append, ih, readStream_concat, List.foldl_cons, List.foldl_nil,
      Server.receive, Framing.Reader.step]
    by_cases hnl : c = ch '\n'
    · rw [if_pos hnl, if_pos (by rw [hnl])]
      dsimp only
      rw [serveAll_concat, wire_append]
      rfl
    · have hitem : Framing.Rx.item c ≠ Framing.Rx.item (ch '\n') := fun h => hnl (by injection h)
      rw [if_neg hnl, if_neg hitem]
      by_cases hcr : c = ch '\r'
      · rw [if_neg (not_not_intro hcr)]
        simp [Framing.hold, isCR, hcr]
      · rw [if_pos hcr]
        simp [Framing.hold, isCR, hcr]

/-- What the pool sends answers the lines of the stream. -/
theorem poolOutput_lines (received : Bytes) :
    poolOutput received = wire (serveAll {} (streamLines received)).2 := by
  have hlines : (readStream received).lines = streamLines received := Framing.read_map_item received
  rw [poolOutput, serverAfter_read, hlines]

end FakePool

/-! ## Conversations -/

/-- What the readers of the client find in a line. -/
structure Understood where
  id : Option Nat
  result : Option Bool
  errorIsNull : Bool
  job : Option StratumJob
  deriving DecidableEq

def understand (line : Bytes) : Understood where
  id := parseMessageId line
  result := parseBoolResult line
  errorIsNull := parseErrorIsNull line
  job := parseNotify line

/-- What the pool tells a client. -/
inductive PoolMessage where
  | response (id : Nat) (result : Option Bool) (errorIsNull : Bool)
  | announcement (job : StratumJob)

/-- How a client is meant to understand it. -/
def PoolMessage.meaning : PoolMessage → Understood
  | .response id result errorIsNull => ⟨some id, result, errorIsNull, none⟩
  | .announcement job => ⟨none, none, false, some job⟩

/-- The response to a line: it carries the id of the line, and is positive for the methods that the
pool knows. -/
def responseTo (line : Bytes) : PoolMessage :=
  match handler line with
  | some .subscribe => .response (parseId line) none true
  | some .authorize => .response (parseId line) (some true) true
  | some .submit => .response (parseId line) (some true) true
  | none => .response (parseId line) (some false) false

def isAuthorization (line : Bytes) : Bool := handler line == some .authorize

def isShare (line : Bytes) : Bool := handler line == some .submit

/-- The number of the current job after these lines; the pool counts in 32 bits. -/
def jobNumber (lines : List Bytes) : UInt32 := .ofNat (lines.countP isShare + 1)

/-- The job that follows the response: the first one after the first authorization, and a new one
after each share. -/
def jobAfter (before : List Bytes) (line : Bytes) : Option StratumJob :=
  if isShare line || (isAuthorization line && !before.any isAuthorization)
  then some (announced (jobNumber (before ++ [line]))) else none

def replyTo (before : List Bytes) (line : Bytes) : List PoolMessage :=
  responseTo line :: ((jobAfter before line).map .announcement).toList

/-- What the pool tells a client that sends these lines. -/
def conversation (before : List Bytes) : List Bytes → List PoolMessage
  | [] => []
  | line :: lines => replyTo before line ++ conversation (before ++ [line]) lines

theorem conversation_concat (before lines : List Bytes) (line : Bytes) :
    conversation before (lines ++ [line]) =
      conversation before lines ++ replyTo (before ++ lines) line := by
  induction lines generalizing before with
  | nil => simp [conversation]
  | cons l lines ih =>
    rw [List.cons_append, conversation, conversation, ih, List.append_assoc, List.append_assoc,
      List.singleton_append]

/-! ## What a client understands -/

section Understanding

variable {text : Bytes} {v : Value}

theorem understand_document (h : Document text v) (hplain : ch '\\' ∉ text) :
    understand text = {
      id := ((fields v).findSome? idField).bind stoull
      result := (fields v).findSome? resultField
      errorIsNull := (fields v).any isErrorField
      job := if (fields v).any isMethodField then (fields v).findSome? jobField else none } := by
  rw [understand, parseMessageId_fields h hplain, parseBoolResult_fields h hplain,
    parseErrorIsNull, search_error h hplain, parseNotify_fields h hplain]

theorem stoull_dec {n : Nat} (hn : n < 2 ^ 64) : stoull (dec n) = some n := by
  rw [stoull_digits (dec_ne_nil n) fun _ => isDigit_of_mem_dec, digitsValue_dec,
    if_neg (Nat.not_le.2 hn)]

theorem stoull_lt {ds : Bytes} {n : Nat} (h : stoull ds = some n) : n < 2 ^ 64 := by
  have hvalue : ∀ (text : Bytes) (negative : Bool),
      (if text.takeWhile isDigit = [] ∨ 2 ^ 64 ≤ digitsValue (text.takeWhile isDigit) then none
        else if negative then some ((2 ^ 64 - digitsValue (text.takeWhile isDigit)) % 2 ^ 64)
        else some (digitsValue (text.takeWhile isDigit))) = some n → n < 2 ^ 64 := by
    intro text negative h
    split at h
    · cases h
    · rename_i hfits
      rw [not_or, Nat.not_le] at hfits
      split at h
      · rw [← Option.some.inj h]
        exact Nat.mod_lt _ (by decide)
      · rw [← Option.some.inj h]
        exact hfits.2
  exact hvalue _ _ h

theorem parseId_lt (line : Bytes) : parseId line < 2 ^ 64 := by
  unfold parseId
  split
  · cases hds : stoull _ with
    | none => exact Nat.two_pow_pos 64
    | some n => exact stoull_lt hds
  · exact Nat.two_pow_pos 64

theorem takeWhile_dec (n : Nat) : (dec n).takeWhile isDigit = dec n :=
  List.takeWhile_eq_self_iff.2 fun _ => isDigit_of_mem_dec

theorem not_mem_dec {c : UInt8} (hc : isDigit c = false) (n : Nat) : c ∉ dec n := by
  intro hmem
  rw [isDigit_of_mem_dec hmem] at hc
  cases hc

end Understanding

/-! ## Responses -/

section Responses

variable {n : Nat} {result error : Bytes} {rv ev : Value}

def truthOf : Value → Option Bool
  | .bool b => some b
  | _ => none

def isNullValue : Value → Bool
  | .null => true
  | _ => false

def responseFields (n : Nat) (rv ev : Value) : List (Bytes × Value) :=
  [(str "id", .number (dec n)), (str "result", rv), (str "error", ev)]

theorem document_jsonResp (hresult : ValueText result rv) (herror : ValueText error ev) :
    Document (jsonResp n result error) (.object (responseFields n rv ev)) := by
  have hid : Chars (str "id") (str "id") := chars_key (by decide)
  have hresult' : Chars (str "result") (str "result") := chars_key (by decide)
  have herror' : Chars (str "error") (str "error") := chars_key (by decide)
  have hmembers := Members.cons (member_tight hid (valueText_dec n))
    (.cons (member_tight hresult' hresult) (.last (member_tight herror' herror)))
  have htext : jsonResp n result error = 0x7B :: (Rfc8259.quoted (str "id") ++ 0x3A :: dec n ++
      0x2C :: (Rfc8259.quoted (str "result") ++ 0x3A :: result ++
        0x2C :: (Rfc8259.quoted (str "error") ++ 0x3A :: error)) ++ [0x7D]) := by
    simp [jsonResp, Rfc8259.quoted, str, ch]
  rw [htext]
  exact element_tight (.object hmembers)

theorem plain_jsonResp (hresult : ch '\\' ∉ result) (herror : ch '\\' ∉ error) :
    ch '\\' ∉ jsonResp n result error := by
  have hdec : ch '\\' ∉ dec n := not_mem_dec (by decide) n
  simp only [jsonResp, List.mem_append, not_or]
  exact ⟨⟨⟨⟨⟨⟨by decide, hdec⟩, by decide⟩, hresult⟩, by decide⟩, herror⟩, by decide⟩

/-- A response without members in its values. -/
theorem understand_jsonResp (hn : n < 2 ^ 64) (hresult : ValueText result rv)
    (herror : ValueText error ev) (hrv : fields rv = []) (hev : fields ev = [])
    (hplain : ch '\\' ∉ result) (hplain' : ch '\\' ∉ error) :
    understand (jsonResp n result error) = ⟨some n, truthOf rv, isNullValue ev, none⟩ := by
  have hfields : fields (.object (responseFields n rv ev)) = responseFields n rv ev := by
    simp [responseFields, fields, Rfc8259.fieldsOfMembers, hrv, hev]
  have hid : idField (str "id", .number (dec n)) = some (dec n) := by
    simp [idField, takeWhile_dec, dec_ne_nil]
  have hnot : ¬SameName "result" (str "error") ∧ ¬SameName "error" (str "result") ∧
      str "result" ≠ str "method" ∧ str "error" ≠ str "method" := by decide
  have htruth : resultField (str "result", rv) = truthOf rv := by
    cases rv with
    | bool b =>
      show (if SameName "result" (str "result") then some b else none) = some b
      exact if_pos rfl
    | _ => rfl
  have hother : resultField (str "error", ev) = none := by
    cases ev with
    | bool b =>
      show (if SameName "result" (str "error") then some b else none) = none
      exact if_neg hnot.1
    | _ => rfl
  have hnull : isErrorField (str "error", ev) = isNullValue ev := by
    cases ev with
    | null =>
      show decide (SameName "error" (str "error")) = true
      exact decide_eq_true rfl
    | _ => rfl
  have hfirst : isErrorField (str "result", rv) = false := by
    cases rv with
    | null => exact decide_eq_false hnot.2.1
    | _ => rfl
  have hmethod : ∀ k w, k ≠ str "method" → isMethodField (k, w) = false := by
    intro k w hk
    cases w with
    | string s => exact decide_eq_false fun h => hk h.1
    | _ => rfl
  have hids : (responseFields n rv ev).findSome? idField = some (dec n) := by
    rw [responseFields, List.findSome?_cons, hid]
  have hresults : (responseFields n rv ev).findSome? resultField = truthOf rv := by
    have hnumber : resultField (str "id", .number (dec n)) = none := rfl
    rw [responseFields, List.findSome?_cons, hnumber, List.findSome?_cons, htruth,
      List.findSome?_cons, hother]
    cases truthOf rv <;> rfl
  have herrors : (responseFields n rv ev).any isErrorField = isNullValue ev := by
    have hnumber : isErrorField (str "id", .number (dec n)) = false := rfl
    rw [responseFields, List.any_cons, List.any_cons, List.any_cons, hnumber, hfirst, hnull]
    simp
  have hmethods : (responseFields n rv ev).any isMethodField = false := by
    have hnumber : isMethodField (str "id", .number (dec n)) = false := rfl
    rw [responseFields, List.any_cons, List.any_cons, List.any_cons, hnumber,
      hmethod _ rv hnot.2.2.1, hmethod _ ev hnot.2.2.2]
    rfl
  rw [understand_document (document_jsonResp hresult herror) (plain_jsonResp hplain hplain'),
    hfields, hids, hresults, herrors, hmethods, Option.bind_some, stoull_dec hn]
  rfl

/-- What the pool sends as the result of a subscription. -/
def subscriptionValue : Value :=
  .array [.array [.string (str "mining.notify"), .string (str "deadbeef")],
    .string (str "abcdef01"), .number (dec 4)]

theorem valueText_subscription : ValueText subscription subscriptionValue := by
  have hstring : ∀ s, isKey s = true → Element (Rfc8259.quoted s) (.string s) := fun s hs =>
    element_tight (.string (chars_key hs))
  have hinner := Elements.cons (hstring (str "mining.notify") (by decide))
    (.last (hstring (str "deadbeef") (by decide)))
  exact .array (.cons (element_tight (.array hinner))
    (.cons (hstring (str "abcdef01") (by decide)) (.last (element_tight (valueText_dec 4)))))

def unknownMethodValue : Value := .array [.number (dec 20), .string (str "unknown method"), .null]

theorem valueText_unknownMethod : ValueText unknownMethod unknownMethodValue := by
  have hstring : Element (Rfc8259.quoted (str "unknown method")) (.string (str "unknown method")) :=
    element_tight (.string (chars_key (by decide)))
  exact .array (.cons (element_tight (valueText_dec 20))
    (.cons hstring (.last (element_tight .nullText))))

theorem isKey_dec (n : Nat) : isKey (dec n) = true := by
  refine List.all_eq_true.2 fun c hc => ?_
  have hdigit := (isDigit_iff c).1 (isDigit_of_mem_dec hc)
  have hquote : (ch '"').toNat = 34 := by decide
  have hslash : (ch '\\').toNat = 92 := by decide
  simp only [Bool.and_eq_true, decide_eq_true_eq, bne_iff_ne, ne_eq, UInt8.le_iff_toNat_le,
    UInt8.lt_iff_toNat_lt, ← UInt8.toNat_inj, hquote, hslash]
  have hbounds : (0x20 : UInt8).toNat = 32 ∧ (0x80 : UInt8).toNat = 128 := by decide
  omega

theorem chars_named (name : Bytes) (hname : isKey name = true) (n : Nat) :
    Chars (name ++ dec n) (name ++ dec n) := by
  refine chars_key ?_
  rw [isKey, List.all_append, Bool.and_eq_true]
  exact ⟨hname, isKey_dec n⟩

/-- The parameters of a notification. -/
def paramsValue (jobSeq : UInt32) : Value :=
  .array [.string (str "job-" ++ dec jobSeq.toNat),
    .string (str "offline-job-" ++ dec jobSeq.toNat), .number (dec 20), .bool true]

def notifyFields (jobSeq : UInt32) : List (Bytes × Value) :=
  [(str "id", .null), (str "method", .string (str "mining.notify")),
    (str "params", paramsValue jobSeq)]

theorem document_notify (jobSeq : UInt32) :
    Document (notify jobSeq) (.object (notifyFields jobSeq)) := by
  have hkey : ∀ key, isKey key = true → Chars key key := fun key h => chars_key h
  have hjob := element_tight (.string (chars_named (str "job-") (by decide) jobSeq.toNat))
  have hpre :=
    element_tight (.string (chars_named (str "offline-job-") (by decide) jobSeq.toNat))
  have hparams : Elements _ _ := .cons hjob (.cons hpre
    (.cons (element_tight (valueText_dec 20)) (.last (element_tight .trueText))))
  have hmembers := Members.cons (member_tight (hkey (str "id") (by decide)) .nullText)
    (.cons (member_tight (hkey (str "method") (by decide))
        (.string (hkey (str "mining.notify") (by decide))))
      (.last (member_tight (hkey (str "params") (by decide)) (.array hparams))))
  have htwenty : dec 20 = str "20" := rfl
  have htext : notify jobSeq = 0x7B :: (Rfc8259.quoted (str "id") ++ 0x3A :: str "null" ++ 0x2C ::
      (Rfc8259.quoted (str "method") ++ 0x3A :: Rfc8259.quoted (str "mining.notify") ++ 0x2C ::
        (Rfc8259.quoted (str "params") ++ 0x3A :: 0x5B ::
          (Rfc8259.quoted (str "job-" ++ dec jobSeq.toNat) ++ 0x2C ::
            (Rfc8259.quoted (str "offline-job-" ++ dec jobSeq.toNat) ++ 0x2C ::
              (dec 20 ++ 0x2C :: str "true")) ++ [0x5D]))) ++ [0x7D]) := by
    simp [notify, Rfc8259.quoted, htwenty, str, ch]
  rw [htext]
  exact element_tight (.object hmembers)

theorem plain_notify (jobSeq : UInt32) : ch '\\' ∉ notify jobSeq := by
  have hdec : ch '\\' ∉ dec jobSeq.toNat := not_mem_dec (by decide) _
  simp only [notify, List.mem_append, not_or]
  exact ⟨⟨⟨⟨by decide, hdec⟩, by decide⟩, hdec⟩, by decide⟩

/-- A notification has no id, no result and no error. -/
theorem understand_notify (jobSeq : UInt32) :
    understand (notify jobSeq) = ⟨none, none, false, some (announced jobSeq)⟩ := by
  have hdocument := document_notify jobSeq
  have hplain := plain_notify jobSeq
  have hfields : fields (.object (notifyFields jobSeq)) = notifyFields jobSeq := rfl
  have hid : ¬SameName "error" (str "id") := by decide
  have herror : isErrorField (str "id", .null) = false := decide_eq_false hid
  have herrors : (notifyFields jobSeq).any isErrorField = false := by
    rw [notifyFields, List.any_cons, herror]
    rfl
  rw [understand, parseNotify_notify_eq, parseMessageId_fields hdocument hplain,
    parseBoolResult_fields hdocument hplain, parseErrorIsNull, search_error hdocument hplain,
    hfields, herrors]
  rfl

end Responses

/-! ## The pool -/

/-- The state of the loop after these lines. -/
def stateAfter (lines : List Bytes) : State := ⟨lines.any isAuthorization, jobNumber lines⟩

theorem jobNumber_concat (before : List Bytes) (line : Bytes) :
    jobNumber (before ++ [line]) =
      if isShare line then jobNumber before + 1 else jobNumber before := by
  rw [jobNumber, jobNumber, List.countP_append, List.countP_singleton]
  split
  · rw [← UInt32.ofNat_one, ← UInt32.ofNat_add]
  · rfl

theorem stateAfter_concat (before : List Bytes) (line : Bytes) :
    stateAfter (before ++ [line]) = {
      notified := before.any isAuthorization || isAuthorization line
      jobSeq := if isShare line then jobNumber before + 1 else jobNumber before } := by
  rw [stateAfter, jobNumber_concat]
  simp

section Pass

variable {s : State} {line : Bytes}

theorem serve_subscribe (h : handler line = some .subscribe) :
    serve s line = (s, [jsonResp (parseId line) subscription]) := by
  rw [serve, h]
  rfl

theorem serve_authorize (h : handler line = some .authorize) :
    serve s line =
      if s.notified then (s, [jsonResp (parseId line) (str "true")])
      else ({ s with notified := true },
        [jsonResp (parseId line) (str "true"), notify s.jobSeq]) := by
  rw [serve, h]

theorem serve_submit (h : handler line = some .submit) :
    serve s line = ({ s with jobSeq := s.jobSeq + 1 },
      [jsonResp (parseId line) (str "true"), notify (s.jobSeq + 1)]) := by
  rw [serve, h]

theorem serve_unknown (h : handler line = none) :
    serve s line = (s, [jsonResp (parseId line) (str "false") unknownMethod]) := by
  rw [serve, h]
  rfl

end Pass

/-- One pass of the loop, as a part of the conversation. -/
theorem serve_stateAfter (before : List Bytes) (line : Bytes) :
    (serve (stateAfter before) line).1 = stateAfter (before ++ [line]) ∧
      (serve (stateAfter before) line).2.map understand =
        (replyTo before line).map PoolMessage.meaning := by
  have hn := parseId_lt line
  have hyes : understand (jsonResp (parseId line) (str "true")) =
      ⟨some (parseId line), some true, true, none⟩ :=
    understand_jsonResp hn .trueText .nullText rfl rfl (by decide) (by decide)
  rw [stateAfter_concat, replyTo, responseTo, jobAfter, jobNumber_concat, isAuthorization, isShare]
  cases h : handler line with
  | none =>
    have hno : understand (jsonResp (parseId line) (str "false") unknownMethod) =
        ⟨some (parseId line), some false, false, none⟩ :=
      understand_jsonResp hn .falseText valueText_unknownMethod rfl rfl (by decide) (by decide)
    rw [serve_unknown h]
    simp [stateAfter, PoolMessage.meaning, hno]
  | some method =>
    cases method with
    | subscribe =>
      have hsubscribed : understand (jsonResp (parseId line) subscription) =
          ⟨some (parseId line), none, true, none⟩ :=
        understand_jsonResp hn valueText_subscription .nullText rfl rfl (by decide) (by decide)
      rw [serve_subscribe h]
      simp [stateAfter, PoolMessage.meaning, hsubscribed]
    | authorize =>
      rw [serve_authorize h]
      cases hnotified : before.any isAuthorization with
      | true => simp [stateAfter, PoolMessage.meaning, hyes, hnotified]
      | false => simp [stateAfter, PoolMessage.meaning, hyes, hnotified, understand_notify]
    | submit =>
      rw [serve_submit h]
      simp [stateAfter, PoolMessage.meaning, hyes, understand_notify]

theorem serveAll_conversation (lines : List Bytes) :
    (serveAll {} lines).1 = stateAfter lines ∧
      (serveAll {} lines).2.map understand = (conversation [] lines).map PoolMessage.meaning := by
  induction lines using List.reverseRecOn with
  | nil => exact ⟨rfl, rfl⟩
  | append_singleton lines line ih =>
    obtain ⟨hstate, hlines⟩ := ih
    obtain ⟨hnext, hreply⟩ := serve_stateAfter lines line
    rw [serveAll_concat, conversation_concat, hstate, List.map_append, List.map_append, hlines,
      List.nil_append, hreply]
    exact ⟨hnext, rfl⟩

/-- **The pool with any client**: whatever bytes the pool receives, the lines that it sends are
understood as the conversation over the lines that it received. -/
theorem pool_conversation (received : Bytes) :
    (streamLines (poolOutput received)).map understand =
      (conversation [] (streamLines received)).map PoolMessage.meaning := by
  have hlines : ∀ l ∈ (serveAll {} (streamLines received)).2, InLine l := fun l hl =>
    (inLine_serveAll hl).1
  rw [poolOutput_lines, streamLines_wire hlines]
  exact (serveAll_conversation _).2

end HermitMiner
