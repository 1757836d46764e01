import HermitMiner.Verify.Lockstep

/-!
# Two requests side by side

A request may leave in other pieces in the one run than in the other, and may be longer. While it
is written, and while its response is awaited, nothing else is logged, so the two runs stay in step.

* `Exchange`: a program in the middle of a request.
* `meet_exchange`: two such programs, by induction on the events that both have left.
* `Compatible`, `couple_requestResponse`: requests with the same id, both within the size limit or
  both above it.
-/

namespace HermitMiner

open Oracle

/-! ## Requests in pieces -/

section Requests

open StratumClient

variable (self : StratumClient) (request : Bytes) (requestId : Nat) (timeoutSec : UInt32)

/-- `request_response` after the request is written. -/
def respond : Sys (Option Bytes) :=
  Proc.loop (self.responseRound request requestId timeoutSec) ()

/-- `request_response` with so many bytes of the request left to write. -/
def sending (left : Bytes) : Sys (Option Bytes) := do
  if ← Proc.loop (sendRound request) left then respond self request requestId timeoutSec
  else return none

/-- What follows the next event while the request is written. -/
def sendNext (left : Bytes) : Event → Sys (Option Bytes)
  | .send count =>
    if count = 0 then do
      observe .sendFailed
      disconnect
      return none
    else if count ≤ left.length then do
      observe (.wrote (left.take count))
      sending self request requestId timeoutSec (left.drop count)
    else Proc.halt
  | _ => Proc.halt

variable {self request requestId timeoutSec}

theorem sending_nil (e : Env) (es : List Event) :
    (sending self request requestId timeoutSec []).run e es =
      (respond self request requestId timeoutSec).run (e.observe (.sent request)) es := by
  rw [sending, loop_bind (advances_sendRound request)]
  rfl

/-- While the request is written, the program waits for `send`. -/
theorem waits_sending {left : Bytes} (hleft : left ≠ []) :
    Waits async (sending self request requestId timeoutSec left)
      (sendNext self request requestId timeoutSec left) := by
  intro e es
  rw [sending, loop_bind (advances_sendRound request), sendRound, if_neg hleft]
  simp only [Proc.bind_run, send, await]
  cases hr : (Proc.await async).run e es with
  | pending t => rfl
  | done ev t rest =>
    cases ev with
    | send count =>
      dsimp only [sendNext]
      by_cases h0 : count = 0
      · rw [if_pos h0, if_pos h0]
        rfl
      · rw [if_neg h0, if_neg h0]
        by_cases hle : count ≤ left.length
        · rw [if_pos hle, if_pos hle]
          have hwrote : (observe (.wrote (left.take count))).run t rest =
              .done () (t.observe (.wrote (left.take count))) rest := rfl
          simp only [Proc.bind_run, Proc.pure_run, hwrote, if_neg h0]
          rfl
        · rw [if_neg hle, if_neg hle]
          rfl
    | _ => rfl

/-- While the response is awaited, the program waits for the clock. -/
theorem waits_respond (self : StratumClient) (request : Bytes) (requestId : Nat)
    (timeoutSec : UInt32) : ∃ next,
    Waits async (respond self request requestId timeoutSec) next ∧
    ∀ count e es, Proc.Stuck (next (.send count)) e es := by
  rw [respond, loop_bind (self.advances_responseRound request requestId timeoutSec)]
  have htick : Waits async (tick (.request timeoutSec)) _ := fun _ _ => rfl
  refine ⟨_, (htick.bind _).bind _, fun count e es => ?_⟩
  exact ((Proc.stuck_halt e es).bind).bind

/-- The program is in the middle of a request: it writes what is left, or awaits the response. -/
inductive Exchange (self : StratumClient) (request : Bytes) (requestId : Nat)
    (timeoutSec : UInt32) : Sys (Option Bytes) → Prop
  | responds : Exchange self request requestId timeoutSec
    (respond self request requestId timeoutSec)
  | sends {left : Bytes} (hleft : left ≠ []) : Exchange self request requestId timeoutSec
    (sending self request requestId timeoutSec left)

section Exchange

variable {cfg : MinerConfig} {c : Comparison cfg} {n : Nat}

/-- Nothing is seen of the step from one state to the other. -/
structure Unseen (c : Comparison cfg) (n : Nat) (e e' : Env) : Prop where
  left : ∀ {e₂}, InStep c n e e₂ → InStep c n e' e₂
  right : ∀ {e₁}, InStep c n e₁ e → InStep c n e₁ e'

theorem Unseen.trans {e e' e'' : Env} (h : Unseen c n e e') (h' : Unseen c n e' e'') :
    Unseen c n e e'' := ⟨fun hs => h'.left (h.left hs), fun hs => h'.right (h.right hs)⟩

theorem unseen_observe {o : Obs} (ho : o.shown = []) (e : Env) : Unseen c n e (e.observe o) :=
  ⟨fun hs => hs.observe_left ho, fun hs => hs.observe_right ho⟩

variable {m : Sys (Option Bytes)} {e : Env} (hm : Exchange self request requestId timeoutSec m)
include hm

theorem Exchange.waits : ∃ next, Waits async m next := by
  cases hm with
  | responds =>
    obtain ⟨next, hnext, -⟩ := waits_respond self request requestId timeoutSec
    exact ⟨next, hnext⟩
  | sends hleft => exact ⟨_, waits_sending hleft⟩

/-- A piece of the request leaves, unless none is due. -/
theorem Exchange.write (c : Comparison cfg) (n : Nat) {ev : Event} (hev : ev.isWrite = true) :
    (∀ es, Proc.Stuck m e (ev :: es)) ∨
      ∃ m' e', Exchange self request requestId timeoutSec m' ∧ Unseen c n e e' ∧
        ∀ es, m.run e ([ev] ++ es) = m'.run e' es := by
  obtain ⟨count, rfl, hcount⟩ : ∃ count, ev = .send count ∧ count ≠ 0 := by
    cases ev with
    | send count =>
      cases count with
      | zero => cases hev
      | succ k => exact ⟨k + 1, rfl, Nat.succ_ne_zero k⟩
    | _ => cases hev
  cases hm with
  | responds =>
    obtain ⟨next, hnext, hstuck⟩ := waits_respond self request requestId timeoutSec
    exact Or.inl fun es => Proc.Stuck.after (hnext.answer rfl) (hstuck count e es)
  | @sends left hleft =>
    have hnext : Waits async (sending self request requestId timeoutSec left)
        (sendNext self request requestId timeoutSec left) := waits_sending hleft
    by_cases hle : count ≤ left.length
    · right
      have hpiece : ∀ es, (sending self request requestId timeoutSec left).run e
          ([.send count] ++ es) = (sending self request requestId timeoutSec (left.drop count)).run
            (e.observe (.wrote (left.take count))) es := by
        intro es
        rw [hnext.answer rfl, sendNext, if_neg hcount, if_pos hle]
        rfl
      have hunseen : Unseen c n e (e.observe (.wrote (left.take count))) := unseen_observe rfl e
      by_cases hdrop : left.drop count = []
      · refine ⟨_, _, .responds, hunseen.trans (unseen_observe (o := .sent request) rfl _), ?_⟩
        intro es
        rw [hpiece, hdrop, sending_nil]
      · exact ⟨_, _, .sends hdrop, hunseen, hpiece⟩
    · left
      intro es
      refine Proc.Stuck.after (hnext.answer rfl) ?_
      rw [sendNext, if_neg hcount, if_neg hle]
      exact Proc.stuck_halt e es

end Exchange

section Exchanges

variable {cfg : MinerConfig} {c : Comparison cfg} {n : Nat} {X : Env → Prop}
  {request₁ request₂ : Bytes} {m₁ m₂ : Sys (Option Bytes)} {e₁ e₂ : Env} {es₁ es₂ : List Event}

theorem couple_respond (h : InStep c n e₁ e₂) :
    Couple c.pairing X (respond self request₁ requestId timeoutSec)
      (respond self request₂ requestId timeoutSec) (Agree c n) e₁ e₂ := by
  apply Couple.of_never
  refine couple_loop (self.advances_responseRound _ _ _) (self.advances_responseRound _ _ _)
    (I := fun _ _ => InStep c n) (fun b => keeps_never _) (fun b => keeps_never _) ?_ h
  intro _ _ t₁ t₂ ht
  refine couple_mono (couple_responseRound ht self request₁ request₂ requestId timeoutSec)
    (fun _ hs => hs) ?_
  intro r₁ r₂ t₁ t₂ hr
  obtain ⟨rfl, hr⟩ := hr
  cases r₁ with
  | inl _ => exact hr
  | inr line => exact ⟨rfl, hr⟩

/-- A program that still writes takes no other event. -/
theorem stuck_sending {left : Bytes} (hleft : left ≠ []) {ev : Event} (hev : ev.isWrite = false)
    (hfailed : ev ≠ .send 0) (hnone : async ev = none) (e : Env) (es : List Event) :
    Proc.Stuck (sending self request requestId timeoutSec left) e (ev :: es) := by
  apply Proc.Stuck.after ((waits_sending hleft).answer hnone)
  cases ev with
  | send count =>
    cases count with
    | zero => exact absurd rfl hfailed
    | succ k => cases hev
  | _ => exact Proc.stuck_halt e es

theorem stuck_respond (count : Nat) (e : Env) (es : List Event) :
    Proc.Stuck (respond self request requestId timeoutSec) e (.send count :: es) := by
  obtain ⟨next, hnext, hstuck⟩ := waits_respond self request requestId timeoutSec
  exact Proc.Stuck.after (hnext.answer rfl) (hstuck count e es)

/-- An event that both runs get in the middle of a request. -/
theorem meet_answer (h : InStep c n e₁ e₂)
    (hm₁ : Exchange self request₁ requestId timeoutSec m₁)
    (hm₂ : Exchange self request₂ requestId timeoutSec m₂) {ev₁ ev₂ : Event}
    (hev₁ : ev₁.isWrite = false) (hev₂ : ev₂.isWrite = false) (hnone₁ : async ev₁ = none)
    (hnone₂ : async ev₂ = none) (hsame : c.same ev₁ ev₂)
    (hrest : c.pairing.Alike es₁ es₂) :
    Meet c.pairing X m₁ e₁ (ev₁ :: es₁) m₂ e₂ (ev₂ :: es₂) (Agree c n) := by
  have hfailed : ev₁ = .send 0 ↔ ev₂ = .send 0 := by
    cases c.answer hsame with
    | refl => exact Iff.rfl
    | clock => exact iff_of_false (fun heq => by cases heq) fun heq => by cases heq
    | reporter => exact iff_of_false (fun heq => by cases heq) fun heq => by cases heq
  cases hm₁ with
  | responds =>
    cases hm₂ with
    | responds =>
      exact couple_respond h _ _ ((Pairing.alike_cons hev₁ hev₂).2 ⟨hsame, hrest⟩)
    | sends hleft =>
      by_cases h0 : ev₂ = .send 0
      · rw [hfailed.2 h0]
        exact .stuck₁ (stuck_respond 0 e₁ es₁)
      · exact .stuck₂ (stuck_sending hleft hev₂ h0 hnone₂ e₂ es₂)
  | sends hleft₁ =>
    by_cases h0 : ev₁ = .send 0
    · cases hm₂ with
      | responds =>
        rw [hfailed.1 h0]
        exact .stuck₂ (stuck_respond 0 e₂ es₂)
      | sends hleft₂ =>
        rw [hfailed.1 h0, h0]
        have hlost : InStep c n (e₁.observe .sendFailed).disconnect
            (e₂.observe .sendFailed).disconnect := (h.observe .nil).disconnect
        exact Meet.after [.send 0] [.send 0]
          (couple_pure (p := c.pairing) (Q := Agree c n) ⟨rfl, hlost⟩ es₁ es₂ hrest)
          ((waits_sending hleft₁).answer rfl) ((waits_sending hleft₂).answer rfl)
    · exact .stuck₁ (stuck_sending hleft₁ hev₁ h0 hnone₁ e₁ es₁)

/-- **Two requests side by side**: they may leave in other pieces. -/
theorem meet_exchange (h : InStep c n e₁ e₂)
    (hm₁ : Exchange self request₁ requestId timeoutSec m₁)
    (hm₂ : Exchange self request₂ requestId timeoutSec m₂) (halike : c.pairing.Alike es₁ es₂) :
    Meet c.pairing X m₁ e₁ es₁ m₂ e₂ es₂ (Agree c n) := by
  -- by induction on the events that are left in both runs
  obtain ⟨k, hk⟩ : ∃ k, es₁.length + es₂.length < k := ⟨_, Nat.lt_succ_self _⟩
  induction k generalizing m₁ m₂ e₁ e₂ es₁ es₂ with
  | zero => exact absurd hk (Nat.not_lt_zero _)
  | succ k ih =>
    have hleft : ∀ ev es, es₁ = ev :: es → ev.isWrite = true →
        Meet c.pairing X m₁ e₁ es₁ m₂ e₂ es₂ (Agree c n) := by
      rintro ev es rfl hev
      obtain hstuck | ⟨m', e', hm', hunseen, hrun⟩ := hm₁.write c n hev
      · exact .stuck₁ (hstuck es)
      · rw [Pairing.alike_own_left hev] at halike
        rw [List.length_cons] at hk
        exact Meet.after [ev] []
          (ih (hunseen.left h) hm' hm₂ halike (by omega)) hrun fun _ => rfl
    have hright : ∀ ev es, es₂ = ev :: es → ev.isWrite = true →
        Meet c.pairing X m₁ e₁ es₁ m₂ e₂ es₂ (Agree c n) := by
      rintro ev es rfl hev
      obtain hstuck | ⟨m', e', hm', hunseen, hrun⟩ := hm₂.write c n hev
      · exact .stuck₂ (hstuck es)
      · rw [Pairing.alike_own_right hev] at halike
        rw [List.length_cons] at hk
        exact Meet.after [] [ev]
          (ih (hunseen.right h) hm₁ hm' halike (by omega)) (fun _ => rfl) hrun
    obtain ⟨next₁, hnext₁⟩ := hm₁.waits
    obtain ⟨next₂, hnext₂⟩ := hm₂.waits
    cases es₁ with
    | nil =>
      cases es₂ with
      | nil => exact .pending (hnext₁.nil e₁) (hnext₂.nil e₂) h.near
      | cons ev₂ es₂ =>
        cases hev₂ : ev₂.isWrite with
        | true => exact hright ev₂ es₂ rfl hev₂
        | false => exact absurd halike (Pairing.not_alike_nil_left hev₂)
    | cons ev₁ es₁ =>
      cases hev₁ : ev₁.isWrite with
      | true => exact hleft ev₁ es₁ rfl hev₁
      | false =>
        cases es₂ with
        | nil => exact absurd halike (Pairing.not_alike_nil_right hev₁)
        | cons ev₂ es₂ =>
          cases hev₂ : ev₂.isWrite with
          | true => exact hright ev₂ es₂ rfl hev₂
          | false =>
            obtain ⟨hsame, hrest⟩ := (Pairing.alike_cons hev₁ hev₂).1 halike
            have hasync : async ev₁ = async ev₂ := by
              cases c.answer hsame with
              | _ => rfl
            cases hg : async ev₁ with
            | none => exact meet_answer h hm₁ hm₂ hev₁ hev₂ hg (hasync ▸ hg) hsame hrest
            | some g =>
              have hstep : InStep c n (g e₁) (g e₂) := by
                cases ev₁ with
                | signal =>
                  cases hg
                  exact h.signal
                | arrive bytes =>
                  cases hg
                  exact h.arrive bytes
                | _ => cases hg
              rw [List.length_cons, List.length_cons] at hk
              exact Meet.after [ev₁] [ev₂]
                (ih hstep hm₁ hm₂ hrest (by omega)) (hnext₁.slip hg) (hnext₂.slip (hasync ▸ hg))

end Exchanges

/-! ## Requests -/

/-- The two requests have the same id, and one is above the size limit only if the other is, or if
that is excused. -/
structure Compatible (X : Env → Prop) (request₁ request₂ : Bytes) : Prop where
  id : parseMessageId request₁ = parseMessageId request₂
  fits : (kMaxJsonLineBytes < request₁.length ↔ kMaxJsonLineBytes < request₂.length) ∨
    ∀ e : Env, X (e.observe .unsendable)

theorem Compatible.refl (X : Env → Prop) (request : Bytes) : Compatible X request request :=
  ⟨rfl, Or.inl Iff.rfl⟩

variable (self request) in
/-- `send_line` refuses a request that is above the size limit. -/
def refuse : Sys (Option Bytes) := do
  observe .unsendable
  self.logLine .err (str "Outgoing JSON line exceeds size limit") []
  disconnect
  return none

variable (self timeoutSec) in
theorem requestResponse_run (hid : parseMessageId request = some requestId) (e : Env)
    (es : List Event) :
    (self.requestResponse request timeoutSec).run e es =
      (if e.connected = false then pure none
        else if kMaxJsonLineBytes < request.length then refuse self
        else sending self request requestId timeoutSec (request ++ [ch '\n'])).run e es := by
  rw [requestResponse, hid]
  dsimp only
  rw [sendLine, sending]
  simp only [Proc.bind_run, Proc.get_run]
  cases e.connected with
  | false => rfl
  | true =>
    simp only [Bool.not_true, Bool.false_eq_true, if_false]
    by_cases hover : kMaxJsonLineBytes < request.length
    · rw [if_pos hover, if_pos hover]
      rfl
    · rw [if_neg hover, if_neg hover]
      rfl

section Couple

variable {cfg : MinerConfig} {c : Comparison cfg} {n : Nat} {X : Env → Prop}
  {request₁ request₂ : Bytes} {e₁ e₂ : Env}

theorem couple_refuse (h : InStep c n e₁ e₂) :
    Couple c.pairing X (refuse self) (refuse self) (Agree c n) e₁ e₂ := by
  have hrefused := ((h.observe_same .unsendable rfl).addLog
    (c.entries_refl ⟨.err, str "stratum", self.nodeId,
      str "Outgoing JSON line exceeds size limit", []⟩)).disconnect
  exact couple_update (couple_update (couple_update (couple_pure ⟨rfl, hrefused⟩)))

variable (hX : Lasting X)
include hX

/-- A request that only this run refuses excuses it. -/
theorem excused_refuse (hover : ∀ e : Env, X (e.observe .unsendable)) (e : Env) (es : List Event) :
    X ((refuse self).run e es).state := by
  have hstate : (e.observe .unsendable).trace <+: ((refuse self).run e es).state.trace :=
    List.prefix_refl _
  exact hX _ _ hstate (List.prefix_append _ _) (hover e)

theorem couple_requestResponse (h : InStep c n e₁ e₂)
    (hrequests : Compatible X request₁ request₂) :
    Couple c.pairing X (self.requestResponse request₁ timeoutSec)
      (self.requestResponse request₂ timeoutSec) (Agree c n) e₁ e₂ := by
  cases hid : parseMessageId request₁ with
  | none =>
    have hid₂ := hrequests.id.symm.trans hid
    rw [requestResponse, requestResponse, hid, hid₂]
    exact couple_update (couple_pure ⟨rfl, h.observe .nil⟩)
  | some requestId =>
    have hid₂ := hrequests.id.symm.trans hid
    intro es₁ es₂ halike
    refine Meet.after [] [] ?_ (requestResponse_run self timeoutSec hid e₁)
      (requestResponse_run self timeoutSec hid₂ e₂)
    rw [← h.connected]
    by_cases hconnected : e₁.connected = false
    · rw [if_pos hconnected, if_pos hconnected]
      exact couple_pure (Q := Agree c n) ⟨rfl, h⟩ es₁ es₂ halike
    · rw [if_neg hconnected, if_neg hconnected]
      by_cases hover₁ : kMaxJsonLineBytes < request₁.length
      · by_cases hover₂ : kMaxJsonLineBytes < request₂.length
        · rw [if_pos hover₁, if_pos hover₂]
          exact couple_refuse h es₁ es₂ halike
        · rw [if_pos hover₁]
          obtain hiff | hexcused := hrequests.fits
          · exact absurd (hiff.1 hover₁) hover₂
          · exact .excused₁ (excused_refuse hX hexcused e₁ es₁)
      · by_cases hover₂ : kMaxJsonLineBytes < request₂.length
        · rw [if_pos hover₂]
          obtain hiff | hexcused := hrequests.fits
          · exact absurd (hiff.2 hover₂) hover₁
          · exact .excused₂ (excused_refuse hX hexcused e₂ es₂)
        · rw [if_neg hover₁, if_neg hover₂]
          exact meet_exchange h (.sends (by simp)) (.sends (by simp)) halike

end Couple

end Requests

end HermitMiner
