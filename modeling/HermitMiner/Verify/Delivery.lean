import HermitMiner.Verify.Bookkeeping
import HermitMiner.Verify.Script

/-!
# Lines and jobs on their way from the pool to the miner

* `lines_handed_iff`: when the lines handed on are the lines of the pool's stream.
* `jobs_delivered_iff`: when every job that the pool has announced is delivered.
-/

namespace HermitMiner

open Oracle

/-! ## Lines -/

/-- What the pool put on the connection was received in order, up to what is still to be received,
and the lines handed on are the lines of what was received. -/
def FramedWhole (e : Env) : Prop :=
  e.conn.arrived.flatten = e.conn.received ++ e.inbox ∧
    e.conn.handed = streamLines e.conn.received

/-- **Framing of the pool's stream**: the lines that `receive_line` has handed on are the lines of
the stream exactly when no deadline expired in one of them after its first byte. -/
theorem lines_handed_iff (cfg : MinerConfig) (events : List Event) :
    FramedWhole ((runStratumLoop cfg).run {} events).state.env ↔
      ∀ seg ∈ Framing.completed (ch '\n')
          ((runStratumLoop cfg).run {} events).state.env.conn.rx, Framing.Intact isCR seg := by
  have hbooks := run_ledger cfg events
  set e := ((runStratumLoop cfg).run {} events).state.env
  have hlines : e.conn.readings.map Reading.held =
      (Framing.read (ch '\n') isCR e.conn.rx).lines := by
    rw [e.wellRead.held]
  rw [FramedWhole, hbooks.handed, hlines, ← Framing.read_lines_eq_iff]
  exact and_iff_right hbooks.stream

/-- The pool's answer to the first request arrives in two pieces, more than a second apart. -/
def splitLineScript : List Event :=
  [.load, .resolve 1, .dial true, .send ((subscribeRequest 1 userAgent).length + 1)]
    ++ sayScript (str "ab") ++ [.tick false] ++ readScript 1 ++ [.tick true, .tick false]
    ++ readScript 2

/-- Of the line `ab` only the tail `b` is handed on. -/
theorem lines_handed_cut :
    ¬∀ cfg events, FramedWhole ((runStratumLoop cfg).run {} events).state.env := by
  intro h
  obtain ⟨-, hhanded⟩ := h scriptConfig splitLineScript
  revert hhanded
  decide +kernel

/-! ## Jobs -/

theorem filterMap_eq_filterMap_iff {α β : Type} {f g : α → Option β} (l : List α)
    (hfg : ∀ x ∈ l, (f x).isSome → (g x).isSome) :
    l.filterMap f = l.filterMap g ↔ ∀ x ∈ l, (g x).isSome → f x = g x := by
  have hlength : ∀ l : List α, (∀ x ∈ l, (f x).isSome → (g x).isSome) →
      (l.filterMap f).length ≤ (l.filterMap g).length := by
    intro l
    induction l with
    | nil => exact fun _ => Nat.le_refl _
    | cons x l ih =>
      intro h
      have hx := h x List.mem_cons_self
      have hl := ih fun y hy => h y (List.mem_cons_of_mem x hy)
      cases hf : f x with
      | none => cases hg : g x <;> simp [hf, hg] <;> omega
      | some a =>
        obtain ⟨b, hb⟩ := Option.isSome_iff_exists.1 (hx (by simp [hf]))
        simpa [List.filterMap_cons, hf, hb] using hl
  induction l with
  | nil => simp
  | cons x l ih =>
    have hx := hfg x List.mem_cons_self
    have htail : ∀ y ∈ l, (f y).isSome → (g y).isSome :=
      fun y hy => hfg y (List.mem_cons_of_mem x hy)
    rw [List.forall_mem_cons]
    refine Iff.trans ?_ (and_congr_right fun _ => ih htail)
    cases hf : f x with
    | none =>
      cases hg : g x with
      | none => simp [hf, hg]
      | some b =>
        -- one job more on the right, and none more on the left
        have hle := hlength l htail
        simp only [List.filterMap_cons, hf, hg, Option.isSome_some, forall_const, reduceCtorEq,
          false_and, iff_false]
        intro heq
        rw [heq, List.length_cons] at hle
        omega
    | some a =>
      obtain ⟨b, hb⟩ := Option.isSome_iff_exists.1 (hx (by simp [hf]))
      simp [hf, hb]

/-- What the pool put on the connection was received in order, up to what is still to be received,
and every job announced in what was received was delivered, in order. -/
def NoJobLost (e : Env) : Prop :=
  e.conn.arrived.flatten = e.conn.received ++ e.inbox ∧
    e.conn.delivered = (streamLines e.conn.received).filterMap parseNotify

/-- **Jobs**: every job announced is delivered, in order, exactly when every line that announces
one reaches its end outside a request, and says the same without what a deadline cut off. -/
theorem jobs_delivered_iff (cfg : MinerConfig) (events : List Event) :
    NoJobLost ((runStratumLoop cfg).run {} events).state.env ↔
      ∀ r ∈ ((runStratumLoop cfg).run {} events).state.env.conn.readings,
        (parseNotify r.whole).isSome →
          r.awaiting = false ∧ parseNotify r.held = parseNotify r.whole := by
  have hbooks := run_ledger cfg events
  set e := ((runStratumLoop cfg).run {} events).state.env
  have hread := e.wellRead
  have hdelivered := hbooks.delivered
  rw [List.append_nil] at hdelivered
  have hlines : (streamLines e.conn.received).filterMap parseNotify =
      e.conn.readings.filterMap fun r => parseNotify r.whole := by
    rw [← hread.lines, List.filterMap_map]
    rfl
  have hmono : ∀ r ∈ e.conn.readings, r.notice.isSome → (parseNotify r.whole).isSome := by
    intro r hr hnotice
    apply parseNotify_mono (hread.suffixes r hr)
    unfold Reading.notice at hnotice
    split at hnotice
    · cases hnotice
    · exact hnotice
  rw [NoJobLost, hdelivered, hlines, filterMap_eq_filterMap_iff _ hmono]
  refine (and_iff_right hbooks.stream).trans (forall₂_congr fun r _ => imp_congr_right ?_)
  intro hsome
  unfold Reading.notice
  cases r.awaiting with
  | true =>
    simp only [if_true, reduceCtorEq, false_and, iff_false]
    intro hnone
    rw [← hnone] at hsome
    cases hsome
  | false => simp

/-- The pool announces a job before it answers the first request. -/
def earlyJobScript : List Event :=
  [.load, .resolve 1, .dial true, .send ((subscribeRequest 1 userAgent).length + 1)]
    ++ sayScript easyNotify ++ [.tick false] ++ readScript (easyNotify.length + 1)

/-- The job is read and dropped. -/
theorem jobs_delivered_dropped :
    ¬∀ cfg events, NoJobLost ((runStratumLoop cfg).run {} events).state.env := by
  intro h
  obtain ⟨-, hdelivered⟩ := h scriptConfig earlyJobScript
  revert hdelivered
  decide +kernel

end HermitMiner
