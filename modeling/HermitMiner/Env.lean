import HermitMiner.Observation
import HermitMiner.Oracle.Basic
import Mathlib.Tactic.Simps.Basic

/-!
# The miner and its environment

The state the client works on, the events with which the operating system, the pool, the clock,
the stop signal and the thread scheduler answer it, and one operation for each call it makes. Every
operation waits for its own event; a stop signal and bytes from the pool can slip in before any of
them. A wait that gets another operation's event goes no further.

* `Stable`: what signals and arriving bytes keep.
* `wp_loadStop`, `wp_tick`, `wp_select`, …: one rule for each operation.
-/

namespace HermitMiner

open Oracle

/-! ## Logging -/

inductive LogLevel where
  | debug
  | info
  | warn
  | err
  deriving DecidableEq

/-- One call of `Logger::log`. -/
structure LogEntry where
  level : LogLevel
  component : Bytes
  nodeId : Bytes
  message : Bytes
  context : Bytes
  deriving DecidableEq

/-! ## State and events -/

structure Env where
  /-- `g_stop_requested`. -/
  stopRequested : Bool := false
  /-- `connected_`. -/
  connected : Bool := false
  /-- `next_id_`, a 64-bit counter that is taken not to wrap. -/
  nextId : Nat := 1
  /-- The bytes on the connection that are not received yet. -/
  inbox : Bytes := []
  log : List LogEntry := []
  /-- What has been observed so far. -/
  trace : List Obs := []
  deriving DecidableEq

/-- What `select` returns. -/
inductive SelectResult where
  | failed
  | idle
  | ready
  deriving DecidableEq

/-- What the environment does next. -/
inductive Event where
  /-- A stop signal arrives. -/
  | signal
  /-- The pool puts bytes on the connection. -/
  | arrive (bytes : Bytes)
  /-- The load of the stop flag that is due takes place. -/
  | load
  /-- `getaddrinfo` returns so many addresses; it fails with none. -/
  | resolve (addresses : Nat)
  /-- `socket` and `connect` on the next address succeed or not. -/
  | dial (ok : Bool)
  /-- `send` takes so many bytes; with 0 it returned no positive number. -/
  | send (count : Nat)
  /-- The clock is compared with a deadline. -/
  | tick (expired : Bool)
  | select (result : SelectResult)
  /-- `recv` returns a byte or fails. -/
  | recv (ok : Bool)
  /-- A worker takes its next step. -/
  | worker (tid : Nat)
  /-- The reporting loop takes its next step; the texts of elapsed seconds and hashes a second. -/
  | reporter (sec hps : Bytes)
  /-- The session's age, and the text of `accepted_per_min`. -/
  | clock (durationSec : Nat) (acceptedPerMin : Bytes)
  | openFile (ok : Bool)
  /-- A sleep ends. -/
  | wake
  deriving DecidableEq

abbrev Sys (α : Type) : Type := Proc Env Event α

namespace Env

/-- What the history says of the current connection. -/
def conn (e : Env) : Connection := connection e.trace

@[simps] def observe (e : Env) (o : Obs) : Env := { e with trace := e.trace ++ [o] }

/-- A signal handler ran. -/
@[simps!] def signal (e : Env) : Env := { e.observe .signal with stopRequested := true }

/-- The pool put bytes on the connection. -/
@[simps!] def arrive (e : Env) (bytes : Bytes) : Env :=
  { e.observe (.arrived bytes) with inbox := e.inbox ++ bytes }

/-- A byte was received, and `rest` is left. -/
@[simps!] def pop (e : Env) (c : UInt8) (rest : Bytes) : Env :=
  { e.observe (.received c) with inbox := rest }

/-- A new connection. -/
@[simps!] def connect (e : Env) : Env :=
  { e.observe .connected with connected := true, inbox := [] }

/-- `connected_ = false`. -/
@[simps] def disconnect (e : Env) : Env := { e with connected := false }

/-- `next_id_++`. -/
@[simps] def takeId (e : Env) : Env := { e with nextId := e.nextId + 1 }

/-- A new client: it is not connected, and numbers its requests from 1. -/
@[simps] def newClient (e : Env) : Env := { e with connected := false, nextId := 1 }

@[simps] def addLog (e : Env) (entry : LogEntry) : Env := { e with log := e.log ++ [entry] }

@[simp] theorem conn_observe (e : Env) (o : Obs) : (e.observe o).conn = e.conn.step o :=
  connection_concat e.trace o

@[simp] theorem conn_signal (e : Env) : e.signal.conn = e.conn := connection_concat e.trace .signal

@[simp] theorem conn_arrive (e : Env) (bytes : Bytes) :
    (e.arrive bytes).conn = e.conn.step (.arrived bytes) := connection_concat e.trace _

@[simp] theorem conn_pop (e : Env) (c : UInt8) (rest : Bytes) :
    (e.pop c rest).conn = e.conn.receive c := connection_concat e.trace (.received c)

@[simp] theorem conn_connect (e : Env) : e.connect.conn = {} := connection_concat e.trace .connected

@[simp] theorem conn_disconnect (e : Env) : e.disconnect.conn = e.conn := rfl

@[simp] theorem conn_takeId (e : Env) : e.takeId.conn = e.conn := rfl

@[simp] theorem conn_newClient (e : Env) : e.newClient.conn = e.conn := rfl

@[simp] theorem conn_addLog (e : Env) (entry : LogEntry) : (e.addLog entry).conn = e.conn := rfl

end Env

/-- What happens without the miner's doing. -/
def async : Event → Option (Env → Env)
  | .signal => some Env.signal
  | .arrive bytes => some fun e => e.arrive bytes
  | _ => none

/-! ## Operations -/

def await : Sys Event := Proc.await async

def observe (o : Obs) : Sys Unit := Proc.modify fun e => e.observe o

/-- `connected_ = false`. -/
def disconnect : Sys Unit := Proc.modify Env.disconnect

/-- `logger.log(level, component, node_id, message, context)`. -/
def log (level : LogLevel) (component nodeId message context : Bytes) : Sys Unit :=
  Proc.modify fun e => e.addLog ⟨level, component, nodeId, message, context⟩

/-- `stop_requested.load()`. -/
def loadStop : Sys Bool := do
  match ← await with
  | .load => return (← Proc.get).stopRequested
  | _ => Proc.halt

/-- `getaddrinfo`. -/
def resolve : Sys Nat := do
  match ← await with
  | .resolve addresses => return addresses
  | _ => Proc.halt

/-- `socket` and `connect` on one address. -/
def dial : Sys Bool := do
  match ← await with
  | .dial ok => return ok
  | _ => Proc.halt

/-- `send`: how many of the bytes it took, none on an error. -/
def send (bytes : Bytes) : Sys Nat := do
  match ← await with
  | .send count =>
    if count = 0 then
      observe .sendFailed
      return 0
    else if count ≤ bytes.length then
      observe (.wrote (bytes.take count))
      return count
    else Proc.halt
  | _ => Proc.halt

/-- `now() < deadline`. -/
def tick (deadline : Deadline) : Sys Bool := do
  match ← await with
  | .tick expired =>
    if expired then
      observe (.expired deadline)
      return false
    else return true
  | _ => Proc.halt

def select : Sys SelectResult := do
  match ← await with
  | .select result =>
    if result = .failed then observe .selectFailed
    return result
  | _ => Proc.halt

/-- `recv` of one byte. -/
def recv : Sys (Option UInt8) := do
  match ← await with
  | .recv true =>
    match (← Proc.get).inbox with
    | c :: rest =>
      Proc.modify fun e => e.pop c rest
      return some c
    | [] => Proc.halt
  | .recv false =>
    observe .recvFailed
    return none
  | _ => Proc.halt

/-- `now() - stats.started_at` in seconds, and `accepted_per_min` as it is printed. -/
def clock : Sys (Nat × Bytes) := do
  match ← await with
  | .clock durationSec acceptedPerMin => return (durationSec, acceptedPerMin)
  | _ => Proc.halt

/-- `std::ofstream out(...); out.is_open()`. -/
def openFile : Sys Bool := do
  match ← await with
  | .openFile ok => return ok
  | _ => Proc.halt

/-- `std::this_thread::sleep_for`, of seconds. -/
def sleepFor (sec : UInt32) : Sys Unit := do
  match ← await with
  | .wake => observe (.slept sec)
  | _ => Proc.halt

/-! ## Every operation waits for an event -/

section Eats

theorem eats_await : Proc.Eats await := Proc.eats_await async

theorem eats_loadStop : Proc.Eats loadStop := eats_await.bind _

theorem eats_send (bytes : Bytes) : Proc.Eats (send bytes) := eats_await.bind _

theorem eats_tick (deadline : Deadline) : Proc.Eats (tick deadline) := eats_await.bind _

end Eats

/-! ## Rules -/

/-- Signals and arriving bytes keep `I`. -/
structure Stable (I : Env → Prop) : Prop where
  signal : ∀ {e}, I e → I e.signal
  arrive : ∀ {e} bytes, I e → I (e.arrive bytes)

theorem Stable.and {I J : Env → Prop} (hI : Stable I) (hJ : Stable J) :
    Stable fun e => I e ∧ J e :=
  ⟨fun h => ⟨hI.signal h.1, hJ.signal h.2⟩, fun b h => ⟨hI.arrive b h.1, hJ.arrive b h.2⟩⟩

section Rules

variable {α : Type} {I : Env → Prop} {R : Env → Prop} {e : Env} (hI : Stable I)
include hI

theorem wp_awaitEvent {Q : Event → Env → Prop} (h : I e) (hR : ∀ e, I e → R e)
    (hQ : ∀ ev e, I e → Q ev e) : wp await Q R e := by
  refine wp_await h ?_ hQ hR
  intro ev f hf s hs
  cases ev with
  | signal =>
    obtain rfl : Env.signal = f := by simpa [async] using hf
    exact hI.signal hs
  | arrive bytes =>
    obtain rfl : (fun e => Env.arrive e bytes) = f := by simpa [async] using hf
    exact hI.arrive bytes hs
  | _ => simp [async] at hf

theorem wp_loadStop {Q : Bool → Env → Prop} (h : I e) (hR : ∀ e, I e → R e)
    (hQ : ∀ e, I e → Q e.stopRequested e) : wp loadStop Q R e := by
  refine wp_bind (wp_awaitEvent hI h hR ?_)
  intro ev e he
  cases ev with
  | load => exact wp_read (wp_pure (hQ e he))
  | _ => exact wp_halt (hR e he)

theorem wp_resolve {Q : Nat → Env → Prop} (h : I e) (hR : ∀ e, I e → R e)
    (hQ : ∀ n e, I e → Q n e) : wp resolve Q R e := by
  refine wp_bind (wp_awaitEvent hI h hR ?_)
  intro ev e he
  cases ev with
  | resolve n => exact wp_pure (hQ n e he)
  | _ => exact wp_halt (hR e he)

theorem wp_dial {Q : Bool → Env → Prop} (h : I e) (hR : ∀ e, I e → R e)
    (hQ : ∀ b e, I e → Q b e) : wp dial Q R e := by
  refine wp_bind (wp_awaitEvent hI h hR ?_)
  intro ev e he
  cases ev with
  | dial b => exact wp_pure (hQ b e he)
  | _ => exact wp_halt (hR e he)

theorem wp_send {bytes : Bytes} {Q : Nat → Env → Prop} (h : I e) (hR : ∀ e, I e → R e)
    (hfail : ∀ e, I e → Q 0 (e.observe .sendFailed))
    (hQ : ∀ n e, I e → 0 < n → n ≤ bytes.length → Q n (e.observe (.wrote (bytes.take n)))) :
    wp (send bytes) Q R e := by
  refine wp_bind (wp_awaitEvent hI h hR ?_)
  intro ev e he
  cases ev with
  | send n =>
    refine wp_ite ?_ fun hn => wp_ite ?_ fun _ => wp_halt (hR e he)
    · intro hn
      exact wp_update (wp_pure (hfail e he))
    · intro hle
      exact wp_update (wp_pure (hQ n e he (Nat.pos_of_ne_zero hn) hle))
  | _ => exact wp_halt (hR e he)

theorem wp_tick {deadline : Deadline} {Q : Bool → Env → Prop} (h : I e) (hR : ∀ e, I e → R e)
    (hon : ∀ e, I e → Q true e) (hoff : ∀ e, I e → Q false (e.observe (.expired deadline))) :
    wp (tick deadline) Q R e := by
  refine wp_bind (wp_awaitEvent hI h hR ?_)
  intro ev e he
  cases ev with
  | tick expired =>
    refine wp_ite (fun _ => ?_) fun _ => wp_pure (hon e he)
    exact wp_update (wp_pure (hoff e he))
  | _ => exact wp_halt (hR e he)

theorem wp_select {Q : SelectResult → Env → Prop} (h : I e) (hR : ∀ e, I e → R e)
    (hfailed : ∀ e, I e → Q .failed (e.observe .selectFailed)) (hidle : ∀ e, I e → Q .idle e)
    (hready : ∀ e, I e → Q .ready e) : wp select Q R e := by
  refine wp_bind (wp_awaitEvent hI h hR ?_)
  intro ev e he
  cases ev with
  | select result =>
    cases result with
    | failed => exact wp_update (wp_pure (hfailed e he))
    | idle => exact wp_pure (hidle e he)
    | ready => exact wp_pure (hready e he)
  | _ => exact wp_halt (hR e he)

theorem wp_recv {Q : Option UInt8 → Env → Prop} (h : I e) (hR : ∀ e, I e → R e)
    (hfail : ∀ e, I e → Q none (e.observe .recvFailed))
    (hQ : ∀ c rest e, I e → e.inbox = c :: rest → Q (some c) (e.pop c rest)) :
    wp recv Q R e := by
  refine wp_bind (wp_awaitEvent hI h hR ?_)
  intro ev e he
  cases ev with
  | recv ok =>
    cases ok with
    | false => exact wp_update (wp_pure (hfail e he))
    | true =>
      apply wp_read
      cases hin : e.inbox with
      | nil => exact wp_halt (hR e he)
      | cons c rest => exact wp_update (wp_pure (hQ c rest e he hin))
  | _ => exact wp_halt (hR e he)

theorem wp_clock {Q : Nat × Bytes → Env → Prop} (h : I e) (hR : ∀ e, I e → R e)
    (hQ : ∀ p e, I e → Q p e) : wp clock Q R e := by
  refine wp_bind (wp_awaitEvent hI h hR ?_)
  intro ev e he
  cases ev with
  | clock d a => exact wp_pure (hQ (d, a) e he)
  | _ => exact wp_halt (hR e he)

theorem wp_openFile {Q : Bool → Env → Prop} (h : I e) (hR : ∀ e, I e → R e)
    (hQ : ∀ b e, I e → Q b e) : wp openFile Q R e := by
  refine wp_bind (wp_awaitEvent hI h hR ?_)
  intro ev e he
  cases ev with
  | openFile b => exact wp_pure (hQ b e he)
  | _ => exact wp_halt (hR e he)

theorem wp_sleepFor {sec : UInt32} {Q : Unit → Env → Prop} (h : I e) (hR : ∀ e, I e → R e)
    (hQ : ∀ e, I e → Q () (e.observe (.slept sec))) : wp (sleepFor sec) Q R e := by
  refine wp_bind (wp_awaitEvent hI h hR ?_)
  intro ev e he
  cases ev with
  | wake => exact wp_modify (hQ e he)
  | _ => exact wp_halt (hR e he)

end Rules

end HermitMiner
