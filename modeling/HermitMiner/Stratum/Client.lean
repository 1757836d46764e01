import HermitMiner.Env

/-!
# The Stratum client

`StratumClient` of `src/lib/stratum.cpp` (its POSIX branches), function by function.

* `connectToPool`, `sendLine`, `receiveLine`, `requestResponse`
* `subscribe`, `authorize`, `waitForJob`, `submitShare`
-/

namespace HermitMiner

open Oracle

/-- What a `StratumClient` is constructed with; its mutable members are in `Env`. -/
structure StratumClient where
  host : Bytes
  port : UInt16
  nodeId : Bytes
  deriving DecidableEq

namespace StratumClient

/-- `kMaxJsonLineBytes`. -/
def kMaxJsonLineBytes : Nat := 64 * 1024

/-- A call of the client's logger. -/
def logLine (self : StratumClient) (level : LogLevel) (message context : Bytes) : Sys Unit :=
  log level (str "stratum") self.nodeId message context

/-! ## Connecting -/

/-- The loop over the resolved addresses: the first one that accepts a connection. -/
def dialLoop : Nat → Sys Bool
  | 0 => return false
  | addresses + 1 => do
    if ← dial then return true
    else dialLoop addresses

/-- `host_ + ":" + port`. -/
def endpoint (self : StratumClient) : Bytes := self.host ++ str ":" ++ dec self.port.toNat

def connectToPool (self : StratumClient) : Sys Bool := do
  let addrs ← resolve
  if addrs = 0 then
    observe .unreachable
    self.logLine .err (str "Pool host resolution failed") self.endpoint
    return false
  else if ← dialLoop addrs then
    Proc.modify Env.connect
    self.logLine .info (str "Connected to pool") self.endpoint
    return true
  else
    observe .unreachable
    self.logLine .err (str "connect() failed") self.endpoint
    return false

/-! ## Lines -/

/-- One round of the loop of `send_line`, with the bytes that are left. -/
def sendRound (line left : Bytes) : Sys (Bytes ⊕ Bool) := do
  if left = [] then
    observe (.sent line)
    return .inr true
  else
    let sent ← send left
    if sent = 0 then
      disconnect
      return .inr false
    else return .inl (left.drop sent)

def sendLine (self : StratumClient) (line : Bytes) : Sys Bool := do
  if !(← Proc.get).connected then return false
  else if kMaxJsonLineBytes < line.length then
    observe .unsendable
    self.logLine .err (str "Outgoing JSON line exceeds size limit") []
    disconnect
    return false
  else Proc.loop (sendRound line) (line ++ [ch '\n'])

/-- One round of the loop of `receive_line`, with `out_line` so far. -/
def receiveRound (self : StratumClient) (timeoutSec : UInt32) (outLine : Bytes) :
    Sys (Bytes ⊕ Option Bytes) := do
  if ← tick (.line timeoutSec) then
    match ← select with
    | .failed =>
      disconnect
      return .inr none
    | .idle => return .inl outLine
    | .ready =>
      match ← recv with
      | none =>
        disconnect
        return .inr none
      | some c =>
        if c = ch '\n' then
          observe (.handed outLine)
          return .inr (some outLine)
        else if c = ch '\r' then return .inl outLine
        else if kMaxJsonLineBytes ≤ outLine.length then
          observe .overlong
          self.logLine .err (str "Incoming JSON line exceeded size limit") []
          disconnect
          return .inr none
        else return .inl (outLine ++ [c])
  else return .inr none

/-- The line that `receive_line` stores when it returns true. -/
def receiveLine (self : StratumClient) (timeoutSec : UInt32) : Sys (Option Bytes) := do
  if !(← Proc.get).connected then return none
  else Proc.loop (self.receiveRound timeoutSec) []

/-! ## Requests -/

/-- One round of the loop of `request_response`. -/
def responseRound (self : StratumClient) (request : Bytes) (requestId : Nat)
    (timeoutSec : UInt32) (_ : Unit) : Sys (Unit ⊕ Option Bytes) := do
  if ← tick (.request timeoutSec) then
    match ← self.receiveLine 1 with
    | none =>
      if !(← Proc.get).connected then return .inr none
      else return .inl ()
    | some line =>
      if parseMessageId line = some requestId then
        observe (.answered request line)
        return .inr (some line)
      else
        match parseNotify line with
        | some ignoredJob =>
          self.logLine .debug (str "Buffered notify while awaiting response") ignoredJob.jobId
          return .inl ()
        | none => return .inl ()
  else return .inr none

/-- The response that `request_response` stores when it returns true. -/
def requestResponse (self : StratumClient) (request : Bytes) (timeoutSec : UInt32) :
    Sys (Option Bytes) := do
  match parseMessageId request with
  | none =>
    observe .unsendable
    return none
  | some requestId =>
    if ← self.sendLine request then
      Proc.loop (self.responseRound request requestId timeoutSec) ()
    else return none

/-- `next_id_++`. -/
def takeId : Sys Nat := do
  let id := (← Proc.get).nextId
  Proc.modify Env.takeId
  return id

def subscribe (self : StratumClient) (userAgent : Bytes) : Sys Bool := do
  let id ← takeId
  match ← self.requestResponse (subscribeRequest id userAgent) 10 with
  | none =>
    self.logLine .err (str "Subscribe request timed out") []
    return false
  | some resp =>
    if !parseErrorIsNull resp then
      self.logLine .err (str "Subscribe returned error") resp
      return false
    else
      self.logLine .info (str "Subscribe OK") []
      return true

def authorize (self : StratumClient) (username password : Bytes) : Sys Bool := do
  let id ← takeId
  match ← self.requestResponse (authorizeRequest id username password) 10 with
  | none =>
    self.logLine .err (str "Authorize request timed out") []
    return false
  | some resp =>
    if parseBoolResult resp = some true then
      self.logLine .info (str "Authorize OK") username
      return true
    else
      self.logLine .err (str "Authorize rejected") resp
      return false

def submitShare (self : StratumClient) (username jobId : Bytes) (nonce : UInt32) : Sys Bool := do
  let id ← takeId
  let nonceHex := nonceToHex nonce
  match ← self.requestResponse (submitRequest id username jobId nonce) 10 with
  | none =>
    self.logLine .err (str "Submit request timed out") nonceHex
    return false
  | some resp =>
    match parseBoolResult resp with
    | none =>
      self.logLine .err (str "Submit response parse failed") resp
      return false
    | some true =>
      observe (.accepted id jobId nonce)
      self.logLine .info (str "Share accepted") (jobId ++ str ":" ++ nonceHex)
      return true
    | some false =>
      self.logLine .warn (str "Share rejected") resp
      return false

/-! ## Jobs -/

/-- One round of the loop of `wait_for_job`. -/
def jobRound (self : StratumClient) (timeoutSec : UInt32) (_ : Unit) :
    Sys (Unit ⊕ Option StratumJob) := do
  if ← tick (.job timeoutSec) then
    if ← loadStop then
      self.logLine .info (str "Stop requested while waiting for job") []
      return .inr none
    else
      match ← self.receiveLine 1 with
      | none =>
        if !(← Proc.get).connected then
          self.logLine .warn (str "Connection lost while waiting for mining.notify") []
          return .inr none
        else return .inl ()
      | some line =>
        match parseNotify line with
        | some job =>
          observe (.delivered job)
          self.logLine .info (str "Received mining.notify") job.jobId
          return .inr (some job)
        | none => return .inl ()
  else
    self.logLine .warn (str "Timeout waiting for mining.notify") []
    return .inr none

/-- The job that `wait_for_job` stores when it returns true. -/
def waitForJob (self : StratumClient) (timeoutSec : UInt32) : Sys (Option StratumJob) :=
  Proc.loop (self.jobRound timeoutSec) ()

/-! ## The loops of the client are not cut short -/

theorem advances_sendRound (line : Bytes) : Proc.Advances (sendRound line) := by
  intro left s es left' s' es' h
  by_cases hleft : left = []
  · rw [sendRound, if_pos hleft] at h
    cases h
  · rw [sendRound, if_neg hleft] at h
    exact (eats_send left).bind _ s es _ s' es' h

theorem advances_receiveRound (self : StratumClient) (timeoutSec : UInt32) :
    Proc.Advances (self.receiveRound timeoutSec) :=
  .of_eats fun _ => (eats_tick _).bind _

theorem advances_responseRound (self : StratumClient) (request : Bytes) (requestId : Nat)
    (timeoutSec : UInt32) : Proc.Advances (self.responseRound request requestId timeoutSec) :=
  .of_eats fun _ => (eats_tick _).bind _

theorem advances_jobRound (self : StratumClient) (timeoutSec : UInt32) :
    Proc.Advances (self.jobRound timeoutSec) :=
  .of_eats fun _ => (eats_tick _).bind _

end StratumClient

end HermitMiner
