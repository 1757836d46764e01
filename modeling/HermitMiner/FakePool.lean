import HermitMiner.Config
import HermitMiner.Stratum.Codec

/-!
# The fake pool

The test pool of `src/fake_pool.cpp`: how its loop reads a request, and what it answers.

* `FakePool.handler`: the tests on the method, in their order.
* `FakePool.serve`: one pass of the loop.
* `FakePool.Server`: the loop on its connection, byte by byte.
-/

namespace HermitMiner

namespace FakePool

open Regex (search)

/-! ## Reading a request -/

def parseId (json : Bytes) : Nat :=
  match search idPattern json with
  | some [digits] => (stoull digits).getD 0
  | _ => 0

/-- The methods that the loop knows. -/
inductive Method where
  | subscribe
  | authorize
  | submit
  deriving DecidableEq

def Method.name : Method → Bytes
  | .subscribe => str "mining.subscribe"
  | .authorize => str "mining.authorize"
  | .submit => str "mining.submit"

/-- The text that tells the method of a line. -/
def Method.member (m : Method) : Bytes := str "\"method\":\"" ++ m.name ++ str "\""

/-- The branch that the loop takes for a line. -/
def handler (line : Bytes) : Option Method :=
  if contains line Method.subscribe.member then some .subscribe
  else if contains line Method.authorize.member then some .authorize
  else if contains line Method.submit.member then some .submit
  else none

/-! ## Answering it -/

def jsonResp (id : Nat) (result : Bytes) (error : Bytes := str "null") : Bytes :=
  str "\x7b\"id\":" ++ dec id ++ str ",\"result\":" ++ result ++ str ",\"error\":" ++ error
    ++ str "\x7d"

def notify (jobSeq : UInt32) : Bytes :=
  str "\x7b\"id\":null,\"method\":\"mining.notify\",\"params\":[\"job-" ++ dec jobSeq.toNat
    ++ str "\",\"offline-job-" ++ dec jobSeq.toNat ++ str "\",20,true]\x7d"

/-- The variables of the loop. -/
structure State where
  notified : Bool := false
  jobSeq : UInt32 := 1
  deriving DecidableEq

/-- One pass of the loop: the lines it sends for the line it received. -/
def serve (s : State) (line : Bytes) : State × List Bytes :=
  let id := parseId line
  match handler line with
  | some .subscribe =>
    (s, [jsonResp id (str "[[\"mining.notify\",\"deadbeef\"],\"abcdef01\",4]")])
  | some .authorize =>
    if s.notified then (s, [jsonResp id (str "true")])
    else ({ s with notified := true }, [jsonResp id (str "true"), notify s.jobSeq])
  | some .submit =>
    let s := { s with jobSeq := s.jobSeq + 1 }
    (s, [jsonResp id (str "true"), notify s.jobSeq])
  | none => (s, [jsonResp id (str "false") (str "[20,\"unknown method\",null]")])

/-! ## The connection -/

/-- `out` of `send_line`. -/
def lineOut (line : Bytes) : Bytes := line ++ [ch '\n']

/-- The loop, and what it has in hand: of the line that `receive_line` reads, and of the lines that
`send_line` sends. -/
structure Server extends State where
  line : Bytes := []
  sending : Bytes := []
  deriving DecidableEq

/-- `recv` returned a byte to `receive_line`. -/
def Server.receive (s : Server) (c : UInt8) : Server :=
  if c = ch '\n' then
    let (state, lines) := serve s.toState s.line
    { toState := state, sending := s.sending ++ lines.flatMap lineOut }
  else if c ≠ ch '\r' then { s with line := s.line ++ [c] }
  else s

/-- The state of the loop when it has received these bytes, if it has sent nothing. -/
def serverAfter (received : Bytes) : Server := received.foldl Server.receive {}

/-- All that the loop sends for these bytes. -/
def poolOutput (received : Bytes) : Bytes := (serverAfter received).sending

end FakePool

end HermitMiner
