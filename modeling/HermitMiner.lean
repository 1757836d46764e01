import HermitMiner.Bytes
import HermitMiner.Checked
import HermitMiner.Cli
import HermitMiner.Config
import HermitMiner.Config.Grammar
import HermitMiner.Config.Json
import HermitMiner.Config.Keys
import HermitMiner.Config.Load
import HermitMiner.Digest.Standard
import HermitMiner.Env
import HermitMiner.FakePool
import HermitMiner.Framing.Lines
import HermitMiner.Job
import HermitMiner.Logger
import HermitMiner.Main
import HermitMiner.Mine
import HermitMiner.Observation
import HermitMiner.Oracle.Basic
import HermitMiner.Oracle.Couple
import HermitMiner.Oracle.Drain
import HermitMiner.Oracle.Final
import HermitMiner.Oracle.History
import HermitMiner.Oracle.Legal
import HermitMiner.Oracle.Live
import HermitMiner.Oracle.Path
import HermitMiner.Oracle.Rounds
import HermitMiner.Regex.Matches
import HermitMiner.Regex.Replace
import HermitMiner.Regex.Search
import HermitMiner.Rfc8259.Fields
import HermitMiner.Rfc8259.Lexical
import HermitMiner.Rfc8259.Places
import HermitMiner.Rfc8259.Scan
import HermitMiner.Rfc8259.Strings
import HermitMiner.Rfc8259.Text
import HermitMiner.Rfc8259.Unique
import HermitMiner.Rfc8259.Utf8
import HermitMiner.Runtime
import HermitMiner.Sha256
import HermitMiner.Sha256.Checked
import HermitMiner.Stratum.Client
import HermitMiner.Stratum.Codec
import HermitMiner.Striding.Shares
import HermitMiner.Strtoul
import HermitMiner.Verify.Announced
import HermitMiner.Verify.AnyClient
import HermitMiner.Verify.Attribution
import HermitMiner.Verify.Backoff
import HermitMiner.Verify.Bookkeeping
import HermitMiner.Verify.Causal
import HermitMiner.Verify.Client
import HermitMiner.Verify.Composed
import HermitMiner.Verify.Counters
import HermitMiner.Verify.Cycles
import HermitMiner.Verify.Delays
import HermitMiner.Verify.Delivery
import HermitMiner.Verify.Difficulty
import HermitMiner.Verify.Digest
import HermitMiner.Verify.Duplicates
import HermitMiner.Verify.Emission
import HermitMiner.Verify.Escapes
import HermitMiner.Verify.Exchange
import HermitMiner.Verify.Exhaustion
import HermitMiner.Verify.Extraction
import HermitMiner.Verify.FirstNonce
import HermitMiner.Verify.Frame
import HermitMiner.Verify.Grammar
import HermitMiner.Verify.Hex
import HermitMiner.Verify.Identities
import HermitMiner.Verify.JobIds
import HermitMiner.Verify.JobParams
import HermitMiner.Verify.JobTexts
import HermitMiner.Verify.Lasting
import HermitMiner.Verify.Ledger
import HermitMiner.Verify.Load
import HermitMiner.Verify.Lockstep
import HermitMiner.Verify.Loss
import HermitMiner.Verify.MessageFields
import HermitMiner.Verify.Messages
import HermitMiner.Verify.Mine
import HermitMiner.Verify.Notify
import HermitMiner.Verify.Numbers
import HermitMiner.Verify.Objects
import HermitMiner.Verify.Outcome
import HermitMiner.Verify.Overrides
import HermitMiner.Verify.Padding
import HermitMiner.Verify.Pairs
import HermitMiner.Verify.Partition
import HermitMiner.Verify.PlainSecret
import HermitMiner.Verify.PoolCalls
import HermitMiner.Verify.PoolJobs
import HermitMiner.Verify.PoolLines
import HermitMiner.Verify.Program
import HermitMiner.Verify.Prompt
import HermitMiner.Verify.Protocol
import HermitMiner.Verify.QuotedSecret
import HermitMiner.Verify.Ranges
import HermitMiner.Verify.Reading
import HermitMiner.Verify.Redaction
import HermitMiner.Verify.Reliable
import HermitMiner.Verify.Replies
import HermitMiner.Verify.Reporting
import HermitMiner.Verify.Requests
import HermitMiner.Verify.RoundTrip
import HermitMiner.Verify.Script
import HermitMiner.Verify.SearchEnds
import HermitMiner.Verify.Secrecy
import HermitMiner.Verify.Sessions
import HermitMiner.Verify.Shares
import HermitMiner.Verify.Stop
import HermitMiner.Verify.Stoppable
import HermitMiner.Verify.Strict
import HermitMiner.Verify.Verdict
import HermitMiner.Verify.Visible
import HermitMiner.Verify.Wire
import HermitMiner.Verify.Workers
