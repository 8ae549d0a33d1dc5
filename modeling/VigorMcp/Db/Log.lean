import VigorMcp.Js.Value

/-!
# Log entries

What is submitted to the log store: one `LogEntry` for each request and one
`WriteAuditEntry` for each write call, as the callers write them. A field that
may be absent is an `Option`; the store writes `NULL` for it.
-/

namespace VigorMcp

inductive CommandKind where
  | read | write
  deriving DecidableEq, Repr

inductive RequestOutcome where
  | ok | error | needsConfirmation | denied
  deriving DecidableEq, Repr

inductive WriteStatus where
  | preview | confirmed | executed | failed | expired | mismatch | denied
  deriving DecidableEq, Repr

inductive CommitStatus where
  | ok | failed | skipped
  deriving DecidableEq, Repr

/-- The ISO 8601 text of a time, by the time. -/
structure IsoTime where
  ms : Int
  deriving DecidableEq

def iso (ms : Int) : IsoTime := ⟨ms⟩

/-- Timing of the most recent command interaction. -/
structure CommandTiming where
  sendAt : Int
  recvAt : Int
  connectMs : Int
  deriving DecidableEq

structure LogEntry where
  toolId : JStr
  kind : CommandKind
  command : JStr
  argsJson : JStr
  outcome : RequestOutcome
  errorCode : Option JStr
  errorMsg : Option JStr
  durationMs : Int
  output : Option JStr
  requestedAt : Option IsoTime
  respondedAt : Option IsoTime
  sendAt : Option IsoTime
  recvAt : Option IsoTime
  connectMs : Option Int
  deriving DecidableEq

structure WriteAuditEntry where
  requestId : Option Nat
  toolId : JStr
  command : JStr
  status : WriteStatus
  success : Option Bool
  beforeSnapshot : Option JStr
  afterSnapshot : Option JStr
  errorCode : Option JStr
  errorMsg : Option JStr
  commitStatus : Option CommitStatus
  deriving DecidableEq

end VigorMcp
