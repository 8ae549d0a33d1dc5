import VigorMcp.Db.Log
import VigorMcp.Lib.Interaction
import VigorMcp.Lib.Tables

/-!
# The log store

`LogStore` keeps requests and write audits in two tables. Its constructor makes
the tables where they are missing, adds the columns that older databases do not
have, and prepares the two inserts; if one of the steps it needs fails, logging
is off and the server goes on without it. An insert that fails is swallowed.

`openStore` is the constructor as a program over the database calls it makes, and
`setup` answers them from a database, with calls that fail for reasons of their
own (`faults`).
-/

namespace VigorMcp

open Prog

/-- What a cell holds; a time stands for its ISO 8601 text. -/
inductive SqlValue where
  | text (s : JStr)
  | integer (i : Int)
  | time (t : IsoTime)
  deriving DecidableEq

abbrev Database := Tables JStr SqlValue

namespace LogStore

/-! ## The schema -/

def required (name : JStr) : Column JStr := ⟨name, true⟩

def optional (name : JStr) : Column JStr := ⟨name, false⟩

def requests : JStr := js "requests"

def writeAudit : JStr := js "write_audit"

/-- The columns of `requests` that no migration adds. -/
def requestBase : List (Column JStr) :=
  [required (js "ts"), required (js "tool_id"), required (js "kind"), required (js "command"),
    required (js "args_json"), required (js "outcome"), optional (js "error_code"),
    optional (js "error_msg"), required (js "duration_ms"), optional (js "output")]

def requestAdded : List JStr :=
  [js "requested_at", js "responded_at", js "send_at", js "recv_at", js "connect_ms"]

def auditBase : List (Column JStr) :=
  [optional (js "request_id"), required (js "ts"), required (js "tool_id"), required (js "command"),
    required (js "status"), optional (js "success"), optional (js "before_snapshot"),
    optional (js "after_snapshot"), optional (js "error_code"), optional (js "error_msg")]

def auditAdded : List JStr := [js "commit_status"]

def schema : List (Statement JStr) :=
  [.pragma,
    .createTable requests (requestBase ++ requestAdded.map optional),
    .createIndex (js "idx_requests_ts") requests (js "ts"),
    .createIndex (js "idx_requests_tool") requests (js "tool_id"),
    .createTable writeAudit (auditBase ++ auditAdded.map optional),
    .createIndex (js "idx_write_audit_ts") writeAudit (js "ts")]

/-- Column migrations for databases created before a column existed. -/
def migrations : List (Statement JStr) :=
  [.addColumn writeAudit (js "commit_status"),
    .addColumn requests (js "requested_at"),
    .addColumn requests (js "responded_at"),
    .addColumn requests (js "send_at"),
    .addColumn requests (js "recv_at"),
    .addColumn requests (js "connect_ms")]

/-- The index on a migrated column. -/
def sendIndex : Statement JStr := .createIndex (js "idx_requests_send") requests (js "send_at")

def insertRequestColumns : List JStr :=
  [js "ts", js "tool_id", js "kind", js "command", js "args_json", js "outcome", js "error_code",
    js "error_msg", js "duration_ms", js "output", js "requested_at", js "responded_at", js "send_at",
    js "recv_at", js "connect_ms"]

def insertAuditColumns : List JStr :=
  [js "request_id", js "ts", js "tool_id", js "command", js "status", js "success",
    js "before_snapshot", js "after_snapshot", js "error_code", js "error_msg", js "commit_status"]

/-! ## Opening -/

inductive SetupOp where
  | mkdir
  | openDatabase
  | chmod
  | exec (statement : Statement JStr)
  | prepare (table : JStr) (columns : List JStr)

/-- The calls of the constructor; the answer says whether the call succeeded. -/
@[reducible] def setupCalls : Interface where
  Op := SetupOp
  Ans _ := Bool

/-- A part of the constructor; what it throws is only reported. -/
abbrev Setup (α : Type) := Prog setupCalls Unit α

def attempt (o : SetupOp) : Setup Unit := do
  let ok ← Prog.op (I := setupCalls) o
  if ok then pure () else throw ()

/-- A call whose failure is swallowed. -/
def besideErrors (o : SetupOp) : Setup Unit := tryCatch (attempt o) fun _ => pure ()

/-- The constructor: whether the store is open when it returns. -/
def openStore : Setup Bool :=
  tryCatch (do
    attempt .mkdir
    attempt .openDatabase
    besideErrors .chmod
    schema.forM fun statement => attempt (.exec statement)
    migrations.forM fun migration => besideErrors (.exec migration)
    besideErrors (.exec sendIndex)
    attempt (.prepare requests insertRequestColumns)
    attempt (.prepare writeAudit insertAuditColumns)
    pure true) fun _ => pure false

structure SetupWorld where
  db : Database
  calls : Nat

/-- The calls on a database, of which the ones that `faults` names fail whatever they are. -/
def setup (faults : Nat → Bool) : Prog.Handler setupCalls SetupWorld
  | o, w =>
    let w' := { w with calls := w.calls + 1 }
    if faults w.calls then (false, w')
    else
      match o with
      | .exec statement =>
        match w.db.run statement with
        | some db => (true, { w' with db := db })
        | none => (false, w')
      | .prepare table columns => (decide (w.db.Prepares table columns), w')
      | _ => (true, w')

/-- `new LogStore(file)` on the database in the file. -/
def opened (faults : Nat → Bool) (db : Database) : Bool × Database :=
  let r := openStore.exec (setup faults) ⟨db, 0⟩
  (match r.result with
    | .ok isOpen => isOpen
    | .error _ => false, r.world.db)

/-- No call fails but for the database's own reasons. -/
def noFaults : Nat → Bool := fun _ => false

/-! ## Logging -/

def outputLimit : Nat := 4000

def truncate (text : JStr) : JStr :=
  if text.length > outputLimit then text.take outputLimit ++ js "\n...[truncated]" else text

/-- `text ? truncate(text) : null`. -/
def truncated (text : Option JStr) : Option SqlValue :=
  match text with
  | none => none
  | some text => if text = [] then none else some (.text (truncate text))

def kindText : CommandKind → JStr
  | .read => js "read"
  | .write => js "write"

def outcomeText : RequestOutcome → JStr
  | .ok => js "ok"
  | .error => js "error"
  | .needsConfirmation => js "needs_confirmation"
  | .denied => js "denied"

def statusText : WriteStatus → JStr
  | .preview => js "preview"
  | .confirmed => js "confirmed"
  | .executed => js "executed"
  | .failed => js "failed"
  | .expired => js "expired"
  | .mismatch => js "mismatch"
  | .denied => js "denied"

def commitText : CommitStatus → JStr
  | .ok => js "ok"
  | .failed => js "failed"
  | .skipped => js "skipped"

/-- What `logRequest` binds, for an entry with the time it is logged at. -/
def requestValues (ts : IsoTime) (e : LogEntry) : List (JStr × Option SqlValue) :=
  insertRequestColumns.zip
    [some (.time ts), some (.text e.toolId), some (.text (kindText e.kind)), some (.text e.command),
      some (.text e.argsJson), some (.text (outcomeText e.outcome)), e.errorCode.map .text,
      e.errorMsg.map .text, some (.integer e.durationMs), truncated e.output,
      e.requestedAt.map .time, e.respondedAt.map .time, e.sendAt.map .time, e.recvAt.map .time,
      e.connectMs.map .integer]

/-- What `logWriteAudit` binds. -/
def auditValues (ts : IsoTime) (e : WriteAuditEntry) : List (JStr × Option SqlValue) :=
  insertAuditColumns.zip
    [e.requestId.map fun (id : Nat) => .integer id, some (.time ts), some (.text e.toolId),
      some (.text e.command), some (.text (statusText e.status)),
      e.success.map fun success => .integer (if success then 1 else 0), truncated e.beforeSnapshot,
      truncated e.afterSnapshot, e.errorCode.map .text, e.errorMsg.map .text,
      e.commitStatus.map fun status => .text (commitText status)]

end LogStore

/-- A store with the database in its file. -/
structure LogStore where
  db : Database
  isOpen : Bool

namespace LogStore

/-- An insert of a prepared statement; `fails` is a failure of the database's own. -/
def insert (s : LogStore) (fails : Bool) (table : JStr) (values : List (JStr × Option SqlValue)) :
    Option Nat × LogStore :=
  if !s.isOpen || fails then (none, s)
  else
    match s.db.insert table values with
    | some (id, db) => (some id, { s with db := db })
    | none => (none, s)

def logRequest (s : LogStore) (fails : Bool) (ts : IsoTime) (e : LogEntry) : Option Nat × LogStore :=
  s.insert fails requests (requestValues ts e)

def logWriteAudit (s : LogStore) (fails : Bool) (ts : IsoTime) (e : WriteAuditEntry) : LogStore :=
  (s.insert fails writeAudit (auditValues ts e)).2

/-- `request`: the log's own time, also for the times the caller leaves open. -/
def request (s : LogStore) (fails : Bool) (now : IsoTime) (e : LogEntry) : Option Nat × LogStore :=
  s.logRequest fails now
    { e with
      respondedAt := some (e.respondedAt.getD now)
      requestedAt := some (e.requestedAt.getD now) }

def close (s : LogStore) : LogStore := { s with isOpen := false }

end LogStore

end VigorMcp
