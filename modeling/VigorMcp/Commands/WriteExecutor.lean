import VigorMcp.Commands.RouterCliResult
import VigorMcp.Commands.ToolCalls
import VigorMcp.Lib.Fallible

/-!
# The write executor

Confirm → snapshot → execute → commit → audit for one write tool call.
`executeWriteLocked` is the body that the gate runs exclusively; the functions
it is made of stand in the program's order and under its names.
-/

namespace VigorMcp

/-! ## Log helpers -/

structure LogTiming where
  sendAt : Option IsoTime
  recvAt : Option IsoTime
  connectMs : Option Int

def timingOf : Handling LogTiming := do
  match ← ask .timing with
  | none => return ⟨none, none, none⟩
  | some timing => return ⟨some (iso timing.sendAt), some (iso timing.recvAt), some timing.connectMs⟩

def logWriteOutcome (request : LogEntry) (audit : WriteAuditEntry) (linkRequest : Bool) :
    Handling Unit := do
  let requestId ← ask (.request request)
  ask (.writeAudit { audit with requestId := if linkRequest then requestId else none })

/-- A request row of a write tool, with the columns most exits leave empty. -/
def requestRow (toolId command argsJson : JStr) (outcome : RequestOutcome) (durationMs : Int) :
    LogEntry where
  toolId := toolId
  kind := .write
  command := command
  argsJson := argsJson
  outcome := outcome
  errorCode := none
  errorMsg := none
  durationMs := durationMs
  output := none
  requestedAt := none
  respondedAt := none
  sendAt := none
  recvAt := none
  connectMs := none

/-- An audit row with the columns most exits leave empty. -/
def auditRow (toolId command : JStr) (status : WriteStatus) (success : Option Bool) :
    WriteAuditEntry where
  requestId := none
  toolId := toolId
  command := command
  status := status
  success := success
  beforeSnapshot := none
  afterSnapshot := none
  errorCode := none
  errorMsg := none
  commitStatus := none

/-- Map ConfirmGate error codes onto write_audit status values. -/
def auditDenyStatus (code : JStr) : WriteStatus :=
  if code = js "token_expired" ∨ code = js "expired" then .expired
  else if code = js "mismatch" then .mismatch
  else .denied

/-! ## Snapshots and the commit -/

section

variable (findCommand : JStr → Option CommandDef)

def snapshot (snapshotRead : Option JStr) : Handling (Option JStr) :=
  if snapshotRead.getD [] = [] then return none
  else match snapshotRead.bind findCommand with
    | none => return none
    | some cmd =>
      if cmd.kind ≠ .read then return none
      else tryCatch
        (do
          let raw ← match cmd.sdk with
            | some sdk => do
              let input ← Prog.ofExcept (resolveSdkInput sdk .empty)
              await .snapshot (.runOperation sdk.manifestId input)
            | none => do
              let command ← Prog.ofExcept (cmd.render .empty)
              await .snapshot (.runCommand command)
          return some raw)
        fun _ => return none

def canPersistSnapshots (cmd : CommandDef) : Bool :=
  if cmd.snapshotRead.getD [] = [] then true
  else ((cmd.snapshotRead.bind findCommand).bind CommandDef.sensitiveOutput).getD false ≠ true

end

def syscommit : JStr := js "sys commit"

def runCommit : Handling CommitStatus := do
  let started ← now
  tryCatch
    (do
      ask (.send .runCommit (.authorizeWrite syscommit))
      let raw ← await .runCommit (.runWriteCommand syscommit)
      if isRouterCliFailure raw then
        throw (.error none (js "router rejected commit: " ++ slice (trim raw) 200))
      let ended ← now
      let _ ← ask (.request
        (requestRow (js "sys_commit") syscommit (js "\x7b\x7d") .ok (ended - started)))
      return .ok)
    fun e => do
      let ended ← now
      let _ ← ask (.request
        { requestRow (js "sys_commit") syscommit (js "\x7b\x7d") .error (ended - started) with
          errorCode := errCode e
          errorMsg := some (errMsg e) })
      return .failed

/-! ## One write call -/

structure ExecuteWriteOptions where
  autoCommit : Bool
  signal : Option AbortSignal

/-- `signal?.aborted`. -/
def signalAborted (signal : Option AbortSignal) : Handling Bool :=
  match signal with
  | none => return false
  | some signal => ask (.aborted signal)

def errCancelled : Thrown :=
  .error (some (js "cancelled")) (js "request cancelled before router execution")

def throwIfCancelled (signal : Option AbortSignal) : Handling Unit := do
  if ← signalAborted signal then throw errCancelled

structure PreparedWrite where
  command : JStr
  sdkInput : JsValue
  commandLog : JStr
  redactedFields : List JStr

structure WriteContext extends PreparedWrite, ExecuteWriteOptions where
  cmd : CommandDef
  started : Int
  argsLog : JStr
  cid : Option JStr
  sig : Option JStr
  acknowledge : JsValue

structure PerformedWrite where
  before : Option JStr
  after : Option JStr
  persistSnapshots : Bool
  raw : JStr
  writeTiming : LogTiming
  commitStatus : CommitStatus

inductive FinalStatus where
  | done | commitFailed
  deriving DecidableEq

/-- What a write call returns. -/
inductive WriteBody where
  | needsConfirmation (preview : JStr) (redactedFields : List JStr) (created : CreateIntentResult)
      (signPayload : JStr) (affectsNetwork : Bool) (confirmTier : ConfirmTier) (dangerous : Bool)
      (message note : JStr)
  | finished (status : FinalStatus) (command : JStr) (before after : Option JStr) (output : JStr)
      (commit : CommitStatus)

def WriteBody.isPreview : WriteBody → Bool
  | .needsConfirmation .. => true
  | .finished .. => false

def CommandDef.secrets (cmd : CommandDef) : List JStr := cmd.secretArgs.getD []

/-- The tier the executor enforces: a write never runs as `auto`. -/
def CommandDef.tier (cmd : CommandDef) : ConfirmTier :=
  if cmd.confirm = some .auto then .confirm else cmd.confirm.getD .confirm

def confirmMessage (commandLog : JStr) (cmd : CommandDef) (ttlMs : Int) : JStr :=
  let impact := if cmd.affectsNetwork.getD false then js "network-affecting"
    else js "configuration change"
  let danger := if cmd.confirm = some .dual then
      js "\n⚠️ **DUAL confirm** — requires acknowledge: true in addition to a valid approval signature (can drop connectivity, lock out management, or reboot)."
    else []
  join (js "\n")
    [js "🛑 **Router write — cryptographic approval required**", [],
      js "The assistant wants to execute this on the router:", [],
      js "```\n" ++ commandLog ++ js "\n```", [],
      js "• Type: write / " ++ impact ++ js " / confirm=" ++ (cmd.confirm.getD .confirm).text,
      js "• Sign the returned payload with your approve private key (`node tools/approve.mjs …`).",
      js "• The signature is single-use and bound to this exact command digest (expires in " ++
        decimal ((ttlMs + 500) / 1000) ++ js " seconds).",
      danger, [],
      js "Reply is not enough — paste the signature into the next tool call as `signature`."]

def prepareWrite (cmd : CommandDef) (args : Args) : Except Thrown PreparedWrite := do
  let command ← cmd.render args
  let redacted ← redactCommand command args cmd.secrets
  let sdkInput ← match cmd.sdk with
    | some sdk => resolveSdkInput sdk args
    | none => .ok .undefined
  return ⟨command, sdkInput, redacted.preview, redacted.fields⟩

/-- What a prepared write is made of. -/
theorem prepareWrite_eq_ok {cmd : CommandDef} {args : Args} {p : PreparedWrite} :
    prepareWrite cmd args = .ok p ↔ cmd.render args = .ok p.command ∧
      redactCommand p.command args cmd.secrets = .ok ⟨p.commandLog, p.redactedFields⟩ ∧
      (cmd.sdk.elim (.ok .undefined) fun sdk => resolveSdkInput sdk args) = .ok p.sdkInput := by
  unfold prepareWrite
  cases cmd.sdk with
  | none =>
    simp only [Except.bind_eq_ok, Except.pure_eq_ok, Option.elim_none]
    constructor
    · rintro ⟨command, hc, r, hr, input, hi, rfl⟩
      exact ⟨hc, hr, hi⟩
    · rintro ⟨hc, hr, hi⟩
      exact ⟨_, hc, _, hr, _, hi, rfl⟩
  | some sdk =>
    simp only [Except.bind_eq_ok, Except.pure_eq_ok, Option.elim_some]
    constructor
    · rintro ⟨command, hc, r, hr, input, hi, rfl⟩
      exact ⟨hc, hr, hi⟩
    · rintro ⟨hc, hr, hi⟩
      exact ⟨_, hc, _, hr, _, hi, rfl⟩

def recordPreparationFailure (cmd : CommandDef) (argsLog : JStr) (started : Int) (error : Thrown) :
    Handling Unit := do
  let code := (errCode error).getD (js "invalid")
  let message := errMsg error
  let ended ← now
  logWriteOutcome
    { requestRow cmd.id cmd.id argsLog .denied (ended - started) with
      errorCode := some code
      errorMsg := some message }
    { auditRow cmd.id cmd.id .denied none with
      errorCode := some code
      errorMsg := some message }
    false

def previewWrite (ttlMs : Int) (ctx : WriteContext) : Handling (Option WriteBody) :=
  if ctx.cid ≠ none ∨ ctx.sig ≠ none then return none
  else do
    let created ← throwConfirm
      (← ask (.create ctx.cmd.id ctx.command ctx.commandLog ctx.redactedFields))
    let message := confirmMessage ctx.commandLog ctx.cmd ttlMs
    let ended ← now
    let responded ← now
    logWriteOutcome
      { requestRow ctx.cmd.id ctx.commandLog ctx.argsLog .needsConfirmation (ended - ctx.started) with
        requestedAt := some (iso ctx.started)
        respondedAt := some (iso responded) }
      (auditRow ctx.cmd.id ctx.commandLog .preview none)
      false
    return some (.needsConfirmation ctx.commandLog ctx.redactedFields created
      (utf8Text (buildSignPayload created.confirmationId created.nonce created.commandDigest
        (.ofInt created.expiresAt)))
      (ctx.cmd.affectsNetwork.getD false) ctx.cmd.tier (ctx.cmd.tier = .dual) message
      (js "Sign sign_payload with your approve key (tools/approve.mjs), then call again with confirmation_id + signature."))

/-- `approval requires …` -/
def errNoApproval : ConfirmError :=
  ⟨.invalidToken, js "approval requires confirmation_id and signature (Ed25519 over sign_payload)"⟩

def errNotAcknowledged : JStr := js "dual-confirm write requires acknowledge: true"

/-- The rows of a call denied before the router is asked. -/
def logDenied (ctx : WriteContext) (status : WriteStatus) (code message : JStr) : Handling Unit := do
  let ended ← now
  logWriteOutcome
    { requestRow ctx.cmd.id ctx.commandLog ctx.argsLog .denied (ended - ctx.started) with
      errorCode := some code
      errorMsg := some message }
    { auditRow ctx.cmd.id ctx.commandLog status none with
      errorCode := some code
      errorMsg := some message }
    false

def verifyApproval (ctx : WriteContext) : Handling Unit := do
  if ctx.cid.getD [] = [] ∨ ctx.sig.getD [] = [] then
    throw (.confirm errNoApproval)
  else if ctx.cmd.tier = .dual ∧ ctx.acknowledge.isTrue = false then
    logDenied ctx .denied (js "not_acknowledged") errNotAcknowledged
    throw (.error none errNotAcknowledged)
  else
    tryCatch
      (do
        throwIfCancelled ctx.signal
        throwConfirm (← ask (.consumeSigned (ctx.cid.getD []) ctx.command (ctx.sig.getD []))))
      fun error => do
        let code := if ← signalAborted ctx.signal then js "cancelled"
          else (errCode error).getD (js "denied")
        logDenied ctx (auditDenyStatus code) code (errMsg error)
        throw error

/-- The write call of a context: the typed operation when the tool has one. -/
def WriteContext.call (ctx : WriteContext) : ClientCall :=
  match ctx.cmd.sdk with
  | some sdk => .runWriteOperation sdk.manifestId ctx.sdkInput
  | none => .runWriteCommand ctx.command

/-- The client refused the write, or the router rejected it. -/
def logWriteFailure (ctx : WriteContext) (before : Option JStr) (persistSnapshots : Bool)
    (error : Thrown) : Handling Unit := do
  let ended ← now
  let cancelled : Bool := errCode error = some (js "cancelled")
  let timing ← timingOf
  logWriteOutcome
    { requestRow ctx.cmd.id ctx.commandLog ctx.argsLog (if cancelled then .denied else .error)
        (ended - ctx.started) with
      errorCode := errCode error
      errorMsg := some (errMsg error)
      requestedAt := some (iso ctx.started)
      respondedAt := some (iso ended)
      sendAt := timing.sendAt
      recvAt := timing.recvAt
      connectMs := timing.connectMs }
    { auditRow ctx.cmd.id ctx.commandLog (if cancelled then .denied else .failed)
        (if cancelled then none else some false) with
      beforeSnapshot := if persistSnapshots then before else none
      errorCode := errCode error
      errorMsg := some (errMsg error) }
    false

def WriteContext.commits (ctx : WriteContext) : Bool :=
  ctx.autoCommit && !ctx.cmd.skipCommit.getD false

/-- `ctx.autoCommit && !ctx.cmd.skipCommit ? await runCommit(…) : 'skipped'`. -/
def commitAfter (ctx : WriteContext) : Handling CommitStatus :=
  if ctx.commits then do
    let status ← runCommit
    ask .turn
    return status
  else return .skipped

def errRejected (raw : JStr) : Thrown :=
  .error (some (js "router_error")) (js "router rejected command: " ++ slice (trim raw) 200)

/-- The body of the `try` in `performWrite`: the router's reply to the write. -/
def writeReply (ctx : WriteContext) : Handling JStr := do
  throwIfCancelled ctx.signal
  ask (.send .performWrite (.authorizeWrite ctx.command))
  let raw ← await .performWrite ctx.call
  if isRouterCliFailure raw then throw (errRejected raw)
  return raw

def handOver (ctx : WriteContext) (before : Option JStr) (persistSnapshots : Bool) :
    Handling JStr :=
  tryCatch (writeReply ctx) fun error => do
    logWriteFailure ctx before persistSnapshots error
    throw error

def performWrite (findCommand : JStr → Option CommandDef) (ctx : WriteContext) :
    Handling PerformedWrite := do
  let before ← snapshot findCommand ctx.cmd.snapshotRead
  ask .turn
  let persistSnapshots := canPersistSnapshots findCommand ctx.cmd
  let raw ← handOver ctx before persistSnapshots
  let writeTiming ← timingOf
  let after ← snapshot findCommand ctx.cmd.snapshotRead
  ask .turn
  let commitStatus ← commitAfter ctx
  return ⟨before, after, persistSnapshots, raw, writeTiming, commitStatus⟩

def recordWrite (ctx : WriteContext) (result : PerformedWrite) : Handling WriteBody := do
  let ended ← now
  let success : Bool := result.commitStatus ≠ .failed
  let errorCode := if success then none else some (js "commit_failed")
  let errorMsg := if success then none else some (js "sys commit failed after write")
  logWriteOutcome
    { requestRow ctx.cmd.id ctx.commandLog ctx.argsLog (if success then .ok else .error)
        (ended - ctx.started) with
      errorCode := errorCode
      errorMsg := errorMsg
      output := if ctx.cmd.secrets.length = 0 then some result.raw else none
      requestedAt := some (iso ctx.started)
      respondedAt := some (iso ended)
      sendAt := result.writeTiming.sendAt
      recvAt := result.writeTiming.recvAt
      connectMs := result.writeTiming.connectMs }
    { auditRow ctx.cmd.id ctx.commandLog (if success then .executed else .failed) (some success) with
      beforeSnapshot := if result.persistSnapshots then result.before else none
      afterSnapshot := if result.persistSnapshots then result.after else none
      errorCode := errorCode
      errorMsg := errorMsg
      commitStatus := some result.commitStatus }
    true
  if success then
    return .finished .done ctx.commandLog result.before result.after result.raw
      (if ctx.autoCommit then result.commitStatus else .skipped)
  else
    return .finished .commitFailed ctx.commandLog result.before result.after result.raw
      result.commitStatus

/-- The tool's own arguments: what is left without the approval fields. -/
def ownArgs (args : Args) : Args :=
  ((args.delete (js "confirmation_id")).delete (js "signature")).delete (js "acknowledge")

/-- The arguments that belong to the approval and not to the tool. -/
def approvalFields : List JStr := [js "confirmation_id", js "signature", js "acknowledge"]

theorem ownArgs_entries (args : Args) :
    (ownArgs args).entries = args.entries.filter fun e => decide (e.1 ∉ approvalFields) := by
  simp only [ownArgs, OrderedMap.delete, OrderedMap.entries_filter, List.filter_filter]
  refine List.filter_congr fun e _ => ?_
  simp [approvalFields, Bool.and_comm, Bool.and_left_comm]

theorem ownArgs_get (args : Args) {key : JStr} (h : key ∈ approvalFields) :
    (ownArgs args).get key = none := by
  rw [OrderedMap.get_eq_none]
  intro v hv
  rw [ownArgs_entries] at hv
  simpa [h] using (List.mem_filter.mp hv).2

/-- A record without approval fields is the tool's own. -/
theorem ownArgs_eq_self {args : Args} (h : ∀ e ∈ args.entries, e.1 ∉ approvalFields) :
    ownArgs args = args := by
  apply OrderedMap.ext
  rw [ownArgs_entries, List.filter_eq_self]
  simpa using h

def executeWriteLocked (findCommand : JStr → Option CommandDef) (ttlMs : Int) (cmd : CommandDef)
    (args : Args) (opts : ExecuteWriteOptions) : Handling WriteBody := do
  let started ← now
  let rest := ownArgs args
  let argsLog := redactArgs rest cmd.secrets
  match prepareWrite cmd rest with
  | .error error =>
    recordPreparationFailure cmd argsLog started error
    throw error
  | .ok prepared =>
    let ctx : WriteContext :=
      { toPreparedWrite := prepared
        toExecuteWriteOptions := opts
        cmd := cmd
        started := started
        argsLog := argsLog
        cid := (args.value (js "confirmation_id")).string?
        sig := (args.value (js "signature")).string?
        acknowledge := args.value (js "acknowledge") }
    match ← previewWrite ttlMs ctx with
    | some preview => return preview
    | none =>
      verifyApproval ctx
      let performed ← performWrite findCommand ctx
      ask .turn
      recordWrite ctx performed

end VigorMcp
