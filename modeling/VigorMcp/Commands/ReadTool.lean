import VigorMcp.Commands.Footprint

/-!
# Read tools

The handler that `registerRead` gives a read tool: one call to the client and
one request row, whether it succeeds or throws; a formatter that throws makes it
two rows. How the result is cut and laid out for the caller is left out.
-/

namespace VigorMcp

open Prog

/-- A request row of a read tool. -/
def readRow (cmd : CommandDef) (args : Args) (command : JStr) (outcome : RequestOutcome)
    (started ended : Int) (timing : LogTiming) : LogEntry where
  toolId := cmd.id
  kind := .read
  command := command
  argsJson := redactArgs args cmd.secrets
  outcome := outcome
  errorCode := none
  errorMsg := none
  durationMs := ended - started
  output := none
  requestedAt := some (iso started)
  respondedAt := some (iso ended)
  sendAt := timing.sendAt
  recvAt := timing.recvAt
  connectMs := timing.connectMs

/-- The call of a read tool: the typed operation when it has one. -/
def readCall (cmd : CommandDef) (args : Args) (command : JStr) : Except Thrown ClientCall :=
  match cmd.sdk with
  | some sdk => return .runOperation sdk.manifestId (← resolveSdkInput sdk args)
  | none => return .runCommand command

/-- What a read tool returns: the router's output, or what the tool's formatter makes of it. -/
def formatOutput (cmd : CommandDef) (args : Args) (raw : JStr) : Except Thrown JsValue :=
  match cmd.format with
  | some format => format raw args
  | none => .ok (.str raw)

def readTool (cmd : CommandDef) (args : Args) : Handling JsValue := do
  let started ← now
  -- the command is the tool's id until it has been rendered
  let command := match cmd.render args with
    | .ok command => command
    | .error _ => cmd.id
  tryCatch
    (do
      let command ← Prog.ofExcept (cmd.render args)
      let call ← Prog.ofExcept (readCall cmd args command)
      let raw ← await .readTool call
      let ended ← now
      let timing ← timingOf
      let _ ← ask (.request { readRow cmd args command .ok started ended timing with
        output := if cmd.sensitiveOutput.getD false then none else some raw })
      Prog.ofExcept (formatOutput cmd args raw))
    fun e => do
      let ended ← now
      let timing ← timingOf
      let _ ← ask (.request { readRow cmd args command .error started ended timing with
        errorCode := errCode e
        errorMsg := some (errMsg e) })
      throw e

/-- What a read tool never asks for: the gate, or a call to the client that is not its own. -/
def IsWriteWork : ToolOp → Prop
  | .create _ _ _ _ => True
  | .consumeSigned _ _ _ => True
  | .send site c => site ≠ .readTool ∨ c.isWrite = true
  | .reply site => site ≠ .readTool
  | _ => False

theorem isWriteWork_spares : Spares IsWriteWork fun _ _ => True where
  look o ho := by
    cases o with
    | now => exact id
    | aborted signal => exact id
    | turn => exact id
    | timing => exact id
    | _ => cases ho
  request _ _ := id
  writeAudit _ _ := id

/-- A read tool's call to the client is a read. -/
theorem readCall_isWrite {cmd : CommandDef} {args : Args} {command : JStr} {c : ClientCall}
    (h : readCall cmd args command = .ok c) : c.isWrite = false := by
  unfold readCall at h
  cases hs : cmd.sdk with
  | none =>
    simp only [hs] at h
    cases h
    rfl
  | some sdk =>
    simp only [hs] at h
    cases hi : resolveSdkInput sdk args with
    | error e => rw [hi] at h; cases h
    | ok input => rw [hi] at h; cases h; rfl

/-- What a read tool logs as its command: its id until the command has been rendered. -/
def readColumn (cmd : CommandDef) (args : Args) : JStr :=
  match cmd.render args with
  | .ok command => command
  | .error _ => cmd.id

theorem readTool_avoids {S : ToolOp → Prop} {rows : JStr → JStr → Prop} (hS : Spares S rows)
    {cmd : CommandDef} {args : Args} (hrow : rows cmd.id (readColumn cmd args))
    (hsend : ∀ c, c.isWrite = false → ¬S (.send .readTool c)) (hreply : ¬S (.reply .readTool)) :
    Avoids S (readTool cmd args) := by
  have row : ∀ {β : Type} (f : Int → LogTiming → LogEntry) (end_ : Handling β),
      (∀ ended timing, rows (f ended timing).toolId (f ended timing).command) → Avoids S end_ →
      Avoids S (do
        let ended ← now
        let timing ← timingOf
        let _ ← ask (.request (f ended timing))
        end_) := fun f _ hf h =>
    .ask (hS.look _ rfl) fun _ => (timingOf_avoids hS).bind fun _ =>
      .ask (hS.request _ (hf _ _)) fun _ => h
  refine .ask (hS.look _ rfl) fun started => .tryCatch ?_ fun e => row _ _ (fun _ _ => hrow) trivial
  refine .ofExcept_bind fun command hr => .ofExcept_bind fun c hc => ?_
  have hcommand : rows cmd.id command := by simpa only [readColumn, hr] using hrow
  exact (await_avoids (hsend c (readCall_isWrite hc)) hreply).bind fun raw =>
    row _ _ (fun _ _ => hcommand) (.ofExcept _)

theorem readTool_writeWork (cmd : CommandDef) (args : Args) :
    Avoids IsWriteWork (readTool cmd args) :=
  readTool_avoids isWriteWork_spares trivial (fun c hc => by simp [IsWriteWork, hc])
    (by simp [IsWriteWork])

end VigorMcp
