import VigorMcp.Commands.LoggedCommands
import VigorMcp.Ssh.SshClientTransport

/-!
# Tool calls on one client

`Link` is a client with the transport of its session. A call of the client runs
up to the point where it is refused or the SDK has it (`issue`); the SDK then
sends frames through the transport and settles the command (`settle`). What the
SDK does with a command is `SdkRun`. `RouterWorld` is the world of tool calls
that come one after the other on one client: `routerAnswer` answers them, keeps
the rows they submit, and notes for every exchange with the router which call
made it from where.
-/

namespace VigorMcp

/-- What the SDK does with a command: how the sends of its frames settle, and how the command does. -/
structure SdkRun where
  sends : List (Except SshThrown ExecResult)
  result : Except Thrown JStr

def ExecResult.timing (result : ExecResult) : CommandTiming :=
  ⟨result.sendAt, result.recvAt, result.connectMs⟩

/-- The exchanges of a command: its sends that settled well. -/
def SdkRun.timings (run : SdkRun) : List CommandTiming :=
  run.sends.filterMap fun sent => sent.toOption.map ExecResult.timing

/-! ## The client and its transport -/

structure Link where
  client : SdkVigorClient
  /-- The transport of the client's session. -/
  transport : SshClientTransport
  /-- The commands the SDK has been given. -/
  commands : Nat

namespace Link

def new (readOnly : Bool) : Link := ⟨.new readOnly, .new, 0⟩

/-- `client.lastCommandTiming`. -/
def lastCommandTiming (l : Link) : Option CommandTiming :=
  l.client.session.bind fun _ => l.transport.timing

/-- A client that starts a session makes a transport for it. -/
def issued (l : Link) (r : Except VigorCommandError Handed × SdkVigorClient) :
    Option (Except VigorCommandError Handed) × Link :=
  (some r.1, { l with
    client := r.2
    transport := if l.client.session.isNone then .new else l.transport })

def issue (S : ClientSdk) (l : Link) :
    ClientCall → Option (Except VigorCommandError Handed) × Link
  | .authorizeWrite command => (none, { l with client := l.client.authorizeWrite command })
  | .runCommand command => l.issued (l.client.runCommand S command)
  | .runOperation manifestId input => l.issued (l.client.runOperation S manifestId input)
  | .runWriteCommand command => l.issued (l.client.runWriteCommand command)
  | .runWriteOperation manifestId input => l.issued (l.client.runWriteOperation S manifestId input)

def settle (S : ClientSdk) (l : Link) (run : SdkRun) : Except VigorCommandError JStr × Link :=
  let transport := run.sends.foldl (fun t sent => (t.executed sent).2) l.transport
  match run.result with
  | .ok raw => (.ok raw, ⟨(l.client.step S (.succeed 0)).2, transport, l.commands + 1⟩)
  | .error err =>
    (.error (mapSdkError err), ⟨(l.client.step S (.fail 0 err)).2, transport, l.commands + 1⟩)

end Link

/-! ## The world of the calls -/

/-- What comes from outside. -/
structure RouterEnv where
  gate : GateEnv
  sdk : ClientSdk
  /-- What the SDK does with a command, by the number of commands before it. -/
  run : Nat → SdkRun
  rowId : Nat → Option Nat

/-- An exchange with the router: the call it was made for, and from where. -/
structure Exchange where
  call : Nat
  site : Site
  timing : CommandTiming

structure LoggedRow where
  call : Nat
  entry : LogEntry

structure RouterWorld where
  gate : ConfirmGate
  turns : Nat
  link : Link
  /-- How the last command was issued. -/
  issued : Option (Except VigorCommandError Handed)
  /-- The number of the running call. -/
  call : Nat
  exchanges : List Exchange
  rows : List LoggedRow

namespace RouterWorld

def new (readOnly : Bool) : RouterWorld := ⟨.new, 0, .new readOnly, none, 0, [], []⟩

def issue (E : RouterEnv) (w : RouterWorld) (c : ClientCall) : RouterWorld :=
  let r := w.link.issue E.sdk c
  { w with link := r.2, issued := r.1 }

/-- The command a call awaits settles: refused already, or as the SDK has it. -/
def settle (E : RouterEnv) (w : RouterWorld) (site : Site) :
    Except VigorCommandError JStr × RouterWorld :=
  match w.issued with
  | some (.ok _) =>
    let run := E.run w.link.commands
    let r := w.link.settle E.sdk run
    (r.1, { w with
      turns := w.turns + 1
      link := r.2
      exchanges := w.exchanges ++ run.timings.map (⟨w.call, site, ·⟩) })
  | some (.error e) => (.error e, { w with turns := w.turns + 1 })
  | none => (.error SdkVigorClient.errClosed, { w with turns := w.turns + 1 })

end RouterWorld

def routerAnswer (E : RouterEnv) : Prog.Handler toolCalls RouterWorld
  | .now, w => (E.gate.clock w.gate.tick, { w with gate := w.gate.ticked })
  | .aborted signal, w => (isAborted signal w.turns, w)
  | .create toolId command commandPreview redactedFields, w =>
    let r := w.gate.create E.gate toolId command commandPreview redactedFields
    (r.1, { w with gate := r.2 })
  | .consumeSigned confirmationId command signature, w =>
    let r := w.gate.consumeSigned E.gate confirmationId command signature
    (r.1, { w with gate := r.2 })
  | .send _ c, w => ((), w.issue E c)
  | .reply site, w => w.settle E site
  | .turn, w => ((), { w with turns := w.turns + 1 })
  | .timing, w => (w.link.lastCommandTiming, w)
  | .request entry, w => (E.rowId w.rows.length, { w with rows := w.rows ++ [⟨w.call, entry⟩] })
  | .writeAudit _, w => ((), w)

namespace ToolCall

variable (E : RouterEnv) (find : JStr → Option CommandDef)

/-- The world after a call. -/
def after (w : RouterWorld) : ToolCall → RouterWorld
  | read cmd args => ((readTool cmd args).exec (routerAnswer E) { w with call := w.call + 1 }).world
  | write c => ((c.run find E.gate.ttlMs).exec (routerAnswer E) { w with call := w.call + 1 }).world

/-- The world after some calls, one after the other. -/
def afterAll (w : RouterWorld) (tools : List ToolCall) : RouterWorld :=
  tools.foldl (fun w tool => tool.after E find w) w

end ToolCall

end VigorMcp
