import VigorMcp.Commands.Forbidden
import VigorMcp.Js.Value

/-!
# The client

`SdkVigorClient` is the policy façade over the SDK: the state of one client and
its calls. A call runs up to the point where it is refused or the SDK has it
(`Handed`); the command is then in flight on a session until it settles, and a
failure that ends an SDK session drops the client's. `ClientSdk` holds what the
client looks up: the operation index and the read allowlist.
-/

namespace VigorMcp

inductive Classification where
  | read | write | destructive
  deriving DecidableEq, Repr

/-- A typed operation of the SDK; its frames by their command texts. -/
structure AnyOperation where
  manifestId : JStr
  classification : Classification
  buildFrames : JsValue → Except Thrown (List JStr)

structure ClientSdk where
  operationFor : JStr → Option AnyOperation
  isAllowedReadCommand : JStr → Bool

def mapSdkError : Thrown → VigorCommandError
  | .vigor e => e
  | .sdk .outputLimitExceeded message =>
    ⟨.invalid, message ++ js " The output limit was reached; narrow the query and try again."⟩
  | .sdk .executionTimeout message => ⟨.timeout, message⟩
  | .sdk .sessionClosed message => ⟨.closed, message⟩
  | .sdk .commandFramingRejected message => ⟨.invalid, message⟩
  | .sdk .commandRejected message => ⟨.invalid, message⟩
  | .sdk (.other _) message => ⟨.connect, message⟩
  | e => ⟨.connect, errMsg e⟩

/-- What the SDK is given. -/
inductive SdkCall where
  | execute (command : JStr)
  | invoke (manifestId : JStr) (input : JsValue)

/-- A call the SDK has, and the session it runs on. -/
structure Handed where
  call : SdkCall
  session : Nat

structure SdkVigorClient where
  readOnly : Bool
  session : Option Nat
  writeAuthorized : Option JStr
  closed : Bool
  /-- Transports the factory has made; a session is named by its transport's number. -/
  transports : Nat
  /-- The sessions of the commands in flight, in the order these started. -/
  inFlight : List Nat
  deriving DecidableEq

namespace SdkVigorClient

def new (readOnly : Bool) : SdkVigorClient := ⟨readOnly, none, none, false, 0, []⟩

variable (S : ClientSdk) (c : SdkVigorClient)

def errClosed : VigorCommandError := ⟨.closed, js "client is closed"⟩

def errForbidden (command : JStr) : VigorCommandError :=
  ⟨.invalid, js "command is forbidden and was refused: " ++ command⟩

def errReadOnly : VigorCommandError :=
  ⟨.unauthorized, js "read-only mode is enabled; write commands are refused"⟩

def errUnknown (manifestId : JStr) : VigorCommandError :=
  ⟨.invalid, js "unknown SDK operation and was refused: " ++ manifestId⟩

def current : Except VigorCommandError Nat × SdkVigorClient :=
  if c.closed then (.error errClosed, c)
  else match c.session with
    | some s => (.ok s, c)
    | none => (.ok c.transports, { c with session := some c.transports, transports := c.transports + 1 })

/-- The common part of `exec` and `invokeOperation`: the SDK of the current session gets the call. -/
def hand (call : SdkCall) : Except VigorCommandError Handed × SdkVigorClient :=
  match c.current with
  | (.error e, c) => (.error (mapSdkError (.vigor e)), c)
  | (.ok s, c) => (.ok ⟨call, s⟩, { c with inFlight := c.inFlight ++ [s] })

def exec (command : JStr) : Except VigorCommandError Handed × SdkVigorClient :=
  c.hand (.execute command)

def invokeOperation (op : AnyOperation) (input : JsValue) :
    Except VigorCommandError Handed × SdkVigorClient :=
  c.hand (.invoke op.manifestId input)

def runCommand (command : JStr) : Except VigorCommandError Handed × SdkVigorClient :=
  if !S.isAllowedReadCommand command then
    (.error ⟨.invalid, js "command is not a registered read command and was refused: " ++ command⟩, c)
  else if isForbidden command then (.error (errForbidden command), c)
  else if c.closed then (.error errClosed, c)
  else c.exec command

def authorizeWrite (command : JStr) : SdkVigorClient := { c with writeAuthorized := some command }

def runWriteCommand (command : JStr) : Except VigorCommandError Handed × SdkVigorClient :=
  let authorized := c.writeAuthorized = some command
  let c := { c with writeAuthorized := none }
  if ¬ authorized then
    (.error ⟨.unauthorized, js "write command was not confirmed and was refused"⟩, c)
  else if isForbidden command then (.error (errForbidden command), c)
  else if c.readOnly then (.error errReadOnly, c)
  else if c.closed then (.error errClosed, c)
  else c.exec command

def renderFrames (op : AnyOperation) (input : JsValue) : Except VigorCommandError (List JStr) :=
  (op.buildFrames input).mapError mapSdkError

/-- The first frame the blocklist refuses. -/
def refuseForbiddenFrames (frames : List JStr) : Except VigorCommandError Unit :=
  match frames.find? isForbidden with
  | some frame => .error (errForbidden frame)
  | none => .ok ()

def runOperation (manifestId : JStr) (input : JsValue) :
    Except VigorCommandError Handed × SdkVigorClient :=
  match S.operationFor manifestId with
  | none => (.error (errUnknown manifestId), c)
  | some op =>
    if op.classification ≠ .read then
      (.error ⟨.invalid, js "operation \"" ++ manifestId ++
        js "\" is not a read operation and was refused"⟩, c)
    else match renderFrames op input with
      | .error e => (.error e, c)
      | .ok frames => match refuseForbiddenFrames frames with
        | .error e => (.error e, c)
        | .ok _ => if c.closed then (.error errClosed, c) else c.invokeOperation op input

def runWriteOperation (manifestId : JStr) (input : JsValue) :
    Except VigorCommandError Handed × SdkVigorClient :=
  let authorizedCommand := c.writeAuthorized
  let c := { c with writeAuthorized := none }
  match S.operationFor manifestId with
  | none => (.error (errUnknown manifestId), c)
  | some op =>
    if op.classification = .read then
      (.error ⟨.invalid, js "operation \"" ++ manifestId ++
        js "\" is not a write operation and was refused"⟩, c)
    else match renderFrames op input with
      | .error e => (.error e, c)
      | .ok frames =>
        let rendered := join (js "\n") frames
        if authorizedCommand ≠ some rendered then
          (.error ⟨.unauthorized, js "write operation \"" ++ manifestId ++
            js "\" was not confirmed and was refused"⟩, c)
        else match refuseForbiddenFrames frames with
          | .error e => (.error e, c)
          | .ok _ =>
            if c.readOnly then (.error errReadOnly, c)
            else if c.closed then (.error errClosed, c)
            else c.invokeOperation op input

/-- Why a transport is closed. -/
inductive CloseReason where
  | mcpDisconnect | mcpReset
  deriving DecidableEq

def disconnect : Option (Nat × CloseReason) × SdkVigorClient :=
  (c.session.map (·, .mcpDisconnect), { c with closed := true, session := none })

def resetAfterSdkFailure (err : Thrown) : Option (Nat × CloseReason) × SdkVigorClient :=
  if c.closed then (none, c)
  else match err with
    | .sdk code _ =>
      if code ≠ .outputLimitExceeded ∧ code ≠ .sessionClosed then (none, c)
      else (c.session.map (·, .mcpReset), { c with session := none })
    | _ => (none, c)

/-! ## Runs -/

/-- What can happen to a client: a call, or the command at a place in flight settling. -/
inductive Action where
  | connect
  | authorizeWrite (command : JStr)
  | runCommand (command : JStr)
  | runWriteCommand (command : JStr)
  | runOperation (manifestId : JStr) (input : JsValue)
  | runWriteOperation (manifestId : JStr) (input : JsValue)
  | disconnect
  | succeed (place : Nat)
  | fail (place : Nat) (err : Thrown)

/-- What an action did: the call it handed to the SDK, or the transport it closed. -/
structure Effect where
  handed : Option Handed
  closes : Option (Nat × CloseReason)

def handedBy (r : Except VigorCommandError Handed × SdkVigorClient) : Effect × SdkVigorClient :=
  (⟨r.1.toOption, none⟩, r.2)

def step : Action → Effect × SdkVigorClient
  | .connect => (⟨none, none⟩, c.current.2)
  | .authorizeWrite command => (⟨none, none⟩, c.authorizeWrite command)
  | .runCommand command => handedBy (c.runCommand S command)
  | .runWriteCommand command => handedBy (c.runWriteCommand command)
  | .runOperation manifestId input => handedBy (c.runOperation S manifestId input)
  | .runWriteOperation manifestId input => handedBy (c.runWriteOperation S manifestId input)
  | .disconnect => (⟨none, c.disconnect.1⟩, c.disconnect.2)
  | .succeed place => (⟨none, none⟩, { c with inFlight := c.inFlight.eraseIdx place })
  | .fail place err =>
    if place < c.inFlight.length then
      let r := resetAfterSdkFailure { c with inFlight := c.inFlight.eraseIdx place } err
      (⟨none, r.1⟩, r.2)
    else (⟨none, none⟩, c)

/-- The client after a run. -/
def after (acts : List Action) : SdkVigorClient := acts.foldl (fun c a => (c.step S a).2) c

@[simp] theorem after_nil : c.after S [] = c := rfl

theorem after_concat (acts : List Action) (a : Action) :
    c.after S (acts ++ [a]) = ((c.after S acts).step S a).2 := by simp [after]

end SdkVigorClient

end VigorMcp
