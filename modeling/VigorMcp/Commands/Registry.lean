import VigorMcp.Commands.ToolPolicy

/-!
# The tool registry

`S` builds an SDK-backed tool: its command is rendered from the frames of the
typed operation that will be invoked. `userFamily` are the curated tools of
`cli.user`, each pinned to one action; `buildSdkGeneratedFamily` adds one tool
for every operation that no curated tool covers as a whole. `Sdk` is what the
registry reads of the SDK: its operations and what their input schemas convert to,
if they do.
-/

namespace VigorMcp

/-- What `jsonSchemaToZod` and `secretFieldsOf` make of an input schema. -/
structure ConvertedSchema where
  shape : Args → Bool
  wrapsInput : Bool
  /-- `full.safeParse`, with the text of the issues when it fails. -/
  full : JsValue → Except JStr JsValue
  secretFields : List JStr

/-- The message of the error that ended a conversion. The registry's own messages start with
`sdk-`, those of `jsonSchemaToZod` do not. -/
structure SchemaError where
  message : JStr
  foreign : ¬js "sdk-" <+: message

structure Sdk where
  operations : List AnyOperation
  nodup : (operations.map AnyOperation.manifestId).Nodup
  /-- The operations in the order of their ids. -/
  sorted : List AnyOperation
  sorted_perm : sorted.Perm operations
  schemaFor : JStr → Except SchemaError ConvertedSchema

def Sdk.operationFor (sdk : Sdk) (manifestId : JStr) : Option AnyOperation :=
  sdk.operations.find? fun op => op.manifestId = manifestId

/-! ## Builders -/

structure SdkCommandOptions where
  args : Option (Args → Bool) := none
  toInput : Option (Args → Except Thrown JsValue) := none
  validate : Option (JsValue → Except Thrown JsValue) := none
  format : Option (JStr → Args → Except Thrown JsValue) := none
  secretArgs : List JStr := []
  snapshotRead : Option JStr := none
  skipCommit : Option Bool := none
  isPartial : Bool := false
  timeoutMs : Option Int := none

def autoToInput (converted : ConvertedSchema) (args : Args) : Except Thrown JsValue :=
  .ok (if converted.wrapsInput then args.value (js "input") else defaultToInput args)

def autoValidate (manifestId : JStr) (converted : ConvertedSchema) (input : JsValue) :
    Except Thrown JsValue :=
  match converted.full input with
  | .ok data => .ok data
  | .error issues => .error (.vigor ⟨.invalid,
      js "invalid input for SDK operation \"" ++ manifestId ++ js "\": " ++ issues⟩)

/-- The frames of an operation, one command a line. -/
def renderFrames (op : AnyOperation) (input : JsValue) : Except Thrown JStr := do
  return join (js "\n") (← op.buildFrames input)

/-- The tool that invokes an operation. -/
def sdkTool (op : AnyOperation) (converted : ConvertedSchema) (id : JStr)
    (opts : SdkCommandOptions) : CommandDef :=
  let detected := if converted.wrapsInput ∧ converted.secretFields.length > 0 then [js "input"]
    else converted.secretFields
  let secretArgs := (detected ++ opts.secretArgs).eraseDups
  let toInput := opts.toInput.getD (autoToInput converted)
  let validate := opts.validate.getD (autoValidate op.manifestId converted)
  { id := id
    kind := if op.classification = .read then .read else .write
    render := fun args => do renderFrames op (← validate (← toInput args))
    format := opts.format
    accepts := opts.args.getD converted.shape
    confirm := none
    affectsNetwork := none
    snapshotRead := opts.snapshotRead
    secretArgs := if secretArgs.length > 0 then some secretArgs else none
    sensitiveOutput := none
    timeoutMs := opts.timeoutMs
    skipCommit := opts.skipCommit
    sdk := some ⟨op.manifestId, some toInput, some validate, opts.isPartial⟩ }

/-- An SDK-backed tool, by the id of its operation. -/
def S (sdk : Sdk) (id manifestId : JStr) (opts : SdkCommandOptions) : Except Thrown CommandDef :=
  match sdk.operationFor manifestId with
  | none => .error (.error none (js "registry: unknown SDK manifestId \"" ++ manifestId ++
      js "\" for tool \"" ++ id ++ js "\""))
  | some op =>
    match sdk.schemaFor manifestId with
    | .error e => .error (.error none e.message)
    | .ok converted => .ok (sdkTool op converted id opts)

theorem S_eq_ok {sdk : Sdk} {id manifestId : JStr} {opts : SdkCommandOptions} {cmd : CommandDef} :
    S sdk id manifestId opts = .ok cmd ↔ ∃ op converted, sdk.operationFor manifestId = some op ∧
      sdk.schemaFor manifestId = .ok converted ∧ cmd = sdkTool op converted id opts := by
  unfold S
  cases sdk.operationFor manifestId with
  | none => simp
  | some op => cases sdk.schemaFor manifestId <;> simp [eq_comm]

/-! ## Validators -/

/-- A non-empty string without control characters and what command framing rejects. -/
def noControl (max : Nat) : JsValue → Bool
  | .str s => 1 ≤ s.length && s.length ≤ max && s.all (fun u => 32 ≤ u) &&
    s.all (fun u => !([59, 124, 38, 96].contains u)) && !includes s (js "$(")
  | _ => false

/-- `z.number().int().min(0)`. -/
def naturalNumber : JsValue → Bool
  | .num (.finite value _) => value.den == 1 && decide (0 ≤ value)
  | _ => false

/-! ## The tools of `cli.user` -/

/-- A tool that pins one action of `cli.user` and passes the listed arguments on. -/
def userAction (action : JStr) (args : List (JStr × (JsValue → Bool))) : SdkCommandOptions where
  args := some fun a => args.all fun arg => arg.2 (a.value arg.1)
  toInput := some fun a => .ok (.obj
    ((js "action", .str action) :: args.map fun arg => (arg.1, a.value arg.1)))
  isPartial := true

def userAccount (sdk : Sdk) : Except Thrown CommandDef :=
  S sdk (js "user_account") (js "cli.user")
    (userAction (js "account") [(js "userName", noControl 63), (js "param", noControl 255)])

def userEdit (sdk : Sdk) : Except Thrown CommandDef :=
  S sdk (js "user_edit") (js "cli.user")
    (userAction (js "edit") [(js "profileIdx", naturalNumber), (js "param", noControl 255)])

def userSet (sdk : Sdk) : Except Thrown CommandDef :=
  S sdk (js "user_set") (js "cli.user") (userAction (js "set") [(js "param", noControl 255)])

def userSetdefault (sdk : Sdk) : Except Thrown CommandDef :=
  S sdk (js "user_setdefault") (js "cli.user") (userAction (js "setdefault") [])

def userFamily (sdk : Sdk) : Except Thrown (List CommandDef) :=
  [userAccount sdk, userEdit sdk, userSet sdk, userSetdefault sdk].mapM id

/-! ## Generated tools -/

/-- A character that may stand in a tool id. -/
def isIdUnit (u : UInt16) : Bool :=
  (97 ≤ u && u ≤ 122) || (65 ≤ u && u ≤ 90) || (48 ≤ u && u ≤ 57) || u == 95

/-- `cli.ip.bgp.show` → `ip_bgp_show`. -/
def manifestToToolId (manifestId : JStr) : JStr :=
  let trimmed := if startsWith manifestId (js "cli.") then manifestId.drop 4 else manifestId
  trimmed.map fun u => if isIdUnit u then u else 95

/-- Generated ids that must remain addressable. -/
def releasedGeneratedToolIds : List (JStr × JStr) :=
  [(js "cli.service", js "service"), (js "cli.wan.detect", js "sdk_wan_detect")]

def collectCoveredManifestIds (curated : List CommandDef) : List JStr :=
  curated.filterMap fun cmd => cmd.sdk.bind fun sdk =>
    if sdk.isPartial then none else some sdk.manifestId

def endsWith (s w : JStr) : Bool := w.isSuffixOf s

/-- The tool of one operation, under an id that is not used yet. -/
def generatedTool (sdk : Sdk) (usedIds : List JStr) (op : AnyOperation) : Except Thrown CommandDef :=
  let releasedId := releasedGeneratedToolIds.lookup op.manifestId
  let id := releasedId.getD (manifestToToolId op.manifestId)
  if id ∈ usedIds ∧ releasedId ≠ none then
    .error (.error none (js "sdk-generated: released tool id collision for \"" ++ id ++ js "\""))
  else
    let timeoutMs := if endsWith op.manifestId (js ".tracert") || endsWith op.manifestId (js ".ping")
      then some 60000 else none
    S sdk (if id ∈ usedIds then js "sdk_" ++ id else id) op.manifestId { timeoutMs := timeoutMs }

def generate (sdk : Sdk) (covered : List JStr) :
    List AnyOperation → (usedIds : List JStr) → Except Thrown (List CommandDef)
  | [], _ => .ok []
  | op :: ops, usedIds =>
    if op.manifestId ∈ covered ∧ releasedGeneratedToolIds.lookup op.manifestId = none then
      generate sdk covered ops usedIds
    else do
      let cmd ← generatedTool sdk usedIds op
      return cmd :: (← generate sdk covered ops (usedIds ++ [cmd.id]))

def buildSdkGeneratedFamily (sdk : Sdk) (curated : List CommandDef) :
    Except Thrown (List CommandDef) :=
  generate sdk (collectCoveredManifestIds curated) sdk.sorted (curated.map CommandDef.id)

/-- Every tool, given the curated ones besides the family `user`. -/
def allCommands (sdk : Sdk) (others : List CommandDef) : Except Thrown (List CommandDef) := do
  let curated := others ++ (← userFamily sdk)
  return (curated ++ (← buildSdkGeneratedFamily sdk curated)).map (applyToolPolicy sdk.operationFor)

def writeCommands (commands : List CommandDef) : List CommandDef :=
  commands.filter fun cmd => cmd.kind = .write

/-- A later tool of the same id would hide an earlier one. -/
def findCommand (commands : List CommandDef) (id : JStr) : Option CommandDef :=
  commands.reverse.find? fun cmd => cmd.id = id

/-! ## An SDK of one operation -/

def userActions : List JStr := [js "account", js "edit", js "set", js "setdefault"]

/-- The text of a field of an input. -/
def fieldText (fields : List (JStr × JsValue)) (key : JStr) : JStr :=
  match fields.lookup key with
  | some (.str s) => s
  | some (.num n) => n.text
  | _ => []

/-- `cli.user`, with the frames that the tools' tests expect. -/
def cliUser : AnyOperation where
  manifestId := js "cli.user"
  classification := .write
  buildFrames
    | .obj fields => .ok [join (js " ") ([js "user", fieldText fields (js "action")] ++
        ([js "userName", js "profileIdx", js "param"].map (fieldText fields)).filter (· ≠ []))]
    | _ => .error (.error none (js "invalid input"))

/-- The input of `cli.user`. -/
def userSchema : ConvertedSchema where
  shape args := userActions.contains ((args.value (js "action")).string?.getD [])
  wrapsInput := false
  full
    | .obj fields => if userActions.contains (fieldText fields (js "action")) then .ok (.obj fields)
      else .error (js "action: Invalid discriminator value")
    | _ => .error (js "$: Expected object")
  secretFields := []

def userSdk : Sdk where
  operations := [cliUser]
  nodup := List.nodup_singleton _
  sorted := [cliUser]
  sorted_perm := .refl _
  schemaFor _ := .ok userSchema

end VigorMcp
