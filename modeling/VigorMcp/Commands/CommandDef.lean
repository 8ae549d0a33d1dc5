import VigorMcp.Db.Log

/-!
# Tool definitions

`CommandDef` is one tool of the registry: how it renders its command, its policy
fields and its SDK binding. `resolveSdkInput` maps tool arguments to the typed
input the SDK gets.
-/

namespace VigorMcp

inductive ConfirmTier where
  | auto | confirm | dual
  deriving DecidableEq, Repr

def ConfirmTier.text : ConfirmTier → JStr
  | auto => js "auto"
  | confirm => js "confirm"
  | dual => js "dual"

/-- SDK-backed execution metadata for a `CommandDef`. -/
structure CommandSdkBinding where
  manifestId : JStr
  toInput : Option (Args → Except Thrown JsValue)
  validate : Option (JsValue → Except Thrown JsValue)
  isPartial : Bool

structure CommandDef where
  id : JStr
  kind : CommandKind
  render : Args → Except Thrown JStr
  /-- What a read tool shows of the router's output. -/
  format : Option (JStr → Args → Except Thrown JsValue) := none
  /-- Whether the tool's argument schema accepts a record. -/
  accepts : Args → Bool
  confirm : Option ConfirmTier
  affectsNetwork : Option Bool
  snapshotRead : Option JStr
  secretArgs : Option (List JStr)
  sensitiveOutput : Option Bool
  timeoutMs : Option Int
  skipCommit : Option Bool
  sdk : Option CommandSdkBinding

/-- Default `sdk.toInput`: no-arg tool calls invoke with `undefined`, others pass args through. -/
def defaultToInput (args : Args) : JsValue :=
  if args.size = 0 then .undefined else .obj args.entries

def resolveSdkInput (sdk : CommandSdkBinding) (args : Args) : Except Thrown JsValue := do
  let input ← match sdk.toInput with
    | some toInput => toInput args
    | none => .ok (defaultToInput args)
  match sdk.validate with
  | some validate => validate input
  | none => .ok input

end VigorMcp
