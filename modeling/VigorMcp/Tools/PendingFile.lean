import VigorMcp.Js.JsonRoundTrip
import VigorMcp.Tools.ConfirmGate

/-!
# The pending file

`persist` writes the views of the pending intents as indented JSON;
`ConfirmGate.loadPending` reads any text, keeps the entries that look like a view
and repairs their `redactedFields`. What `persist` writes comes back unchanged
(`loadPending_pendingText`).
-/

namespace VigorMcp

/-- The value of a field, `undefined` where there is none. -/
def JsValue.field (key : JStr) : JsValue → JsValue
  | .obj fields => (fields.lookup key).getD .undefined
  | _ => .undefined

def JsValue.isString : JsValue → Bool
  | .str _ => true
  | _ => false

def JsValue.isNumber : JsValue → Bool
  | .num _ => true
  | _ => false

/-- The fields of `{ ...fields, [key]: v }`. -/
def putField (key : JStr) (v : JsValue) (fields : List (JStr × JsValue)) : List (JStr × JsValue) :=
  if key ∈ fields.map Prod.fst then fields.map fun e => if e.1 = key then (key, v) else e
  else fields ++ [(key, v)]

namespace PendingFile

/-- The entries `loadPending` keeps. -/
def looksPending (entry : JsValue) : Bool :=
  (entry.field (js "confirmationId")).isString && (entry.field (js "commandDigest")).isString &&
    (entry.field (js "commandPreview")).isString && (entry.field (js "nonce")).isString &&
    (entry.field (js "expiresAt")).isNumber

/-- The strings of an array, nothing of any other value. -/
def onlyStrings : JsValue → List JsValue
  | .arr items => items.filter JsValue.isString
  | _ => []

/-- An entry with its `redactedFields` repaired. -/
def repair : JsValue → JsValue
  | .obj fields => .obj (putField (js "redactedFields")
      (.arr (onlyStrings ((JsValue.obj fields).field (js "redactedFields")))) fields)
  | entry => entry

/-- `ConfirmGate.loadPending` of a file's text; `none` for a file that cannot be read. -/
def loadPending (text : Option JStr) : List JsValue :=
  match text.bind Json.parse with
  | some (.arr raw) => (raw.filter looksPending).map repair
  | _ => []

/-- A view as `JSON.stringify` sees it. -/
def viewJson (view : PendingIntentView) : JsValue :=
  .obj [(js "confirmationId", .str view.confirmationId), (js "toolId", .str view.toolId),
    (js "commandDigest", .str view.commandDigest), (js "commandPreview", .str view.commandPreview),
    (js "redactedFields", .arr (view.redactedFields.map .str)), (js "nonce", .str view.nonce),
    (js "createdAt", .num (.finite view.createdAt (decimal view.createdAt))),
    (js "expiresAt", .num (.finite view.expiresAt (decimal view.expiresAt)))]

/-- What `persist` writes. -/
def pendingText (views : List PendingIntentView) : JStr :=
  stringifyIndented (.arr (views.map viewJson)) ++ js "\n"

/-! ## What is written is read -/

theorem viewJson_readable (view : PendingIntentView) : Json.Readable (viewJson view) := by
  have nodup : [js "confirmationId", js "toolId", js "commandDigest", js "commandPreview",
      js "redactedFields", js "nonce", js "createdAt", js "expiresAt"].Nodup := by decide
  refine .obj nodup ?_
  simp only [List.forall_mem_cons, List.not_mem_nil, false_implies, implies_true, and_true]
  refine ⟨.str _, .str _, .str _, .str _, .arr fun v hv => ?_, .str _, .int view.createdAt_safe,
    .int view.expiresAt_safe⟩
  obtain ⟨field, -, rfl⟩ := List.mem_map.mp hv
  exact .str field

theorem looksPending_viewJson (view : PendingIntentView) : looksPending (viewJson view) = true := rfl

theorem repair_viewJson (view : PendingIntentView) : repair (viewJson view) = viewJson view := by
  have hstrings : (view.redactedFields.map JsValue.str).filter JsValue.isString =
      view.redactedFields.map JsValue.str :=
    List.filter_eq_self.mpr fun v hv => by
      obtain ⟨field, -, rfl⟩ := List.mem_map.mp hv
      rfl
  show JsValue.obj [_, _, _, _, (js "redactedFields", .arr (List.filter _ _)), _, _, _] = _
  rw [hstrings]
  rfl

/-- **What `persist` writes is read back**: all views, with all their fields, in order. -/
theorem loadPending_pendingText (views : List PendingIntentView) :
    loadPending (some (pendingText views)) = views.map viewJson := by
  have hread : Json.Readable (.arr (views.map viewJson)) := by
    refine .arr fun v hv => ?_
    obtain ⟨view, -, rfl⟩ := List.mem_map.mp hv
    exact viewJson_readable view
  unfold loadPending pendingText
  rw [Option.bind_some, Json.parse_stringifyIndented hread Json.blank_newline]
  have hkept : (views.map viewJson).filter looksPending = views.map viewJson :=
    List.filter_eq_self.mpr fun v hv => by
      obtain ⟨view, -, rfl⟩ := List.mem_map.mp hv
      exact looksPending_viewJson view
  simp only [hkept, List.map_map]
  exact List.map_congr_left fun view _ => repair_viewJson view

end PendingFile

end VigorMcp
