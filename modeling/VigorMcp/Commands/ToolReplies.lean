import VigorMcp.Commands.ReadTool
import VigorMcp.Db.LogStore
import VigorMcp.Js.JsonRoundTrip
import VigorMcp.Tools.PendingFile

/-!
# Tool replies

The text a caller gets is `JSON.stringify(content, null, 2)`: of the body that a
write returns, or of what a read shows, which `registerRead` cuts when it is a long
string. The caller reads back every field of a body (`parse_body`), and of a string
the whole, or a part that says it is one (`parse_content`); what is shown of a string
is bounded by the limit (`length_content`).
-/

namespace VigorMcp

/-! ## Fields that are present -/

def JsValue.isDefined : JsValue → Bool
  | .undefined => false
  | _ => true

/-- The fields that `JSON.stringify` writes. -/
def present (fields : List (JStr × JsValue)) : List (JStr × JsValue) :=
  fields.filter fun field => field.2.isDefined

theorem isDefined_of_ne {v : JsValue} (h : v ≠ .undefined) : v.isDefined = true := by
  cases v <;> first | exact absurd rfl h | rfl

theorem present_undefined (key : JStr) (fields : List (JStr × JsValue)) :
    present ((key, .undefined) :: fields) = present fields := rfl

theorem present_cons {v : JsValue} (h : v ≠ .undefined) (key : JStr)
    (fields : List (JStr × JsValue)) :
    present ((key, v) :: fields) = (key, v) :: present fields :=
  List.filter_cons_of_pos (isDefined_of_ne h)

theorem prettyFields_present (indent : JStr) (fields : List (JStr × JsValue)) :
    prettyFields indent (present fields) = prettyFields indent fields := by
  induction fields with
  | nil => rfl
  | cons field fields ih =>
    obtain ⟨key, v⟩ := field
    rcases eq_or_ne v .undefined with rfl | hv
    · rw [present_undefined, prettyFields, ih]
    · rw [present_cons hv, Json.prettyFields_cons hv, Json.prettyFields_cons hv, ih]

theorem stringifyIndented_present (fields : List (JStr × JsValue)) :
    stringifyIndented (.obj (present fields)) = stringifyIndented (.obj fields) := by
  unfold stringifyIndented
  rw [pretty, pretty, prettyFields_present]

theorem lookup_present {fields : List (JStr × JsValue)} (nodup : (fields.map Prod.fst).Nodup)
    (key : JStr) :
    ((present fields).lookup key).getD .undefined = (fields.lookup key).getD .undefined := by
  induction fields with
  | nil => rfl
  | cons field fields ih =>
    obtain ⟨k, v⟩ := field
    obtain ⟨hk, hrest⟩ := List.nodup_cons.mp nodup
    rcases eq_or_ne v .undefined with rfl | hv
    · rw [present_undefined, ih hrest, List.lookup_cons]
      split
      · next hkey =>
        obtain rfl := beq_iff_eq.mp hkey
        have hnone : fields.lookup key = none := by
          rw [List.lookup_eq_none_iff]
          intro e he
          rw [bne_iff_ne]
          intro hkey
          exact hk (List.mem_map.mpr ⟨e, he, hkey.symm⟩)
        rw [hnone]
        rfl
      · rfl
    · rw [present_cons hv, List.lookup_cons, List.lookup_cons]
      split
      · rfl
      · exact ih hrest

/-- A field that is left out reads as `undefined`, as it did. -/
theorem field_present {fields : List (JStr × JsValue)} (nodup : (fields.map Prod.fst).Nodup)
    (key : JStr) : (JsValue.obj (present fields)).field key = (JsValue.obj fields).field key :=
  lookup_present nodup key

namespace Reply

/-- `text(content)` in `build.ts`, of a value that is not `undefined`. -/
def text (content : JsValue) : JStr := stringifyIndented content

/-- An object whose fields are readable where they are defined is read back without the others. -/
theorem parse_text {fields : List (JStr × JsValue)} (nodup : (fields.map Prod.fst).Nodup)
    (readable : ∀ e ∈ fields, e.2 = .undefined ∨ Json.Readable e.2) :
    Json.parse (text (.obj fields)) = some (.obj (present fields)) := by
  have hreadable : Json.Readable (.obj (present fields)) := by
    refine .obj (nodup.sublist (List.filter_sublist.map _)) fun e he => ?_
    obtain ⟨hmem, hdefined⟩ := List.mem_filter.mp he
    refine (readable e hmem).resolve_left fun hundefined => ?_
    rw [hundefined] at hdefined
    cases hdefined
  have h := Json.parse_stringifyIndented hreadable (show Json.Blank [] from fun _ hu => by cases hu)
  rwa [List.append_nil, stringifyIndented_present] at h

end Reply

/-! ## What a write returns -/

def FinalStatus.text : FinalStatus → JStr
  | done => js "done"
  | commitFailed => js "commit_failed"

/-- A field that may be `undefined`. -/
def optional : Option JStr → JsValue
  | some s => .str s
  | none => .undefined

/-- The fields of the object that `previewWrite` or `recordWrite` returns. -/
def WriteBody.fields : WriteBody → List (JStr × JsValue)
  | .needsConfirmation preview redactedFields created signPayload affectsNetwork confirmTier dangerous
      message note =>
    [(js "status", .str (js "needs_confirmation")), (js "preview", .str preview),
      (js "redacted_fields", .arr (redactedFields.map .str)),
      (js "confirmation_id", .str created.confirmationId), (js "nonce", .str created.nonce),
      (js "command_digest", .str created.commandDigest),
      (js "expires_at", .num (.finite created.expiresAt (decimal created.expiresAt))),
      (js "sign_payload", .str signPayload), (js "affects_network", .bool affectsNetwork),
      (js "confirm_tier", .str confirmTier.text), (js "dangerous", .bool dangerous),
      (js "message", .str message), (js "note", .str note)]
  | .finished status command before after output commit =>
    [(js "status", .str status.text), (js "command", .str command), (js "before", optional before),
      (js "after", optional after), (js "output", .str output),
      (js "commit", .str (LogStore.commitText commit))]

def WriteBody.json (body : WriteBody) : JsValue := .obj body.fields

theorem WriteBody.fields_nodup (body : WriteBody) : (body.fields.map Prod.fst).Nodup := by
  cases body with
  | needsConfirmation =>
    simp only [WriteBody.fields, List.map_cons, List.map_nil]
    decide +kernel
  | finished =>
    simp only [WriteBody.fields, List.map_cons, List.map_nil]
    decide +kernel

theorem optional_readable (s : Option JStr) :
    optional s = .undefined ∨ Json.Readable (optional s) := by
  cases s with
  | none => exact .inl rfl
  | some s => exact .inr (.str s)

theorem WriteBody.fields_readable (body : WriteBody) :
    ∀ e ∈ body.fields, e.2 = .undefined ∨ Json.Readable e.2 := by
  cases body with
  | needsConfirmation preview redactedFields created signPayload affectsNetwork confirmTier dangerous
      message note =>
    have hfields : Json.Readable (.arr (redactedFields.map .str)) := by
      refine .arr fun v hv => ?_
      obtain ⟨s, -, rfl⟩ := List.mem_map.mp hv
      exact .str s
    simp only [WriteBody.fields, List.forall_mem_cons]
    exact ⟨.inr (.str _), .inr (.str _), .inr hfields, .inr (.str _), .inr (.str _), .inr (.str _),
      .inr (.int created.expiresAt_safe), .inr (.str _), .inr (.bool _), .inr (.str _),
      .inr (.bool _), .inr (.str _),
      .inr (.str _), nofun⟩
  | finished status command before after output commit =>
    simp only [WriteBody.fields, List.forall_mem_cons]
    exact ⟨.inr (.str _), .inr (.str _), optional_readable before, optional_readable after,
      .inr (.str _), .inr (.str _), nofun⟩

/-- **A body is read back** from the text of the reply, field by field. -/
theorem parse_body (body : WriteBody) : ∃ reply, Json.parse (Reply.text body.json) = some reply ∧
    ∀ key, reply.field key = body.json.field key :=
  ⟨_, Reply.parse_text body.fields_nodup body.fields_readable, field_present body.fields_nodup⟩

/-! ## What a read shows -/

def truncationMark : JStr := js "\n...[truncated]"

namespace Reply

/-- What `registerRead` shows of a result; a limit of 0 is none. -/
def content (outputLimit : Nat) : JsValue → JsValue
  | .str output =>
    if 0 < outputLimit ∧ outputLimit < output.length then
      .obj [(js "output", .str (slice output outputLimit ++ truncationMark)),
        (js "truncated", .bool true)]
    else .str output
  | formatted => formatted

variable {outputLimit : Nat} {output : JStr}

/-- **A string is shown whole or flagged**: the caller tells the two apart by the reply alone. -/
theorem parse_content (outputLimit : Nat) (output : JStr) :
    Json.parse (text (content outputLimit (.str output))) =
      some (content outputLimit (.str output)) := by
  have hreadable : Json.Readable (content outputLimit (.str output)) := by
    rw [content]
    split
    · refine .obj ?_ ?_
      · simp only [List.map_cons, List.map_nil]
        decide +kernel
      · simp only [List.forall_mem_cons]
        exact ⟨.str _, .bool _, nofun⟩
    · exact .str output
  have h := Json.parse_stringifyIndented hreadable (show Json.Blank [] from fun _ hu => by cases hu)
  rwa [List.append_nil] at h

theorem length_unicodeEscape (u : UInt16) : (unicodeEscape u).length = 6 := rfl

theorem length_escapeUnit_le (u : UInt16) : (escapeUnit u).length ≤ 6 := by
  unfold escapeUnit
  repeat' split
  all_goals first | decide | exact (length_unicodeEscape u).le | exact Nat.le_add_left 1 5

theorem length_escape_le (s : JStr) : (escape s).length ≤ 6 * s.length := by
  induction s using escape.induct with
  | case1 => exact Nat.le_refl _
  | case2 u h => rw [escape, if_pos h, length_unicodeEscape, List.length_singleton]
  | case3 u h =>
    rw [escape, if_neg h, List.length_singleton]
    exact length_escapeUnit_le u
  | case4 u v s hu hv ih =>
    simp only [escape, hu, hv, ↓reduceIte, List.length_cons]
    omega
  | case5 u v s hu hv ih =>
    simp only [escape, hu, hv, Bool.false_eq_true, ↓reduceIte, List.length_append,
      length_unicodeEscape, List.length_cons] at ih ⊢
    omega
  | case6 u v s hu hl ih =>
    simp only [escape, hu, hl, Bool.false_eq_true, ↓reduceIte, List.length_append,
      length_unicodeEscape, List.length_cons] at ih ⊢
    omega
  | case7 u v s hu hl ih =>
    have hunit := length_escapeUnit_le u
    simp only [escape, hu, hl, Bool.false_eq_true, ↓reduceIte, List.length_append,
      List.length_cons] at ih ⊢
    omega

theorem length_quote_le (s : JStr) : (quote s).length ≤ 6 * s.length + 2 := by
  have h := length_escape_le s
  simp only [quote, List.length_append, show (js "\"").length = 1 by decide]
  omega

theorem text_truncated (s : JStr) :
    text (.obj [(js "output", .str s), (js "truncated", .bool true)]) =
      js "\x7b\n  \"output\": " ++ (quote s ++ js ",\n  \"truncated\": true\n\x7d") := by
  simp only [text, stringifyIndented, pretty, prettyFields, bracket, stringify, join,
    List.intercalate_cons_cons, List.append_assoc]
  rfl

/-- **What is shown of a string is bounded**, however long the string is. -/
theorem length_content (hlimit : 0 < outputLimit) (output : JStr) :
    (text (content outputLimit (.str output))).length ≤ 6 * outputLimit + 129 := by
  rw [content]
  split
  · have hcut : (slice output outputLimit ++ truncationMark).length ≤ outputLimit + 15 := by
      rw [List.length_append, show truncationMark.length = 15 by decide]
      exact Nat.add_le_add_right (List.length_take_le _ _) 15
    have hquote := length_quote_le (slice output outputLimit ++ truncationMark)
    rw [text_truncated]
    simp only [List.length_append,
      show (js "\x7b\n  \"output\": ").length = 14 by decide +kernel,
      show (js ",\n  \"truncated\": true\n\x7d").length = 23 by decide +kernel]
    omega
  · next hwhole =>
    have hquote := length_quote_le output
    have htext : text (.str output) = quote output := rfl
    rw [htext]
    omega

end Reply

end VigorMcp
