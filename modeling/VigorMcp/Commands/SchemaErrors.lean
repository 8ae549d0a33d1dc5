import VigorMcp.Commands.TypedInput

/-!
# The errors of a conversion

`S` throws what `jsonSchemaToZod` throws. None of its messages is one of the
registry's own (`jsonSchemaToZod_foreign`), so `convertInputSchema` is the
`schemaFor` of a registry whose SDK describes its inputs with these schemas.
-/

namespace VigorMcp

open Except (FailsWith)

/-- A message that the registry does not throw by itself. -/
def Foreign (message : JStr) : Prop := ¬js "sdk-" <+: message

/-- A message is told by its first four characters. -/
theorem foreign_append {start rest : JStr} (length : 4 ≤ start.length)
    (differs : start.take 4 ≠ js "sdk-") : Foreign (start ++ rest) := by
  intro h
  rw [List.prefix_iff_eq_take, show (js "sdk-").length = 4 from rfl,
    List.take_append_of_le_length length] at h
  exact differs h.symm

theorem checkKnownKeys_foreign (keywords : Keywords) (path : JStr) :
    FailsWith Foreign (checkKnownKeys keywords path) := by
  unfold checkKnownKeys
  split
  · exact .ok ()
  · simp only [List.append_assoc]
    exact .error (foreign_append (by decide) (by decide))

theorem buildEnum_foreign (values : List Scalar) (path : JStr) :
    FailsWith Foreign (buildEnum values path) := by
  unfold buildEnum
  split
  · simp only [List.append_assoc]
    exact .error (foreign_append (by decide) (by decide))
  · split <;> exact .ok _

/-! ## A schema -/

theorem convertBranches_foreign {branches : List JsonSchema}
    (h : ∀ b ∈ branches, ∀ path, FailsWith Foreign (convertSchema b path)) (path : JStr) (i : Nat) :
    FailsWith Foreign (convertBranches branches path i) := by
  induction branches generalizing i with
  | nil => exact .ok []
  | cons branch branches ih =>
    rw [List.forall_mem_cons] at h
    rw [convertBranches]
    exact (h.1 _).bind fun _ _ => (ih h.2 (i + 1)).bind fun _ _ => .ok _

theorem convertFields_foreign {properties : List (JStr × JsonSchema)}
    (h : ∀ p ∈ properties, ∀ path, FailsWith Foreign (convertSchema p.2 path)) (required : List JStr)
    (path : JStr) : FailsWith Foreign (convertFields required properties path) := by
  induction properties with
  | nil => exact .ok []
  | cons p properties ih =>
    rw [List.forall_mem_cons] at h
    rw [convertFields]
    exact (h.1 _).bind fun _ _ => (ih h.2).bind fun _ _ => .ok _

theorem convertProperties_foreign {properties : Option (List (JStr × JsonSchema))}
    (h : ∀ ps, properties = some ps → ∀ p ∈ ps, ∀ path, FailsWith Foreign (convertSchema p.2 path))
    (required : List JStr) (path : JStr) :
    FailsWith Foreign (convertProperties required properties path) := by
  cases properties with
  | none => exact .ok []
  | some ps => exact convertFields_foreign (h ps rfl) required path

theorem convertSchema_foreign (schema : JsonSchema) (path : JStr) :
    FailsWith Foreign (convertSchema schema path) := by
  induction schema using JsonSchema.induct generalizing path with
  | mk kw properties oneOf items ihProperties ihBranches ihItems =>
    rw [convertSchema.eq_def]
    refine (checkKnownKeys_foreign kw path).bind fun _ _ => .map ?_
    split
    · exact .ok _
    · split
      · exact buildEnum_foreign _ path
      · split
        · next branches =>
          split
          · simp only [List.append_assoc]
            exact .error (foreign_append (by decide) (by decide))
          · exact .map (convertBranches_foreign (fun b hb path => ihBranches branches rfl b hb path) path 0)
        · split
          · exact .map (convertProperties_foreign (fun ps hps p hp path =>
              ihProperties ps hps p hp path) _ path)
          · exact .ok _
          · exact .ok _
          · exact .ok _
          · exact .ok _
          · refine .map ?_
            cases items with
            | none => exact .ok _
            | some schema => exact ihItems schema rfl _
          · exact .error (foreign_append (by decide) (by decide))

/-! ## A union of objects -/

theorem collectPropTypes_foreign (discriminatorKey : Option JStr) (path : JStr)
    (branches : List JsonSchema) (i : Nat) (propTypes : PropTypes) :
    FailsWith Foreign (collectPropTypes discriminatorKey path branches i propTypes) := by
  induction branches generalizing i propTypes with
  | nil => exact .ok _
  | cons branch branches ih =>
    rw [collectPropTypes]
    refine (checkKnownKeys_foreign _ _).bind fun _ _ => .bind (.foldlM fun p _ propTypes => ?_)
      fun propTypes _ => ih (i + 1) propTypes
    unfold addPropType
    split
    · exact .ok _
    · exact (convertSchema_foreign _ _).bind fun _ _ => .ok _

theorem flattenObjectOneOf_foreign (branches : List JsonSchema) (discriminatorKey : Option JStr)
    (path : JStr) : FailsWith Foreign (flattenObjectOneOf branches discriminatorKey path) := by
  unfold flattenObjectOneOf
  refine (collectPropTypes_foreign _ _ _ _ _).bind fun _ _ => ?_
  split
  · exact (buildEnum_foreign _ _).bind fun _ _ => .ok _
  · exact .ok _

theorem addKeys_foreign (discriminator : JStr) (option : Zod) (values : List (Option Scalar))
    (optionsMap : List (Option Scalar × Zod)) :
    FailsWith Foreign (addKeys discriminator option values optionsMap) := by
  induction values generalizing optionsMap with
  | nil => exact .ok _
  | cons value values ih =>
    rw [addKeys]
    split
    · simp only [List.append_assoc]
      exact .error (foreign_append (by decide) (by decide))
    · exact ih _

theorem discriminatedUnion_foreign (discriminator : JStr) (options : List Zod) :
    FailsWith Foreign (discriminatedUnion discriminator options) := by
  refine .map (.foldlM fun option _ optionsMap => ?_)
  unfold addOption
  split
  · split
    · simp only [List.append_assoc]
      exact .error (foreign_append (by decide) (by decide))
    · exact addKeys_foreign _ _ _ _
  · simp only [List.append_assoc]
    exact .error (foreign_append (by decide) (by decide))

theorem buildTopLevelOneOf_foreign (schema : JsonSchema) (branches : List JsonSchema) (path : JStr) :
    FailsWith Foreign (buildTopLevelOneOf schema branches path) := by
  unfold buildTopLevelOneOf
  split
  · rw [← List.append_nil (js _)]
    exact .error (foreign_append (by decide) (by decide))
  · split
    · exact .map (convertSchema_foreign schema path)
    · refine (flattenObjectOneOf_foreign _ _ _).bind fun _ _ => ?_
      refine .bind (convertBranches_foreign (fun b _ path => convertSchema_foreign b path) path 0)
        fun zBranches _ => .bind ?_ fun _ _ => .ok _
      unfold unionOf
      split
      · exact discriminatedUnion_foreign _ _
      · exact .ok _

theorem buildTopLevel_foreign (schema : JsonSchema) (path : JStr) :
    FailsWith Foreign (buildTopLevel schema path) := by
  unfold buildTopLevel
  split
  · exact .bind (convertProperties_foreign (fun _ _ p _ path => convertSchema_foreign p.2 path) _ path)
      fun _ _ => .ok _
  · exact .map (convertSchema_foreign schema path)

/-- **No message of a conversion is the registry's own.** -/
theorem jsonSchemaToZod_foreign (schema : Option JsonSchema) :
    FailsWith Foreign (jsonSchemaToZod schema) := by
  cases schema with
  | none => exact .ok _
  | some schema =>
    refine (checkKnownKeys_foreign _ _).bind fun _ _ => ?_
    split
    · exact buildTopLevelOneOf_foreign _ _ _
    · exact buildTopLevel_foreign _ _

/-! ## The registry -/

/-- What `S` gets for an input schema: its conversion, or the error that ended it. -/
def convertInputSchema (schema : Option JsonSchema) (issues : JsValue → JStr) :
    Except SchemaError ConvertedSchema :=
  match h : jsonSchemaToZod schema with
  | .ok zs => .ok (convertedSchema schema zs issues)
  | .error message => .error ⟨message, jsonSchemaToZod_foreign schema message h⟩

theorem convertInputSchema_ok {schema : Option JsonSchema} {zs : ZodSchemas}
    (h : jsonSchemaToZod schema = .ok zs) (issues : JsValue → JStr) :
    convertInputSchema schema issues = .ok (convertedSchema schema zs issues) := by
  unfold convertInputSchema
  split <;> simp_all

theorem convertInputSchema_error {schema : Option JsonSchema} {message : JStr}
    (h : jsonSchemaToZod schema = .error message) (issues : JsValue → JStr) :
    ∃ e, convertInputSchema schema issues = .error e ∧ e.message = message := by
  unfold convertInputSchema
  split <;> simp_all

/-- The branches share the constant of their first property. -/
example : let branch (mode : JStr) := constBranch [(js "kind", .str (js "peer")), (js "mode", .str mode)]
    ∃ e, convertInputSchema (some (.mk {} none (some [branch (js "on"), branch (js "off")]) none))
        (fun _ => []) = .error e ∧
      e.message = js "Discriminator property kind has duplicate value peer" :=
  convertInputSchema_error rfl _

/-- **`S` builds the tool of an operation, or throws what its conversion throws.** -/
theorem S_convertInputSchema {sdk : Sdk} {manifestId : JStr} {op : AnyOperation}
    (hop : sdk.operationFor manifestId = some op) {schema : Option JsonSchema} {issues : JsValue → JStr}
    (hschema : sdk.schemaFor manifestId = convertInputSchema schema issues) (id : JStr)
    (opts : SdkCommandOptions) :
    S sdk id manifestId opts = match jsonSchemaToZod schema with
      | .ok zs => .ok (sdkTool op (convertedSchema schema zs issues) id opts)
      | .error message => .error (.error none message) := by
  simp only [S, hop, hschema]
  cases h : jsonSchemaToZod schema with
  | ok zs => simp only [convertInputSchema_ok h]
  | error message =>
    obtain ⟨e, he, rfl⟩ := convertInputSchema_error h issues
    simp only [he]

end VigorMcp
