import VigorMcp.Commands.TypedInput
import VigorMcp.Commands.WriteExecutor
import VigorMcp.Sdk.OperationIndex

/-!
# Bound tools

A tool has an SDK binding when `S` built it, as a curated tool or as a generated
one, or when `attachSdkVoidBindings` found that its fixed command is the one of
a void operation. What a bound tool renders are the frames of its binding's
operation at the input its binding resolves (`preview_agrees`), so that
`runWriteOperation` finds the command that was approved.
-/

namespace VigorMcp

/-- A curated tool and the schemas of its arguments. -/
structure CuratedCommand extends CommandDef where
  args : OrderedMap JStr Zod

/-- The arguments that the tool's schema returns for a call. -/
def CuratedCommand.Takes (cmd : CuratedCommand) (args : Args) : Prop :=
  ∃ input : Args, (Zod.object cmd.args.entries false none).parse (.obj input.entries) =
    some (.obj args.entries)

def sdkVoidBindingExclusions : List JStr := [js "local8021x_show_local_cer"]

/-- Links a curated tool without arguments to the void operation of its command. -/
def attachSdkVoidBinding (voidOperationForCommand : JStr → Option AnyOperation)
    (cmd : CuratedCommand) : CuratedCommand :=
  if cmd.sdk.isSome ∨ cmd.id ∈ sdkVoidBindingExclusions ∨ cmd.args.size > 0 then cmd
  else
    match cmd.render .empty with
    | .error _ => cmd
    | .ok cli =>
      match voidOperationForCommand cli with
      | none => cmd
      | some op => { cmd with sdk := some ⟨op.manifestId, none, none, false⟩ }

def attachSdkVoidBindings (voidOperationForCommand : JStr → Option AnyOperation)
    (commands : List CuratedCommand) : List CuratedCommand :=
  commands.map (attachSdkVoidBinding voidOperationForCommand)

/-- What the registry reads of the SDK, with the operations of an index; `le` compares ids. -/
def OperationIndex.sdk {heap : OperationRef → AnyOperation} (index : OperationIndex heap)
    (le : JStr → JStr → Bool) (schemaFor : JStr → Except SchemaError ConvertedSchema) : Sdk where
  operations := index.allOperations
  nodup := by
    rw [index.manifestIds_allOperations]
    exact index.refs.nodup
  sorted := index.allOperations.mergeSort fun a b => le a.manifestId b.manifestId
  sorted_perm := List.mergeSort_perm _ _
  schemaFor := schemaFor

/-- Built by `S`. -/
def SdkBuilt (sdk : Sdk) (cmd : CommandDef) : Prop :=
  ∃ id manifestId opts, S sdk id manifestId opts = .ok cmd

/-- A tool of the registry that may have a binding, and arguments its schema returns. -/
inductive BoundCall (sdk : Sdk) (voidOperationForCommand : JStr → Option AnyOperation) :
    CommandDef → Args → Prop
  | built {cmd : CommandDef} {args : Args} (built : SdkBuilt sdk cmd) :
      BoundCall sdk voidOperationForCommand cmd args
  | linked {curated : List CuratedCommand} {cmd : CuratedCommand} {args : Args}
      (sources : ∀ c ∈ curated, c.sdk = none ∨ SdkBuilt sdk c.toCommandDef)
      (mem : cmd ∈ attachSdkVoidBindings voidOperationForCommand curated) (takes : cmd.Takes args) :
      BoundCall sdk voidOperationForCommand cmd.toCommandDef args
  | generated {curated commands : List CommandDef} {cmd : CommandDef} {args : Args}
      (generated : buildSdkGeneratedFamily sdk curated = .ok commands) (mem : cmd ∈ commands) :
      BoundCall sdk voidOperationForCommand cmd args
  | policy {cmd : CommandDef} {args : Args} (call : BoundCall sdk voidOperationForCommand cmd args) :
      BoundCall sdk voidOperationForCommand (applyToolPolicy sdk.operationFor cmd) args

/-- A tool renders what its binding invokes: both fail alike, or the command is the frames of the
operation at the resolved input. -/
def Previews (operationFor : JStr → Option AnyOperation) (cmd : CommandDef)
    (binding : CommandSdkBinding) (args : Args) : Prop :=
  ∃ op, operationFor binding.manifestId = some op ∧
    cmd.render args = (resolveSdkInput binding args >>= renderFrames op)

section

variable {sdk : Sdk} {voidOperationForCommand : JStr → Option AnyOperation} {cmd : CommandDef}
  {binding : CommandSdkBinding} {args : Args}

/-! ## The three routes -/

theorem sdk_operationFor {heap : OperationRef → AnyOperation} (index : OperationIndex heap)
    (le : JStr → JStr → Bool) (schemaFor : JStr → Except SchemaError ConvertedSchema) :
    (index.sdk le schemaFor).operationFor = index.operationFor := by
  funext manifestId
  exact index.find?_allOperations manifestId

theorem manifestId_of_operationFor {manifestId : JStr} {op : AnyOperation}
    (h : sdk.operationFor manifestId = some op) : op.manifestId = manifestId := by
  simpa using List.find?_some h

theorem SdkBuilt.previews (h : SdkBuilt sdk cmd) (bound : cmd.sdk = some binding) :
    Previews sdk.operationFor cmd binding args := by
  obtain ⟨id, manifestId, opts, built⟩ := h
  obtain ⟨op, converted, hop, -, rfl⟩ := S_eq_ok.mp built
  obtain rfl := Option.some.inj bound
  refine ⟨op, ?_, ?_⟩
  · rw [← hop, ← manifestId_of_operationFor hop]
  · simp only [sdkTool, resolveSdkInput, bind_assoc]

/-- A tool that has a binding keeps it. -/
theorem attach_of_built {cmd : CuratedCommand} (h : SdkBuilt sdk cmd.toCommandDef) :
    attachSdkVoidBinding voidOperationForCommand cmd = cmd := by
  obtain ⟨id, manifestId, opts, built⟩ := h
  have hbound : cmd.sdk.isSome = true := by
    obtain ⟨op, converted, -, -, hcmd⟩ := S_eq_ok.mp built
    rw [hcmd]
    rfl
  exact if_pos (.inl hbound)

/-- A tool without arguments is called with none. -/
theorem CuratedCommand.takes_empty {cmd : CuratedCommand} (h : cmd.args.entries = [])
    (takes : cmd.Takes args) : args = .empty := by
  obtain ⟨input, hparse⟩ := takes
  rw [h] at hparse
  have hentries : ([] : List (JStr × JsValue)) = args.entries := by
    simpa [Zod.parse, Zod.parseShape] using hparse
  exact OrderedMap.ext hentries.symm

/-- A link leads by its id to the operation whose command it was made for. -/
theorem linked_previews {operationFor : JStr → Option AnyOperation} {cmd : CuratedCommand}
    (indexes : ∀ command op, voidOperationForCommand command = some op →
      operationFor op.manifestId = some op ∧ op.buildFrames .undefined = .ok [command])
    (unbound : cmd.sdk = none) (takes : (attachSdkVoidBinding voidOperationForCommand cmd).Takes args)
    (bound : (attachSdkVoidBinding voidOperationForCommand cmd).sdk = some binding) :
    Previews operationFor (attachSdkVoidBinding voidOperationForCommand cmd).toCommandDef binding
      args := by
  unfold attachSdkVoidBinding at *
  split at bound
  · rw [unbound] at bound
    cases bound
  · next hskip =>
    rw [if_neg hskip] at takes ⊢
    have hargs : cmd.args.entries = [] := by
      have : ¬cmd.args.size > 0 := fun h => hskip (.inr (.inr h))
      exact List.length_eq_zero_iff.mp (Nat.eq_zero_of_not_pos this)
    cases hrender : cmd.render .empty with
    | error e =>
      rw [hrender, unbound] at bound
      cases bound
    | ok cli =>
      cases hop : voidOperationForCommand cli with
      | none =>
        simp only [hrender, hop, unbound] at bound
        cases bound
      | some op =>
        simp only [hrender, hop, Option.some.injEq] at bound takes ⊢
        obtain rfl := bound
        obtain rfl := CuratedCommand.takes_empty hargs takes
        obtain ⟨hfor, hframes⟩ := indexes cli op hop
        -- no arguments resolve to `undefined`, whose one frame is the command
        have hrendered : renderFrames op .undefined = .ok cli := by
          simp [renderFrames, hframes, join]
        refine ⟨op, hfor, ?_⟩
        rw [hrender, ← hrendered]
        rfl

/-- Every generated tool is built by `S`. -/
theorem generate_built {covered usedIds : List JStr} {ops : List AnyOperation}
    {commands : List CommandDef} (h : generate sdk covered ops usedIds = .ok commands)
    (mem : cmd ∈ commands) : SdkBuilt sdk cmd := by
  induction ops generalizing usedIds commands with
  | nil =>
    cases h
    cases mem
  | cons op ops ih =>
    rw [generate] at h
    split at h
    · exact ih h mem
    · obtain ⟨tool, htool, h⟩ := Except.bind_eq_ok.mp h
      obtain ⟨rest, hrest, h⟩ := Except.bind_eq_ok.mp h
      obtain rfl := Except.pure_eq_ok.mp h
      rcases List.mem_cons.mp mem with rfl | mem
      · unfold generatedTool at htool
        simp only at htool
        split at htool
        · cases htool
        · exact ⟨_, _, _, htool⟩
      · exact ih hrest mem

theorem BoundCall.previews
    (indexes : ∀ command op, voidOperationForCommand command = some op →
      sdk.operationFor op.manifestId = some op ∧ op.buildFrames .undefined = .ok [command])
    (call : BoundCall sdk voidOperationForCommand cmd args) (bound : cmd.sdk = some binding) :
    Previews sdk.operationFor cmd binding args := by
  induction call with
  | built built => exact built.previews bound
  | linked sources mem takes =>
    obtain ⟨cmd, hmem, rfl⟩ := List.mem_map.mp mem
    rcases sources cmd hmem with unbound | built
    · exact linked_previews indexes unbound takes bound
    · rw [attach_of_built built] at bound ⊢
      exact built.previews bound
  | generated generated mem => exact (generate_built generated mem).previews bound
  | policy call ih => exact ih bound

end

/-! ## The invocation -/

def errNotConfirmed (manifestId : JStr) : VigorCommandError :=
  ⟨.unauthorized, js "write operation \"" ++ manifestId ++ js "\" was not confirmed and was refused"⟩

/-- A refusal with another code, or in read-only mode, says something else. -/
theorem ne_errNotConfirmed {e : VigorCommandError} {manifestId : JStr}
    (h : e.code ≠ .unauthorized ∨ e = SdkVigorClient.errReadOnly) : e ≠ errNotConfirmed manifestId := by
  rintro rfl
  rcases h with hcode | hreadOnly
  · exact hcode rfl
  · have hfirst : (js "w").head? = (js "r").head? :=
      congrArg (fun e => e.message.head?) hreadOnly
    exact absurd hfirst (by decide)

/-- An operation whose frames are the authorized command is not refused as unconfirmed. -/
theorem runWriteOperation_ne {S : ClientSdk} {c : SdkVigorClient} {manifestId : JStr}
    {op : AnyOperation} {input : JsValue} {command : JStr}
    (hop : S.operationFor manifestId = some op) (hframes : renderFrames op input = .ok command)
    (authorized : c.writeAuthorized = some command) :
    (c.runWriteOperation S manifestId input).1 ≠ .error (errNotConfirmed manifestId) := by
  obtain ⟨frames, hbuild, hjoin⟩ := Except.bind_eq_ok.mp hframes
  obtain rfl := Except.pure_eq_ok.mp hjoin
  have hrender : SdkVigorClient.renderFrames op input = .ok frames := by
    rw [SdkVigorClient.renderFrames, hbuild]
    rfl
  have hne : ∀ {e : VigorCommandError}, e.code ≠ .unauthorized ∨ e = SdkVigorClient.errReadOnly →
      (Except.error e : Except VigorCommandError Handed) ≠ .error (errNotConfirmed manifestId) :=
    fun h heq => ne_errNotConfirmed h (Except.error.inj heq)
  unfold SdkVigorClient.runWriteOperation
  simp only [hop, hrender, authorized, ne_eq, not_true_eq_false, ↓reduceIte]
  split
  · exact hne (.inl nofun)
  split
  · next e hforbidden =>
    unfold SdkVigorClient.refuseForbiddenFrames at hforbidden
    split at hforbidden
    · obtain rfl := Except.error.inj hforbidden
      exact hne (.inl nofun)
    · cases hforbidden
  split
  · exact hne (.inr rfl)
  split
  · exact hne (.inl nofun)
  · unfold SdkVigorClient.invokeOperation SdkVigorClient.hand SdkVigorClient.current
    split
    · next e c' hcurrent =>
      split at hcurrent
      · obtain rfl := Except.error.inj (Prod.mk.inj hcurrent).1
        exact hne (.inl nofun)
      · split at hcurrent <;> cases hcurrent
    · nofun

/-- **Preview and invocation agree.** With the indexes of one operations tree, a bound tool renders
the frames of its binding's operation at the input that its binding resolves, or both fail with the
same error; a prepared write of the tool that is authorized is not refused as unconfirmed. -/
theorem preview_agrees {heap : OperationRef → AnyOperation} {root : OperationTree}
    {index : OperationIndex heap} (indexed : buildOperationIndex heap root = .ok index)
    (le : JStr → JStr → Bool) (schemaFor : JStr → Except SchemaError ConvertedSchema)
    {cmd : CommandDef} {args : Args}
    (call : BoundCall (index.sdk le schemaFor) (voidOperationForCommand heap root) cmd args)
    {binding : CommandSdkBinding} (bound : cmd.sdk = some binding) :
    Previews index.operationFor cmd binding args ∧
    ∀ p, prepareWrite cmd args = .ok p → ∀ (S : ClientSdk) (c : SdkVigorClient),
      S.operationFor = index.operationFor → c.writeAuthorized = some p.command →
      (c.runWriteOperation S binding.manifestId p.sdkInput).1 ≠
        .error (errNotConfirmed binding.manifestId) := by
  have hpreviews : Previews index.operationFor cmd binding args := by
    rw [← sdk_operationFor index le schemaFor]
    refine call.previews (fun command op hop => ?_) bound
    rw [sdk_operationFor]
    exact operationFor_of_voidOperationForCommand indexed hop
  refine ⟨hpreviews, fun p hp S c hS authorized => ?_⟩
  obtain ⟨op, hop, hrender⟩ := hpreviews
  obtain ⟨hcommand, -, hinput⟩ := prepareWrite_eq_ok.mp hp
  rw [bound, Option.elim_some] at hinput
  refine runWriteOperation_ne (hS ▸ hop) ?_ authorized
  rw [← hcommand, hrender, hinput]
  rfl

/-- A void write, reached on two paths of its tree. -/
def sysCommit : AnyOperation where
  manifestId := js "cli.sys.commit"
  classification := .write
  buildFrames _ := .ok [js "sys commit"]

def sysTree : OperationTree := .record [.operation 0, .array [.operation 0]]

/-- The curated tool with that command. -/
def sysCommitTool : CuratedCommand where
  id := js "sys_commit"
  kind := .write
  render _ := .ok (js "sys commit")
  accepts _ := true
  confirm := none
  affectsNetwork := none
  snapshotRead := none
  secretArgs := none
  sensitiveOutput := none
  timeoutMs := none
  skipCommit := none
  sdk := none
  args := .empty

theorem preview_agrees_commit : ∃ index, buildOperationIndex (fun _ => sysCommit) sysTree = .ok index ∧
    ∃ cmd ∈ attachSdkVoidBindings (voidOperationForCommand (fun _ => sysCommit) sysTree)
      [sysCommitTool], ∃ binding, cmd.sdk = some binding ∧
      Previews index.operationFor cmd.toCommandDef binding .empty ∧
      (((SdkVigorClient.new false).authorizeWrite (js "sys commit")).runWriteOperation
        ⟨index.operationFor, fun _ => false⟩ binding.manifestId .undefined).1 ≠
          .error (errNotConfirmed binding.manifestId) := by
  have indexed : buildOperationIndex (fun _ => sysCommit) sysTree =
      .ok ((OperationIndex.empty.set 0).set 0) := rfl
  refine ⟨_, indexed, _, List.mem_cons_self, _, rfl, ?_⟩
  have unbound : ∀ sdk, ∀ c ∈ [sysCommitTool], c.sdk = none ∨ SdkBuilt sdk c.toCommandDef := by
    intro sdk c hc
    obtain rfl := List.mem_singleton.mp hc
    exact .inl rfl
  have takes : (attachSdkVoidBinding (voidOperationForCommand (fun _ => sysCommit) sysTree)
      sysCommitTool).Takes .empty := ⟨.empty, rfl⟩
  obtain ⟨hpreviews, hrun⟩ := preview_agrees indexed (fun _ _ => true)
    (fun _ => .ok ⟨fun _ => true, false, .ok, []⟩) (.linked (unbound _) List.mem_cons_self takes) rfl
  exact ⟨hpreviews, hrun ⟨js "sys commit", .undefined, js "sys commit", []⟩ rfl _ _ rfl rfl⟩

/-- An operation that refuses to frame a line break in its argument. -/
def appeShow : AnyOperation where
  manifestId := js "cli.csm.appe.show"
  classification := .read
  buildFrames
    | .obj fields =>
      if (fieldText fields (js "group")).contains 10 then
        .error (.sdk .commandFramingRejected (js "command must be a single line"))
      else .ok [js "csm appe show -g " ++ fieldText fields (js "group")]
    | _ => .error (.error none (js "invalid input"))

/-- Where the frames fail, the tool throws and its binding still resolves an input. -/
theorem preview_throws_alone : ∃ zs index, jsonSchemaToZod (some optionalGroup) = .ok zs ∧
    buildOperationIndex (fun _ => appeShow) (.operation 0) = .ok index ∧
    ∃ cmd args binding, BoundCall
        (index.sdk (fun _ _ => true) fun _ => .ok (convertedSchema (some optionalGroup) zs fun _ => []))
        (voidOperationForCommand (fun _ => appeShow) (.operation 0)) cmd args ∧
      cmd.accepts args = true ∧ cmd.sdk = some binding ∧
      ¬((∃ e e', cmd.render args = .error e ∧ resolveSdkInput binding args = .error e') ∨
        ∃ op input frames, index.operationFor binding.manifestId = some op ∧
          resolveSdkInput binding args = .ok input ∧ op.buildFrames input = .ok frames ∧
          cmd.render args = .ok (join (js "\n") frames)) := by
  refine ⟨_, _, rfl, rfl, _, ⟨[(js "group", .str [10])], by decide⟩, _,
    .built ⟨js "csm_appe_show", js "cli.csm.appe.show", {}, rfl⟩, rfl, rfl, ?_⟩
  rintro (⟨e, e', _, hinput⟩ | ⟨op, input, frames, _, _, _, hrender⟩)
  · cases hinput
  · cases hrender

end VigorMcp
