import VigorMcp.Commands.GeneratedIds
import VigorMcp.Commands.ReadTool
import VigorMcp.Sdk.FlatShape
import VigorMcp.Sdk.SecretFields
import VigorMcp.Sdk.Uniform

/-!
# The typed input of a generated tool

A tool that `S` builds is registered with the flattened shape of its operation's
schema. What that schema returns of a call's arguments, without the approval
fields when the tool writes, is mapped to the operation's typed input: the
argument `input` for a wrapped schema, otherwise all arguments, with `undefined`
in place of none. An input that `full` accepts comes through, up to the order of
its fields, when `full` knows all its fields and it is wrapped, or is not the
empty record, has no field named as one of the approval's, and the registered
schema takes it whole (`typed_input_expressible`).
-/

namespace VigorMcp

/-- What `S` takes from an input schema; `issues` is the text of zod's issues. -/
def convertedSchema (schema : Option JsonSchema) (zs : ZodSchemas) (issues : JsValue → JStr) :
    ConvertedSchema where
  shape args := (Zod.object zs.shape false none).accepts (.obj args.entries)
  wrapsInput := zs.wrap
  full input :=
    match zs.full.parse input with
    | some data => .ok data
    | none => .error (issues input)
  secretFields := secretFieldsOf schema

@[simp] theorem wrapsInput_convertedSchema (schema : Option JsonSchema) (zs : ZodSchemas)
    (issues : JsValue → JStr) : (convertedSchema schema zs issues).wrapsInput = zs.wrap := rfl

@[simp] theorem secretFields_convertedSchema (schema : Option JsonSchema) (zs : ZodSchemas)
    (issues : JsValue → JStr) :
    (convertedSchema schema zs issues).secretFields = secretFieldsOf schema := rfl

section

variable {schema : Option JsonSchema} {zs : ZodSchemas} {issues : JsValue → JStr} {args : Args}
  {input data : JsValue}

theorem autoToInput_wrap (hw : zs.wrap = true) :
    autoToInput (convertedSchema schema zs issues) args = .ok (args.value (js "input")) := by
  simp [autoToInput, convertedSchema, hw]

theorem autoToInput_record (hw : zs.wrap = false) :
    autoToInput (convertedSchema schema zs issues) args =
      .ok (if args.entries = [] then .undefined else .obj args.entries) := by
  simp [autoToInput, convertedSchema, hw, defaultToInput, OrderedMap.size]

theorem autoValidate_ok_iff {manifestId : JStr} :
    autoValidate manifestId (convertedSchema schema zs issues) input = .ok data ↔
      zs.full.parse input = some data := by
  simp only [autoValidate, convertedSchema]
  cases zs.full.parse input with
  | none => exact iff_of_false nofun nofun
  | some d => simp only [Except.ok.injEq, Option.some.injEq]

end

/-- A wrapped schema has the one argument `input`. -/
theorem shape_of_wrap {schema : Option JsonSchema} {zs : ZodSchemas}
    (h : jsonSchemaToZod schema = .ok zs) (hw : zs.wrap = true) :
    zs.shape = [(js "input", zs.full)] := by
  cases schema with
  | none =>
    obtain rfl := Except.ok.inj h
    cases hw
  | some schema =>
    obtain ⟨_, _, h⟩ := Except.bind_eq_ok.mp h
    cases hone : schema.oneOf with
    | some branches =>
      simp only [hone] at h
      obtain ⟨_, ⟨_, zType, _, rfl⟩ | ⟨_, shape, options, full, _, _, _, rfl⟩⟩ :=
        buildTopLevelOneOf_ok_iff.mp h
      · rfl
      · cases hw
    | none =>
      simp only [hone, buildTopLevel] at h
      split at h
      · obtain ⟨shape, _, h⟩ := Except.bind_eq_ok.mp h
        obtain rfl := Except.pure_eq_ok.mp h
        cases hw
      · obtain ⟨zType, _, rfl⟩ := Except.map_eq_ok.mp h
        rfl

/-! ## A call of a registered tool -/

namespace CommandDef

/-- The fields that `registerWrite` puts over a tool's own. -/
def approvalShape (cmd : CommandDef) : List (JStr × Zod) :=
  [(js "confirmation_id", .optional .string), (js "signature", .optional .string)] ++
    if cmd.confirm = some .dual then [(js "acknowledge", .optional .boolean)] else []

/-- The shape that a tool is registered with. -/
def registered (cmd : CommandDef) (shape : List (JStr × Zod)) : OrderedMap JStr Zod :=
  (shape ++ if cmd.kind = .write then cmd.approvalShape else []).foldl
    (fun m e => m.set e.1 e.2) .empty

/-- What `server.tool` makes of the arguments of a call. -/
def argsSchema (cmd : CommandDef) (shape : List (JStr × Zod)) : Zod :=
  .object (cmd.registered shape).entries false none

/-- A call with these arguments reaches the handler, with those. -/
def Receives (cmd : CommandDef) (shape : List (JStr × Zod)) (args received : Args) : Prop :=
  (cmd.argsSchema shape).parse (.obj args.entries) = some (.obj received.entries)

/-- The arguments that a tool's handler renders and resolves: those besides the approval fields when
the tool writes. -/
def handled (cmd : CommandDef) (args : Args) : Args :=
  if cmd.kind = .write then ownArgs args else args

end CommandDef

section

variable {cmd : CommandDef} {shape : List (JStr × Zod)} {args received : Args}

/-- An accepted call has arguments for the handler. -/
theorem exists_receives (h : (cmd.argsSchema shape).accepts (.obj args.entries) = true) :
    ∃ received, cmd.Receives shape args received := by
  obtain ⟨data, hd⟩ := Zod.accepts_iff.mp h
  have hd' := hd
  rw [CommandDef.argsSchema, Zod.parse, Bool.false_and, if_neg Bool.false_ne_true] at hd'
  obtain ⟨out, ho, rfl⟩ := Option.map_eq_some_iff.mp hd'
  exact ⟨⟨out, (cmd.registered shape).nodup.sublist (Zod.parseShape_keys ho)⟩, hd⟩

/-- What the handler gets under a name. -/
theorem CommandDef.Receives.get (h : cmd.Receives shape args received) (key : JStr) :
    received.get key = (args.get key).bind fun v => ((cmd.registered shape).get key).bind fun schema =>
      schema.parse v := by
  rw [CommandDef.Receives, CommandDef.argsSchema, Zod.parse, Bool.false_and,
    if_neg Bool.false_ne_true] at h
  obtain ⟨out, ho, hout⟩ := Option.map_eq_some_iff.mp h
  obtain rfl := JsValue.obj.inj hout
  simp only [← OrderedMap.lookup_entries, Zod.lookup_parseShape ho]

theorem ownArgs_within (args : Args) :
    JsValue.Within (.obj (ownArgs args).entries) (.obj args.entries) := by
  refine .obj fun key c hc => ⟨c, ?_, .refl c⟩
  rw [OrderedMap.lookup_entries, OrderedMap.get_eq_some] at hc ⊢
  rw [ownArgs_entries] at hc
  exact (List.mem_filter.mp hc).1

theorem handled_within (cmd : CommandDef) (args : Args) :
    JsValue.Within (.obj (cmd.handled args).entries) (.obj args.entries) := by
  unfold CommandDef.handled
  split
  · exact ownArgs_within args
  · exact .refl _

/-- `input` is not among the approval's fields. -/
theorem handled_input (cmd : CommandDef) (args : Args) :
    (cmd.handled args).value (js "input") = args.value (js "input") := by
  have hinput : js "input" ∉ approvalFields := by decide
  unfold CommandDef.handled
  split
  · unfold Args.value
    congr 1
    ext v
    rw [OrderedMap.get_eq_some, OrderedMap.get_eq_some, ownArgs_entries, List.mem_filter,
      and_iff_left (by simpa using hinput)]
  · rfl

end

/-- A call carries its input: the binding resolves to it, and the tool renders its frames. -/
structure CarriesInput (cmd : CommandDef) (op : AnyOperation) (args : Args) (input : JsValue) :
    Prop where
  resolves : ∃ sdk ∈ cmd.sdk, ∃ v, resolveSdkInput sdk (cmd.handled args) = .ok v ∧ v.Same input
  renders : cmd.render (cmd.handled args) = renderFrames op input

/-- The call that a read tool makes is the operation with the input. -/
theorem CarriesInput.readCall {cmd : CommandDef} {op : AnyOperation} {args : Args} {input : JsValue}
    (h : CarriesInput cmd op args input) (read : cmd.kind = .read) (command : JStr) :
    ∃ sdk ∈ cmd.sdk, ∃ v, v.Same input ∧
      readCall cmd args command = .ok (.runOperation sdk.manifestId v) := by
  obtain ⟨sdk, hsdk, v, hv, hsame⟩ := h.resolves
  rw [CommandDef.handled, if_neg (by simp [read])] at hv
  exact ⟨sdk, hsdk, v, hsame, by simp [VigorMcp.readCall, Option.mem_def.mp hsdk, hv]⟩

/-- What a write call has prepared are the frames of the input and the input. -/
theorem CarriesInput.prepared {cmd : CommandDef} {op : AnyOperation} {args : Args} {input : JsValue}
    (h : CarriesInput cmd op args input) (write : cmd.kind = .write) {p : PreparedWrite}
    (hp : prepareWrite cmd (ownArgs args) = .ok p) :
    renderFrames op input = .ok p.command ∧ p.sdkInput.Same input := by
  obtain ⟨sdk, hsdk, v, hv, hsame⟩ := h.resolves
  have hrenders := h.renders
  rw [CommandDef.handled, if_pos write] at hv hrenders
  obtain ⟨hcommand, _, hinput⟩ := prepareWrite_eq_ok.mp hp
  rw [Option.mem_def.mp hsdk, Option.elim_some, hv, Except.ok.injEq] at hinput
  exact ⟨hrenders.symm.trans hcommand, hinput ▸ hsame⟩

/-- A field of the input that the handler of a write takes for the approval's. -/
def NamesApproval (op : AnyOperation) (input : JsValue) : Prop :=
  op.classification ≠ .read ∧ ∃ key ∈ approvalFields, input.child (.field key) ≠ none

theorem NamesApproval.of_same {op : AnyOperation} {v w : JsValue} (h : NamesApproval op v)
    (hs : v.Same w) : NamesApproval op w := by
  obtain ⟨write, key, hkey, hfield⟩ := h
  refine ⟨write, key, hkey, fun hnone => hfield ?_⟩
  have hsome := (hs.child (.field key)).isSome_eq
  rw [hnone, Option.isSome_none, Option.isSome_eq_false_iff, Option.isNone_iff_eq_none] at hsome
  exact hsome

/-- The tool that `S` builds without overrides, under its policy. -/
def schemaTool (operationFor : JStr → Option AnyOperation) (op : AnyOperation)
    (converted : ConvertedSchema) (id : JStr) (timeoutMs : Option Int) : CommandDef :=
  applyToolPolicy operationFor (sdkTool op converted id { timeoutMs := timeoutMs })

section

variable {operationFor : JStr → Option AnyOperation} {op : AnyOperation}
  {converted : ConvertedSchema} {id : JStr} {timeoutMs : Option Int} {args : Args}

theorem schemaTool_kind : (schemaTool operationFor op converted id timeoutMs).kind = .write ↔
    op.classification ≠ .read := by
  show (if op.classification = .read then CommandKind.read else .write) = .write ↔ _
  split <;> simp_all

/-- A record without such a field reaches the mapping as it is. -/
theorem handled_eq_self (h : ¬NamesApproval op (.obj args.entries)) :
    (schemaTool operationFor op converted id timeoutMs).handled args = args := by
  unfold CommandDef.handled
  split
  · next hwrite =>
    refine ownArgs_eq_self fun e he hkey => h ⟨schemaTool_kind.mp hwrite, e.1, hkey, fun hnone => ?_⟩
    exact absurd (List.lookup_eq_none_iff.mp hnone e he) (by simp)
  · rfl

/-- Such a field is gone before the mapping. -/
theorem handled_absent (write : op.classification ≠ .read) {key : JStr}
    (hkey : key ∈ approvalFields) (args : Args) :
    ((schemaTool operationFor op converted id timeoutMs).handled args).entries.lookup key = none := by
  rw [CommandDef.handled, if_pos (schemaTool_kind.mpr write), OrderedMap.lookup_entries]
  exact ownArgs_get args hkey

end

/-- A call carries its input when the mapping makes a value of it that `full` returns the input for. -/
theorem carriesInput_iff {schema : Option JsonSchema} {zs : ZodSchemas} {issues : JsValue → JStr}
    {operationFor : JStr → Option AnyOperation} {op : AnyOperation} {id : JStr}
    {timeoutMs : Option Int} {args : Args} {input mapped : JsValue}
    (frames : ∀ v, v.Same input → op.buildFrames v = op.buildFrames input)
    (hmapped : autoToInput (convertedSchema schema zs issues)
      ((schemaTool operationFor op (convertedSchema schema zs issues) id timeoutMs).handled args) =
        .ok mapped) :
    CarriesInput (schemaTool operationFor op (convertedSchema schema zs issues) id timeoutMs)
        op args input ↔
      ∃ v, zs.full.parse mapped = some v ∧ v.Same input := by
  set converted := convertedSchema schema zs issues with hconverted
  have hresolve : ∀ v, resolveSdkInput
      ⟨op.manifestId, some (autoToInput converted), some (autoValidate op.manifestId converted), false⟩
      ((schemaTool operationFor op converted id timeoutMs).handled args) = .ok v ↔
        zs.full.parse mapped = some v := fun v => by
    simp only [resolveSdkInput, hmapped, bind, Except.bind]
    exact autoValidate_ok_iff
  constructor
  · rintro ⟨⟨sdk, ⟨⟩, v, hv, hsame⟩, _⟩
    exact ⟨v, (hresolve v).mp hv, hsame⟩
  · rintro ⟨v, hv, hsame⟩
    refine ⟨⟨_, rfl, v, (hresolve v).mpr hv, hsame⟩, ?_⟩
    have hvalid : autoValidate op.manifestId converted mapped = .ok v := autoValidate_ok_iff.mpr hv
    show (do renderFrames op (← autoValidate op.manifestId converted (← autoToInput converted _))) = _
    simp only [hmapped, hvalid, bind, Except.bind, renderFrames, frames v hsame]

/-! ## Which inputs come through -/

section

variable {schema : JsonSchema} {zs : ZodSchemas} {operationFor : JStr → Option AnyOperation}
  {op : AnyOperation} {converted : ConvertedSchema} {id : JStr} {timeoutMs : Option Int}
  {input data : JsValue} {args received : Args}

/-- `input` is registered with `full`. -/
theorem registered_input (h : jsonSchemaToZod (some schema) = .ok zs) (hw : zs.wrap = true)
    (cmd : CommandDef) : (cmd.registered zs.shape).get (js "input") = some zs.full := by
  rw [CommandDef.registered, shape_of_wrap h hw, List.singleton_append, List.foldl_cons,
    OrderedMap.get_foldl_set, OrderedMap.get_set_self]
  split
  · unfold CommandDef.approvalShape
    split <;> decide
  · exact List.not_mem_nil

/-- A wrapped call is let through with its input parsed. -/
theorem receives_wrapped (h : jsonSchemaToZod (some schema) = .ok zs) (hw : zs.wrap = true)
    {cmd : CommandDef} (hd : zs.full.parse input = some data)
    (called : .obj args.entries = zs.args input) (hr : cmd.Receives zs.shape args received) :
    received.value (js "input") = data := by
  have hentries : args.entries = [(js "input", input)] := by
    simpa only [ZodSchemas.args, hw, ↓reduceIte, JsValue.obj.injEq] using called
  have hinput : args.get (js "input") = some input :=
    OrderedMap.get_eq_some.mpr (by rw [hentries]; exact List.mem_singleton_self _)
  rw [Args.value, hr.get, hinput, registered_input h hw, Option.bind_some, Option.bind_some, hd]
  rfl

/-- The approval's fields may be left out. -/
theorem approvalShape_accepts {cmd : CommandDef} {e : JStr × Zod}
    (he : e ∈ if cmd.kind = .write then cmd.approvalShape else []) :
    e.2.accepts .undefined = true := by
  split at he
  · rw [CommandDef.approvalShape, List.mem_append] at he
    rcases he with he | he
    · rcases List.mem_cons.mp he with rfl | he
      · rfl
      · rw [List.mem_singleton.mp he]
        rfl
    · split at he
      · rw [List.mem_singleton.mp he]
        rfl
      · cases he
  · cases he

theorem accepts_wrapped (h : jsonSchemaToZod (some schema) = .ok zs) (hw : zs.wrap = true)
    (cmd : CommandDef) (ha : zs.full.accepts input = true)
    (called : .obj args.entries = zs.args input) :
    (cmd.argsSchema zs.shape).accepts (.obj args.entries) = true := by
  rw [called, ZodSchemas.args, if_pos hw]
  refine Zod.accepts_object.mpr ⟨nofun, fun e he => ?_⟩
  by_cases hkey : e.1 = js "input"
  · have hget := registered_input h hw cmd
    rw [← hkey, OrderedMap.get_eq_some] at hget
    have hinput : Zod.field [(js "input", input)] (js "input") = input := rfl
    rw [OrderedMap.eq_of_mem he hget, hkey, hinput]
    exact ha
  · have hfield : Zod.field [(js "input", input)] e.1 = .undefined := by
      rw [Zod.field, List.lookup_cons, beq_eq_false_iff_ne.mpr hkey]
      rfl
    rw [hfield]
    have hmem := (OrderedMap.mem_foldl_set he).resolve_left List.not_mem_nil
    rw [shape_of_wrap h hw, List.singleton_append, List.mem_cons] at hmem
    exact approvalShape_accepts (hmem.resolve_left fun hown => hkey (hown ▸ rfl))

end

section

variable {schema : JsonSchema} {zs : ZodSchemas} {issues : JsValue → JStr}
  {operationFor : JStr → Option AnyOperation} {op : AnyOperation} {id : JStr}
  {timeoutMs : Option Int} {args : Args} {input data : JsValue}

/-- Under `input` the handler gets what `full` returns, and `full` parses that once more. -/
theorem wrapped_expressible (h : jsonSchemaToZod (some schema) = .ok zs) (hw : zs.wrap = true)
    (hd : zs.full.parse input = some data)
    (frames : ∀ v, v.Same input → op.buildFrames v = op.buildFrames input)
    (called : .obj args.entries = zs.args input) :
    let cmd := schemaTool operationFor op (convertedSchema (some schema) zs issues) id timeoutMs
    (∃ received, cmd.Receives zs.shape args received ∧ CarriesInput cmd op received input) ↔
      data.Same input := by
  intro cmd
  have hmapped : ∀ {received : Args}, cmd.Receives zs.shape args received →
      autoToInput (convertedSchema (some schema) zs issues) (cmd.handled received) = .ok data := by
    intro received hr
    rw [autoToInput_wrap hw, handled_input, receives_wrapped h hw hd called hr]
  constructor
  · rintro ⟨received, hr, hcarries⟩
    obtain ⟨v, hv, hsame⟩ := (carriesInput_iff frames (hmapped hr)).mp hcarries
    exact hsame.between (Zod.parse_within hv) (Zod.parse_within hd)
  · intro hsame
    obtain ⟨received, hr⟩ :=
      exists_receives (accepts_wrapped h hw cmd (Zod.accepts_iff.mpr ⟨data, hd⟩) called)
    obtain ⟨v, hv, hdata⟩ := (full_uniform h).parse_eq_some hsame.symm hd
    exact ⟨received, hr, (carriesInput_iff frames (hmapped hr)).mpr ⟨v, hv, hdata.symm.trans hsame⟩⟩

/-- A record goes through three hands, none of which adds a field: what comes out is the input only if
it was the input all along. -/
theorem record_expressible (h : jsonSchemaToZod (some schema) = .ok zs) (hw : zs.wrap = false)
    (hd : zs.full.parse (.obj args.entries) = some data)
    (frames : ∀ v, v.Same (.obj args.entries) →
      op.buildFrames v = op.buildFrames (.obj args.entries)) :
    let cmd := schemaTool operationFor op (convertedSchema (some schema) zs issues) id timeoutMs
    (∃ received, cmd.Receives zs.shape args received ∧
        CarriesInput cmd op received (.obj args.entries)) ↔
      data.Same (.obj args.entries) ∧ args.entries ≠ [] ∧ ¬NamesApproval op (.obj args.entries) ∧
        (cmd.argsSchema zs.shape).takes (.obj args.entries) = true := by
  intro cmd
  have hcarries : ∀ received, CarriesInput cmd op received (.obj args.entries) ↔
      ∃ v, zs.full.parse (if (cmd.handled received).entries = [] then .undefined
        else .obj (cmd.handled received).entries) = some v ∧ v.Same (.obj args.entries) :=
    fun received => carriesInput_iff frames (autoToInput_record hw)
  constructor
  · rintro ⟨received, hr, hc⟩
    obtain ⟨v, hv, hsame⟩ := (hcarries received).mp hc
    split at hv
    · -- no arguments mean `undefined`, which no schema but the void one takes
      exact absurd (Zod.accepts_iff.mpr ⟨v, hv⟩) (full_rejects_undefined h)
    · next hne =>
      have hparsed := Zod.parse_within hv
      have hown := handled_within cmd received
      have hreceived := Zod.parse_within hr
      have hhandled := hsame.between hparsed (hown.trans hreceived)
      obtain ⟨data', hdata', hv'⟩ := (full_uniform h).parse_eq_some hhandled hv
      obtain rfl := Option.some.inj (hdata'.symm.trans hd)
      refine ⟨hv'.symm.trans hsame, ?_, ?_, ?_⟩
      · exact fun hnil => hne (Zod.eq_nil_of_same (hnil ▸ hhandled))
      · intro hnames
        obtain ⟨write, key, hkey, hfield⟩ := hnames.of_same hhandled.symm
        exact hfield (handled_absent write hkey received)
      · exact Zod.takes_iff.mpr ⟨_, hr, hsame.between (hparsed.trans hown) hreceived⟩
  · rintro ⟨hsame, hne, hnames, htakes⟩
    obtain ⟨_, hdata, hreceived⟩ := Zod.takes_iff.mp htakes
    obtain ⟨received, hr⟩ := exists_receives (Zod.accepts_iff.mpr ⟨_, hdata⟩)
    obtain rfl := Option.some.inj (hdata.symm.trans hr)
    have hhandled : cmd.handled received = received :=
      handled_eq_self fun hno => hnames (hno.of_same hreceived)
    have hentries : received.entries ≠ [] := fun hnil =>
      hne (Zod.eq_nil_of_same (hnil ▸ hreceived.symm))
    obtain ⟨v, hv, hdata⟩ := (full_uniform h).parse_eq_some hreceived.symm hd
    refine ⟨received, hr, (hcarries received).mpr ⟨v, ?_, hdata.symm.trans hsame⟩⟩
    rw [hhandled, if_neg hentries]
    exact hv

end

/-- **A typed input is expressible through its tool** exactly when `full` knows all its fields and it
is wrapped, or neither the empty record nor one with an approval field of a write, and taken whole by
the schema that the tool is registered with. -/
theorem typed_input_expressible {schema : JsonSchema} {zs : ZodSchemas}
    (h : jsonSchemaToZod (some schema) = .ok zs) (issues : JsValue → JStr)
    (operationFor : JStr → Option AnyOperation) (op : AnyOperation) (id : JStr)
    (timeoutMs : Option Int) {input : JsValue} (ha : zs.full.accepts input = true)
    (frames : ∀ v, v.Same input → op.buildFrames v = op.buildFrames input)
    {args : Args} (called : .obj args.entries = zs.args input) :
    let cmd := schemaTool operationFor op (convertedSchema (some schema) zs issues) id timeoutMs
    (∃ received, cmd.Receives zs.shape args received ∧ CarriesInput cmd op received input) ↔
      zs.full.knows input = true ∧ (zs.wrap = true ∨ input ≠ .obj [] ∧ ¬NamesApproval op input ∧
        (cmd.argsSchema zs.shape).takes input = true) := by
  intro cmd
  obtain ⟨data, hd⟩ := Zod.accepts_iff.mp ha
  rw [← Zod.parse_same_iff hd]
  cases hw : zs.wrap with
  | true =>
    rw [and_iff_left (.inl rfl)]
    exact wrapped_expressible h hw hd frames called
  | false =>
    obtain rfl : .obj args.entries = input := by
      simpa only [ZodSchemas.args, hw, Bool.false_eq_true, ↓reduceIte] using called
    rw [or_iff_right Bool.false_ne_true, ne_eq, JsValue.obj.injEq]
    exact record_expressible h hw hd frames

/-- `{ mode: 'off' }` reaches its operation. -/
theorem typed_input_expressible_mode :
    let args : Args := ⟨[(js "mode", .str (js "off"))], by decide⟩
    let op := plainRead (js "cli.mode")
    ∃ zs, jsonSchemaToZod (some modeUnion) = .ok zs ∧ ∃ received,
      let cmd := schemaTool (fun _ => some op) op (convertedSchema (some modeUnion) zs fun _ => [])
        (js "mode") none
      cmd.Receives zs.shape args received ∧ CarriesInput cmd op received (.obj args.entries) := by
  intro args op
  refine ⟨_, rfl, Iff.mpr (typed_input_expressible rfl (fun _ => []) (fun _ => some op) op
    (js "mode") none ?_ (fun _ _ => rfl) rfl) ⟨?_, .inr ⟨nofun, fun hnames => hnames.1 rfl, ?_⟩⟩⟩
  · decide
  · decide
  · decide

/-- An operation with one optional argument. -/
def optionalGroup : JsonSchema :=
  .mk { type := some .object, additionalProperties := some false }
    (some [(js "group", .mk { type := some .string } none none none)]) none none

/-- **No arguments are refused** where all are optional: `full` accepts the empty record, the tool
hands it `undefined`. -/
theorem empty_record_refused : ∃ zs, jsonSchemaToZod (some optionalGroup) = .ok zs ∧
    zs.full.accepts (.obj []) = true ∧
      let op := plainRead (js "cli.csm.appe.show")
      let cmd := schemaTool (fun _ => some op) op
        (convertedSchema (some optionalGroup) zs fun _ => js "$: Required") (js "csm_appe_show") none
      cmd.Receives zs.shape .empty .empty ∧ ∃ sdk ∈ cmd.sdk,
        resolveSdkInput sdk (cmd.handled .empty) = .error (.vigor ⟨.invalid,
          js "invalid input for SDK operation \"cli.csm.appe.show\": $: Required"⟩) :=
  ⟨_, rfl, rfl, rfl, _, rfl, rfl⟩

end VigorMcp
