import VigorMcp.Commands.ReadAllowlist
import VigorMcp.Commands.TypedInput

/-!
# Loading the read allowlist

The allowlist is computed when its module is loaded, and renders every
combination of the values that a read's argument schemas list. For a tool that
`S` builds from an input schema the argument schemas take more than `full`: no
arguments where all are optional, and the values of one branch of a union beside
those of another. Such a combination is not skipped but ends the load
(`allowlist_loads_iff`).
-/

namespace VigorMcp

/-- A read tool that `S` builds from its operation's input schema, without overrides. -/
structure SchemaRead where
  id : JStr
  op : AnyOperation
  isRead : op.classification = .read
  schema : Option JsonSchema
  zod : ZodSchemas
  converts : jsonSchemaToZod schema = .ok zod
  args : OrderedMap JStr Zod
  args_eq : args.entries = zod.shape
  /-- The text of zod's issues. -/
  issues : JsValue → JStr
  opts : SdkCommandOptions
  plain : opts.args = none ∧ opts.toInput = none ∧ opts.validate = none

namespace SchemaRead

variable (tool : SchemaRead)

def converted : ConvertedSchema := convertedSchema tool.schema tool.zod tool.issues

def command : ReadCommand :=
  { sdkTool tool.op tool.converted tool.id tool.opts with args := tool.args }

@[simp] theorem command_args : tool.command.args = tool.args := rfl

@[simp] theorem command_id : tool.command.id = tool.id := rfl

/-- Some call of the tool renders a command. -/
def Usable : Prop :=
  ∃ args command, tool.command.Takes args ∧ tool.command.render args = .ok command

/-- No listed value has a blank or one of ``; | & ` $``. -/
def SafeValues : Prop :=
  ∀ e ∈ tool.args.entries, ∀ values, extractEnumValues e.2 = some values →
    values.any ArgValue.isUnsafe = false

/-- One listed value for each argument, where an optional one may be left out; there are none when
an argument lists no values. -/
def Choice (schemaObject : Zod → JsValue) (picked : List (JStr × JsValue)) : Prop :=
  ∃ lists, ValueLists tool.args.entries lists ∧ Picks schemaObject lists picked

/-- The arguments are those of an input that `full` takes and the operation has frames for. -/
def Carries (picked : List (JStr × JsValue)) : Prop :=
  picked ≠ [] ∧ ∃ input data frames, .obj picked = tool.zod.args input ∧
    tool.zod.full.parse input = some data ∧ tool.op.buildFrames data = .ok frames

end SchemaRead

/-! ## One tool -/

section

variable {tool : SchemaRead} {schemaObject : Zod → JsValue} {args : Args}

namespace SchemaRead

/-- The tool renders its arguments when `full` takes the input they map to, and the operation has
frames for what `full` returns. -/
theorem renders_iff {input : JsValue} (mapped : autoToInput tool.converted args = .ok input) :
    (∃ command, tool.command.render args = .ok command) ↔
      ∃ data frames, tool.zod.full.parse input = some data ∧
        tool.op.buildFrames data = .ok frames := by
  obtain ⟨-, hto, hval⟩ := tool.plain
  have hrender : tool.command.render args = (do
      renderFrames tool.op (← autoValidate tool.op.manifestId tool.converted input)) := by
    simp only [command, sdkTool, hto, hval, Option.getD_none, mapped]
    rfl
  rw [hrender]
  simp only [Except.bind_eq_ok, renderFrames, Except.pure_eq_ok]
  constructor
  · rintro ⟨_, data, hdata, frames, hframes, _⟩
    exact ⟨data, frames, autoValidate_ok_iff.mp hdata, hframes⟩
  · rintro ⟨data, frames, hdata, hframes⟩
    exact ⟨_, data, autoValidate_ok_iff.mpr hdata, frames, hframes, rfl⟩

/-- No conversion but the void one has a tool without arguments, or takes `undefined`. -/
theorem rejects_undefined (hargs : tool.args.size ≠ 0) {data : JsValue} :
    ¬tool.zod.full.parse .undefined = some data := by
  intro hdata
  have hconverts := tool.converts
  cases hschema : tool.schema with
  | none =>
    rw [hschema] at hconverts
    have hshape := tool.args_eq
    rw [← Except.ok.inj hconverts] at hshape
    exact hargs (List.length_eq_zero_iff.mpr hshape)
  | some schema =>
    rw [hschema] at hconverts
    exact full_rejects_undefined hconverts (Zod.accepts_iff.mpr ⟨data, hdata⟩)

theorem Choice.keys_sublist {picked : List (JStr × JsValue)}
    (h : tool.Choice schemaObject picked) :
    (picked.map Prod.fst).Sublist (tool.args.entries.map Prod.fst) := by
  obtain ⟨lists, hlists, hpicks⟩ := h
  rw [← hlists.names]
  exact hpicks.keys_sublist

/-- A choice is rendered when it carries an input; no arguments are handed over as `undefined`. -/
theorem renders_choice_iff (hargs : tool.args.size ≠ 0)
    (hchoice : tool.Choice schemaObject args.entries) :
    (∃ command, tool.command.render args = .ok command) ↔ tool.Carries args.entries := by
  have hkeys := hchoice.keys_sublist
  have hnone : autoToInput tool.converted args = .ok .undefined → args.entries = [] →
      ((∃ command, tool.command.render args = .ok command) ↔ tool.Carries args.entries) := by
    intro mapped hempty
    rw [renders_iff mapped]
    refine iff_of_false ?_ fun h => h.1 hempty
    rintro ⟨data, _, hdata, _⟩
    exact rejects_undefined hargs hdata
  have hsome : ∀ input, autoToInput tool.converted args = .ok input → args.entries ≠ [] →
      (∀ v, .obj args.entries = tool.zod.args v ↔ v = input) →
      ((∃ command, tool.command.render args = .ok command) ↔ tool.Carries args.entries) := by
    intro input mapped hne called
    rw [renders_iff mapped, Carries, and_iff_right hne]
    simp only [called]
    constructor
    · rintro ⟨data, frames, h⟩
      exact ⟨input, data, frames, rfl, h⟩
    · rintro ⟨_, data, frames, rfl, h⟩
      exact ⟨data, frames, h⟩
  cases hw : tool.zod.wrap with
  | true =>
    rw [tool.args_eq, shape_of_wrap tool.converts hw, List.map_singleton, List.sublist_singleton]
      at hkeys
    rcases hkeys with hempty | hinput
    · have hentries := List.map_eq_nil_iff.mp hempty
      refine hnone ((autoToInput_wrap hw).trans ?_) hentries
      simp [Args.value, OrderedMap.get, hentries]
    · obtain ⟨⟨key, v⟩, hentries, rfl⟩ := List.map_eq_singleton_iff.mp hinput
      have called : ∀ w, .obj args.entries = tool.zod.args w ↔ w = v := by
        intro w
        simp [ZodSchemas.args, hw, hentries, eq_comm]
      refine hsome v ((autoToInput_wrap hw).trans ?_) (by simp [hentries]) called
      simp [Args.value, OrderedMap.get, hentries]
  | false =>
    have called : ∀ w, .obj args.entries = tool.zod.args w ↔ w = .obj args.entries := by
      intro w
      simp [ZodSchemas.args, hw, eq_comm]
    have mapped : autoToInput tool.converted args =
        .ok (if args.entries = [] then .undefined else .obj args.entries) :=
      autoToInput_record hw
    by_cases hempty : args.entries = []
    · rw [if_pos hempty] at mapped
      exact hnone mapped hempty
    · rw [if_neg hempty] at mapped
      exact hsome _ mapped hempty called

end SchemaRead

end

/-! ## One round -/

section

variable {schemaObject : Zod → JsValue} {shape : List (JStr × Zod)}
  {lists : List (JStr × List ArgValue)} {picked : List (JStr × JsValue)}

theorem valueLists_ok {id : JStr}
    (isSafe : ∀ e ∈ shape, ∀ values, extractEnumValues e.2 = some values →
      values.any ArgValue.isUnsafe = false) :
    ∃ r, valueLists id shape = .ok r := by
  induction shape with
  | nil => exact ⟨_, rfl⟩
  | cons e shape ih =>
    obtain ⟨key, schema⟩ := e
    rw [List.forall_mem_cons] at isSafe
    rw [valueLists]
    split
    · exact ⟨_, rfl⟩
    · exact ⟨_, rfl⟩
    · next value values hvalues =>
      obtain ⟨r, hr⟩ := ih isSafe.2
      rw [isSafe.1 _ hvalues, hr]
      exact ⟨_, rfl⟩

/-- A choice has a value of every list. -/
theorem Picks.ne_nil (h : Picks schemaObject lists picked) : ∀ l ∈ lists, l.2 ≠ [] := by
  induction h with
  | nil => nofun
  | leaveOut listed _ _ ih => exact List.forall_mem_cons.mpr ⟨List.ne_nil_of_mem listed, ih⟩
  | pick listed _ _ ih => exact List.forall_mem_cons.mpr ⟨List.ne_nil_of_mem listed, ih⟩

theorem ValueLists.unique {lists' : List (JStr × List ArgValue)} (h : ValueLists shape lists)
    (h' : ValueLists shape lists') : lists = lists' := by
  refine List.Forall₂.right_unique h h' fun e _ l l' hl hl' => ?_
  exact Prod.ext (hl.1.trans hl'.1.symm) (Option.some.inj (hl.2.symm.trans hl'.2))

namespace SchemaRead

variable {tool : SchemaRead}

theorem not_choice (h : valueLists tool.id tool.args.entries = .ok none) :
    ¬tool.Choice schemaObject picked := by
  rintro ⟨lists, hlists, hpicks⟩
  obtain ⟨e, he, hvalues⟩ := valueLists_none h
  obtain ⟨l, hl, _, hlist⟩ := hlists.mem_left he
  rcases hvalues with hnone | hnil
  · rw [hnone] at hlist
    cases hlist
  · rw [hnil] at hlist
    exact hpicks.ne_nil l hl (Option.some.inj hlist).symm

/-- The expanded combinations are the choices. -/
theorem mem_expand_iff (hlists : ValueLists tool.args.entries lists) {args : Args} :
    args ∈ expandArgCombos schemaObject lists ↔ tool.Choice schemaObject args.entries := by
  rw [mem_expandArgCombos (hlists.names ▸ tool.args.nodup)]
  constructor
  · exact fun h => ⟨lists, hlists, h⟩
  · rintro ⟨lists', hlists', h⟩
    exact hlists.unique hlists' ▸ h

/-- **A round ends well** when every choice carries an input. -/
theorem addTool_ok_iff (notHost : tool.command.hostSchema? = none) (isSafe : tool.SafeValues)
    (al : Allowlist) :
    (∃ al', addTool schemaObject al tool.command = .ok al') ↔
      (tool.args.size ≠ 0 → ∀ picked, tool.Choice schemaObject picked → tool.Carries picked) := by
  by_cases hargs : tool.args.size = 0
  · exact iff_of_true ⟨al, if_pos hargs⟩ fun h => absurd hargs h
  obtain ⟨r, hr⟩ : ∃ r, valueLists tool.id tool.args.entries = .ok r := valueLists_ok isSafe
  rw [forall_prop_of_true hargs]
  unfold addTool
  rw [command_args, command_id, if_neg hargs, notHost, hr]
  cases r with
  | none => exact iff_of_true ⟨al, rfl⟩ fun picked h => absurd h (not_choice hr)
  | some lists =>
    have hlists : ValueLists tool.args.entries lists := valueLists_some hr
    have hround : (∃ renders, (expandArgCombos schemaObject lists).mapM tool.command.render =
        .ok renders) ↔ ∀ args ∈ expandArgCombos schemaObject lists, tool.Carries args.entries := by
      rw [Except.exists_mapM]
      refine forall₂_congr fun args hmem => ?_
      exact renders_choice_iff hargs ((mem_expand_iff hlists).mp hmem)
    constructor
    · rintro ⟨al', h⟩ picked hchoice
      obtain ⟨_, ⟨⟩, h⟩ := Except.bind_eq_ok.mp h
      obtain ⟨renders, hrenders, _⟩ := Except.bind_eq_ok.mp h
      have nodup : (picked.map Prod.fst).Nodup := tool.args.nodup.sublist hchoice.keys_sublist
      exact hround.mp ⟨renders, hrenders⟩ ⟨picked, nodup⟩ ((mem_expand_iff hlists).mpr hchoice)
    · intro h
      obtain ⟨renders, hrenders⟩ := hround.mpr fun args hmem =>
        h args.entries ((mem_expand_iff hlists).mp hmem)
      exact ⟨_, Except.bind_eq_ok.mpr ⟨_, rfl, Except.bind_eq_ok.mpr ⟨renders, hrenders, rfl⟩⟩⟩

/-- A usable tool without arguments renders its command. -/
theorem Usable.renders_empty (h : tool.Usable) (hargs : tool.args.size = 0) :
    ∃ command, tool.command.render .empty = .ok command := by
  obtain ⟨args, command, htakes, hrender⟩ := h
  obtain ⟨input, _, hparse⟩ := ReadCommand.takes_iff.mp htakes
  rw [command_args, List.length_eq_zero_iff.mp hargs] at hparse
  obtain rfl : args = .empty := OrderedMap.ext (Option.some.inj hparse).symm
  exact ⟨command, hrender⟩

/-- An object schema takes every choice of its own properties but the empty one. -/
theorem Choice.carries_object {isStrict : Bool}
    (zod_eq : tool.zod = ⟨tool.args.entries, .object tool.args.entries isStrict none, false⟩)
    (listed : ∀ e ∈ tool.args.entries, Expandable e.2)
    (frames : ∀ data, ∃ frames, tool.op.buildFrames data = .ok frames)
    (h : tool.Choice schemaObject picked) (hne : picked ≠ []) : tool.Carries picked := by
  have hknown : picked.any (fun f => !(tool.args.entries.map Prod.fst).contains f.1) = false := by
    rw [List.any_eq_false]
    intro f hf
    have := h.keys_sublist.subset (List.mem_map_of_mem hf)
    simpa using this
  obtain ⟨lists, hlists, hpicks⟩ := h
  have hparse : Zod.parseShape tool.args.entries picked = some picked :=
    hpicks.parseShape hlists listed tool.args.nodup fun _ _ => rfl
  obtain ⟨fs, hframes⟩ := frames (.obj picked)
  refine ⟨hne, .obj picked, .obj picked, fs, by rw [zod_eq]; rfl, ?_, hframes⟩
  simp only [zod_eq, Zod.parse, hknown, Bool.and_false, Bool.false_eq_true, ↓reduceIte, hparse]
  rfl

end SchemaRead

/-- **The read allowlist loads** exactly when every choice of listed values, for a tool with arguments,
carries an input of the tool's operation: the choice is not empty, and `full` takes it. -/
theorem allowlist_loads_iff (schemaObject : Zod → JsValue) {tools : List SchemaRead}
    (usable : ∀ tool ∈ tools, tool.Usable)
    (notHost : ∀ tool ∈ tools, tool.command.hostSchema? = none)
    (isSafe : ∀ tool ∈ tools, tool.SafeValues) :
    (∃ al, load schemaObject (tools.map SchemaRead.command) = .ok al) ↔
      ∀ tool ∈ tools, tool.args.size ≠ 0 → ∀ picked, tool.Choice schemaObject picked →
        tool.Carries picked := by
  have hrenders : ∃ renders, ((tools.map SchemaRead.command).filter fun c => c.args.size = 0).mapM
      (fun c => c.render .empty) = .ok renders := by
    rw [Except.exists_mapM]
    intro c hc
    obtain ⟨hmem, hargs⟩ := List.mem_filter.mp hc
    obtain ⟨tool, htool, rfl⟩ := List.mem_map.mp hmem
    exact (usable tool htool).renders_empty (of_decide_eq_true hargs)
  obtain ⟨renders, hrenders⟩ := hrenders
  have hload : load schemaObject (tools.map SchemaRead.command) =
      tools.foldlM (fun al tool => addTool schemaObject al tool.command)
        ⟨sessionExact ++ renders, []⟩ := by
    rw [load, hrenders, ← List.foldlM_map]
    rfl
  rw [hload]
  exact Except.exists_foldlM fun tool htool al =>
    SchemaRead.addTool_ok_iff (notHost tool htool) (isSafe tool htool) al

end

/-! ## Two tools that end the load -/

def groupEnum : Zod := .enum [js "all", js "im"]

/-- An operation with one argument, of two values. -/
def groupSchema (required : List JStr) : JsonSchema :=
  .mk { type := some .object, required := some required, additionalProperties := some false }
    (some [(js "group", .mk { type := some .string, enum := some [.str (js "all"), .str (js "im")] }
      none none none)]) none none

def groupRead (schema : JsonSchema) (group : Zod)
    (converts : jsonSchemaToZod (some schema) =
      .ok ⟨[(js "group", group)], .object [(js "group", group)] true none, false⟩) : SchemaRead where
  id := js "csm_appe_show"
  op := plainRead (js "cli.csm.appe.show")
  isRead := rfl
  schema := schema
  zod := _
  converts := converts
  args := ⟨[(js "group", group)], List.nodup_singleton _⟩
  args_eq := rfl
  issues _ := js "$: Required"
  opts := {}
  plain := ⟨rfl, rfl, rfl⟩

/-- The argument may be left out. -/
def optionalGroupRead : SchemaRead := groupRead (groupSchema []) (.optional groupEnum) rfl

def requiredGroupRead : SchemaRead := groupRead (groupSchema [js "group"]) groupEnum rfl

/-- A union whose branches have one property of their own. -/
def linkSchema : JsonSchema :=
  .mk {} none (some [constBranch [(js "mode", .str (js "auto"))],
    constBranch [(js "mode", .str (js "fixed")), (js "speed", .str (js "10"))]]) none

def linkRead : SchemaRead where
  id := js "port_link"
  op := plainRead (js "cli.port.link")
  isRead := rfl
  schema := linkSchema
  zod := _
  converts := rfl
  args := ⟨_, by decide⟩
  args_eq := rfl
  issues _ := js "speed: Required"
  opts := {}
  plain := ⟨rfl, rfl, rfl⟩

def oneArg (key value : JStr) : Args := ⟨[(key, .str value)], List.nodup_singleton _⟩

theorem oneArg_defined (key value : JStr) : ∀ e ∈ (oneArg key value).entries, e.2 ≠ .undefined := by
  intro e he
  obtain rfl := List.mem_singleton.mp he
  nofun

theorem groupRead_safe {schema : JsonSchema} {group : Zod}
    {converts : jsonSchemaToZod (some schema) =
      .ok ⟨[(js "group", group)], .object [(js "group", group)] true none, false⟩}
    (h : ∀ values, extractEnumValues group = some values → values.any ArgValue.isUnsafe = false) :
    (groupRead schema group converts).SafeValues := by
  intro e he
  obtain rfl := List.mem_singleton.mp he
  exact h

/-- The empty choice of an optional argument and a mix of two branches each end the load. -/
theorem allowlist_load_aborts :
    (optionalGroupRead.Usable ∧ optionalGroupRead.command.hostSchema? = none ∧
      optionalGroupRead.SafeValues ∧ load (fun _ => .obj []) [optionalGroupRead.command] =
        .error (.vigor ⟨.invalid,
          js "invalid input for SDK operation \"cli.csm.appe.show\": $: Required"⟩)) ∧
    linkRead.Usable ∧ linkRead.command.hostSchema? = none ∧ linkRead.SafeValues ∧
      load (fun _ => .obj []) [linkRead.command] = .error (.vigor ⟨.invalid,
        js "invalid input for SDK operation \"cli.port.link\": speed: Required"⟩) := by
  have groupUsable : optionalGroupRead.Usable :=
    ⟨oneArg (js "group") (js "all"), _, ⟨oneArg (js "group") (js "all"), oneArg_defined _ _, rfl⟩, rfl⟩
  have linkUsable : linkRead.Usable :=
    ⟨oneArg (js "mode") (js "auto"), _, ⟨oneArg (js "mode") (js "auto"), oneArg_defined _ _, rfl⟩, rfl⟩
  refine ⟨⟨groupUsable, rfl, groupRead_safe ?_, rfl⟩, linkUsable, rfl, ?_, rfl⟩
  · intro values hvalues
    obtain rfl := Option.some.inj hvalues
    decide
  · intro e he values hvalues
    rcases List.mem_cons.mp he with rfl | he
    · obtain rfl := Option.some.inj hvalues
      decide
    · obtain rfl := List.mem_singleton.mp he
      obtain rfl := Option.some.inj hvalues
      decide

/-- With the argument required, the tool loads. -/
theorem allowlist_loads_required :
    ∃ al, load (fun _ => .obj []) [requiredGroupRead.command] = .ok al := by
  have hload : (∃ al, load (fun _ => .obj []) ([requiredGroupRead].map SchemaRead.command) = .ok al) ↔
      ∀ tool ∈ [requiredGroupRead], tool.args.size ≠ 0 → ∀ picked,
        tool.Choice (fun _ => .obj []) picked → tool.Carries picked := by
    refine allowlist_loads_iff (fun _ => .obj []) ?_ ?_ ?_
    all_goals
      intro tool htool
      obtain rfl := List.mem_singleton.mp htool
    · exact ⟨oneArg (js "group") (js "all"), _,
        ⟨oneArg (js "group") (js "all"), oneArg_defined _ _, rfl⟩, rfl⟩
    · rfl
    · refine groupRead_safe fun values hvalues => ?_
      obtain rfl := Option.some.inj hvalues
      decide
  refine hload.mpr fun tool htool _ picked hchoice => ?_
  obtain rfl := List.mem_singleton.mp htool
  refine hchoice.carries_object rfl ?_ (fun data => ⟨_, rfl⟩) ?_
  · intro e he
    obtain rfl := List.mem_singleton.mp he
    exact .enum _
  · -- no value of a required enum is left out
    rintro rfl
    obtain ⟨lists, hlists, hpicks⟩ := hchoice
    obtain rfl : [(js "group", [.scalar (.str (js "all")), .scalar (.str (js "im"))])] = lists :=
      ValueLists.unique (.cons ⟨rfl, rfl⟩ .nil) hlists
    cases hpicks with
    | leaveOut listed omitted rest =>
      rcases List.mem_cons.mp listed with rfl | listed
      · cases omitted
      · obtain rfl := List.mem_singleton.mp listed
        cases omitted

end VigorMcp
