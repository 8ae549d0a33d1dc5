import VigorMcp.Commands.ArgValues
import VigorMcp.Commands.CommandDef
import VigorMcp.Lib.Fallible

/-!
# The read allowlist

The SSH driver's allowlist is built once, from the registered reads: `load`
collects the exact commands and learns a prefix for each read with a single
`host` argument. `addTool_iff` says what the round of one tool adds,
`isAllowedReadCommand_iff` what the whole registry does.
-/

namespace VigorMcp

/-- A tool with `kind: 'read'` and the schemas of its arguments. -/
structure ReadCommand extends CommandDef where
  args : OrderedMap JStr Zod

structure HostArgMatcher where
  leading : JStr
  hostSchema : Zod

/-- `READ_EXACT` and `HOST_ARG_MATCHERS`. -/
structure Allowlist where
  readExact : List JStr
  hostArgMatchers : List HostArgMatcher

def sessionExact : List JStr := [[], js "exit"]

def hostProbes : List JStr := [js "0.0.0.0", js "::1", js "2001:db8::1"]

/-- ``/[\s;|&`$]/.test(s)``. -/
def isUnsafe (s : JStr) : Bool := s.any fun u => isSpace u || [59, 124, 38, 96, 36].contains u

def ArgValue.isUnsafe : ArgValue → Bool
  | .scalar (.str s) => VigorMcp.isUnsafe s
  | _ => false

def errNoProbeHost (id : JStr) : Thrown :=
  .error none (js "read-allowlist: no probe host validates for \"" ++ id ++ js "\"")

def errNoHostSuffix (id : JStr) : Thrown :=
  .error none (js "read-allowlist: render() for \"" ++ id ++ js "\" does not end with host")

def errUnsafeValue (id : JStr) : Thrown :=
  .error none (js "read-allowlist: unsafe enum value for \"" ++ id ++ js "\"")

def errNotExpandable (id : JStr) : Thrown :=
  .error none (js "read-allowlist: parameterized read \"" ++ id ++
    js "\" args must be Zod enum/literal/union-of-literals or host")

def hostArgs (host : JStr) : Args := OrderedMap.empty.set (js "host") (.str host)

/-- The host schema of a read whose only argument is `host`. -/
def ReadCommand.hostSchema? (cmd : ReadCommand) : Option Zod :=
  match cmd.args.entries with
  | [(key, schema)] => if key = js "host" then some schema else none
  | _ => none

/-- The prefix is what the probe host's command has before the host. -/
def ReadCommand.hostArgMatcher (cmd : ReadCommand) (hostSchema : Zod) :
    Except Thrown HostArgMatcher :=
  match hostProbes.find? fun host => hostSchema.accepts (.str host) with
  | none => .error (errNoProbeHost cmd.id)
  | some sampleHost => do
    let rendered ← cmd.render (hostArgs sampleHost)
    if sampleHost.isSuffixOf rendered then
      .ok { leading := slice rendered (rendered.length - sampleHost.length), hostSchema }
    else .error (errNoHostSuffix cmd.id)

/-- The values of each argument; `none` from the first argument that lists none. -/
def valueLists (id : JStr) :
    List (JStr × Zod) → Except Thrown (Option (List (JStr × List ArgValue)))
  | [] => .ok (some [])
  | (key, schema) :: rest =>
    match extractEnumValues schema with
    | none => .ok none
    | some [] => .ok none
    | some (value :: values) =>
      if (value :: values).any ArgValue.isUnsafe then .error (errUnsafeValue id)
      else (valueLists id rest).map (Option.map ((key, value :: values) :: ·))

section

variable (schemaObject : Zod → JsValue)

/-- One round of `buildHostArgMatchers`. -/
def addTool (al : Allowlist) (cmd : ReadCommand) : Except Thrown Allowlist :=
  if cmd.args.size = 0 then .ok al
  else
    match cmd.hostSchema? with
    | some hostSchema => do
      let matcher ← cmd.hostArgMatcher hostSchema
      .ok { al with hostArgMatchers := al.hostArgMatchers ++ [matcher] }
    | none => do
      match ← valueLists cmd.id cmd.args.entries with
      | none => if cmd.sdk.isSome then .ok al else .error (errNotExpandable cmd.id)
      | some lists =>
        let renders ← (expandArgCombos schemaObject lists).mapM cmd.render
        .ok { al with readExact := al.readExact ++ renders }

/-- What the module computes when it is loaded. -/
def load (readCommands : List ReadCommand) : Except Thrown Allowlist := do
  let renders ← (readCommands.filter fun c => c.args.size = 0).mapM fun c => c.render .empty
  readCommands.foldlM (addTool schemaObject) ⟨sessionExact ++ renders, []⟩

end

def HostArgMatcher.matchesRead (matcher : HostArgMatcher) (command : JStr) : Bool :=
  startsWith command matcher.leading &&
    (let host := command.drop matcher.leading.length
     !host.isEmpty && !isUnsafe host && matcher.hostSchema.accepts (.str host))

def Allowlist.matchesHostArgRead (al : Allowlist) (command : JStr) : Bool :=
  al.hostArgMatchers.any (·.matchesRead command)

def Allowlist.isAllowedReadCommand (al : Allowlist) (command : JStr) : Bool :=
  al.readExact.contains command || al.matchesHostArgRead command

/-! ## What a tool reads -/

namespace ReadCommand

/-- The tool can be called with these arguments: its schema returns them. An argument that is
left out is no field of the record. -/
def Takes (cmd : ReadCommand) (args : Args) : Prop :=
  ∃ input : Args, (∀ e ∈ input.entries, e.2 ≠ .undefined) ∧
    (Zod.object cmd.args.entries false none).parse (.obj input.entries) = some (.obj args.entries)

/-- The commands of a tool that the allowlist is for. -/
inductive Renders (cmd : ReadCommand) (command : JStr) : Prop
  | noArgs (none : cmd.args.size = 0) (rendered : cmd.render .empty = .ok command)
  | listed (args : Args) (notHost : cmd.hostSchema? = none)
      (listed : ∀ e ∈ cmd.args.entries, Expandable e.2) (takes : cmd.Takes args)
      (rendered : cmd.render args = .ok command)
  | host (host : JStr) (hostSchema : Zod) (single : cmd.hostSchema? = some hostSchema)
      (accepted : hostSchema.accepts (.str host) = true) (ne : host ≠ [])
      (isSafe : isUnsafe host = false) (rendered : cmd.render (hostArgs host) = .ok command)

/-- What `render` is taken to be: one command for equal arguments, and for a single host one prefix
followed by the host. -/
structure RendersPurely (cmd : ReadCommand) : Prop where
  congr : ∀ args args' : Args, SameFields args.entries args'.entries →
    cmd.render args = cmd.render args'
  host : cmd.hostSchema?.isSome = true → ∃ leading, ∀ host,
    cmd.render (hostArgs host) = .ok (leading ++ host)

/-- No values are read off a discriminated union. -/
def Plain (cmd : ReadCommand) : Prop :=
  cmd.hostSchema? = none → ∀ e ∈ cmd.args.entries, extractEnumValues e.2 = none ∨ bare e.2 = true

theorem takes_iff {cmd : ReadCommand} {args : Args} :
    cmd.Takes args ↔ ∃ input : Args, (∀ e ∈ input.entries, e.2 ≠ .undefined) ∧
      Zod.parseShape cmd.args.entries input.entries = some args.entries := by
  unfold Takes
  simp [Zod.parse]

end ReadCommand

section

variable {schemaObject : Zod → JsValue} {cmd : ReadCommand} {al al' : Allowlist} {command : JStr}

theorem valueLists_some {id : JStr} {shape : List (JStr × Zod)}
    {lists : List (JStr × List ArgValue)} (h : valueLists id shape = .ok (some lists)) :
    ValueLists shape lists := by
  induction shape generalizing lists with
  | nil =>
    cases h
    exact .nil
  | cons e shape ih =>
    obtain ⟨key, schema⟩ := e
    rw [valueLists] at h
    split at h
    · cases h
    · cases h
    · next value values hvalues =>
      split at h
      · cases h
      · obtain ⟨rest, hrest, h⟩ := Except.map_eq_ok.mp h
        obtain ⟨lists, rfl, rfl⟩ := Option.map_eq_some_iff.mp h
        exact .cons ⟨rfl, hvalues⟩ (ih hrest)

theorem valueLists_none {id : JStr} {shape : List (JStr × Zod)}
    (h : valueLists id shape = .ok none) :
    ∃ e ∈ shape, extractEnumValues e.2 = none ∨ extractEnumValues e.2 = some [] := by
  induction shape with
  | nil => cases h
  | cons e shape ih =>
    obtain ⟨key, schema⟩ := e
    rw [valueLists] at h
    split at h
    · next hnone => exact ⟨_, List.mem_cons_self, .inl hnone⟩
    · next hnil => exact ⟨_, List.mem_cons_self, .inr hnil⟩
    · split at h
      · cases h
      · obtain ⟨rest, hrest, h⟩ := Except.map_eq_ok.mp h
        rw [Option.map_eq_none_iff.mp h] at hrest
        obtain ⟨e, he, hvalues⟩ := ih hrest
        exact ⟨e, List.mem_cons_of_mem _ he, hvalues⟩

/-- **The expanded records are the arguments the tool takes.** -/
theorem takes_of_mem_combos (listed : ∀ e ∈ cmd.args.entries, Expandable e.2)
    {lists : List (JStr × List ArgValue)} (hlists : ValueLists cmd.args.entries lists) {args : Args}
    (h : args ∈ expandArgCombos schemaObject lists) : cmd.Takes args := by
  have nodup : (lists.map Prod.fst).Nodup := hlists.names ▸ cmd.args.nodup
  have picks := (mem_expandArgCombos nodup).mp h
  refine ReadCommand.takes_iff.mpr ⟨args, picks.defined hlists listed, ?_⟩
  exact picks.parseShape hlists listed cmd.args.nodup fun _ _ => rfl

theorem mem_combos_of_takes (listed : ∀ e ∈ cmd.args.entries, Expandable e.2)
    {lists : List (JStr × List ArgValue)} (hlists : ValueLists cmd.args.entries lists) {args : Args}
    (h : cmd.Takes args) :
    ∃ args' ∈ expandArgCombos schemaObject lists, SameFields args.entries args'.entries := by
  have nodup : (lists.map Prod.fst).Nodup := hlists.names ▸ cmd.args.nodup
  obtain ⟨input, defined, hparse⟩ := ReadCommand.takes_iff.mp h
  obtain ⟨picked, hpicked, hsame⟩ :
      ∃ picked, Picks schemaObject lists picked ∧ SameFields args.entries picked :=
    picks_of_parseShape hlists listed defined hparse
  have hmem : ⟨picked, nodup.sublist hpicked.keys_sublist⟩ ∈ expandArgCombos schemaObject lists :=
    (mem_expandArgCombos nodup).mpr hpicked
  exact ⟨_, hmem, hsame⟩

/-- A tool with an argument that lists no value is never called. -/
theorem not_takes {id : JStr} (listed : ∀ e ∈ cmd.args.entries, Expandable e.2)
    (h : valueLists id cmd.args.entries = .ok none) {args : Args} : ¬cmd.Takes args := by
  intro htakes
  obtain ⟨input, _, hparse⟩ := ReadCommand.takes_iff.mp htakes
  obtain ⟨e, he, hvalues⟩ := valueLists_none h
  have haccepts := Zod.parseShape_isSome.mp (Option.isSome_of_eq_some hparse) e he
  rcases hvalues with hnone | hnil
  · obtain ⟨values, hvalues⟩ := (listed e he).extract
    rw [hnone] at hvalues
    cases hvalues
  · simpa using ((listed e he).accepts_iff hnil).mp haccepts

/-! ## What a round adds -/

theorem matchesRead_iff {matcher : HostArgMatcher} :
    matcher.matchesRead command = true ↔ ∃ host, matcher.hostSchema.accepts (.str host) = true ∧
      host ≠ [] ∧ isUnsafe host = false ∧ command = matcher.leading ++ host := by
  unfold HostArgMatcher.matchesRead
  simp only [Bool.and_eq_true, startsWith_iff, Bool.not_eq_true']
  constructor
  · rintro ⟨⟨host, rfl⟩, ⟨hne, hsafe⟩, haccepts⟩
    rw [List.drop_left] at hne hsafe haccepts
    exact ⟨host, haccepts, List.isEmpty_eq_false_iff.mp hne, hsafe, rfl⟩
  · rintro ⟨host, haccepts, hne, hsafe, rfl⟩
    rw [List.drop_left]
    exact ⟨⟨host, rfl⟩, ⟨List.isEmpty_eq_false_iff.mpr hne, hsafe⟩, haccepts⟩

/-- The prefix learned from the probe is the prefix of every host. -/
theorem hostArgMatcher_eq {hostSchema : Zod} {leading : JStr} {matcher : HostArgMatcher}
    (renders : ∀ host, cmd.render (hostArgs host) = .ok (leading ++ host))
    (h : cmd.hostArgMatcher hostSchema = .ok matcher) : matcher = ⟨leading, hostSchema⟩ := by
  unfold ReadCommand.hostArgMatcher at h
  split at h
  · cases h
  · next sampleHost _ =>
    obtain ⟨rendered, hrendered, h⟩ := Except.bind_eq_ok.mp h
    obtain rfl := Except.ok.inj ((renders sampleHost).symm.trans hrendered)
    split at h
    · obtain rfl := Except.ok.inj h
      simp [slice]
    · cases h

/-- What a tool with a single host argument renders. -/
theorem renders_host_iff {hostSchema : Zod} (hargs : cmd.args.size ≠ 0)
    (hhost : cmd.hostSchema? = some hostSchema) :
    cmd.Renders command ↔ ∃ host, hostSchema.accepts (.str host) = true ∧ host ≠ [] ∧
      isUnsafe host = false ∧ cmd.render (hostArgs host) = .ok command := by
  constructor
  · rintro (⟨hnone, _⟩ | ⟨args, hnot, _⟩ | ⟨host, schema, hsingle, haccepts, hne, hsafe, hrender⟩)
    · exact absurd hnone hargs
    · rw [hhost] at hnot
      cases hnot
    · obtain rfl := Option.some.inj (hhost.symm.trans hsingle)
      exact ⟨host, haccepts, hne, hsafe, hrender⟩
  · rintro ⟨host, haccepts, hne, hsafe, hrender⟩
    exact .host host hostSchema hhost haccepts hne hsafe hrender

/-- What any other tool with arguments renders. -/
theorem renders_listed_iff (hargs : cmd.args.size ≠ 0) (hhost : cmd.hostSchema? = none) :
    cmd.Renders command ↔ (∀ e ∈ cmd.args.entries, Expandable e.2) ∧
      ∃ args, cmd.Takes args ∧ cmd.render args = .ok command := by
  constructor
  · rintro (⟨hnone, _⟩ | ⟨args, _, hlisted, htakes, hrender⟩ | ⟨host, schema, hsingle, _⟩)
    · exact absurd hnone hargs
    · exact ⟨hlisted, args, htakes, hrender⟩
    · rw [hhost] at hsingle
      cases hsingle
  · rintro ⟨hlisted, args, htakes, hrender⟩
    exact .listed args hhost hlisted htakes hrender

/-- The commands of the expanded records are those that the tool renders. -/
theorem mem_expanded_iff (renders : cmd.RendersPurely) (plain : cmd.Plain)
    (hargs : cmd.args.size ≠ 0) (hhost : cmd.hostSchema? = none)
    {lists : List (JStr × List ArgValue)} (hlists : ValueLists cmd.args.entries lists)
    {commands : List JStr}
    (hcommands : (expandArgCombos schemaObject lists).mapM cmd.render = .ok commands) :
    command ∈ commands ↔ cmd.Renders command := by
  have hlisted : ∀ e ∈ cmd.args.entries, Expandable e.2 := by
    intro e he
    obtain ⟨l, _, _, hvs⟩ := hlists.mem_left he
    exact expandable_of_extract e.2 ((plain hhost e he).resolve_left (by simp [hvs])) l.2 hvs
  rw [Except.mem_mapM hcommands, renders_listed_iff hargs hhost]
  constructor
  · rintro ⟨args, hmem, hrender⟩
    exact ⟨hlisted, args, takes_of_mem_combos hlisted hlists hmem, hrender⟩
  · rintro ⟨-, args, htakes, hrender⟩
    obtain ⟨args', hmem, hsame⟩ := mem_combos_of_takes hlisted hlists htakes
    exact ⟨args', hmem, (renders.congr args args' hsame) ▸ hrender⟩

/-- A round leaves what is allowed, and adds the commands of its tool. -/
theorem addTool_iff (renders : cmd.RendersPurely) (plain : cmd.Plain) (hargs : cmd.args.size ≠ 0)
    (h : addTool schemaObject al cmd = .ok al') :
    al'.isAllowedReadCommand command = true ↔
      al.isAllowedReadCommand command = true ∨ cmd.Renders command := by
  rw [addTool, if_neg hargs] at h
  cases hhost : cmd.hostSchema? with
  | some hostSchema =>
    simp only [hhost] at h
    obtain ⟨matcher, hmatcher, h⟩ := Except.bind_eq_ok.mp h
    obtain rfl := Except.ok.inj h
    obtain ⟨leading, hleading⟩ := renders.host (by rw [hhost]; rfl)
    obtain rfl := hostArgMatcher_eq hleading hmatcher
    have tool : (HostArgMatcher.mk leading hostSchema).matchesRead command = true ↔
        cmd.Renders command := by
      simp only [matchesRead_iff, renders_host_iff hargs hhost, hleading, Except.ok.injEq,
        eq_comm (a := command)]
    simp only [Allowlist.isAllowedReadCommand, Allowlist.matchesHostArgRead, List.any_append,
      List.any_cons, List.any_nil, Bool.or_false, Bool.or_eq_true, tool, or_assoc]
  | none =>
    simp only [hhost] at h
    obtain ⟨values, hvalues, h⟩ := Except.bind_eq_ok.mp h
    cases values with
    | none =>
      have hal : al' = al := by
        dsimp only at h
        split at h
        · exact (Except.ok.inj h).symm
        · cases h
      rw [hal, renders_listed_iff hargs hhost]
      refine (or_iff_left ?_).symm
      rintro ⟨hlisted, args, htakes, -⟩
      exact not_takes hlisted hvalues htakes
    | some lists =>
      obtain ⟨commands, hcommands, h⟩ := Except.bind_eq_ok.mp h
      obtain rfl := Except.ok.inj h
      have tool : command ∈ commands ↔ cmd.Renders command :=
        mem_expanded_iff renders plain hargs hhost (valueLists_some hvalues) hcommands
      simp only [Allowlist.isAllowedReadCommand, Allowlist.matchesHostArgRead,
        List.contains_iff_mem, List.mem_append, Bool.or_eq_true, tool, or_right_comm]

/-- The commands of a tool without arguments are collected before the rounds. -/
theorem addTool_noArgs (hargs : cmd.args.size = 0) (h : addTool schemaObject al cmd = .ok al') :
    al' = al := by
  rw [addTool, if_pos hargs] at h
  exact (Except.ok.inj h).symm

/-- Without arguments there is one command. -/
theorem renders_noArgs (hargs : cmd.args.size = 0) :
    cmd.Renders command ↔ cmd.render .empty = .ok command := by
  have hentries : cmd.args.entries = [] := List.length_eq_zero_iff.mp hargs
  constructor
  · rintro (⟨_, hrender⟩ | ⟨args, _, _, htakes, hrender⟩ | ⟨host, schema, hsingle, _⟩)
    · exact hrender
    · obtain ⟨input, _, hparse⟩ := ReadCommand.takes_iff.mp htakes
      rw [hentries] at hparse
      obtain rfl : args = .empty := OrderedMap.ext (Option.some.inj hparse).symm
      exact hrender
    · rw [ReadCommand.hostSchema?, hentries] at hsingle
      cases hsingle
  · exact .noArgs hargs

end

/-- **The read allowlist is exact.** -/
theorem isAllowedReadCommand_iff {schemaObject : Zod → JsValue} {readCommands : List ReadCommand}
    {al : Allowlist} (h : load schemaObject readCommands = .ok al)
    (renders : ∀ cmd ∈ readCommands, cmd.RendersPurely) (plain : ∀ cmd ∈ readCommands, cmd.Plain)
    (command : JStr) :
    al.isAllowedReadCommand command = true ↔
      command = [] ∨ command = js "exit" ∨ ∃ cmd ∈ readCommands, cmd.Renders command := by
  obtain ⟨noArgs, hnoArgs, h⟩ := Except.bind_eq_ok.mp h
  have round : ∀ cmd ∈ readCommands, ∀ al al', addTool schemaObject al cmd = .ok al' →
      ∀ c, al'.isAllowedReadCommand c = true ↔
        al.isAllowedReadCommand c = true ∨ cmd.args.size ≠ 0 ∧ cmd.Renders c := by
    intro cmd hcmd al al' hadd c
    by_cases hargs : cmd.args.size = 0
    · simp [addTool_noArgs hargs hadd, hargs]
    · simp [addTool_iff (renders cmd hcmd) (plain cmd hcmd) hargs hadd, hargs]
  have start : command ∈ noArgs ↔
      ∃ cmd ∈ readCommands, cmd.args.size = 0 ∧ cmd.Renders command := by
    rw [Except.mem_mapM hnoArgs]
    constructor
    · rintro ⟨cmd, hcmd, hrender⟩
      obtain ⟨hmem, hargs⟩ := List.mem_filter.mp hcmd
      have hargs := of_decide_eq_true hargs
      exact ⟨cmd, hmem, hargs, .noArgs hargs hrender⟩
    · rintro ⟨cmd, hmem, hargs, hrenders⟩
      exact ⟨cmd, List.mem_filter.mpr ⟨hmem, decide_eq_true hargs⟩,
        (renders_noArgs hargs).mp hrenders⟩
  rw [Except.foldlM_adds round h]
  simp only [Allowlist.isAllowedReadCommand, Allowlist.matchesHostArgRead, List.any_nil,
    Bool.or_false, List.contains_iff_mem, List.mem_append, start, sessionExact, List.mem_cons,
    List.not_mem_nil, or_false]
  constructor
  · rintro (((hc | hc) | ⟨cmd, hmem, _, hc⟩) | ⟨cmd, hmem, _, hc⟩)
    · exact .inl hc
    · exact .inr (.inl hc)
    · exact .inr (.inr ⟨cmd, hmem, hc⟩)
    · exact .inr (.inr ⟨cmd, hmem, hc⟩)
  · rintro (hc | hc | ⟨cmd, hmem, hc⟩)
    · exact .inl (.inl (.inl hc))
    · exact .inl (.inl (.inr hc))
    · by_cases hargs : cmd.args.size = 0
      · exact .inl (.inr ⟨cmd, hmem, hargs, hc⟩)
      · exact .inr ⟨cmd, hmem, hargs, hc⟩

/-! ## Reads with one argument -/

/-- A read that puts its argument behind a prefix. -/
def argRead (leading key : JStr) (schema : Zod) : ReadCommand where
  id := js "show"
  kind := .read
  render args :=
    match args.value key with
    | .str s => .ok (leading ++ s)
    | _ => .ok leading
  accepts _ := true
  confirm := none
  affectsNetwork := none
  snapshotRead := none
  secretArgs := none
  sensitiveOutput := none
  timeoutMs := none
  skipCommit := none
  sdk := none
  args := OrderedMap.empty.set key schema

theorem SameFields.value {args args' : Args} (h : SameFields args.entries args'.entries)
    (key : JStr) : Strict (args.value key) (args'.value key) := by
  have found : ∀ {fields fields' : List (JStr × JsValue)}, SameFields fields fields' →
      Strict (((fields.find? fun e => decide (e.1 = key)).map Prod.snd).getD .undefined)
        (((fields'.find? fun e => decide (e.1 = key)).map Prod.snd).getD .undefined) := by
    intro fields fields' h
    induction h with
    | nil => rfl
    | @cons e e' _ _ hee _ ih =>
      rw [List.find?_cons, List.find?_cons, ← hee.1]
      split
      · exact hee.2
      · exact ih
  exact found h

theorem argRead_rendersPurely (leading key : JStr) (schema : Zod) :
    (argRead leading key schema).RendersPurely where
  congr args args' h := by
    have hvalue := h.value key
    simp only [argRead]
    generalize args.value key = v at hvalue
    generalize args'.value key = w at hvalue
    cases v with
    | num n =>
      cases w with
      | str s => cases n <;> cases hvalue
      | _ => rfl
    | _ =>
      obtain rfl := hvalue
      rfl
  host h := by
    have hkey : key = js "host" := by
      by_contra hne
      rw [show (argRead leading key schema).hostSchema? = none from if_neg hne] at h
      cases h
    subst hkey
    exact ⟨leading, fun host => rfl⟩

theorem argRead_plain {leading key : JStr} {schema : Zod} (h : bare schema = true) :
    (argRead leading key schema).Plain := by
  intro _ e he
  obtain rfl := List.mem_singleton.mp he
  exact .inr h

def pingRead (hostSchema : Zod) : ReadCommand := argRead (js "ip ping ") (js "host") hostSchema

/-- A discriminated union of one object. -/
def kindUnion : Zod :=
  .discriminatedUnion (js "kind")
    [(some (.str (js "a")), .object [(js "kind", .literal (.str (js "a")))] false none)]

/-- An empty host is refused though its schema accepts it, and so is a host with a blank that an
enum lists; for a discriminated union the schema of an option is put in. -/
theorem allowlist_not_all_listed :
    (∃ al, load (fun _ => .obj []) [pingRead .string] = .ok al ∧
      (pingRead .string).RendersPurely ∧
      Zod.string.accepts (.str []) = true ∧ isUnsafe [] = false ∧
      (pingRead .string).render (hostArgs []) = .ok (js "ip ping ") ∧
      al.isAllowedReadCommand (js "ip ping ") = false) ∧
    (∃ al, load (fun _ => .obj []) [pingRead (.enum [js "::1", js "a b"])] = .ok al ∧
      (pingRead (.enum [js "::1", js "a b"])).RendersPurely ∧
      (pingRead (.enum [js "::1", js "a b"])).Takes (hostArgs (js "a b")) ∧
      (pingRead (.enum [js "::1", js "a b"])).render (hostArgs (js "a b")) =
        .ok (js "ip ping a b") ∧
      al.isAllowedReadCommand (js "ip ping a b") = false) ∧
    (∃ al, load (fun _ => .obj []) [argRead (js "ha show") (js "mode") kindUnion] = .ok al ∧
      (argRead (js "ha show") (js "mode") kindUnion).RendersPurely ∧ ¬Expandable kindUnion ∧
      al.isAllowedReadCommand (js "ha show") = true) := by
  refine ⟨⟨_, rfl, argRead_rendersPurely _ _ _, rfl, rfl, rfl, ?_⟩,
    ⟨_, rfl, argRead_rendersPurely _ _ _, ⟨hostArgs (js "a b"), ?_, rfl⟩, rfl, ?_⟩,
    ⟨_, rfl, argRead_rendersPurely _ _ _, ?_, ?_⟩⟩
  · decide
  · intro e he
    obtain rfl := List.mem_singleton.mp he
    simp
  · decide
  · intro h
    cases h
  · decide

/-- A read with an optional enum and one with a host. -/
def sampleReads : List ReadCommand :=
  [argRead (js "sys health ") (js "metric") (.optional (.enum [js "view"])), pingRead .string]

theorem isAllowedReadCommand_iff_sample :
    ∃ al, load (fun _ => .undefined) sampleReads = .ok al ∧ ∀ command,
      (al.isAllowedReadCommand command = true ↔
        command = [] ∨ command = js "exit" ∨ ∃ cmd ∈ sampleReads, cmd.Renders command) := by
  refine ⟨_, rfl, @isAllowedReadCommand_iff (fun _ => .undefined) _ _ rfl ?_ ?_⟩
  · intro cmd hcmd
    rcases List.mem_cons.mp hcmd with rfl | hcmd
    · exact argRead_rendersPurely _ _ _
    · obtain rfl := List.mem_singleton.mp hcmd
      exact argRead_rendersPurely _ _ _
  · intro cmd hcmd
    rcases List.mem_cons.mp hcmd with rfl | hcmd
    · exact argRead_plain rfl
    · obtain rfl := List.mem_singleton.mp hcmd
      exact argRead_plain rfl

end VigorMcp
