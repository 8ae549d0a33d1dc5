import VigorMcp.Commands.TypedInput
import VigorMcp.Commands.WriteExecutor
import VigorMcp.Js.JsonText
import VigorMcp.Tools.RedactionRoundTrip

/-!
# Secrets of a schema, and what redaction does with them

`S` lists the names of a schema's secrets, at whatever depth they sit, or
`input` for a wrapped schema; `redactArgs` and `redactCommand` look the listed
names up among the arguments. So what counts is the argument a secret sits in.
The JSON of two records agrees when they differ under listed arguments only, and
a text is concealed in every command when the text of a listed argument occurs
in it (`schema_secrets_redacted`).
-/

namespace VigorMcp

/-- A secret of the schema, by its path from the arguments of the tool. -/
def ArgSecret (schema : JsonSchema) (zs : ZodSchemas) (path : List Access) : Prop :=
  if zs.wrap then ∃ below, path = .field (js "input") :: below ∧ SecretPath schema below
  else SecretPath schema path

/-- The arguments that the tool lists as secret. -/
def Listed (schema : JsonSchema) (zs : ZodSchemas) (key : JStr) : Prop :=
  if zs.wrap then key = js "input" ∧ ∃ path name, SecretPath schema (path ++ [.field name])
  else ∃ path, SecretPath schema (path ++ [.field key])

/-- The tool of an operation, with nothing overridden. -/
def plainTool (schema : JsonSchema) (zs : ZodSchemas) (issues : JsValue → JStr) (id : JStr)
    (timeoutMs : Option Int) (op : AnyOperation) : CommandDef :=
  sdkTool op (convertedSchema (some schema) zs issues) id { timeoutMs := timeoutMs }

section

variable {schema : JsonSchema} {zs : ZodSchemas} {issues : JsValue → JStr} {id : JStr}
  {timeoutMs : Option Int} {op : AnyOperation} {key : JStr} {args args' : Args}

theorem mem_secrets :
    key ∈ (plainTool schema zs issues id timeoutMs op).secrets ↔ Listed schema zs key := by
  have hsecrets : ∀ l : List JStr, key ∈ (if l.length > 0 then some l else none).getD [] ↔ key ∈ l := by
    intro l
    cases l <;> simp
  simp only [plainTool, sdkTool, CommandDef.secrets, wrapsInput_convertedSchema,
    secretFields_convertedSchema, hsecrets, List.append_nil, List.mem_eraseDups, Listed]
  by_cases hw : zs.wrap = true
  · have hany : (secretFieldsOf (some schema)).length > 0 ↔
        ∃ path name, SecretPath schema (path ++ [.field name]) := by
      rw [gt_iff_lt, List.length_pos_iff_exists_mem]
      constructor
      · rintro ⟨name, hn⟩
        obtain ⟨path, hp⟩ := mem_secretFieldsOf.mp hn
        exact ⟨path, name, hp⟩
      · rintro ⟨path, name, hp⟩
        exact ⟨name, mem_secretFieldsOf.mpr ⟨path, hp⟩⟩
    by_cases h : (secretFieldsOf (some schema)).length > 0
    · simp [hw, h, ← hany]
    · have hnil : secretFieldsOf (some schema) = [] := by simpa using h
      simp [hw, ← hany, hnil]
  · simp [hw, mem_secretFieldsOf]

/-- The listed names are plain: none of them breaks a placeholder. -/
theorem safeKey_of_secretField (h : secretField key = true) : SafeKey key := by
  have hfold : ∀ u : UInt16, u = 60 ∨ u = 62 → u ∈ key → u ∈ key.map foldUnit := by
    rintro u (rfl | rfl) hu <;> exact List.mem_map.mpr ⟨_, hu, by decide⟩
  have hplain : ∀ u : UInt16, u = 60 ∨ u = 62 → u ∉ key.map foldUnit := by
    intro u hu hmem
    simp only [secretField, Bool.or_eq_true, Bool.and_eq_true, List.all_eq_true] at h
    rcases h with hname | ⟨hpass, hdigits⟩
    · have hname := List.contains_iff_mem.mp hname
      generalize key.map foldUnit = folded at hname hmem
      rcases hu with rfl | rfl <;> revert folded <;> decide
    · obtain ⟨rest, hrest⟩ := startsWith_iff.mp hpass
      rw [← hrest, show List.drop 4 (js "pass" ++ rest) = rest from rfl] at hdigits
      rw [← hrest, List.mem_append] at hmem
      rcases hmem with hmem | hmem
      · revert hmem
        rcases hu with rfl | rfl <;> decide
      · have := hdigits u hmem
        revert this
        rcases hu with rfl | rfl <;> decide
  exact ⟨fun hu => hplain 60 (.inl rfl) (hfold 60 (.inl rfl) hu),
    fun hu => hplain 62 (.inr rfl) (hfold 62 (.inr rfl) hu)⟩

theorem Listed.safeKey (h : Listed schema zs key) : SafeKey key := by
  unfold Listed at h
  split at h
  · rw [h.1]
    decide
  · obtain ⟨path, hp⟩ := h
    obtain ⟨before, name, he, hname⟩ := hp.secretField_last
    have hlast := (List.append_inj' he rfl).2
    injection hlast with hlast _
    injection hlast with hlast
    exact safeKey_of_secretField (hlast ▸ hname)

/-! ## The JSON of the arguments -/

theorem value_of_mem {e : JStr × JsValue} (h : e ∈ args.entries) : args.value e.1 = e.2 := by
  rw [Args.value, OrderedMap.get_eq_some.mpr h]
  rfl

/-- An argument that is not listed stands in the redacted record as it is. -/
theorem get_eq_some_iff_masked {secretArgs : List JStr} (hkey : key ∉ secretArgs) {v : JsValue} :
    args.get key = some v ↔ (key, v) ∈ args.entries.map fun e =>
      (e.1, if secretArgs.contains e.1 then JsValue.str (js "***") else e.2) := by
  rw [OrderedMap.get_eq_some, List.mem_map]
  constructor
  · exact fun h => ⟨_, h, by simp [hkey]⟩
  · rintro ⟨e, he, hmask⟩
    obtain ⟨rfl, rfl⟩ := Prod.mk.inj hmask
    simpa [hkey] using he

/-- **The redacted JSON of two records** that differ in strings only is the same when they agree on
the arguments that are not listed. -/
theorem redactArgs_eq_iff {P : List Access → Prop} (secretArgs : List JStr)
    (h : Rewritten P (.obj args.entries) (.obj args'.entries)) :
    redactArgs args secretArgs = redactArgs args' secretArgs ↔
      ∀ key, key ∉ secretArgs → args.value key = args'.value key := by
  have hcases : args.entries = args'.entries ∨
      (args.entries.map Prod.fst = args'.entries.map Prod.fst ∧
        ∀ i (hi : i < args.entries.length) (hi' : i < args'.entries.length),
          Rewritten (fun path => P (.field args.entries[i].1 :: path)) args.entries[i].2
            args'.entries[i].2) := by
    generalize args.entries = fields, args'.entries = fields' at h
    cases h with
    | same => exact .inl rfl
    | obj names field => exact .inr ⟨names, field⟩
  rcases hcases with heq | ⟨names, field⟩
  · obtain rfl : args = args' := OrderedMap.ext heq
    exact iff_of_true rfl fun _ _ => rfl
  · have hname : ∀ i (hi : i < args.entries.length) (hi' : i < args'.entries.length),
        args.entries[i].1 = args'.entries[i].1 := fun i hi hi' => by
      have : (args.entries.map Prod.fst)[i]? = (args'.entries.map Prod.fst)[i]? := by rw [names]
      simpa [hi, hi'] using this
    have hlength : args.entries.length = args'.entries.length := by
      simpa using congrArg List.length names
    constructor
    · intro heq key hkey
      have hmasked : Rewritten P
          (.obj (args.entries.map fun e =>
            (e.1, if secretArgs.contains e.1 then JsValue.str (js "***") else e.2)))
          (.obj (args'.entries.map fun e =>
            (e.1, if secretArgs.contains e.1 then JsValue.str (js "***") else e.2))) := by
        refine .obj (by simpa [Function.comp_def] using names) fun i hi hi' => ?_
        rw [List.length_map] at hi hi'
        simp only [List.getElem_map, ← hname i hi hi']
        split
        · exact .same _
        · exact field i hi hi'
      obtain ⟨hfields, _⟩ := hmasked.readsBack [] [] (by simpa [redactArgs] using heq)
      injection hfields with hfields
      have hget : args.get key = args'.get key := by
        ext v
        rw [get_eq_some_iff_masked hkey, hfields,
          ← get_eq_some_iff_masked hkey]
      rw [Args.value, Args.value, hget]
    · intro hagree
      unfold redactArgs
      congr 2
      refine List.ext_getElem (by simpa using hlength) fun i hi hi' => ?_
      rw [List.length_map] at hi hi'
      simp only [List.getElem_map, hname i hi hi']
      split
      · rfl
      · next hlisted =>
        have hv := hagree args'.entries[i].1 (by simpa using hlisted)
        rw [value_of_mem (List.getElem_mem hi'), ← hname i hi hi',
          value_of_mem (List.getElem_mem hi)] at hv
        rw [hv]

/-! ## The preview of a command -/

/-- No text between the placeholders of the preview holds `x`. -/
def HiddenIn (x preview : JStr) : Prop := ∀ t ∈ Scan.texts (Scan.scan placeholderAt preview), ¬x <:+: t

/-- Whatever preview a tool's command gets, `x` is hidden in it. -/
def Conceals (cmd : CommandDef) (args : Args) (x : JStr) : Prop :=
  ∀ command r, cmd.render args = .ok command → includes command x = true →
    redactCommand command args cmd.secrets = .ok r → HiddenIn x r.preview

/-- The input that the arguments resolve to. -/
def inputOf (zs : ZodSchemas) (args : Args) : Option JsValue :=
  zs.full.parse (if zs.wrap then args.value (js "input") else defaultToInput args)

theorem render_plainTool {command : JStr} :
    (plainTool schema zs issues id timeoutMs op).render args = .ok command ↔
      ∃ data, inputOf zs args = some data ∧ renderFrames op data = .ok command := by
  have hmapped : autoToInput (convertedSchema (some schema) zs issues) args =
      .ok (if zs.wrap then args.value (js "input") else defaultToInput args) := rfl
  simp only [plainTool, sdkTool, Option.getD_none, hmapped, inputOf, bind, Except.bind]
  cases hv : autoValidate op.manifestId (convertedSchema (some schema) zs issues)
      (if zs.wrap then args.value (js "input") else defaultToInput args) with
  | ok data =>
    rw [autoValidate_ok_iff] at hv
    simp [hv]
  | error e =>
    refine iff_of_false (fun h => by cases h) ?_
    rintro ⟨data, hdata, _⟩
    rw [autoValidate_ok_iff.mpr hdata] at hv
    cases hv

theorem pickSecrets_ok_iff {keys : List JStr} :
    (∃ secrets, pickSecrets args keys = .ok secrets) ↔
      ∀ key ∈ keys, ∃ s, stringOf (args.value key) = .ok s := by
  have hone : ∀ key, (∃ o, secretOf args key = .ok o) ↔ ∃ s, stringOf (args.value key) = .ok s := by
    intro key
    unfold secretOf
    split
    · next h => rw [h]; exact iff_of_true ⟨_, rfl⟩ ⟨_, by rw [stringOf]⟩
    · next h => rw [h]; exact iff_of_true ⟨_, rfl⟩ ⟨_, by rw [stringOf]⟩
    · cases stringOf (args.value key) <;> simp [bind, Except.bind, pure, Except.pure]
  induction keys with
  | nil => exact iff_of_true ⟨[], rfl⟩ nofun
  | cons key keys ih =>
    rw [List.forall_mem_cons, ← hone]
    refine Iff.trans ?_ (and_congr_right fun _ => ih)
    simp only [pickSecrets, bind, Except.bind]
    cases secretOf args key with
    | error e => exact iff_of_false nofun nofun
    | ok o =>
      cases pickSecrets args keys with
      | error e => exact iff_of_false nofun nofun
      | ok rest => exact iff_of_true ⟨_, rfl⟩ ⟨⟨_, rfl⟩, ⟨_, rfl⟩⟩

section

variable {command : JStr}

theorem clear_of_unmarked (h : includes command marker = false) :
    redactedBracket.Clear (.last command) := by
  refine ⟨fun t ht hi => ?_, nofun⟩
  rw [Template.texts, List.mem_singleton] at ht
  rw [includes_iff.mpr (marker_eq ▸ ht ▸ hi)] at h
  cases h

theorem texts_of_unmarked (h : includes command marker = false) :
    Scan.texts (Scan.scan placeholderAt command) = [command] := by
  have := Bracketing.scan_fill (clear_of_unmarked h)
  rw [Template.fill] at this
  rw [funext placeholderAt_eq, this, Bracketing.texts_cut, Template.texts]

/-- A secret that does not occur changes nothing. -/
theorem redactStep_absent (h : includes command marker = false) {s : Secret}
    (hs : ¬s.value <:+: command) (fields : List JStr) :
    redactStep ⟨command, fields⟩ s = ⟨command, fields⟩ := by
  have hone := redactOne_fill (clear_of_unmarked h) s
  simp only [Template.fill, Template.punch, Scan.splitOn_eq_singleton hs, Template.ofPieces,
    Template.texts] at hone
  have hincludes : includes command s.value = false := by
    rw [← Bool.not_eq_true, includes_iff]
    exact hs
  simp [redactStep, hone, hincludes]

theorem foldl_redactStep_absent (h : includes command marker = false) {secrets : List Secret}
    (hs : ∀ s ∈ secrets, ¬s.value <:+: command) :
    secrets.foldl redactStep ⟨command, []⟩ = ⟨command, []⟩ := by
  induction secrets with
  | nil => rfl
  | cons s secrets ih =>
    rw [List.forall_mem_cons] at hs
    rw [List.foldl_cons, redactStep_absent h hs.1, ih hs.2]

/-- A command in which no secret occurs stays as it is. -/
theorem redactCommand_absent (h : includes command marker = false) {secretArgs : List JStr}
    (texts : ∀ key ∈ secretArgs, ∃ s, stringOf (args.value key) = .ok s)
    (absent : ∀ key ∈ secretArgs, ∀ v, SecretValue args key v → ¬v <:+: command) :
    redactCommand command args secretArgs = .ok ⟨command, []⟩ := by
  obtain ⟨secrets, hsecrets⟩ := pickSecrets_ok_iff.mpr texts
  have hfold : (sortSecrets secrets).foldl redactStep ⟨command, []⟩ = ⟨command, []⟩ := by
    refine foldl_redactStep_absent h fun s hs => ?_
    obtain ⟨hkey, hv⟩ := (mem_pickSecrets hsecrets).mp (mem_sortSecrets.mp hs)
    exact absent s.key hkey s.value hv
  simp only [redactCommand, h, Bool.false_eq_true, ↓reduceIte, hsecrets, bind, Except.bind, pure,
    Except.pure, hfold]

/-- What a redacted command no longer holds. -/
theorem redactCommand_absent_texts {secretArgs : List JStr} (hkeys : ∀ k ∈ secretArgs, SafeKey k)
    {r : Redacted} (h : redactCommand command args secretArgs = .ok r) {v : JStr}
    (hkey : key ∈ secretArgs) (hv : SecretValue args key v) : HiddenIn v r.preview := by
  obtain ⟨done, T, hs, hc, hmem, hm⟩ := redactCommand_masked hkeys h
  intro t ht
  rw [funext placeholderAt_eq, hm.preview, Bracketing.scan_fill (hm.clear hs hc),
    Bracketing.texts_cut] at ht
  exact hm.hidden ⟨key, v⟩ ((hmem _).mpr ⟨hkey, hv⟩) t ht

end

/-- The redaction of any command touches `x` or fails: `x` holds the marker, or a listed argument
has no text or one that occurs in `x`. -/
def Touched (schema : JsonSchema) (zs : ZodSchemas) (args : Args) (x : JStr) : Prop :=
  includes x marker = true ∨ ∃ key, Listed schema zs key ∧
    ((∀ s, stringOf (args.value key) ≠ .ok s) ∨ ∃ v, SecretValue args key v ∧ v <:+: x)

/-- **What the tools of a schema conceal**: the arguments resolve to no input, or the redaction
touches `x`. -/
theorem conceals_iff (x : JStr) :
    (∀ op : AnyOperation, op.classification ≠ .read →
        Conceals (plainTool schema zs issues id timeoutMs op) args x) ↔
      inputOf zs args = none ∨ Touched schema zs args x := by
  constructor
  · intro h
    by_contra hnot
    rw [not_or, Touched, not_or] at hnot
    obtain ⟨hinput, hmarker, hlisted⟩ := hnot
    obtain ⟨data, hdata⟩ := Option.ne_none_iff_exists'.mp hinput
    -- the operation whose command is the text itself
    let op : AnyOperation := { manifestId := [], classification := .write, buildFrames := fun _ => .ok [x] }
    have hunmarked : includes x marker = false := by simpa using hmarker
    have hredact : redactCommand x args (plainTool schema zs issues id timeoutMs op).secrets =
        .ok ⟨x, []⟩ := by
      refine redactCommand_absent hunmarked (fun key hkey => ?_) fun key hkey v hv hin => ?_
      · by_contra hno
        exact hlisted ⟨key, mem_secrets.mp hkey, .inl fun s hs => hno ⟨s, hs⟩⟩
      · exact hlisted ⟨key, mem_secrets.mp hkey, .inr ⟨v, hv, hin⟩⟩
    have hrender : (plainTool schema zs issues id timeoutMs op).render args = .ok x :=
      render_plainTool.mpr ⟨data, hdata,
        by simp [renderFrames, op, join, List.intercalate, bind, Except.bind, pure, Except.pure]⟩
    have := h op (by simp [op]) x ⟨x, []⟩ hrender (includes_iff.mpr List.infix_rfl) hredact x
    rw [texts_of_unmarked hunmarked] at this
    exact this List.mem_cons_self List.infix_rfl
  · intro h op _ command r hrender hx hredact
    obtain ⟨data, hdata, _⟩ := render_plainTool.mp hrender
    rw [hdata, or_iff_right (by simp)] at h
    have hkeys : ∀ k ∈ (plainTool schema zs issues id timeoutMs op).secrets, SafeKey k := fun k hk =>
      (mem_secrets.mp hk).safeKey
    rcases h with hmarker | ⟨key, hkey, hno | ⟨v, hv, hin⟩⟩
    · -- a command with the marker is refused
      have hm : includes command marker = true :=
        includes_iff.mpr ((includes_iff.mp hmarker).trans (includes_iff.mp hx))
      simp [redactCommand, hm] at hredact
    · obtain ⟨secrets, hsecrets⟩ : ∃ secrets,
          pickSecrets args (plainTool schema zs issues id timeoutMs op).secrets = .ok secrets := by
        unfold redactCommand at hredact
        split at hredact
        · cases hredact
        · cases hp : pickSecrets args (plainTool schema zs issues id timeoutMs op).secrets with
          | ok secrets => exact ⟨secrets, rfl⟩
          | error e => rw [hp] at hredact; cases hredact
      obtain ⟨s, hs⟩ := pickSecrets_ok_iff.mp ⟨secrets, hsecrets⟩ key (mem_secrets.mpr hkey)
      exact absurd hs (hno s)
    · intro t ht hxt
      exact redactCommand_absent_texts hkeys hredact (mem_secrets.mpr hkey) hv t ht (hin.trans hxt)

/-- A secret at the top of the arguments is listed, and `input` when it holds one. -/
theorem listed_of_argSecret (h : ArgSecret schema zs [.field key]) (hw : zs.wrap = false) :
    Listed schema zs key := by
  simp only [ArgSecret, hw, Bool.false_eq_true, ↓reduceIte] at h
  simp only [Listed, hw, Bool.false_eq_true, ↓reduceIte]
  exact ⟨[], h⟩

end

/-- **Schema-declared secrets under redaction.** The JSON of records that differ in secrets only is
the same when they agree on the arguments that are not listed; and every operation's command
conceals `x` when the arguments resolve to no input or the redaction touches `x`. -/
theorem schema_secrets_redacted (schema : JsonSchema) (zs : ZodSchemas) (issues : JsValue → JStr)
    (id : JStr) (timeoutMs : Option Int) :
    (∀ (op : AnyOperation) (args args' : Args),
      Rewritten (ArgSecret schema zs) (.obj args.entries) (.obj args'.entries) →
      (redactArgs args (plainTool schema zs issues id timeoutMs op).secrets =
          redactArgs args' (plainTool schema zs issues id timeoutMs op).secrets ↔
        ∀ key, ¬Listed schema zs key → args.value key = args'.value key)) ∧
    ∀ (args : Args) (x : JStr),
      (∀ op : AnyOperation, op.classification ≠ .read →
        Conceals (plainTool schema zs issues id timeoutMs op) args x) ↔
      inputOf zs args = none ∨ Touched schema zs args x := by
  refine ⟨fun op args args' h => ?_, fun args x => conceals_iff x⟩
  rw [redactArgs_eq_iff _ h]
  simp only [mem_secrets]

/-- A closed object with a required secret. -/
def pskSchema : JsonSchema :=
  .mk { type := some .object, required := some [js "psk"], additionalProperties := some false }
    (some [(js "psk", .mk { type := some .string } none none none)]) none none

theorem pskSchema_secret : SecretPath pskSchema [.field (js "psk")] := by
  have hmem : (js "psk", JsonSchema.mk { type := some .string } none none none) ∈
      pskSchema.properties.getD [] := List.mem_cons_self
  exact .here hmem (by decide)

def pskArgs (psk : JStr) : Args := ⟨[(js "psk", .str psk)], List.nodup_singleton _⟩

/-- A secret at the top level is redacted. -/
theorem schema_secrets_redacted_psk : ∃ zs, jsonSchemaToZod (some pskSchema) = .ok zs ∧
    ∀ op : AnyOperation, op.classification ≠ .read →
      let cmd := plainTool pskSchema zs (fun _ => []) (js "vpn_psk") none op
      redactArgs (pskArgs (js "s3cret")) cmd.secrets = redactArgs (pskArgs (js "other")) cmd.secrets ∧
        Conceals cmd (pskArgs (js "s3cret")) (js "s3cret") := by
  refine ⟨_, rfl, fun op hop => ?_⟩
  have hlisted : ∀ zs : ZodSchemas, zs.wrap = false → Listed pskSchema zs (js "psk") := fun zs hw =>
    listed_of_argSecret (by simpa [ArgSecret, hw] using pskSchema_secret) hw
  have h := schema_secrets_redacted pskSchema
    ⟨[(js "psk", .string)], .object [(js "psk", .string)] true none, false⟩ (fun _ => [])
    (js "vpn_psk") none
  refine ⟨(h.1 op _ _ ?_).mpr fun key hkey => ?_,
    (h.2 (pskArgs (js "s3cret")) (js "s3cret")).mpr (.inr (.inr ⟨_, hlisted _ rfl,
      .inr ⟨_, ⟨nofun, nofun, rfl, by decide⟩, List.infix_rfl⟩⟩)) op hop⟩
  · refine .obj rfl fun i hi hi' => ?_
    obtain rfl : i = 0 := by simpa [pskArgs] using hi
    exact .str pskSchema_secret
  · have hne : js "psk" ≠ key := fun he => hkey (he ▸ hlisted _ rfl)
    simp [Args.value, OrderedMap.get, pskArgs, hne]

/-- The object with the secret, one level down. -/
def peerSchema : JsonSchema :=
  .mk { type := some .object, required := some [js "peer"], additionalProperties := some false }
    (some [(js "peer", pskSchema)]) none none

def peerArgs (psk : JStr) : Args :=
  ⟨[(js "peer", .obj (pskArgs psk).entries)], List.nodup_singleton _⟩

/-- `vpn peer psk` of the input's secret. -/
def peerOperation : AnyOperation where
  manifestId := js "cli.vpn.peer"
  classification := .write
  buildFrames input :=
    match input.at? [.field (js "peer"), .field (js "psk")] with
    | some (.str psk) => .ok [js "vpn peer psk " ++ psk]
    | _ => .error (.error none (js "invalid input"))

/-- **A nested secret is shown**: in the JSON of the arguments and in the preview of the command. -/
theorem nested_secret_shown : ∃ zs, jsonSchemaToZod (some peerSchema) = .ok zs ∧
    let cmd := plainTool peerSchema zs (fun _ => []) (js "vpn_peer") none peerOperation
    ArgSecret peerSchema zs [.field (js "peer"), .field (js "psk")] ∧
      cmd.accepts (peerArgs (js "s3cret")) = true ∧ cmd.accepts (peerArgs (js "other")) = true ∧
      Rewritten (ArgSecret peerSchema zs) (.obj (peerArgs (js "s3cret")).entries)
        (.obj (peerArgs (js "other")).entries) ∧
      redactArgs (peerArgs (js "s3cret")) cmd.secrets ≠ redactArgs (peerArgs (js "other")) cmd.secrets ∧
      cmd.render (peerArgs (js "s3cret")) = .ok (js "vpn peer psk s3cret") ∧
      ¬Conceals cmd (peerArgs (js "s3cret")) (js "s3cret") := by
  refine ⟨_, rfl, ?_⟩
  have hmem : (js "peer", pskSchema) ∈ peerSchema.properties.getD [] := List.mem_cons_self
  have hsecret : SecretPath peerSchema [.field (js "peer"), .field (js "psk")] :=
    .property hmem pskSchema_secret
  refine ⟨hsecret, by decide, by decide, ?_, by decide, rfl, ?_⟩
  · refine .obj rfl fun i hi hi' => ?_
    obtain rfl : i = 0 := by simpa [peerArgs] using hi
    refine .obj rfl fun j hj hj' => ?_
    obtain rfl : j = 0 := by simpa [peerArgs, pskArgs] using hj
    exact .str hsecret
  · intro h
    have := h (js "vpn peer psk s3cret") ⟨js "vpn peer psk s3cret", []⟩ rfl (by decide) (by decide)
    exact this (js "vpn peer psk s3cret") (by decide) (by decide)

end VigorMcp
