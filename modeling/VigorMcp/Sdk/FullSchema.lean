import VigorMcp.Sdk.Discriminators

/-!
# The schema of the typed input

`jsonSchemaToZod` has five routes to `full`: the void schema, a union of objects
with a discriminator and one without, an object, and anything else under
`input`. On all of them `full` accepts the valid values of the schema without
its properties named `__proto__` and returns them as they are (`full_means`).
The unions come down to one fact: whatever the route, `full` accepts what one of
the converted branches accepts (`unionOf_accepts`).
-/

namespace VigorMcp

/-- Constants and enumerations hold no objects, so `type: "object"` is what an object has. -/
theorem Plain.isObject {schema : JsonSchema} (h : Plain schema)
    (ht : schema.keywords.type = some .object) : IsObject schema := by
  cases h with
  | @const c _ _ typed =>
    obtain rfl := ht
    cases c <;> cases typed
  | @enum values _ _ nonempty typed =>
    obtain rfl := ht
    obtain ⟨c, hc⟩ := List.exists_mem_of_ne_nil values nonempty
    have := typed c hc
    cases c <;> cases this
  | object => exact ⟨rfl, rfl, rfl, rfl⟩
  | _ => cases ht

/-- The options of a union of objects are the schemas of its branches. -/
structure UnionOptions (branches : List JsonSchema) (options : List Zod) : Prop where
  converted : List.Forall₂ Converts branches options
  objects : ∀ b ∈ branches, IsObject b

theorem UnionOptions.obj {branches : List JsonSchema} {options : List Zod}
    (h : UnionOptions branches options) {option : Zod} (ho : option ∈ options) {v : JsValue}
    (ha : option.accepts v = true) : ∃ fields, v = .obj fields := by
  obtain ⟨b, hb, hc⟩ := h.converted.mem_right ho
  obtain ⟨shape, _, rfl⟩ := (h.objects b hb).converts hc
  exact Zod.obj_of_accepts_object ha

/-- A closed object takes no field `__proto__`. -/
theorem UnionOptions.no_proto {branches : List JsonSchema} {options : List Zod}
    (h : UnionOptions branches options) {option : Zod} (ho : option ∈ options) (closed : option.Closed)
    {fields : List (JStr × JsValue)} (ha : option.accepts (.obj fields) = true) :
    fields.lookup protoKey = none := by
  obtain ⟨b, hb, hc⟩ := h.converted.mem_right ho
  obtain ⟨shape, _, rfl⟩ := (h.objects b hb).converts hc
  unfold zObject at closed ha
  generalize (b.keywords.additionalProperties == some false) = isStrict at closed ha
  obtain ⟨hnames, _⟩ := Zod.accepts_object.mp ha
  cases closed
  rw [List.lookup_eq_none_iff]
  intro f hf
  obtain ⟨e, he, hname⟩ := List.mem_map.mp (hnames rfl f hf)
  rw [← hname]
  exact bne_iff_ne.mpr (mem_ownEntries.mp he).2.symm

/-- **Dispatch or not, a union accepts what one of its options accepts**; under `__proto__` the dispatch
finds nothing. -/
theorem unionOf_accepts {branches : List JsonSchema} {options : List Zod} {full : Zod}
    (h : UnionOptions branches options) (closed : ∀ option ∈ options, option.Closed)
    (hf : unionOf (findCommonConstDiscriminator branches) options = .ok full) (v : JsValue) :
    full.accepts v = true ↔ findCommonConstDiscriminator branches ≠ some protoKey ∧
      ∃ option ∈ options, option.accepts v = true := by
  unfold unionOf at hf
  cases hk : truthyKey (findCommonConstDiscriminator branches) with
  | none =>
    rw [hk] at hf
    cases hf
    have hne : findCommonConstDiscriminator branches ≠ some protoKey := fun hp => by
      rw [truthyKey_eq_some.mpr ⟨hp, by decide⟩] at hk
      cases hk
    rw [Zod.accepts_union, and_iff_right hne]
  | some key =>
    rw [hk] at hf
    obtain ⟨_, distinct, rfl⟩ := discriminatedUnion_ok_iff.mp hf
    obtain ⟨hsome, _⟩ := truthyKey_eq_some.mp hk
    obtain ⟨_, _, _, hcommon, _⟩ := findCommonConstDiscriminator_eq_some.mp hsome
    rw [hsome, ne_eq, Option.some.injEq]
    by_cases hproto : key = protoKey
    · refine iff_of_false (fun ha => ?_) fun hand => hand.1 hproto
      obtain ⟨fields, rfl⟩ := Zod.obj_of_accepts_discriminatedUnion ha
      obtain ⟨data, hd⟩ := Zod.accepts_iff.mp ha
      rw [Zod.parse] at hd
      obtain ⟨e, he, hkey, hp⟩ := Zod.parseOption_mem hd
      obtain ⟨option, ho, he⟩ := List.mem_flatMap.mp he
      obtain ⟨_, _, rfl⟩ := List.mem_map.mp he
      have hnone := h.no_proto ho (closed option ho) (Zod.accepts_iff.mpr ⟨data, hp⟩)
      exact Zod.not_isKey_discriminant hnone _ (hproto ▸ hkey)
    · rw [and_iff_right hproto]
      have htagged : ∀ fields, ∀ option ∈ options, option.accepts (.obj fields) = true →
          ∃ k ∈ discriminatorValues key option, Zod.isKey k (Zod.discriminant fields key) = true := by
        intro fields option ho ha
        obtain ⟨b, hb, hc⟩ := h.converted.mem_right ho
        obtain ⟨c, hconst⟩ := Option.isSome_iff_exists.mp (hcommon b hb)
        exact (h.objects b hb).tagged hc hconst hproto ha
      constructor
      · intro ha
        obtain ⟨fields, rfl⟩ := Zod.obj_of_accepts_discriminatedUnion ha
        exact (accepts_discriminatedUnion distinct (htagged fields)).mp ha
      · rintro ⟨option, ho, ha⟩
        obtain ⟨fields, rfl⟩ := h.obj ho ha
        exact (accepts_discriminatedUnion distinct (htagged fields)).mpr ⟨option, ho, ha⟩

theorem unionOf_closed {branches : List JsonSchema} {options : List Zod} {full : Zod}
    (closed : ∀ option ∈ options, option.Closed)
    (hf : unionOf (findCommonConstDiscriminator branches) options = .ok full) : full.Closed := by
  unfold unionOf at hf
  split at hf
  · obtain ⟨_, _, rfl⟩ := discriminatedUnion_ok_iff.mp hf
    refine .discriminatedUnion fun e he => ?_
    obtain ⟨option, ho, he⟩ := List.mem_flatMap.mp he
    obtain ⟨_, _, rfl⟩ := List.mem_map.mp he
    exact closed option ho
  · cases hf
    exact .union closed

/-- **What a conversion comes from**: the schema as it is, under `input` or as an object's shape, or
a union of objects. -/
inductive Route (schema : JsonSchema) : ZodSchemas → Prop where
  | wrap {zType : Zod} (converts : Converts schema zType)
      (mixed : ∀ branches, schema.oneOf = some branches →
        ∃ b ∈ branches, ¬(b.keywords.type = some .object ∧ b.properties.isSome = true)) :
      Route schema (wrapInput zType)
  | object {shape : List (JStr × Zod)} {isStrict : Bool} (oneOf : schema.oneOf = none)
      (converts : Converts schema (zObject shape isStrict)) :
      Route schema ⟨ownEntries shape, zObject shape isStrict, false⟩
  | union {branches : List JsonSchema} {options : List Zod} {shape : List (JStr × Zod)} {full : Zod}
      (oneOf : schema.oneOf = some branches) (options_eq : UnionOptions branches options)
      (flat : flattenObjectOneOf branches (findCommonConstDiscriminator branches) (js "$") = .ok shape)
      (built : unionOf (findCommonConstDiscriminator branches) options = .ok full) :
      Route schema ⟨shape, full, false⟩

theorem Plain.oneOf_plain {kw : Keywords} {properties : Option (List (JStr × JsonSchema))}
    {branches : List JsonSchema} {items : Option JsonSchema}
    (h : Plain (.mk kw properties (some branches) items)) : ∀ b ∈ branches, Plain b := by
  cases h with
  | oneOf plain => exact plain

theorem Plain.route {schema : JsonSchema} (hp : Plain schema) {c : ZodSchemas}
    (h : jsonSchemaToZod (some schema) = .ok c) : Route schema c := by
  obtain ⟨kw, properties, oneOf, items⟩ := schema
  simp only [jsonSchemaToZod, Except.bind_eq_ok, JsonSchema.keywords, JsonSchema.oneOf] at h
  obtain ⟨_, hknown, h⟩ := h
  cases oneOf with
  | some branches =>
    obtain ⟨_, ⟨hmixed, zType, hz, rfl⟩ | ⟨hall, shape, options, full, hs, ho, hf, rfl⟩⟩ :=
      buildTopLevelOneOf_ok_iff.mp h
    · refine .wrap ⟨_, hz⟩ ?_
      rintro _ ⟨⟩
      exact hmixed
    · exact .union rfl
        ⟨convertBranches_ok ho, fun b hb => (hp.oneOf_plain b hb).isObject (hall b hb).1⟩ hs hf
  | none =>
    simp only [buildTopLevel] at h
    split at h
    · next htype =>
      obtain ⟨shape, hs, hc⟩ := Except.bind_eq_ok.mp h
      obtain rfl := Except.pure_eq_ok.mp hc
      have hobj := hp.isObject htype
      refine .object rfl ⟨js "$", ?_⟩
      rw [convertSchema, show kw.const = none from hobj.const, show kw.enum = none from hobj.enum,
        show kw.type = some .object from htype, Except.bind_eq_ok]
      refine ⟨(), hknown, ?_⟩
      rw [Except.map_eq_ok]
      exact ⟨_, Except.map_eq_ok.mpr ⟨shape, hs, rfl⟩, rfl⟩
    · obtain ⟨zType, hz, rfl⟩ := Except.map_eq_ok.mp h
      refine .wrap ⟨_, hz⟩ ?_
      rintro _ ⟨⟩

theorem UnionOptions.closed {branches : List JsonSchema} {options : List Zod}
    (h : UnionOptions branches options) (plain : ∀ b ∈ branches, Plain b) :
    ∀ option ∈ options, option.Closed := by
  intro option ho
  obtain ⟨b, hb, hc⟩ := h.converted.mem_right ho
  exact (hc.means (plain b hb)).1

theorem Plain.full_closed {schema : JsonSchema} (hp : Plain schema) {c : ZodSchemas}
    (h : jsonSchemaToZod (some schema) = .ok c) : c.full.Closed := by
  cases hp.route h with
  | wrap converts => exact (converts.means hp).1
  | object _ converts => exact (converts.means hp).1
  | @union branches options shape full oneOf options_eq _ built =>
    obtain ⟨kw, properties, _, items⟩ := schema
    obtain rfl := oneOf
    exact unionOf_closed (options_eq.closed hp.oneOf_plain) built

/-- Nothing but the void schema takes `undefined`. -/
theorem full_rejects_undefined {schema : JsonSchema} {c : ZodSchemas}
    (h : jsonSchemaToZod (some schema) = .ok c) : ¬c.full.accepts .undefined = true := by
  obtain ⟨_, _, h⟩ := Except.bind_eq_ok.mp h
  cases hone : schema.oneOf with
  | some branches =>
    simp only [hone] at h
    obtain ⟨_, ⟨_, zType, hz, rfl⟩ | ⟨_, shape, options, full, _, ho, hf, rfl⟩⟩ :=
      buildTopLevelOneOf_ok_iff.mp h
    · exact Converts.rejects_undefined ⟨_, hz⟩
    · intro ha
      unfold unionOf at hf
      split at hf
      · obtain ⟨_, _, rfl⟩ := discriminatedUnion_ok_iff.mp hf
        obtain ⟨_, he⟩ := Zod.obj_of_accepts_discriminatedUnion ha
        cases he
      · cases hf
        obtain ⟨option, hmem, ha⟩ := Zod.accepts_union.mp ha
        obtain ⟨_, _, hc⟩ := (convertBranches_ok ho).mem_right hmem
        exact hc.rejects_undefined ha
  | none =>
    simp only [hone, buildTopLevel] at h
    split at h
    · obtain ⟨shape, _, hc⟩ := Except.bind_eq_ok.mp h
      obtain rfl := Except.pure_eq_ok.mp hc
      simp [describe, Zod.accepts, Zod.parse, zObject]
    · obtain ⟨zType, hz, rfl⟩ := Except.map_eq_ok.mp h
      exact Converts.rejects_undefined ⟨_, hz⟩

/-- The key that `findCommonConstDiscriminator` returns for the branches of a union. -/
def discriminatorOf (schema : JsonSchema) : Option JStr := schema.oneOf.bind findCommonConstDiscriminator

/-- Only an object has properties, and constants among them. -/
theorem Plain.object_of_constOf {schema : JsonSchema} (h : Plain schema) {key : JStr} {c : Scalar}
    (hconst : schema.constOf key = some c) :
    schema.keywords.type = some .object ∧ schema.properties.isSome = true := by
  obtain ⟨_, hp, _⟩ := Option.bind_eq_some_iff.mp hconst
  obtain ⟨properties, hps, _⟩ := Option.bind_eq_some_iff.mp hp
  cases h with
  | object => exact ⟨rfl, by rw [hps]; rfl⟩
  | _ => cases hps

/-- A union with a branch that is no object has no discriminator. -/
theorem Plain.discriminatorOf_mixed {schema : JsonSchema} (hp : Plain schema)
    (mixed : ∀ branches, schema.oneOf = some branches →
      ∃ b ∈ branches, ¬(b.keywords.type = some .object ∧ b.properties.isSome = true)) :
    discriminatorOf schema = none := by
  rw [Option.eq_none_iff_forall_ne_some]
  intro key hkey
  obtain ⟨branches, hone, hkey⟩ := Option.bind_eq_some_iff.mp hkey
  obtain ⟨b, hb, hnot⟩ := mixed branches hone
  obtain ⟨_, _, _, hcommon, _⟩ := findCommonConstDiscriminator_eq_some.mp hkey
  obtain ⟨c, hconst⟩ := Option.isSome_iff_exists.mp (hcommon b hb)
  obtain ⟨kw, properties, _, items⟩ := schema
  obtain rfl := hone
  exact hnot ((hp.oneOf_plain b hb).object_of_constOf hconst)

/-- Valid without the properties named `__proto__`; under a union that is told apart by that name
nothing is. -/
def ValidWithoutProto (schema : JsonSchema) (v : JsValue) : Prop :=
  discriminatorOf schema ≠ some protoKey ∧ satisfies schema.withoutProto v = true

/-- **What `full` accepts**: the values that are valid without the properties named `__proto__`. -/
theorem Plain.full_accepts {schema : JsonSchema} (hp : Plain schema) {c : ZodSchemas}
    (h : jsonSchemaToZod (some schema) = .ok c) {v : JsValue} (hv : v.IsJson) :
    c.full.accepts v = true ↔ ValidWithoutProto schema v := by
  unfold ValidWithoutProto
  cases hp.route h with
  | wrap converts mixed =>
    rw [hp.discriminatorOf_mixed mixed, and_iff_right (Option.some_ne_none _).symm]
    exact (converts.means hp).2 v hv
  | object oneOf converts =>
    have hnone : discriminatorOf schema = none := by rw [discriminatorOf, oneOf]; rfl
    rw [hnone, and_iff_right (Option.some_ne_none _).symm]
    exact (converts.means hp).2 v hv
  | @union branches options shape full oneOf options_eq _ built =>
    obtain ⟨kw, properties, _, items⟩ := schema
    obtain rfl := oneOf
    have hbranches := hp.oneOf_plain
    rw [unionOf_accepts options_eq (options_eq.closed hbranches) built]
    cases hp
    rw [satisfies_oneOf_withoutProto]
    exact and_congr_right fun _ =>
      options_eq.converted.exists_iff fun b hb zType hc => (hc.means (hbranches b hb)).2 v hv

/-- A property named `__proto__` is lost with its name. -/
theorem not_mem_of_withoutProto {schema : JsonSchema} (h : schema.withoutProto = schema)
    {properties : List (JStr × JsonSchema)} (hps : schema.properties = some properties) :
    ∀ p ∈ properties, p.1 ≠ protoKey := by
  obtain ⟨kw, _, oneOf, items⟩ := schema
  obtain rfl := hps
  simp only [JsonSchema.withoutProto, propertiesWithoutProto, JsonSchema.mk.injEq,
    Option.some.injEq] at h
  rw [← h.2.1, fieldsWithoutProto_eq_map]
  intro p hp
  obtain ⟨q, hq, rfl⟩ := List.mem_map.mp hp
  exact (mem_ownEntries.mp hq).2

theorem withoutProto_branch {schema : JsonSchema} (h : schema.withoutProto = schema)
    {branches : List JsonSchema} (hone : schema.oneOf = some branches) :
    ∀ b ∈ branches, b.withoutProto = b := by
  obtain ⟨kw, properties, _, items⟩ := schema
  obtain rfl := hone
  simp only [JsonSchema.withoutProto, oneOfWithoutProto, JsonSchema.mk.injEq, Option.some.injEq,
    branchesWithoutProto_eq_map] at h
  exact List.map_inj_left.mp (h.2.2.1.trans (List.map_id _).symm)

/-- A schema without such properties is not told apart by one. -/
theorem discriminatorOf_ne_proto {schema : JsonSchema} (h : schema.withoutProto = schema) :
    discriminatorOf schema ≠ some protoKey := by
  intro hkey
  obtain ⟨branches, hone, hkey⟩ := Option.bind_eq_some_iff.mp hkey
  obtain ⟨before, after, hfirst, _⟩ := findCommonConstDiscriminator_eq_some.mp hkey
  cases branches with
  | nil => simp at hfirst
  | cons b branches =>
    have hb := withoutProto_branch h hone b List.mem_cons_self
    rw [List.head?_cons, Option.bind_some] at hfirst
    cases hps : b.properties with
    | none => simp [hps] at hfirst
    | some properties =>
      rw [hps, Option.getD_some] at hfirst
      have hmem : protoKey ∈ properties.map Prod.fst := by rw [hfirst]; simp
      obtain ⟨p, hp, hname⟩ := List.mem_map.mp hmem
      exact not_mem_of_withoutProto hb hps p hp hname

/-- `full` means what the operation's schema means, at one value: it accepts it when it is valid, and
returns it as it is. -/
structure MeansAt (full : Zod) (schema : Option JsonSchema) (v : JsValue) : Prop where
  accepts : full.accepts v = true ↔ ∃ s ∈ schema, satisfies s v = true
  returns : ∀ data, full.parse v = some data → data.Same v

/-- **The schema of the typed input means what the schema of the operation means** at exactly the JSON
values whose validity does not turn on properties named `__proto__`, so at all values when there are
none. It accepts `undefined` for a void operation only. -/
theorem full_means {schema : Option JsonSchema} (plain : ∀ s ∈ schema, Plain s) {c : ZodSchemas}
    (h : jsonSchemaToZod schema = .ok c) :
    (∀ v : JsValue, v.IsJson → (MeansAt c.full schema v ↔
        ∀ s ∈ schema, satisfies s v = true ↔ ValidWithoutProto s v)) ∧
      (c.full.accepts .undefined = true ↔ schema = none) ∧
      ((∀ s ∈ schema, s.withoutProto = s) → ∀ v : JsValue, v.IsJson → MeansAt c.full schema v) := by
  cases schema with
  | none =>
    cases h
    have hmeans : ∀ v : JsValue, v.IsJson → MeansAt .undefined none v := by
      intro v hv
      have hne := hv.ne_undefined
      refine ⟨?_, fun data => Zod.Closed.undefined.parse_same v data⟩
      cases v <;> simp_all [Zod.accepts, Zod.parse]
    exact ⟨fun v hv => iff_of_true (hmeans v hv) fun s hs => (by cases hs),
      by simp [Zod.accepts, Zod.parse],
      fun _ => hmeans⟩
  | some schema =>
    have hp : Plain schema := plain schema rfl
    have hmeans : ∀ v : JsValue, v.IsJson → (MeansAt c.full (some schema) v ↔
        (satisfies schema v = true ↔ ValidWithoutProto schema v)) := by
      intro v hv
      have hsome : (∃ s ∈ some schema, satisfies s v = true) ↔ satisfies schema v = true := by simp
      constructor
      · rintro ⟨haccepts, _⟩
        rw [← hsome, ← haccepts, hp.full_accepts h hv]
      · intro hvalid
        refine ⟨?_, fun data => (hp.full_closed h).parse_same v data⟩
        rw [hsome, hvalid, hp.full_accepts h hv]
    refine ⟨fun v hv => ?_, iff_of_false (full_rejects_undefined h) (Option.some_ne_none schema),
      fun hwithout v hv => ?_⟩
    · rw [hmeans v hv]
      simp
    · have heq := hwithout schema rfl
      rw [hmeans v hv, ValidWithoutProto, heq, and_iff_right (discriminatorOf_ne_proto heq)]

theorem constBranch_plain (consts : List (JStr × Scalar)) : Plain (constBranch consts) := by
  refine .object (fun key hkey => ?_) fun p hp => ?_
  · simpa [constBranch] using hkey
  · obtain ⟨e, _, rfl⟩ := List.mem_map.mp hp
    exact .const rfl

theorem modeUnion_plain : Plain modeUnion := by
  refine .oneOf fun b hb => ?_
  rcases List.mem_cons.mp hb with rfl | hb
  · exact constBranch_plain _
  · rw [List.mem_singleton.mp hb]
    exact constBranch_plain _

/-- `{ mode: 'off' }` goes to the second branch. -/
theorem full_means_mode : ∃ c, jsonSchemaToZod (some modeUnion) = .ok c ∧
    c.full.accepts (.obj [(js "mode", .str (js "off"))]) = true := by
  have plain : ∀ s ∈ some modeUnion, Plain s := by
    rintro s ⟨⟩
    exact modeUnion_plain
  have without : ∀ s ∈ some modeUnion, s.withoutProto = s := by
    rintro s ⟨⟩
    rfl
  refine ⟨_, rfl, ((full_means plain rfl).2.2 without _ ?_).accepts.mpr ⟨_, rfl, by decide⟩⟩
  · refine .of_child nofun nofun fun step w hw => ?_
    cases step with
    | index i => cases hw
    | field key =>
      obtain ⟨_, rfl⟩ := Prod.mk.inj (List.mem_singleton.mp (mem_of_lookup hw))
      exact .of_child nofun nofun nofun

/-- A closed object with one required property, named `__proto__`. -/
def protoObject : JsonSchema :=
  .mk { type := some .object, required := some [protoKey], additionalProperties := some false }
    (some [(protoKey, .mk { type := some .string } none none none)]) none none

theorem protoObject_plain : Plain protoObject := by
  refine .object (fun key hkey => hkey) fun p hp => ?_
  rw [List.mem_singleton.mp hp]
  exact .string

/-- **A property named `__proto__` is lost**: `full` refuses the object that has it and accepts the one
that lacks it. -/
theorem proto_property_lost : Plain protoObject ∧ ∃ c, jsonSchemaToZod (some protoObject) = .ok c ∧
    (satisfies protoObject (.obj [(protoKey, .str (js "x"))]) = true ∧
      c.full.accepts (.obj [(protoKey, .str (js "x"))]) = false) ∧
    satisfies protoObject (.obj []) = false ∧ c.full.accepts (.obj []) = true :=
  ⟨protoObject_plain, _, rfl, ⟨by decide, by decide⟩, by decide, by decide⟩

end VigorMcp
