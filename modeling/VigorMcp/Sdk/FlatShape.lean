import VigorMcp.Sdk.FullSchema

/-!
# The flattened shape

`server.tool` gets one shape for a union of objects: the discriminator's
constants, and the properties of all branches as optional ones, merged by name
(`Collected`). An input that `full` accepts passes `z.object(shape)` as it is,
unless the discriminator is the property without a name, which the shape leaves
out (`flat_shape_keeps`).
-/

namespace VigorMcp

/-! ## The properties of all branches -/

/-- The types are those of the properties besides the discriminator, each under its name. -/
structure Collected (discriminatorKey : Option JStr) (properties : List (JStr × JsonSchema))
    (propTypes : PropTypes) : Prop where
  sound : ∀ e ∈ propTypes.entries, some e.1 ≠ discriminatorKey ∧
    ∀ t ∈ e.2, ∃ p ∈ properties, p.1 = e.1 ∧ Converts p.2 t
  complete : ∀ p ∈ properties, some p.1 ≠ discriminatorKey →
    ∃ types, (p.1, types) ∈ propTypes.entries ∧ ∃ t ∈ types, Converts p.2 t

theorem Collected.empty (discriminatorKey : Option JStr) : Collected discriminatorKey [] .empty :=
  ⟨nofun, nofun⟩

/-- The list under a name, empty when the name is new. -/
theorem Collected.types {discriminatorKey : Option JStr} {properties : List (JStr × JsonSchema)}
    {propTypes : PropTypes} (h : Collected discriminatorKey properties propTypes) (key : JStr) :
    ∀ t ∈ (propTypes.get key).getD [], ∃ p ∈ properties, p.1 = key ∧ Converts p.2 t := by
  cases hg : propTypes.get key with
  | none => nofun
  | some types => exact (h.sound _ (OrderedMap.get_eq_some.mp hg)).2

theorem Collected.add {discriminatorKey : Option JStr} {properties : List (JStr × JsonSchema)}
    {propTypes out : PropTypes} {path : JStr} {p : JStr × JsonSchema}
    (h : Collected discriminatorKey properties propTypes)
    (hadd : addPropType discriminatorKey path propTypes p = .ok out) :
    Collected discriminatorKey (properties ++ [p]) out := by
  unfold addPropType at hadd
  split at hadd
  · next hk =>
    cases hadd
    refine ⟨fun e he => ⟨(h.sound e he).1, fun t ht => ?_⟩, fun q hq hne => ?_⟩
    · obtain ⟨q, hq, hqt⟩ := (h.sound e he).2 t ht
      exact ⟨q, List.mem_append_left _ hq, hqt⟩
    · rcases List.mem_append.mp hq with hq | hq
      · exact h.complete q hq hne
      · rw [List.mem_singleton.mp hq] at hne
        exact absurd hk hne
  · next hk =>
    obtain ⟨zType, hz, hset⟩ := Except.bind_eq_ok.mp hadd
    obtain rfl := Except.pure_eq_ok.mp hset
    refine ⟨fun e he => ?_, fun q hq hne => ?_⟩
    · rcases OrderedMap.mem_set.mp he with ⟨he, _⟩ | rfl
      · refine ⟨(h.sound e he).1, fun t ht => ?_⟩
        obtain ⟨q, hq, hqt⟩ := (h.sound e he).2 t ht
        exact ⟨q, List.mem_append_left _ hq, hqt⟩
      · refine ⟨hk, fun t ht => ?_⟩
        rcases List.mem_append.mp ht with ht | ht
        · obtain ⟨q, hq, hqt⟩ := h.types p.1 t ht
          exact ⟨q, List.mem_append_left _ hq, hqt⟩
        · rw [List.mem_singleton.mp ht]
          exact ⟨p, by simp, rfl, _, hz⟩
    · by_cases hname : q.1 = p.1
      · refine ⟨_, OrderedMap.mem_set.mpr (.inr (by rw [hname])), ?_⟩
        rcases List.mem_append.mp hq with hq | hq
        · -- the list under the name keeps what it had
          obtain ⟨types, hm, t, ht, hqt⟩ := h.complete q hq hne
          rw [hname, ← OrderedMap.get_eq_some] at hm
          exact ⟨t, by rw [hm]; exact List.mem_append_left _ ht, hqt⟩
        · rw [List.mem_singleton.mp hq]
          exact ⟨zType, by simp, _, hz⟩
      · rcases List.mem_append.mp hq with hq | hq
        · obtain ⟨types, hm, ht⟩ := h.complete q hq hne
          exact ⟨types, OrderedMap.mem_set.mpr (.inl ⟨hm, hname⟩), ht⟩
        · exact absurd (by rw [List.mem_singleton.mp hq]) hname

theorem Collected.addAll {discriminatorKey : Option JStr} {path : JStr}
    {more properties : List (JStr × JsonSchema)} {propTypes out : PropTypes}
    (h : Collected discriminatorKey properties propTypes)
    (hadd : more.foldlM (addPropType discriminatorKey path) propTypes = .ok out) :
    Collected discriminatorKey (properties ++ more) out := by
  induction more generalizing properties propTypes with
  | nil =>
    cases hadd
    rwa [List.append_nil]
  | cons p more ih =>
    rw [List.foldlM_cons] at hadd
    obtain ⟨mid, hmid, hrest⟩ := Except.bind_eq_ok.mp hadd
    rw [List.append_cons]
    exact ih (h.add hmid) hrest

theorem collectPropTypes_ok {discriminatorKey : Option JStr} {path : JStr}
    {branches : List JsonSchema} {i : Nat} {properties : List (JStr × JsonSchema)}
    {propTypes out : PropTypes} (h : Collected discriminatorKey properties propTypes)
    (hc : collectPropTypes discriminatorKey path branches i propTypes = .ok out) :
    Collected discriminatorKey (properties ++ branches.flatMap fun b => b.properties.getD []) out := by
  induction branches generalizing i properties propTypes with
  | nil =>
    cases hc
    simpa using h
  | cons b branches ih =>
    rw [collectPropTypes] at hc
    obtain ⟨_, _, hc⟩ := Except.bind_eq_ok.mp hc
    obtain ⟨mid, hmid, hrest⟩ := Except.bind_eq_ok.mp hc
    rw [List.flatMap_cons, ← List.append_assoc]
    exact ih (h.addAll hmid) hrest

/-- The discriminator's entry, when it has a name. -/
inductive Discriminant (branches : List JsonSchema) : Option JStr → List (JStr × Zod) → Prop where
  | none {discriminatorKey : Option JStr} (unnamed : truthyKey discriminatorKey = none) :
      Discriminant branches discriminatorKey []
  | some {key : JStr} {path : JStr} {zType : Zod} (named : key ≠ [])
      (built : buildEnum (branches.filterMap fun b => b.constOf key) path = .ok zType) :
      Discriminant branches (some key) [(key, zType)]

theorem flattenObjectOneOf_ok {branches : List JsonSchema} {discriminatorKey : Option JStr}
    {path : JStr} {shape : List (JStr × Zod)}
    (h : flattenObjectOneOf branches discriminatorKey path = .ok shape) :
    ∃ propTypes discriminant,
      Collected discriminatorKey (branches.flatMap fun b => b.properties.getD []) propTypes ∧
      Discriminant branches discriminatorKey discriminant ∧
      shape = ownEntries
        (discriminant ++ propTypes.entries.map fun e => (e.1, .optional (mergeTypes e.2))) := by
  unfold flattenObjectOneOf at h
  obtain ⟨propTypes, hp, h⟩ := Except.bind_eq_ok.mp h
  have hcollected := collectPropTypes_ok (.empty _) hp
  rw [List.nil_append] at hcollected
  cases hk : truthyKey discriminatorKey with
  | none =>
    simp only [hk, pure_bind] at h
    exact ⟨propTypes, [], hcollected, .none hk, (Except.pure_eq_ok.mp h).symm⟩
  | some key =>
    obtain ⟨rfl, hne⟩ := truthyKey_eq_some.mp hk
    simp only [hk, pure_bind] at h
    obtain ⟨zType, hz, h⟩ := Except.bind_eq_ok.mp h
    exact ⟨propTypes, _, hcollected, .some hne hz, (Except.pure_eq_ok.mp h).symm⟩

/-! ## What passes the flattened shape -/

/-- The constant a required discriminator of a branch has in what the branch accepts. -/
theorem IsObject.constant {schema : JsonSchema} {zType : Zod} (h : IsObject schema)
    (hc : Converts schema zType) {key : JStr} {c : Scalar} (hconst : schema.constOf key = some c)
    (required : key ∈ schema.keywords.required.getD []) (own : key ≠ protoKey)
    {fields : List (JStr × JsValue)} (ha : zType.accepts (.obj fields) = true) :
    c.is (Zod.field fields key) = true := by
  obtain ⟨k, hk, hkey⟩ := h.tagged hc hconst own ha
  rw [Zod.discriminant_eq_field own] at hkey
  rw [(h.values hc hconst).1, tagsOf, if_pos (by simpa using required), List.mem_singleton] at hk
  rwa [hk] at hkey

/-- What a branch accepts under a name passes the types that all branches have under it. -/
theorem Collected.accepts {branches : List JsonSchema} {discriminatorKey : Option JStr}
    {propTypes : PropTypes}
    (h : Collected discriminatorKey (branches.flatMap fun b => b.properties.getD []) propTypes)
    {b : JsonSchema} (hb : b ∈ branches) {shape : List (JStr × Zod)}
    (hshape : List.Forall₂ (ShapeEntry (b.keywords.required.getD [])) (b.properties.getD []) shape)
    {fields : List (JStr × JsValue)} (hnames : ∀ f ∈ fields, f.1 ∈ (ownEntries shape).map Prod.fst)
    (hfields : ∀ e ∈ ownEntries shape, e.2.accepts (Zod.field fields e.1) = true) {e : JStr × List Zod}
    (he : e ∈ propTypes.entries) :
    (Zod.optional (mergeTypes e.2)).accepts (Zod.field fields e.1) = true := by
  rw [Zod.accepts_optional, accepts_mergeTypes]
  cases hl : fields.lookup e.1 with
  | none => exact .inl (by rw [Zod.field, hl]; rfl)
  | some v =>
    -- the branch is strict, so the field is one of its properties
    have hown := own_shapeEntries hshape
    rw [names_of_shapeEntries hown] at hnames
    obtain ⟨p, hp, hname⟩ := List.mem_map.mp (hnames _ (mem_of_lookup hl))
    obtain ⟨entry, hentry, hentryName, zType, hc, heq⟩ := hown.mem_left hp
    have haccepts := hfields entry hentry
    rw [hentryName, hname, heq] at haccepts
    have hmem : p ∈ branches.flatMap fun b => b.properties.getD [] :=
      List.mem_flatMap.mpr ⟨b, hb, (mem_ownEntries.mp hp).1⟩
    simp only at hname
    obtain ⟨types, hm, t, ht, hct⟩ := h.complete p hmem (hname ▸ (h.sound e he).1)
    rw [hname] at hm
    obtain rfl := OrderedMap.eq_of_mem hm he
    obtain rfl := hct.unique hc
    split at haccepts
    · exact .inr ⟨_, ht, haccepts⟩
    · exact (Zod.accepts_optional.mp haccepts).imp_right fun ha => ⟨_, ht, ha⟩

/-- The arguments of a tool call that carries the input. -/
def ZodSchemas.args (c : ZodSchemas) (input : JsValue) : JsValue :=
  if c.wrap then .obj [(js "input", input)] else input

/-- The discriminator is required in every branch. -/
def RequiredDiscriminator (schema : JsonSchema) : Prop :=
  ∀ branches key, schema.oneOf = some branches → findCommonConstDiscriminator branches = some key →
    ∀ b ∈ branches, key ∈ b.keywords.required.getD []

theorem Plain.property_plain {schema : JsonSchema} (h : Plain schema) {p : JStr × JsonSchema}
    (hp : p ∈ schema.properties.getD []) : Plain p.2 := by
  cases h with
  | object _ plain => exact plain p hp
  | _ => cases hp

/-- The value passes `z.object(shape)` and comes back as it is. -/
def PassesFlat (shape : List (JStr × Zod)) (v : JsValue) : Prop :=
  ∃ data, (Zod.object shape false none).parse v = some data ∧ data.Same v

/-- What no field of the shape is named after is dropped. -/
theorem not_passesFlat_of_unnamed (key : JStr) {shape : List (JStr × Zod)}
    (unnamed : ∀ e ∈ shape, e.1 ≠ key) {fields : List (JStr × JsValue)}
    (present : fields.lookup key ≠ none) : ¬PassesFlat shape (.obj fields) := by
  rintro ⟨data, hd, hsame⟩
  obtain ⟨out, ho, rfl⟩ : ∃ out, Zod.parseShape shape fields = some out ∧ .obj out = data := by
    simpa [Zod.parse] using hd
  have habsent : out.lookup key = none := by
    have hshape := List.lookup_eq_none_iff.mpr fun e he => bne_iff_ne.mpr (unnamed e he).symm
    rw [Zod.lookup_parseShape ho, hshape]
    cases fields.lookup key <;> rfl
  have hfield := hsame.field key
  rw [habsent] at hfield
  cases hl : fields.lookup key with
  | none => exact present hl
  | some v =>
    rw [hl] at hfield
    cases hfield

theorem passesFlat_of_names {shape : List (JStr × Zod)} (closed : ∀ e ∈ shape, e.2.Closed)
    {fields : List (JStr × JsValue)} (hnames : ∀ f ∈ fields, f.1 ∈ shape.map Prod.fst)
    (hfields : ∀ e ∈ shape, e.2.accepts (Zod.field fields e.1) = true) :
    PassesFlat shape (.obj fields) := by
  obtain ⟨data, hd⟩ := Zod.accepts_iff.mp
    (Zod.accepts_object.mpr ⟨nofun, hfields⟩ : (Zod.object shape false none).accepts (.obj fields) = true)
  exact ⟨data, hd, (Zod.parse_same_iff hd).mpr
    (Zod.knows_object (fun e he _ => (closed e he).knows) hnames hfields)⟩

/-- What stands in the flattened shape is closed. -/
theorem flattened_closed {branches : List JsonSchema} {discriminatorKey : Option JStr}
    {propTypes : PropTypes} {discriminant : List (JStr × Zod)} (plain : ∀ b ∈ branches, Plain b)
    (hc : Collected discriminatorKey (branches.flatMap fun b => b.properties.getD []) propTypes)
    (hd : Discriminant branches discriminatorKey discriminant) :
    ∀ e ∈ discriminant ++ propTypes.entries.map fun e => (e.1, Zod.optional (mergeTypes e.2)),
      e.2.Closed := by
  intro e he
  rcases List.mem_append.mp he with he | he
  · cases hd with
    | none => cases he
    | some _ built =>
      rw [List.mem_singleton.mp he]
      exact (buildEnum_ok built).1
  · obtain ⟨entry, hentry, rfl⟩ := List.mem_map.mp he
    refine .optional (.mergeTypes fun t ht => ?_)
    obtain ⟨p, hp, _, hct⟩ := (hc.sound entry hentry).2 t ht
    obtain ⟨b, hb, hp⟩ := List.mem_flatMap.mp hp
    exact (hct.means ((plain b hb).property_plain hp)).1

/-- **A value of one branch passes the flattened shape** unless the discriminator has no name. -/
theorem flattened_passes {branches : List JsonSchema} {discriminatorKey : Option JStr} {path : JStr}
    {shape : List (JStr × Zod)} (plain : ∀ b ∈ branches, Plain b)
    (hobjects : ∀ b ∈ branches, IsObject b)
    (common : ∀ key, discriminatorKey = some key → CommonConst branches key ∧
      ∀ b ∈ branches, key ∈ b.keywords.required.getD [])
    (own : discriminatorKey ≠ some protoKey)
    (flat : flattenObjectOneOf branches discriminatorKey path = .ok shape)
    {b : JsonSchema} (hb : b ∈ branches) {zType : Zod} (hc : Converts b zType)
    {fields : List (JStr × JsValue)} (ha : zType.accepts (.obj fields) = true) :
    PassesFlat shape (.obj fields) ↔ discriminatorKey ≠ some [] := by
  obtain ⟨propTypes, discriminant, hcollected, hdiscriminant, rfl⟩ := flattenObjectOneOf_ok flat
  have hclosed := flattened_closed plain hcollected hdiscriminant
  have hconstant : ∀ key, discriminatorKey = some key →
      ∃ c, b.constOf key = some c ∧ c.is (Zod.field fields key) = true := by
    intro key hkey
    obtain ⟨hcommon, hrequired⟩ := common key hkey
    obtain ⟨c, hconst⟩ := Option.isSome_iff_exists.mp (hcommon b hb)
    have hown : key ≠ protoKey := fun hk => own (hk ▸ hkey)
    exact ⟨c, hconst, (hobjects b hb).constant hc hconst (hrequired b hb) hown ha⟩
  obtain ⟨bshape, hshape, rfl⟩ := (hobjects b hb).converts hc
  have hstrict : (b.keywords.additionalProperties == some false) = true := by
    have := (hc.means (plain b hb)).1
    generalize (b.keywords.additionalProperties == some false) = isStrict at this ⊢
    cases this
    rfl
  obtain ⟨hnames, hfields⟩ := Zod.accepts_object.mp ha
  replace hnames := hnames hstrict
  constructor
  · -- the shape leaves out the property without a name, and `z.object` drops it
    rintro hpasses rfl
    obtain ⟨c, _, hc⟩ := hconstant [] rfl
    refine not_passesFlat_of_unnamed [] (fun e he hname => ?_) (fun hl => ?_) hpasses
    · rcases List.mem_append.mp (mem_ownEntries.mp he).1 with he | he
      · cases hdiscriminant with
        | none => cases he
        | some named => exact named rfl
      · obtain ⟨entry, hentry, rfl⟩ := List.mem_map.mp he
        exact (hcollected.sound entry hentry).1 (congrArg some hname)
    · rw [Zod.field, hl] at hc
      cases c <;> cases hc
  · intro hne
    have hnamed : ∀ key, discriminatorKey = some key → key ∈ discriminant.map Prod.fst := by
      rintro key rfl
      cases hdiscriminant with
      | none unnamed =>
        have := truthyKey_eq_some.mpr ⟨rfl, fun hk => hne (congrArg some hk)⟩
        rw [this] at unnamed
        cases unnamed
      | some => simp
    refine passesFlat_of_names (fun e he => hclosed e (mem_ownEntries.mp he).1) (fun f hf => ?_)
      fun e he => ?_
    · rw [names_of_shapeEntries (own_shapeEntries hshape)] at hnames
      obtain ⟨p, hp, hname⟩ := List.mem_map.mp (hnames f hf)
      obtain ⟨hp, hown⟩ := mem_ownEntries.mp hp
      have hmem : p.1 ∈ (discriminant ++ propTypes.entries.map fun e =>
          (e.1, Zod.optional (mergeTypes e.2))).map Prod.fst := by
        rw [List.map_append, List.mem_append]
        by_cases hk : some p.1 = discriminatorKey
        · exact .inl (hnamed p.1 hk.symm)
        · obtain ⟨types, hm, _⟩ := hcollected.complete p (List.mem_flatMap.mpr ⟨b, hb, hp⟩) hk
          exact .inr (List.mem_map.mpr ⟨_, List.mem_map_of_mem hm, rfl⟩)
      obtain ⟨e, he, hename⟩ := List.mem_map.mp hmem
      exact List.mem_map.mpr
        ⟨e, mem_ownEntries.mpr ⟨he, hename ▸ hown⟩, hename.trans hname⟩
    · rcases List.mem_append.mp (mem_ownEntries.mp he).1 with he | he
      · cases hdiscriminant with
        | none => cases he
        | @some key _ _ _ built =>
          rw [List.mem_singleton.mp he]
          obtain ⟨c, hconst, hc⟩ := hconstant key rfl
          exact ((buildEnum_ok built).2 _).mpr ⟨c, List.mem_filterMap.mpr ⟨b, hb, hconst⟩, hc⟩
      · obtain ⟨entry, hentry, rfl⟩ := List.mem_map.mp he
        exact hcollected.accepts hb hshape hnames hfields hentry

/-- **The flattened shape takes every input as it is**, and only then, when the discriminator of the
union, if there is one, has a name. -/
theorem flat_shape_keeps {schema : JsonSchema} (plain : Plain schema) {c : ZodSchemas}
    (h : jsonSchemaToZod (some schema) = .ok c) (required : RequiredDiscriminator schema)
    {input : JsValue} (ha : c.full.accepts input = true) :
    PassesFlat c.shape (c.args input) ↔ discriminatorOf schema ≠ some [] := by
  cases plain.route h with
  | @wrap zType converts mixed =>
    refine iff_of_true ?_ ?_
    · have hclosed := (converts.means plain).1
      exact passesFlat_of_names (by simpa [wrapInput] using hclosed) (by simp [wrapInput])
        (by simpa [wrapInput, Zod.field] using ha)
    · rw [plain.discriminatorOf_mixed mixed]
      exact (Option.some_ne_none _).symm
  | @object shape isStrict oneOf converts =>
    have hdiscriminator : discriminatorOf schema ≠ some [] := by simp [discriminatorOf, oneOf]
    refine iff_of_true ?_ hdiscriminator
    have hclosed := (converts.means plain).1
    obtain ⟨fields, rfl⟩ := Zod.obj_of_accepts_object ha
    obtain ⟨hnames, hfields⟩ := Zod.accepts_object.mp ha
    unfold zObject at hclosed
    cases hclosed with
    | object hshape => exact passesFlat_of_names hshape (hnames rfl) hfields
  | @union branches options shape full oneOf options_eq flat built =>
    obtain ⟨kw, properties, _, items⟩ := schema
    obtain rfl := oneOf
    have hclosed := options_eq.closed plain.oneOf_plain
    obtain ⟨own, option, ho, hacc⟩ := (unionOf_accepts options_eq hclosed built input).mp ha
    obtain ⟨fields, rfl⟩ := options_eq.obj ho hacc
    obtain ⟨b, hb, hc⟩ := options_eq.converted.mem_right ho
    refine flattened_passes plain.oneOf_plain options_eq.objects (fun key hkey => ?_) own flat hb hc hacc
    obtain ⟨_, _, _, hcommon, _⟩ := findCommonConstDiscriminator_eq_some.mp hkey
    exact ⟨hcommon, required branches key rfl hkey⟩

theorem modeUnion_required : RequiredDiscriminator modeUnion := by
  rintro _ key ⟨⟩ hkey b hb
  obtain rfl : js "mode" = key := Option.some.inj hkey
  rcases List.mem_cons.mp hb with rfl | hb
  · decide
  · rw [List.mem_singleton.mp hb]
    decide

/-- `{ mode: 'off' }` passes. -/
theorem flat_shape_keeps_mode : ∃ c, jsonSchemaToZod (some modeUnion) = .ok c ∧
    PassesFlat c.shape (c.args (.obj [(js "mode", .str (js "off"))])) :=
  ⟨_, rfl, (flat_shape_keeps modeUnion_plain rfl modeUnion_required (by decide)).mpr (by decide)⟩

/-- **A discriminator without a name is dropped**: `full` asks for it, `z.object(shape)` loses it. -/
theorem unnamed_discriminator_dropped :
    let branch (mode : JStr) := constBranch [([], .str mode)]
    let schema := JsonSchema.mk {} none (some [branch (js "on"), branch (js "off")]) none
    let input := JsValue.obj [([], .str (js "on"))]
    Plain schema ∧ RequiredDiscriminator schema ∧ ∃ c, jsonSchemaToZod (some schema) = .ok c ∧
      c.full.accepts input = true ∧ (Zod.object c.shape false none).parse (c.args input) = some (.obj []) ∧
      ¬PassesFlat c.shape (c.args input) := by
  refine ⟨.oneOf fun b hb => ?_, ?_, _, rfl, by decide, rfl, ?_⟩
  · rcases List.mem_cons.mp hb with rfl | hb
    · exact constBranch_plain _
    · rw [List.mem_singleton.mp hb]
      exact constBranch_plain _
  · rintro _ key ⟨⟩ hkey b hb
    obtain rfl : [] = key := Option.some.inj hkey
    rcases List.mem_cons.mp hb with rfl | hb
    · decide
    · rw [List.mem_singleton.mp hb]
      decide
  · rintro ⟨data, hd, hsame⟩
    obtain rfl : .obj [] = data := Option.some.inj hd
    have := hsame.field []
    cases this

end VigorMcp
