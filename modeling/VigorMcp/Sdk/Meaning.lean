import VigorMcp.Sdk.SchemaToZod

/-!
# What a schema means, and what its zod schema accepts

`satisfies` is the validity of a JSON value under a schema: every keyword
constrains on its own, and `oneOf` asks for one branch at least. `Plain` is the
schema language the SDK describes its inputs with. A property named `__proto__`
makes no key of a shape, so on plain schemas the converted schema accepts what
is valid without such properties, and returns it as it is (`Converts.means`).
-/

namespace VigorMcp

def JsonType.has : JsonType → JsValue → Bool
  | object, .obj _ => true
  | string, .str _ => true
  | number, .num (.finite _ _) => true
  | integer, .num (.finite value _) => value.den == 1
  | boolean, .bool _ => true
  | array, .arr _ => true
  | other name, .null => name == js "null"
  | _, _ => false

/-- The keywords that look at a value as a whole. -/
def Keywords.allow (kw : Keywords) (v : JsValue) : Bool :=
  kw.type.all (fun type => type.has v) && kw.const.all (fun c => c.is v) &&
  kw.enum.all (fun values => values.any fun c => c.is v) &&
  match v with
  | .num (.finite value _) => kw.minimum.all (fun m => decide (m ≤ value)) &&
    kw.maximum.all fun m => decide (value ≤ m)
  | _ => true

/-- The keywords that look at the names of an object's fields. -/
def Keywords.allowNames (kw : Keywords) (properties : List JStr) (fields : List (JStr × JsValue)) :
    Bool :=
  (kw.required.getD []).all (fun key => (fields.lookup key).isSome) &&
  (kw.additionalProperties != some false || fields.all fun f => properties.contains f.1)

mutual

/-- `v` is valid under the schema. -/
def satisfies : JsonSchema → JsValue → Bool
  | .mk kw properties oneOf items, v =>
    kw.allow v && satisfiesOneOf oneOf v &&
    match v with
    | .obj fields => kw.allowNames ((properties.getD []).map Prod.fst) fields &&
      satisfiesProperties properties fields
    | .arr vs => Zod.lengthOk kw.minItems kw.maxItems vs.length && satisfiesItems items vs
    | _ => true

def satisfiesOneOf : Option (List JsonSchema) → JsValue → Bool
  | none, _ => true
  | some branches, v => satisfiesSome branches v

def satisfiesSome : List JsonSchema → JsValue → Bool
  | [], _ => false
  | branch :: branches, v => satisfies branch v || satisfiesSome branches v

def satisfiesProperties : Option (List (JStr × JsonSchema)) → List (JStr × JsValue) → Bool
  | none, _ => true
  | some properties, fields => satisfiesFields properties fields

/-- Every property that is there is valid. -/
def satisfiesFields : List (JStr × JsonSchema) → List (JStr × JsValue) → Bool
  | [], _ => true
  | (key, schema) :: properties, fields =>
    (fields.lookup key).all (fun v => satisfies schema v) && satisfiesFields properties fields

def satisfiesItems : Option JsonSchema → List JsValue → Bool
  | none, _ => true
  | some schema, vs => vs.all fun v => satisfies schema v

end

mutual

/-- The schema without its properties named `__proto__`, at any depth. -/
def JsonSchema.withoutProto : JsonSchema → JsonSchema
  | .mk kw properties oneOf items =>
    .mk { kw with required := kw.required.map (List.filter (· != protoKey)) }
      (propertiesWithoutProto properties) (oneOfWithoutProto oneOf) (itemsWithoutProto items)

def propertiesWithoutProto : Option (List (JStr × JsonSchema)) → Option (List (JStr × JsonSchema))
  | none => none
  | some properties => some (fieldsWithoutProto properties)

def fieldsWithoutProto : List (JStr × JsonSchema) → List (JStr × JsonSchema)
  | [] => []
  | (key, schema) :: properties =>
    if key = protoKey then fieldsWithoutProto properties
    else (key, schema.withoutProto) :: fieldsWithoutProto properties

def oneOfWithoutProto : Option (List JsonSchema) → Option (List JsonSchema)
  | none => none
  | some branches => some (branchesWithoutProto branches)

def branchesWithoutProto : List JsonSchema → List JsonSchema
  | [] => []
  | branch :: branches => branch.withoutProto :: branchesWithoutProto branches

def itemsWithoutProto : Option JsonSchema → Option JsonSchema
  | none => none
  | some items => some items.withoutProto

end

theorem branchesWithoutProto_eq_map (branches : List JsonSchema) :
    branchesWithoutProto branches = branches.map JsonSchema.withoutProto := by
  induction branches with
  | nil => rfl
  | cons branch branches ih => rw [branchesWithoutProto, ih, List.map_cons]

theorem fieldsWithoutProto_eq_map (properties : List (JStr × JsonSchema)) :
    fieldsWithoutProto properties =
      (ownEntries properties).map fun p => (p.1, p.2.withoutProto) := by
  induction properties with
  | nil => rfl
  | cons p properties ih =>
    unfold ownEntries at ih ⊢
    rw [fieldsWithoutProto, List.filter_cons]
    by_cases hp : p.1 = protoKey
    · simp [hp, ih]
    · simp [hp, ih]

theorem propertiesWithoutProto_getD (properties : Option (List (JStr × JsonSchema))) :
    (propertiesWithoutProto properties).getD [] =
      (ownEntries (properties.getD [])).map fun p => (p.1, p.2.withoutProto) := by
  cases properties with
  | none => rfl
  | some ps => exact fieldsWithoutProto_eq_map ps

@[simp] theorem mem_ownEntries {α : Type} {assigned : List (JStr × α)} {e : JStr × α} :
    e ∈ ownEntries assigned ↔ e ∈ assigned ∧ e.1 ≠ protoKey := by
  simp [ownEntries]

/-- The schema language: constants and enumerations of scalars, unions, closed objects, scalars and
arrays, each with a description or without. -/
inductive Plain : JsonSchema → Prop where
  | const {c : Scalar} {type : Option JsonType} {description : Option JStr}
      (typed : type.all (fun t => t.has c.value) = true) :
      Plain (.mk { const := some c, type := type, description := description } none none none)
  | enum {values : List Scalar} {type : Option JsonType} {description : Option JStr}
      (nonempty : values ≠ []) (typed : ∀ c ∈ values, type.all (fun t => t.has c.value) = true) :
      Plain (.mk { enum := some values, type := type, description := description } none none none)
  | oneOf {branches : List JsonSchema} {description : Option JStr}
      (plain : ∀ b ∈ branches, Plain b) :
      Plain (.mk { description := description } none (some branches) none)
  | object {properties : Option (List (JStr × JsonSchema))} {required : Option (List JStr)}
      {description : Option JStr}
      (required_subset : required.getD [] ⊆ (properties.getD []).map Prod.fst)
      (plain : ∀ p ∈ properties.getD [], Plain p.2) :
      Plain (.mk
        { type := some .object, required := required, additionalProperties := some false,
          description := description } properties none none)
  | string {description : Option JStr} :
      Plain (.mk { type := some .string, description := description } none none none)
  | boolean {description : Option JStr} :
      Plain (.mk { type := some .boolean, description := description } none none none)
  | number {min max : Option ℚ} {description : Option JStr} :
      Plain (.mk
        { type := some .number, minimum := min, maximum := max, description := description }
        none none none)
  | integer {min max : Option ℚ} {description : Option JStr} :
      Plain (.mk
        { type := some .integer, minimum := min, maximum := max, description := description }
        none none none)
  | array {items : Option JsonSchema} {min max : Option ℚ} {description : Option JStr}
      (plain : ∀ s, items = some s → Plain s) :
      Plain (.mk
        { type := some .array, minItems := min, maxItems := max, description := description }
        none none items)

theorem satisfiesSome_iff {branches : List JsonSchema} {v : JsValue} :
    satisfiesSome branches v = true ↔ ∃ b ∈ branches, satisfies b v = true := by
  induction branches with
  | nil => simp [satisfiesSome]
  | cons b branches ih => simp [satisfiesSome, ih]

theorem satisfiesFields_iff {properties : List (JStr × JsonSchema)} {fields : List (JStr × JsValue)} :
    satisfiesFields properties fields = true ↔
      ∀ p ∈ properties, ∀ v, fields.lookup p.1 = some v → satisfies p.2 v = true := by
  induction properties with
  | nil => simp [satisfiesFields]
  | cons p properties ih =>
    rw [satisfiesFields, Bool.and_eq_true, ih, List.forall_mem_cons]
    simp [Option.all_eq_true]

/-- A scalar that a value is has the value's type. -/
theorem JsonType.has_of_is {type : JsonType} {c : Scalar} {v : JsValue} (h : c.is v = true)
    (ht : type.has c.value = true) : type.has v = true := by
  cases c <;> cases v <;> simp only [Scalar.is, Bool.false_eq_true] at h
  case null.null => exact ht
  case bool.bool => cases type <;> exact ht
  case str.str => cases type <;> exact ht
  case num.num q text n =>
    cases n with
    | nonFinite _ => cases h
    | finite r _ =>
      have hq : q = r := by simpa [Scalar.is] using h
      subst hq
      cases type <;> exact ht

/-- Valid values of an enumeration have its type. -/
theorem type_all_of_is {type : Option JsonType} {c : Scalar} {v : JsValue} (h : c.is v = true)
    (ht : type.all (fun t => t.has c.value) = true) : type.all (fun t => t.has v) = true := by
  cases type with
  | none => rfl
  | some t => exact JsonType.has_of_is h ht

/-- A schema without object and array keywords looks at the value as a whole. -/
theorem satisfies_leaf {kw : Keywords} {v : JsValue} (required : kw.required = none)
    (additional : kw.additionalProperties = none) (minItems : kw.minItems = none)
    (maxItems : kw.maxItems = none) : satisfies (.mk kw none none none) v = kw.allow v := by
  cases v <;> simp [satisfies, satisfiesOneOf, satisfiesProperties, satisfiesItems,
    Keywords.allowNames, Zod.lengthOk, required, additional, minItems, maxItems]

theorem Keywords.allow_unbounded {kw : Keywords} {v : JsValue} (minimum : kw.minimum = none)
    (maximum : kw.maximum = none) : kw.allow v = (kw.type.all (fun type => type.has v) &&
      kw.const.all (fun c => c.is v) && kw.enum.all fun values => values.any fun c => c.is v) := by
  unfold Keywords.allow
  split <;> simp [minimum, maximum]

theorem Zod.Closed.mergeTypes {types : List Zod} (h : ∀ type ∈ types, type.Closed) :
    (mergeTypes types).Closed := by
  unfold VigorMcp.mergeTypes
  split
  · exact h _ (by simp)
  · exact .union h

/-- The names of a shape are the names of the properties. -/
theorem names_of_shapeEntries {required : List JStr} {properties : List (JStr × JsonSchema)}
    {shape : List (JStr × Zod)} (h : List.Forall₂ (ShapeEntry required) properties shape) :
    shape.map Prod.fst = properties.map Prod.fst := by
  induction h with
  | nil => rfl
  | cons hp _ ih => rw [List.map_cons, List.map_cons, ih, hp.1]

/-- A union asks for one branch. -/
theorem satisfies_oneOf {branches : List JsonSchema} {description : Option JStr} {v : JsValue} :
    satisfies (.mk { description := description } none (some branches) none) v = true ↔
      ∃ b ∈ branches, satisfies b v = true := by
  rw [← satisfiesSome_iff]
  cases v <;> simp [satisfies, satisfiesOneOf, satisfiesProperties, satisfiesItems,
    Keywords.allow_unbounded, Keywords.allowNames, Zod.lengthOk]

/-- A closed object: no field but the properties, the required ones there, and all valid. -/
theorem satisfies_object {properties : Option (List (JStr × JsonSchema))}
    {required : Option (List JStr)} {description : Option JStr} {fields : List (JStr × JsValue)}
    (required_subset : required.getD [] ⊆ (properties.getD []).map Prod.fst) :
    satisfies (.mk
        { type := some .object, required := required, additionalProperties := some false,
          description := description } properties none none) (.obj fields) = true ↔
      (∀ f ∈ fields, f.1 ∈ (properties.getD []).map Prod.fst) ∧
        ∀ p ∈ properties.getD [], (p.1 ∈ required.getD [] → (fields.lookup p.1).isSome = true) ∧
          ∀ v, fields.lookup p.1 = some v → satisfies p.2 v = true := by
  have hprops : satisfiesProperties properties fields = true ↔
      ∀ p ∈ properties.getD [], ∀ v, fields.lookup p.1 = some v → satisfies p.2 v = true := by
    cases properties with
    | none => simp [satisfiesProperties]
    | some ps => exact satisfiesFields_iff
  have hrequired : (∀ key ∈ required.getD [], (fields.lookup key).isSome = true) ↔
      ∀ p ∈ properties.getD [], p.1 ∈ required.getD [] → (fields.lookup p.1).isSome = true := by
    refine ⟨fun h p _ hp => h p.1 hp, fun h key hkey => ?_⟩
    obtain ⟨p, hp, rfl⟩ := List.mem_map.mp (required_subset hkey)
    exact h p hp hkey
  simp only [satisfies, Keywords.allow_unbounded, satisfiesOneOf, Option.all_some, Option.all_none,
    JsonType.has, Bool.and_true, Bool.true_and, Bool.and_eq_true, hprops, Keywords.allowNames,
    List.all_eq_true, hrequired, bne_self_eq_false, Bool.false_or, List.contains_eq_mem, decide_eq_true_eq]
  constructor
  · rintro ⟨⟨hreq, hnames⟩, hvalid⟩
    exact ⟨hnames, fun p hp => ⟨hreq p hp, hvalid p hp⟩⟩
  · rintro ⟨hnames, hall⟩
    exact ⟨⟨fun p hp => (hall p hp).1, hnames⟩, fun p hp => (hall p hp).2⟩

/-- An array of items, as many as the bounds allow. -/
theorem satisfies_array {items : Option JsonSchema} {min max : Option ℚ} {description : Option JStr}
    {vs : List JsValue} :
    satisfies (.mk
        { type := some .array, minItems := min, maxItems := max, description := description }
        none none items) (.arr vs) = true ↔
      Zod.lengthOk min max vs.length = true ∧
        ∀ v ∈ vs, ∀ s, items = some s → satisfies s v = true := by
  simp only [satisfies, Keywords.allow_unbounded, satisfiesOneOf, Option.all_some, Option.all_none,
    JsonType.has, Bool.and_true, Bool.true_and, Bool.and_eq_true]
  cases items with
  | none => simp [satisfiesItems]
  | some schema => simp [satisfiesItems]

/-! ## Without `__proto__` -/

theorem withoutProto_leaf {kw : Keywords} (required : kw.required = none) :
    (JsonSchema.mk kw none none none).withoutProto = .mk kw none none none := by
  cases kw
  obtain rfl := required
  rfl

theorem satisfies_oneOf_withoutProto {branches : List JsonSchema} {description : Option JStr}
    {v : JsValue} :
    satisfies (JsonSchema.mk { description := description } none (some branches) none).withoutProto v =
        true ↔
      ∃ b ∈ branches, satisfies b.withoutProto v = true := by
  have heq : (JsonSchema.mk { description := description } none (some branches) none).withoutProto =
      .mk { description := description } none (some (branches.map JsonSchema.withoutProto)) none := by
    rw [← branchesWithoutProto_eq_map]
    rfl
  rw [heq, satisfies_oneOf]
  simp

theorem withoutProto_array {items : Option JsonSchema} {min max : Option ℚ}
    {description : Option JStr} : (JsonSchema.mk
        { type := some .array, minItems := min, maxItems := max, description := description }
        none none items).withoutProto = .mk
        { type := some .array, minItems := min, maxItems := max, description := description }
        none none (items.map JsonSchema.withoutProto) := by
  cases items <;> rfl

/-- A closed object without its property `__proto__`: no field but the other properties, the required
ones there, and all valid. -/
theorem satisfies_object_withoutProto {properties : Option (List (JStr × JsonSchema))}
    {required : Option (List JStr)} {description : Option JStr} {fields : List (JStr × JsValue)}
    (required_subset : required.getD [] ⊆ (properties.getD []).map Prod.fst) :
    satisfies (JsonSchema.mk
        { type := some .object, required := required, additionalProperties := some false,
          description := description } properties none none).withoutProto (.obj fields) = true ↔
      (∀ f ∈ fields, f.1 ∈ (ownEntries (properties.getD [])).map Prod.fst) ∧
        ∀ p ∈ ownEntries (properties.getD []),
          (p.1 ∈ required.getD [] → (fields.lookup p.1).isSome = true) ∧
            ∀ v, fields.lookup p.1 = some v → satisfies p.2.withoutProto v = true := by
  have hrequired : (required.map (List.filter (· != protoKey))).getD [] =
      (required.getD []).filter (· != protoKey) := by cases required <;> rfl
  have hsubset : (required.map (List.filter (· != protoKey))).getD [] ⊆
      ((propertiesWithoutProto properties).getD []).map Prod.fst := by
    intro key hkey
    rw [hrequired, List.mem_filter, bne_iff_ne] at hkey
    obtain ⟨p, hp, rfl⟩ := List.mem_map.mp (required_subset hkey.1)
    rw [propertiesWithoutProto_getD]
    exact List.mem_map.mpr ⟨_, List.mem_map_of_mem (mem_ownEntries.mpr ⟨hp, hkey.2⟩), rfl⟩
  have hiff := @satisfies_object _ _ description fields hsubset
  have hmem : ∀ p ∈ ownEntries (properties.getD []),
      (p.1 ∈ (required.getD []).filter (· != protoKey) ↔ p.1 ∈ required.getD []) := by
    intro p hp
    simp [(mem_ownEntries.mp hp).2]
  rw [hrequired, propertiesWithoutProto_getD, List.map_map, List.forall_mem_map] at hiff
  rw [show (Prod.fst ∘ fun p : JStr × JsonSchema => (p.1, p.2.withoutProto)) = Prod.fst from rfl] at hiff
  refine hiff.trans (and_congr_right fun _ => forall₂_congr fun p hp => ?_)
  rw [hmem p hp]

/-! ## The converted schema -/

/-- One property of an object, as the shape and as the schema look at it. -/
theorem ShapeEntry.accepts_iff {required : List JStr} {p : JStr × JsonSchema} {e : JStr × Zod}
    (h : ShapeEntry required p e) {fields : List (JStr × JsValue)} {valid : JsValue → Prop}
    (means : ∀ zType, Converts p.2 zType → ∀ v, fields.lookup p.1 = some v →
      v ≠ .undefined ∧ (zType.accepts v = true ↔ valid v)) :
    e.2.accepts (Zod.field fields e.1) = true ↔
      (p.1 ∈ required → (fields.lookup p.1).isSome = true) ∧
        ∀ v, fields.lookup p.1 = some v → valid v := by
  obtain ⟨hname, zType, hc, he⟩ := h
  rw [he, hname, Zod.field]
  cases hl : fields.lookup p.1 with
  | none =>
    by_cases hr : p.1 ∈ required
    · simp [hr, hc.rejects_undefined]
    · simp [hr, Zod.accepts]
  | some v =>
    obtain ⟨hv, hiff⟩ := means zType hc v hl
    by_cases hr : p.1 ∈ required
    · simp [hr, hiff]
    · simp [hr, Zod.accepts_optional, hv, hiff]

/-- A number schema looks at a JSON value as the keywords do. -/
theorem accepts_number {isInt : Bool} {min max : Option ℚ} {v : JsValue} (hv : v.IsJson) :
    (Zod.number isInt min max).accepts v = Keywords.allow
      { type := some (if isInt then .integer else .number), minimum := min, maximum := max } v := by
  cases v with
  | num n =>
    cases n with
    | nonFinite text => exact absurd rfl ((hv [] _ rfl).2 text)
    | finite value text =>
      rw [Bool.eq_iff_iff]
      cases isInt <;>
        simp [Zod.accepts, Zod.parse, Zod.numberOk, Keywords.allow, JsonType.has, and_assoc]
  | _ => cases isInt <;> simp [Zod.accepts, Zod.parse, Keywords.allow, JsonType.has]

theorem zObject_closed {shape : List (JStr × Zod)} (h : ∀ e ∈ shape, e.2.Closed) :
    (zObject shape true).Closed := .object fun e he => h e (mem_ownEntries.mp he).1

/-- **The converted schema means what the schema means without `__proto__`.** -/
theorem Converts.means {schema : JsonSchema} {zType : Zod} (h : Converts schema zType)
    (hp : Plain schema) : zType.Closed ∧
      ∀ v, v.IsJson → (zType.accepts v = true ↔ satisfies schema.withoutProto v = true) := by
  induction hp generalizing zType with
  | @const c type _ typed =>
    obtain ⟨path, h⟩ := h
    cases (convertSchema_ok h).2
    refine ⟨.literal, fun v _ => ?_⟩
    rw [withoutProto_leaf rfl, satisfies_leaf rfl rfl rfl rfl, Keywords.allow_unbounded rfl rfl,
      Zod.accepts, Zod.parse_literal]
    by_cases hv : c.is v = true
    · simp [hv, type_all_of_is hv typed]
    · simp [hv]
  | @enum values type _ _ typed =>
    obtain ⟨path, h⟩ := h
    cases (convertSchema_ok h).2 with
    | enum built =>
      obtain ⟨hclosed, haccepts⟩ := buildEnum_ok built
      refine ⟨hclosed, fun v _ => ?_⟩
      rw [withoutProto_leaf rfl, satisfies_leaf rfl rfl rfl rfl, Keywords.allow_unbounded rfl rfl,
        haccepts]
      have htype : (∃ c ∈ values, c.is v = true) → type.all (fun t => t.has v) = true := by
        rintro ⟨c, hc, hv⟩
        exact type_all_of_is hv (typed c hc)
      simp only [Option.all_none, Option.all_some, Bool.and_true, Bool.and_eq_true, List.any_eq_true]
      exact ⟨fun hv => ⟨htype hv, hv⟩, And.right⟩
  | @oneOf branches _ _ ih =>
    obtain ⟨path, h⟩ := h
    cases (convertSchema_ok h).2 with
    | oneOf _ built =>
      refine ⟨.mergeTypes fun type ht => ?_, fun v hv => ?_⟩
      · obtain ⟨b, hb, hc⟩ := built.mem_right ht
        exact (ih b hb hc).1
      · rw [accepts_mergeTypes, satisfies_oneOf_withoutProto]
        exact built.exists_iff fun b hb type hc => (ih b hb hc).2 v hv
  | @object properties required _ required_subset _ ih =>
    obtain ⟨path, h⟩ := h
    cases (convertSchema_ok h).2 with
    | @object shape built =>
      refine ⟨zObject_closed fun e he => ?_, fun v hv => ?_⟩
      · obtain ⟨p, hp, _, zType, hc, heq⟩ := built.mem_right he
        rw [heq]
        split
        · exact (ih p hp hc).1
        · exact .optional (ih p hp hc).1
      · cases v with
        | obj fields =>
          have hentry : ∀ p ∈ ownEntries (properties.getD []), ∀ e,
              ShapeEntry (required.getD []) p e → (e.2.accepts (Zod.field fields e.1) = true ↔
                (p.1 ∈ required.getD [] → (fields.lookup p.1).isSome = true) ∧
                  ∀ v, fields.lookup p.1 = some v → satisfies p.2.withoutProto v = true) :=
            fun p hp e he => he.accepts_iff fun zType hc v hl => ⟨(hv.field hl).ne_undefined,
              (ih p (mem_ownEntries.mp hp).1 hc).2 v (hv.field hl)⟩
          have hown := own_shapeEntries built
          have hentries := hown.forall_iff hentry
          rw [zObject, Zod.accepts_object, names_of_shapeEntries hown, hentries,
            satisfies_object_withoutProto required_subset]
          simp
        | _ =>
          simp [Zod.accepts, Zod.parse, zObject, JsonSchema.withoutProto, satisfies, Keywords.allow,
            JsonType.has]
  | string =>
    obtain ⟨path, h⟩ := h
    cases (convertSchema_ok h).2
    refine ⟨.string, fun v _ => ?_⟩
    rw [withoutProto_leaf rfl, satisfies_leaf rfl rfl rfl rfl, Keywords.allow_unbounded rfl rfl]
    cases v <;> simp [Zod.accepts, Zod.parse, JsonType.has]
  | boolean =>
    obtain ⟨path, h⟩ := h
    cases (convertSchema_ok h).2
    refine ⟨.boolean, fun v _ => ?_⟩
    rw [withoutProto_leaf rfl, satisfies_leaf rfl rfl rfl rfl, Keywords.allow_unbounded rfl rfl]
    cases v <;> simp [Zod.accepts, Zod.parse, JsonType.has]
  | number =>
    obtain ⟨path, h⟩ := h
    cases (convertSchema_ok h).2
    refine ⟨.number, fun v hv => ?_⟩
    rw [withoutProto_leaf rfl, satisfies_leaf rfl rfl rfl rfl, accepts_number hv]
    rfl
  | integer =>
    obtain ⟨path, h⟩ := h
    cases (convertSchema_ok h).2
    refine ⟨.number, fun v hv => ?_⟩
    rw [withoutProto_leaf rfl, satisfies_leaf rfl rfl rfl rfl, accepts_number hv]
    rfl
  | @array items min max _ _ ih =>
    obtain ⟨path, h⟩ := h
    cases (convertSchema_ok h).2 with
    | @array item untyped typed =>
      have hitem : ∀ s, items = some s → item.Closed ∧
          ∀ v, v.IsJson → (item.accepts v = true ↔ satisfies s.withoutProto v = true) :=
        fun s hs => ih s hs (typed s hs)
      refine ⟨.array ?_, fun v hv => ?_⟩
      · cases hi : items with
        | none => exact untyped hi ▸ .unknown
        | some s => exact (hitem s hi).1
      · rw [withoutProto_array]
        cases v with
        | arr vs =>
          rw [Zod.accepts_array, satisfies_array]
          refine and_congr_right fun _ => forall₂_congr fun v hmem => ?_
          cases hi : items with
          | none => simp [untyped hi, Zod.accepts]
          | some s => simp [(hitem s hi).2 v (hv.item hmem)]
        | _ => simp [Zod.accepts, Zod.parse, satisfies, Keywords.allow, JsonType.has]

end VigorMcp
