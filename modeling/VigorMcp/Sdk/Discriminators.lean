import VigorMcp.Sdk.Meaning

/-!
# Discriminated unions

`z.discriminatedUnion` builds a map from the discriminator's values to the
options and throws when a value comes twice or an option has none
(`discriminatedUnion_ok_iff`). Its dispatch is then as good as trying the
options one by one, when an option that accepts an object has the value of the
object's discriminator (`accepts_discriminatedUnion`).
-/

namespace VigorMcp

/-- No key comes twice. -/
def DistinctKeys (keys : List (Option Scalar)) : Prop :=
  keys.Pairwise fun k k' => sameKey k k' = false

/-- The entries of an option in the map. -/
def optionEntries (discriminator : JStr) (option : Zod) : List (Option Scalar × Zod) :=
  (discriminatorValues discriminator option).map fun value => (value, option)

theorem distinctKeys_append {keys keys' : List (Option Scalar)} :
    DistinctKeys (keys ++ keys') ↔ DistinctKeys keys ∧ DistinctKeys keys' ∧
      ∀ k ∈ keys, ∀ k' ∈ keys', sameKey k k' = false := List.pairwise_append

theorem addKeys_ok_iff {discriminator : JStr} {option : Zod} {values : List (Option Scalar)}
    {optionsMap out : List (Option Scalar × Zod)} (h : DistinctKeys (optionsMap.map Prod.fst)) :
    addKeys discriminator option values optionsMap = .ok out ↔
      DistinctKeys (optionsMap.map Prod.fst ++ values) ∧
        out = optionsMap ++ values.map fun value => (value, option) := by
  induction values generalizing optionsMap with
  | nil => simp [addKeys, h, eq_comm]
  | cons value values ih =>
    rw [addKeys]
    by_cases hdup : (optionsMap.any fun e => sameKey e.1 value) = true
    · rw [if_pos hdup]
      refine iff_of_false nofun ?_
      rintro ⟨hd, _⟩
      obtain ⟨e, he, hs⟩ := List.any_eq_true.mp hdup
      have := (distinctKeys_append.mp hd).2.2 e.1 (List.mem_map_of_mem he) value List.mem_cons_self
      rw [hs] at this
      cases this
    · rw [if_neg hdup]
      have hnew : DistinctKeys ((optionsMap ++ [(value, option)]).map Prod.fst) := by
        rw [List.map_append, distinctKeys_append]
        refine ⟨h, List.pairwise_singleton _ _, fun k hk k' hk' => ?_⟩
        obtain ⟨e, he, rfl⟩ := List.mem_map.mp hk
        rw [List.map_singleton, List.mem_singleton] at hk'
        subst hk'
        by_contra hs
        exact hdup (List.any_eq_true.mpr ⟨e, he, by simpa using hs⟩)
      rw [ih hnew]
      simp

theorem addOption_ok_iff {discriminator : JStr} {option : Zod}
    {optionsMap out : List (Option Scalar × Zod)} (h : DistinctKeys (optionsMap.map Prod.fst)) :
    addOption discriminator optionsMap option = .ok out ↔
      discriminatorValues discriminator option ≠ [] ∧
        DistinctKeys (optionsMap.map Prod.fst ++ discriminatorValues discriminator option) ∧
        out = optionsMap ++ optionEntries discriminator option := by
  unfold addOption
  split
  · split
    · next hnil => simp [hnil]
    · next hne => rw [addKeys_ok_iff h, and_iff_right hne]; rfl
  · next hobj =>
    have hnil : discriminatorValues discriminator option = [] := by
      unfold discriminatorValues
      split
      · next shape isStrict proto => exact absurd rfl (hobj shape isStrict proto)
      · rfl
    simp [hnil]

theorem keys_optionEntries (discriminator : JStr) (option : Zod) :
    (optionEntries discriminator option).map Prod.fst = discriminatorValues discriminator option := by
  simp [optionEntries, Function.comp_def]

theorem foldlM_addOption_ok_iff {discriminator : JStr} {options : List Zod}
    {optionsMap out : List (Option Scalar × Zod)} (h : DistinctKeys (optionsMap.map Prod.fst)) :
    options.foldlM (addOption discriminator) optionsMap = .ok out ↔
      (∀ option ∈ options, discriminatorValues discriminator option ≠ []) ∧
        DistinctKeys (optionsMap.map Prod.fst ++ options.flatMap (discriminatorValues discriminator)) ∧
        out = optionsMap ++ options.flatMap (optionEntries discriminator) := by
  induction options generalizing optionsMap with
  | nil =>
    rw [List.foldlM_nil, Except.pure_eq_ok]
    simp [h, eq_comm (a := out)]
  | cons option options ih =>
    have hkeys : (optionsMap ++ optionEntries discriminator option).map Prod.fst =
        optionsMap.map Prod.fst ++ discriminatorValues discriminator option := by
      rw [List.map_append, keys_optionEntries]
    rw [List.foldlM_cons, Except.bind_eq_ok, List.forall_mem_cons, List.flatMap_cons,
      List.flatMap_cons, ← List.append_assoc, ← List.append_assoc]
    constructor
    · rintro ⟨mid, hmid, hrest⟩
      obtain ⟨hne, hd, rfl⟩ := (addOption_ok_iff h).mp hmid
      obtain ⟨hall, hdistinct, rfl⟩ := (ih (hkeys ▸ hd)).mp hrest
      exact ⟨⟨hne, hall⟩, hkeys ▸ hdistinct, rfl⟩
    · rintro ⟨⟨hne, hall⟩, hdistinct, rfl⟩
      have hd := (distinctKeys_append.mp hdistinct).1
      exact ⟨_, (addOption_ok_iff h).mpr ⟨hne, hd, rfl⟩,
        (ih (hkeys ▸ hd)).mpr ⟨hall, hkeys ▸ hdistinct, rfl⟩⟩

/-- **When `z.discriminatedUnion` throws**: an option without values, or a value that comes twice. -/
theorem discriminatedUnion_ok_iff {discriminator : JStr} {options : List Zod} {zType : Zod} :
    discriminatedUnion discriminator options = .ok zType ↔
      (∀ option ∈ options, discriminatorValues discriminator option ≠ []) ∧
        DistinctKeys (options.flatMap (discriminatorValues discriminator)) ∧
        zType = .discriminatedUnion discriminator
          (options.flatMap (optionEntries discriminator)) := by
  have hnil : DistinctKeys (([] : List (Option Scalar × Zod)).map Prod.fst) := List.Pairwise.nil
  rw [discriminatedUnion, Except.map_eq_ok]
  simp only [foldlM_addOption_ok_iff hnil, List.map_nil,
    List.nil_append]
  constructor
  · rintro ⟨_, ⟨hall, hd, rfl⟩, rfl⟩
    exact ⟨hall, hd, rfl⟩
  · rintro ⟨hall, hd, rfl⟩
    exact ⟨_, ⟨hall, hd, rfl⟩, rfl⟩

/-! ## Dispatch -/

/-- A value is one scalar at most. -/
theorem Scalar.is_value_of_is {c d : Scalar} {v : JsValue} (h : c.is v = true) (h' : d.is v = true) :
    c.is d.value = true := by
  cases v with
  | num n =>
    cases n with
    | nonFinite _ => cases c <;> cases h
    | finite q text =>
      cases c with
      | num r _ =>
        cases d with
        | num s _ =>
          simp only [Scalar.is, beq_iff_eq] at h h'
          simp [Scalar.is, Scalar.value, h, h']
        | _ => cases h'
      | _ => cases h
  | _ => cases c <;> cases d <;> simp_all [Scalar.is, Scalar.value]

theorem sameKey_of_isKey {k k' : Option Scalar} {v : JsValue} (h : Zod.isKey k v = true)
    (h' : Zod.isKey k' v = true) : sameKey k k' = true := by
  cases k with
  | none => cases k' <;> cases v <;> simp_all [Zod.isKey, sameKey, Scalar.is]
  | some c =>
    cases k' with
    | none => cases v <;> simp_all [Zod.isKey, Scalar.is]
    | some d => exact Scalar.is_value_of_is h h'

/-- Under distinct keys the option found is the one whose key the value is. -/
theorem parseOption_of_mem {optionsMap : List (Option Scalar × Zod)}
    (h : DistinctKeys (optionsMap.map Prod.fst)) {e : Option Scalar × Zod} (he : e ∈ optionsMap)
    {discriminant v : JsValue} (hk : Zod.isKey e.1 discriminant = true) :
    Zod.parseOption optionsMap discriminant v = e.2.parse v := by
  induction optionsMap with
  | nil => cases he
  | cons e' optionsMap ih =>
    rw [List.map_cons, DistinctKeys, List.pairwise_cons] at h
    rw [Zod.parseOption]
    rcases List.mem_cons.mp he with rfl | he
    · rw [if_pos hk]
    · rw [if_neg, ih h.2 he]
      intro hk'
      have := h.1 e.1 (List.mem_map_of_mem he)
      rw [sameKey_of_isKey hk' hk] at this
      cases this

/-- **Dispatch agrees with trying the options**: when an option accepts only objects that have one
of the option's values under the discriminator. -/
theorem accepts_discriminatedUnion {discriminator : JStr} {options : List Zod}
    (distinct : DistinctKeys (options.flatMap (discriminatorValues discriminator)))
    {fields : List (JStr × JsValue)}
    (tagged : ∀ option ∈ options, option.accepts (.obj fields) = true →
      ∃ k ∈ discriminatorValues discriminator option,
        Zod.isKey k (Zod.discriminant fields discriminator) = true) :
    (Zod.discriminatedUnion discriminator (options.flatMap (optionEntries discriminator))).accepts
        (.obj fields) = true ↔
      ∃ option ∈ options, option.accepts (.obj fields) = true := by
  have hkeys : (options.flatMap (optionEntries discriminator)).map Prod.fst =
      options.flatMap (discriminatorValues discriminator) := by
    rw [List.map_flatMap]
    simp only [keys_optionEntries]
  simp only [Zod.accepts, Zod.parse]
  constructor
  · intro h
    obtain ⟨data, hd⟩ := Option.isSome_iff_exists.mp h
    obtain ⟨e, he, _, hp⟩ := Zod.parseOption_mem hd
    obtain ⟨option, ho, he⟩ := List.mem_flatMap.mp he
    obtain ⟨_, _, rfl⟩ := List.mem_map.mp he
    exact ⟨option, ho, Option.isSome_iff_exists.mpr ⟨data, hp⟩⟩
  · rintro ⟨option, ho, ha⟩
    obtain ⟨k, hk, hkey⟩ := tagged option ho ha
    have he : (k, option) ∈ options.flatMap (optionEntries discriminator) :=
      List.mem_flatMap.mpr ⟨option, ho, List.mem_map_of_mem hk⟩
    rw [parseOption_of_mem (hkeys ▸ distinct) he hkey]
    exact ha

/-! ## Branches that are objects -/

/-- A schema whose `type` decides, an object. -/
structure IsObject (schema : JsonSchema) : Prop where
  type : schema.keywords.type = some .object
  const : schema.keywords.const = none
  enum : schema.keywords.enum = none
  oneOf : schema.oneOf = none

theorem IsObject.converts {schema : JsonSchema} {zType : Zod} (h : IsObject schema)
    (hc : Converts schema zType) : ∃ shape,
      List.Forall₂ (ShapeEntry (schema.keywords.required.getD [])) (schema.properties.getD []) shape ∧
        zType = zObject shape (schema.keywords.additionalProperties == some false) := by
  obtain ⟨kw, properties, oneOf, items⟩ := schema
  obtain ⟨path, hc⟩ := hc
  have hb := (convertSchema_ok hc).2
  rw [show kw.const = none from h.const, show kw.enum = none from h.enum,
    show oneOf = none from h.oneOf, show kw.type = some .object from h.type] at hb
  cases hb with
  | object built => exact ⟨_, built, rfl⟩

theorem lookup_shapeEntries {required : List JStr} {properties : List (JStr × JsonSchema)}
    {shape : List (JStr × Zod)} (h : List.Forall₂ (ShapeEntry required) properties shape)
    {key : JStr} {schema : JsonSchema} (hl : properties.lookup key = some schema) :
    ∃ zType, Converts schema zType ∧
      shape.lookup key = some (if required.contains key then zType else .optional zType) := by
  induction h with
  | nil => cases hl
  | @cons p e _ _ hpe _ ih =>
    obtain ⟨hname, zType, hc, he⟩ := hpe
    rw [List.lookup_cons] at hl
    rw [List.lookup_cons, hname]
    by_cases hk : key = p.1
    · subst hk
      simp only [beq_self_eq_true] at hl ⊢
      cases hl
      exact ⟨zType, hc, by rw [he]⟩
    · simp only [beq_eq_false_iff_ne.mpr hk] at hl ⊢
      exact ih hl

theorem Converts.const {schema : JsonSchema} {zType : Zod} {c : Scalar} (h : Converts schema zType)
    (hconst : schema.keywords.const = some c) : zType = .literal c := by
  obtain ⟨kw, properties, oneOf, items⟩ := schema
  obtain ⟨path, h⟩ := h
  have hb := (convertSchema_ok h).2
  rw [show kw.const = some c from hconst] at hb
  cases hb
  rfl

/-- The values under which a branch stands in the map. -/
def tagsOf (required : List JStr) (key : JStr) (c : Scalar) : List (Option Scalar) :=
  if required.contains key then [some c] else [none, some c]

theorem lookup_ownEntries {α : Type} {assigned : List (JStr × α)} {key : JStr} (h : key ≠ protoKey) :
    (ownEntries assigned).lookup key = assigned.lookup key := by
  induction assigned with
  | nil => rfl
  | cons e assigned ih =>
    unfold ownEntries at ih ⊢
    rw [List.filter_cons]
    by_cases he : e.1 = protoKey
    · rw [if_neg (by simpa using he), ih, List.lookup_cons, beq_eq_false_iff_ne.mpr (he ▸ h)]
    · rw [if_pos (by simpa using he), List.lookup_cons, List.lookup_cons, ih]

/-- An option's values are those of the schema assigned under the discriminator, whatever its name. -/
theorem discriminatorValues_zObject (key : JStr) (shape : List (JStr × Zod)) (isStrict : Bool) :
    discriminatorValues key (zObject shape isStrict) =
      ((shape.lookup key).map getDiscriminator).getD [] := by
  simp only [zObject, discriminatorValues]
  by_cases hk : key = protoKey
  · rw [if_pos hk, hk]
  · rw [if_neg hk, lookup_ownEntries hk]

/-- A branch whose property `key` is `const`: its values. -/
theorem IsObject.values {schema : JsonSchema} {zType : Zod} (h : IsObject schema)
    (hc : Converts schema zType) {key : JStr} {c : Scalar} (hconst : schema.constOf key = some c) :
    discriminatorValues key zType = tagsOf (schema.keywords.required.getD []) key c ∧
      ∃ shape isStrict, zType = zObject shape isStrict ∧ shape.lookup key =
        some (if (schema.keywords.required.getD []).contains key then .literal c
          else .optional (.literal c)) := by
  obtain ⟨shape, hshape, rfl⟩ := h.converts hc
  obtain ⟨property, hp, hpc⟩ := Option.bind_eq_some_iff.mp hconst
  obtain ⟨properties, hps, hl⟩ := Option.bind_eq_some_iff.mp hp
  rw [hps, Option.getD_some] at hshape
  obtain ⟨zProp, hprop, he⟩ := lookup_shapeEntries hshape hl
  rw [hprop.const hpc] at he
  refine ⟨?_, shape, _, rfl, he⟩
  rw [discriminatorValues_zObject, he, Option.map_some, Option.getD_some, tagsOf]
  split <;> rfl

/-- What a branch accepts has one of the branch's values under a property that is `const`. -/
theorem IsObject.tagged {schema : JsonSchema} {zType : Zod} (h : IsObject schema)
    (hc : Converts schema zType) {key : JStr} {c : Scalar} (hconst : schema.constOf key = some c)
    (own : key ≠ protoKey) {fields : List (JStr × JsValue)} (ha : zType.accepts (.obj fields) = true) :
    ∃ k ∈ discriminatorValues key zType, Zod.isKey k (Zod.discriminant fields key) = true := by
  obtain ⟨hvalues, shape, isStrict, rfl, he⟩ := h.values hc hconst
  have hmem := mem_of_lookup (lookup_ownEntries own ▸ he)
  have hfield := (Zod.accepts_object.mp ha).2 _ hmem
  rw [hvalues, tagsOf, Zod.discriminant_eq_field own]
  split at hfield
  · next hr =>
    rw [if_pos hr]
    exact ⟨some c, by simp, by simpa [Zod.accepts, Zod.isKey] using hfield⟩
  · next hr =>
    rw [if_neg hr]
    rcases Zod.accepts_optional.mp hfield with hu | hv
    · exact ⟨none, by simp, by simp only at hu; rw [hu]; rfl⟩
    · exact ⟨some c, by simp, by simpa [Zod.accepts, Zod.isKey] using hv⟩

/-- A strict option under a prototype's key: what it accepts has no such field, and what an object
inherits there is no key. -/
theorem Zod.not_isKey_discriminant {fields : List (JStr × JsValue)}
    (h : fields.lookup protoKey = none) (k : Option Scalar) :
    ¬Zod.isKey k (Zod.discriminant fields protoKey) = true := by
  rw [Zod.discriminant, h, Option.getD_none, if_pos rfl]
  rcases k with _ | c
  · simp [Zod.isKey]
  · cases c <;> simp [Zod.isKey, Scalar.is]

/-! ## The discriminator of a union -/

/-- The property is `const` in every branch. -/
def CommonConst (branches : List JsonSchema) (key : JStr) : Prop :=
  ∀ b ∈ branches, (b.constOf key).isSome = true

/-- The first property of the first branch that is `const` in every branch. -/
def FirstCommonConst (branches : List JsonSchema) (key : JStr) : Prop :=
  ∃ before after, ((branches.head?.bind JsonSchema.properties).getD []).map Prod.fst =
      before ++ key :: after ∧
    CommonConst branches key ∧ ∀ k ∈ before, ¬CommonConst branches k

theorem findCommonConstDiscriminator_eq_some {branches : List JsonSchema} {key : JStr} :
    findCommonConstDiscriminator branches = some key ↔ FirstCommonConst branches key := by
  unfold findCommonConstDiscriminator FirstCommonConst CommonConst
  rw [List.find?_eq_some_iff_append]
  simp only [List.all_eq_true, Bool.not_eq_true', ← Bool.not_eq_true]
  constructor
  · rintro ⟨hkey, before, after, he, hb⟩
    exact ⟨before, after, he, hkey, hb⟩
  · rintro ⟨before, after, he, hkey, hb⟩
    exact ⟨hkey, before, after, he, hb⟩

theorem truthyKey_eq_some {discriminatorKey : Option JStr} {key : JStr} :
    truthyKey discriminatorKey = some key ↔ discriminatorKey = some key ∧ key ≠ [] := by
  unfold truthyKey
  split
  · simp
  · next h =>
    constructor
    · rintro rfl
      exact ⟨rfl, fun hk => h (hk ▸ rfl)⟩
    · exact And.left

/-! ## When a union of objects converts -/

/-- What a conversion of a top-level `oneOf` comes from. -/
theorem buildTopLevelOneOf_ok_iff {schema : JsonSchema} {branches : List JsonSchema} {path : JStr}
    {c : ZodSchemas} : buildTopLevelOneOf schema branches path = .ok c ↔
      2 ≤ branches.length ∧
        (((∃ b ∈ branches, ¬(b.keywords.type = some .object ∧ b.properties.isSome = true)) ∧
          ∃ zType, convertSchema schema path = .ok zType ∧ c = wrapInput zType) ∨
        ((∀ b ∈ branches, b.keywords.type = some .object ∧ b.properties.isSome = true) ∧
          ∃ shape zBranches full,
            flattenObjectOneOf branches (findCommonConstDiscriminator branches) path = .ok shape ∧
            convertBranches branches path 0 = .ok zBranches ∧
            unionOf (findCommonConstDiscriminator branches) zBranches = .ok full ∧
            c = ⟨shape, full, false⟩)) := by
  have hall : (branches.all fun b => b.keywords.type == some .object && b.properties.isSome) = true ↔
      ∀ b ∈ branches, b.keywords.type = some .object ∧ b.properties.isSome = true := by simp
  have hnot : (∃ b ∈ branches, ¬(b.keywords.type = some .object ∧ b.properties.isSome = true)) ↔
      ¬∀ b ∈ branches, b.keywords.type = some .object ∧ b.properties.isSome = true := by
    push Not
    rfl
  unfold buildTopLevelOneOf
  by_cases hlen : branches.length < 2
  · rw [if_pos hlen]
    exact iff_of_false nofun fun h => by omega
  · rw [if_neg hlen, and_iff_right (by omega), hnot, ← hall]
    cases ha : branches.all fun b => b.keywords.type == some .object && b.properties.isSome with
    | true =>
      simp only [Bool.not_true, Bool.false_eq_true, ↓reduceIte, not_true_eq_false, false_and, false_or,
        true_and, Except.bind_eq_ok, Except.pure_eq_ok, describe]
      constructor
      · rintro ⟨shape, hs, zs, hz, full, hf, rfl⟩
        exact ⟨shape, zs, full, hs, hz, hf, rfl⟩
      · rintro ⟨shape, zs, full, hs, hz, hf, rfl⟩
        exact ⟨shape, hs, zs, hz, full, hf, rfl⟩
    | false =>
      simp [eq_comm (a := c)]

/-- A closed object schema whose properties convert and whose constants are required. -/
structure ClosedBranch (b : JsonSchema) : Prop extends IsObject b where
  known : b.keywords.unknownKeys = []
  closed : b.keywords.additionalProperties = some false
  convertible : ∀ p ∈ b.properties.getD [], ∀ path, ∃ zType, convertSchema p.2 path = .ok zType
  required : ∀ key, (b.constOf key).isSome = true → key ∈ b.keywords.required.getD []

theorem convertFields_total {required : List JStr} {properties : List (JStr × JsonSchema)}
    (h : ∀ p ∈ properties, ∀ path, ∃ zType, convertSchema p.2 path = .ok zType) (path : JStr) :
    ∃ shape, convertFields required properties path = .ok shape := by
  induction properties with
  | nil => exact ⟨[], rfl⟩
  | cons p properties ih =>
    rw [List.forall_mem_cons] at h
    obtain ⟨zType, hz⟩ := h.1 (propertyPath path p.1)
    obtain ⟨shape, hs⟩ := ih h.2
    exact ⟨_, by simp only [convertFields, hz, hs, Except.bind_eq_ok]; exact ⟨_, rfl, _, rfl, rfl⟩⟩

theorem ClosedBranch.converts {b : JsonSchema} (h : ClosedBranch b) (path : JStr) :
    ∃ zType, convertSchema b path = .ok zType := by
  obtain ⟨kw, properties, oneOf, items⟩ := b
  obtain rfl : oneOf = none := h.oneOf
  have hshape : ∃ shape, convertProperties (kw.required.getD []) properties path = .ok shape := by
    cases properties with
    | none => exact ⟨[], rfl⟩
    | some ps => exact convertFields_total h.convertible path
  obtain ⟨shape, hs⟩ := hshape
  refine ⟨zObject shape (kw.additionalProperties == some false), ?_⟩
  rw [convertSchema, show kw.const = none from h.const, show kw.enum = none from h.enum,
    show kw.type = some .object from h.type, Except.bind_eq_ok]
  refine ⟨(), checkKnownKeys_ok.mpr h.known, ?_⟩
  rw [Except.map_eq_ok]
  refine ⟨_, ?_, rfl⟩
  rw [Except.map_eq_ok]
  exact ⟨shape, hs, rfl⟩

theorem convertBranches_total {branches : List JsonSchema} (h : ∀ b ∈ branches, ClosedBranch b)
    (path : JStr) (i : Nat) : ∃ zTypes, convertBranches branches path i = .ok zTypes := by
  induction branches generalizing i with
  | nil => exact ⟨[], rfl⟩
  | cons b branches ih =>
    rw [List.forall_mem_cons] at h
    obtain ⟨zType, hz⟩ := h.1.converts (branchPath path i)
    obtain ⟨zTypes, hs⟩ := ih h.2 (i + 1)
    exact ⟨_, by simp only [convertBranches, hz, hs, Except.bind_eq_ok]; exact ⟨_, rfl, _, rfl, rfl⟩⟩

theorem addPropTypes_total {discriminatorKey : Option JStr} {path : JStr}
    {properties : List (JStr × JsonSchema)}
    (h : ∀ p ∈ properties, ∀ path, ∃ zType, convertSchema p.2 path = .ok zType)
    (propTypes : PropTypes) :
    ∃ out, properties.foldlM (addPropType discriminatorKey path) propTypes = .ok out := by
  induction properties generalizing propTypes with
  | nil => exact ⟨propTypes, rfl⟩
  | cons p properties ih =>
    rw [List.forall_mem_cons] at h
    have hstep : ∃ mid, addPropType discriminatorKey path propTypes p = .ok mid := by
      unfold addPropType
      split
      · exact ⟨_, rfl⟩
      · obtain ⟨zType, hz⟩ := h.1 (propertyPath path p.1)
        exact ⟨_, Except.bind_eq_ok.mpr ⟨zType, hz, rfl⟩⟩
    obtain ⟨mid, hmid⟩ := hstep
    obtain ⟨out, hout⟩ := ih h.2 mid
    exact ⟨out, by rw [List.foldlM_cons]; exact Except.bind_eq_ok.mpr ⟨mid, hmid, hout⟩⟩

theorem collectPropTypes_total {branches : List JsonSchema} (h : ∀ b ∈ branches, ClosedBranch b)
    (discriminatorKey : Option JStr) (path : JStr) (i : Nat) (propTypes : PropTypes) :
    ∃ out, collectPropTypes discriminatorKey path branches i propTypes = .ok out := by
  induction branches generalizing i propTypes with
  | nil => exact ⟨propTypes, rfl⟩
  | cons b branches ih =>
    rw [List.forall_mem_cons] at h
    have hmid : ∃ mid, (b.properties.getD []).foldlM
        (addPropType discriminatorKey (branchPath path i)) propTypes = .ok mid :=
      addPropTypes_total h.1.convertible propTypes
    obtain ⟨mid, hmid⟩ := hmid
    obtain ⟨out, hout⟩ := ih h.2 (i + 1) mid
    refine ⟨out, ?_⟩
    rw [collectPropTypes, Except.bind_eq_ok]
    exact ⟨(), checkKnownKeys_ok.mpr h.1.known, Except.bind_eq_ok.mpr ⟨mid, hmid, hout⟩⟩

theorem buildEnum_total {values : List Scalar} (h : values ≠ []) (path : JStr) :
    ∃ zType, buildEnum values path = .ok zType := by
  unfold buildEnum
  split
  · exact absurd rfl h
  · split <;> exact ⟨_, rfl⟩

theorem flattenObjectOneOf_total {branches : List JsonSchema} (h : ∀ b ∈ branches, ClosedBranch b)
    (hne : branches ≠ []) (path : JStr) : ∃ shape,
      flattenObjectOneOf branches (findCommonConstDiscriminator branches) path = .ok shape := by
  obtain ⟨propTypes, hp⟩ :=
    collectPropTypes_total h (findCommonConstDiscriminator branches) path 0 .empty
  unfold flattenObjectOneOf
  cases hk : truthyKey (findCommonConstDiscriminator branches) with
  | none => exact ⟨_, Except.bind_eq_ok.mpr ⟨_, hp, rfl⟩⟩
  | some key =>
    obtain ⟨_, _, _, hcommon, _⟩ :=
      findCommonConstDiscriminator_eq_some.mp (truthyKey_eq_some.mp hk).1
    have hvalues : (branches.filterMap fun b => b.constOf key) ≠ [] := by
      obtain ⟨b, hb⟩ := List.exists_mem_of_ne_nil _ hne
      obtain ⟨c, hc⟩ := Option.isSome_iff_exists.mp (hcommon b hb)
      exact List.ne_nil_of_mem (List.mem_filterMap.mpr ⟨b, hb, hc⟩)
    obtain ⟨zType, hz⟩ := buildEnum_total hvalues path
    exact ⟨_, Except.bind_eq_ok.mpr ⟨_, hp, by simp only [hz]; rfl⟩⟩

/-- The constants of a property differ from branch to branch. -/
def DistinctConsts (branches : List JsonSchema) (key : JStr) : Prop :=
  (branches.filterMap fun b => b.constOf key).Pairwise fun c d => c.is d.value = false

/-- Required constants are the values under which the branches stand in the map. -/
theorem discriminatorValues_branches {branches : List JsonSchema} {zBranches : List Zod} {key : JStr}
    (closed : ∀ b ∈ branches, ClosedBranch b) (common : CommonConst branches key)
    (h : List.Forall₂ Converts branches zBranches) :
    zBranches.map (discriminatorValues key) =
      (branches.filterMap fun b => b.constOf key).map fun c => [some c] := by
  induction h with
  | nil => rfl
  | @cons b zType branches _ hc _ ih =>
    rw [List.forall_mem_cons] at closed
    obtain ⟨hb, hbs⟩ := List.forall_mem_cons.mp common
    obtain ⟨c, hconst⟩ := Option.isSome_iff_exists.mp hb
    have hvalues := (closed.1.toIsObject.values hc hconst).1
    rw [tagsOf, if_pos (by simpa using closed.1.required key hb)] at hvalues
    simp only [List.filterMap_cons, hconst, List.map_cons, hvalues, ih closed.2 hbs]

/-- A discriminated union of closed branches asks for distinct constants. -/
theorem discriminatedUnion_branches {branches : List JsonSchema} {zBranches : List Zod} {key : JStr}
    (closed : ∀ b ∈ branches, ClosedBranch b) (common : CommonConst branches key)
    (h : List.Forall₂ Converts branches zBranches) :
    (∃ zType, discriminatedUnion key zBranches = .ok zType) ↔ DistinctConsts branches key := by
  have hvalues := discriminatorValues_branches closed common h
  have hflat : zBranches.flatMap (discriminatorValues key) =
      (branches.filterMap fun b => b.constOf key).map some := by
    rw [List.flatMap_def, hvalues, ← List.flatMap_def, List.map_eq_flatMap]
  have hne : ∀ option ∈ zBranches, discriminatorValues key option ≠ [] := by
    intro option ho hnil
    have := List.mem_map_of_mem (f := discriminatorValues key) ho
    rw [hvalues, hnil] at this
    simp at this
  have hdistinct : DistinctKeys ((branches.filterMap fun b => b.constOf key).map some) ↔
      DistinctConsts branches key := List.pairwise_map
  constructor
  · rintro ⟨zType, hz⟩
    exact hdistinct.mp (hflat ▸ (discriminatedUnion_ok_iff.mp hz).2.1)
  · intro hd
    exact ⟨_, discriminatedUnion_ok_iff.mpr ⟨hne, hflat ▸ hdistinct.mpr hd, rfl⟩⟩

/-- **A union of closed objects converts** exactly when the first property that is `const` in every
branch, if there is one, is unnamed or has other constants in every branch. -/
theorem object_union_converts {description : Option JStr} {branches : List JsonSchema}
    (two : 2 ≤ branches.length) (closed : ∀ b ∈ branches, ClosedBranch b) :
    (∃ c, jsonSchemaToZod
        (some (.mk { description := description } none (some branches) none)) = .ok c) ↔
      ∀ key, FirstCommonConst branches key → key = [] ∨ DistinctConsts branches key := by
  have hne : branches ≠ [] := List.ne_nil_of_length_pos (by omega)
  have hbuild : (∃ c, jsonSchemaToZod
        (some (.mk { description := description } none (some branches) none)) = .ok c) ↔
      ∃ c, buildTopLevelOneOf (.mk { description := description } none (some branches) none)
        branches (js "$") = .ok c := by
    simp [jsonSchemaToZod, checkKnownKeys_ok, JsonSchema.keywords, JsonSchema.oneOf]
  rw [hbuild]
  simp only [buildTopLevelOneOf_ok_iff, and_iff_right two]
  obtain ⟨zBranches, hz⟩ := convertBranches_total closed (js "$") 0
  constructor
  · rintro ⟨c, h⟩ key hkey
    have hproperties : ∀ b ∈ branches, b.keywords.type = some .object ∧ b.properties.isSome = true := by
      intro b hb
      obtain ⟨_, _, _, hcommon, _⟩ := hkey
      obtain ⟨c, hc⟩ := Option.isSome_iff_exists.mp (hcommon b hb)
      obtain ⟨_, hp, _⟩ := Option.bind_eq_some_iff.mp hc
      obtain ⟨_, hps, _⟩ := Option.bind_eq_some_iff.mp hp
      exact ⟨(closed b hb).type, by rw [hps]; rfl⟩
    rcases h with ⟨⟨b, hb, hnot⟩, _⟩ | ⟨_, _, zs, full, _, hzs, hfull, _⟩
    · exact absurd (hproperties b hb) hnot
    · by_cases hempty : key = []
      · exact .inl hempty
      · rw [hz] at hzs
        cases hzs
        rw [unionOf, truthyKey_eq_some.mpr ⟨findCommonConstDiscriminator_eq_some.mpr hkey, hempty⟩]
          at hfull
        obtain ⟨_, _, _, hcommon, _⟩ := hkey
        exact .inr ((discriminatedUnion_branches closed hcommon (convertBranches_ok hz)).mp ⟨_, hfull⟩)
  · intro h
    by_cases hall : ∀ b ∈ branches, b.keywords.type = some .object ∧ b.properties.isSome = true
    · obtain ⟨shape, hs⟩ := flattenObjectOneOf_total closed hne (js "$")
      have hfull : ∃ full, unionOf (findCommonConstDiscriminator branches) zBranches = .ok full := by
        unfold unionOf
        cases hk : truthyKey (findCommonConstDiscriminator branches) with
        | none => exact ⟨_, rfl⟩
        | some key =>
          obtain ⟨hsome, hempty⟩ := truthyKey_eq_some.mp hk
          have hkey := findCommonConstDiscriminator_eq_some.mp hsome
          have hd := (h key hkey).resolve_left hempty
          obtain ⟨_, _, _, hcommon, _⟩ := hkey
          exact (discriminatedUnion_branches closed hcommon (convertBranches_ok hz)).mpr hd
      obtain ⟨full, hfull⟩ := hfull
      exact ⟨_, .inr ⟨hall, shape, zBranches, full, hs, hz, hfull, rfl⟩⟩
    · push Not at hall
      obtain ⟨b, hb, hnot⟩ := hall
      refine ⟨_, .inl ⟨⟨b, hb, fun hc => hnot hc.1 hc.2⟩, mergeTypes zBranches, ?_, rfl⟩⟩
      simp [convertSchema, checkKnownKeys_ok, hne, hz, describe]

/-- A closed object of required constants. -/
def constBranch (consts : List (JStr × Scalar)) : JsonSchema :=
  .mk { type := some .object, required := some (consts.map Prod.fst), additionalProperties := some false }
    (some (consts.map fun e => (e.1, .mk { const := some e.2 } none none none))) none none

theorem constBranch_closed (consts : List (JStr × Scalar)) : ClosedBranch (constBranch consts) where
  type := rfl
  const := rfl
  enum := rfl
  oneOf := rfl
  known := rfl
  closed := rfl
  convertible := by
    intro p hp path
    obtain ⟨e, _, rfl⟩ := List.mem_map.mp hp
    exact ⟨.literal e.2, by simp [convertSchema, checkKnownKeys_ok, describe]⟩
  required := by
    intro key hkey
    obtain ⟨c, hc⟩ := Option.isSome_iff_exists.mp hkey
    obtain ⟨property, hp, _⟩ := Option.bind_eq_some_iff.mp hc
    obtain ⟨e, he, hek⟩ := List.mem_map.mp (mem_of_lookup hp)
    obtain ⟨rfl, _⟩ := Prod.mk.inj hek
    exact List.mem_map_of_mem he

/-- Two branches told apart by `mode`. -/
def modeUnion : JsonSchema :=
  .mk {} none
    (some [constBranch [(js "mode", .str (js "on"))], constBranch [(js "mode", .str (js "off"))]]) none

theorem object_union_converts_mode : ∃ c, jsonSchemaToZod (some modeUnion) = .ok c := by
  refine (object_union_converts (by decide) fun b hb => ?_).mpr fun key hkey => .inr ?_
  · rcases List.mem_cons.mp hb with rfl | hb
    · exact constBranch_closed _
    · rw [List.mem_singleton.mp hb]
      exact constBranch_closed _
  · rw [← findCommonConstDiscriminator_eq_some] at hkey
    obtain rfl : js "mode" = key := Option.some.inj hkey
    unfold DistinctConsts
    decide

/-- **A repeated constant stops the conversion**: `kind` is the first common constant, `mode` would
tell the branches apart. -/
theorem repeated_constant_throws :
    let branch (mode : JStr) := constBranch [(js "kind", .str (js "peer")), (js "mode", .str mode)]
    ClosedBranch (branch (js "on")) ∧ ClosedBranch (branch (js "off")) ∧
      jsonSchemaToZod (some (.mk {} none (some [branch (js "on"), branch (js "off")]) none)) =
        .error (js "Discriminator property kind has duplicate value peer") :=
  ⟨constBranch_closed _, constBranch_closed _, by rfl⟩

end VigorMcp
