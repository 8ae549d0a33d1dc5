import VigorMcp.Lib.Fallible
import VigorMcp.Lib.Forall2
import VigorMcp.Sdk.Zod

/-!
# From JSON schemas to zod schemas

`jsonSchemaToZod` converts the input schema of an SDK operation: `shape` are the
arguments of the tool, `full` is the schema of the typed input, `wrap` says that
the whole input is carried under one argument. A conversion that the program
ends with an `Error` ends here with its message. Property lists stand in the
order of `Object.entries`. A shape under construction lists the assignments
`shape[key] = ..`; `ownEntries` are the keys that come of them.
-/

namespace VigorMcp

inductive JsonType where
  | object | string | number | integer | boolean | array
  | other (name : JStr)
  deriving DecidableEq

/-- The keywords of a schema that hold no schema. -/
structure Keywords where
  type : Option JsonType := none
  required : Option (List JStr) := none
  additionalProperties : Option Bool := none
  enum : Option (List Scalar) := none
  const : Option Scalar := none
  description : Option JStr := none
  minimum : Option ℚ := none
  maximum : Option ℚ := none
  minItems : Option ℚ := none
  maxItems : Option ℚ := none
  /-- The keys that are none of `KNOWN_KEYS`. -/
  unknownKeys : List JStr := []

inductive JsonSchema where
  | mk (keywords : Keywords) (properties : Option (List (JStr × JsonSchema)))
    (oneOf : Option (List JsonSchema)) (items : Option JsonSchema)

namespace JsonSchema

def keywords : JsonSchema → Keywords
  | mk keywords _ _ _ => keywords

def properties : JsonSchema → Option (List (JStr × JsonSchema))
  | mk _ properties _ _ => properties

def oneOf : JsonSchema → Option (List JsonSchema)
  | mk _ _ oneOf _ => oneOf

def items : JsonSchema → Option JsonSchema
  | mk _ _ _ items => items

/-- `schema.properties?.[key]?.const`. -/
def constOf (schema : JsonSchema) (key : JStr) : Option Scalar :=
  (schema.properties.bind (List.lookup key)).bind fun property => property.keywords.const

end JsonSchema

/-- Induction over a schema: its property schemas, its branches and its items. -/
theorem JsonSchema.induct {P : JsonSchema → Prop}
    (mk : ∀ kw properties oneOf items,
      (∀ ps, properties = some ps → ∀ p ∈ ps, P p.2) → (∀ bs, oneOf = some bs → ∀ b ∈ bs, P b) →
      (∀ s, items = some s → P s) → P (.mk kw properties oneOf items)) (s : JsonSchema) : P s := by
  match s with
  | .mk kw properties oneOf items =>
    refine mk kw properties oneOf items ?_ ?_ ?_
    · intro ps hps p hp
      have hlt := List.sizeOf_lt_of_mem hp
      have hsnd : sizeOf p.2 < sizeOf p := by
        cases p
        simp only [Prod.mk.sizeOf_spec]
        omega
      have := congrArg sizeOf hps
      exact JsonSchema.induct mk p.2
    · intro bs hbs b hb
      have hlt := List.sizeOf_lt_of_mem hb
      have := congrArg sizeOf hbs
      exact JsonSchema.induct mk b
    · intro s hs
      have := congrArg sizeOf hs
      exact JsonSchema.induct mk s
termination_by sizeOf s
decreasing_by all_goals simp_all; omega

/-- A conversion, or the message of the error that ended it. -/
abbrev Conversion (α : Type) := Except JStr α

def checkKnownKeys (keywords : Keywords) (path : JStr) : Conversion Unit :=
  match keywords.unknownKeys with
  | [] => .ok ()
  | key :: _ => .error (js "schema-to-zod: unsupported keyword \"" ++ key ++ js "\" at " ++ path)

/-- The values, when every one is a string. -/
def allStrings : List Scalar → Option (List JStr)
  | [] => some []
  | .str s :: values => (allStrings values).map (s :: ·)
  | _ => none

def buildEnum (values : List Scalar) (path : JStr) : Conversion Zod :=
  match values with
  | [] => .error (js "schema-to-zod: enum at " ++ path ++ js " must not be empty")
  | first :: rest =>
    match allStrings values with
    | some strings => .ok (.enum strings)
    | none => .ok (if rest = [] then .literal first else .union (values.map .literal))

/-- A description stands beside a schema; parsing does not read it. -/
def describe (_description : Option JStr) (zType : Zod) : Zod := zType

/-- One type as it is, several as a union. -/
def mergeTypes : List Zod → Zod
  | [type] => type
  | types => .union types

def propertyPath (path key : JStr) : JStr := path ++ js "." ++ key

def branchPath (path : JStr) (i : Nat) : JStr := path ++ js ".oneOf[" ++ decimal i ++ js "]"

/-- The own keys of what the assignments make: one to `__proto__` makes none. -/
def ownEntries {α : Type} (assigned : List (JStr × α)) : List (JStr × α) :=
  assigned.filter fun e => e.1 != protoKey

/-- `z.object(shape)`, strict or not, of the assignments that made the shape. -/
def zObject (assigned : List (JStr × Zod)) (isStrict : Bool) : Zod :=
  .object (ownEntries assigned) isStrict (assigned.lookup protoKey)

mutual

def convertSchema : JsonSchema → JStr → Conversion Zod
  | .mk kw properties oneOf items, path => do
    checkKnownKeys kw path
    describe kw.description <$> match kw.const with
      | some c => .ok (.literal c)
      | none => match kw.enum with
        | some values => buildEnum values path
        | none => match oneOf with
          | some branches => if branches = []
            then .error (js "schema-to-zod: oneOf at " ++ path ++ js " must not be empty")
            else mergeTypes <$> convertBranches branches path 0
          | none => match kw.type with
            | some .object => (zObject · (kw.additionalProperties == some false)) <$>
              convertProperties (kw.required.getD []) properties path
            | some .string => .ok .string
            | some .number => .ok (.number false kw.minimum kw.maximum)
            | some .integer => .ok (.number true kw.minimum kw.maximum)
            | some .boolean => .ok .boolean
            | some .array => (.array · kw.minItems kw.maxItems) <$> convertItems items path
            | _ => .error (js "schema-to-zod: unsupported or missing \"type\" at " ++ path)

def convertBranches : List JsonSchema → JStr → Nat → Conversion (List Zod)
  | [], _, _ => .ok []
  | branch :: branches, path, i => do
    let zType ← convertSchema branch (branchPath path i)
    return zType :: (← convertBranches branches path (i + 1))

def convertProperties (required : List JStr) :
    Option (List (JStr × JsonSchema)) → JStr → Conversion (List (JStr × Zod))
  | none, _ => .ok []
  | some properties, path => convertFields required properties path

def convertFields (required : List JStr) :
    List (JStr × JsonSchema) → JStr → Conversion (List (JStr × Zod))
  | [], _ => .ok []
  | (key, schema) :: properties, path => do
    let zType ← convertSchema schema (propertyPath path key)
    let shape ← convertFields required properties path
    return (key, if required.contains key then zType else .optional zType) :: shape

def convertItems : Option JsonSchema → JStr → Conversion Zod
  | none, _ => .ok .unknown
  | some items, path => convertSchema items (path ++ js "[]")

end

def convertObjectShape (schema : JsonSchema) (path : JStr) : Conversion (List (JStr × Zod)) :=
  convertProperties (schema.keywords.required.getD []) schema.properties path

/-! ## Unions of objects -/

/-- The first property of the first branch that is `const` in every branch. -/
def findCommonConstDiscriminator (branches : List JsonSchema) : Option JStr :=
  (((branches.head?.bind JsonSchema.properties).getD []).map Prod.fst).find? fun key =>
    branches.all fun b => (b.constOf key).isSome

/-- `if (discriminatorKey)`: the empty name counts as none. -/
def truthyKey : Option JStr → Option JStr
  | some [] => none
  | key => key

/-- The types of the properties besides the discriminator, by name and in the order of the
branches. -/
abbrev PropTypes := OrderedMap JStr (List Zod)

def addPropType (discriminatorKey : Option JStr) (path : JStr) (propTypes : PropTypes)
    (property : JStr × JsonSchema) : Conversion PropTypes :=
  if some property.1 = discriminatorKey then .ok propTypes
  else do
    let zType ← convertSchema property.2 (propertyPath path property.1)
    return propTypes.set property.1 ((propTypes.get property.1).getD [] ++ [zType])

def collectPropTypes (discriminatorKey : Option JStr) (path : JStr) :
    List JsonSchema → Nat → PropTypes → Conversion PropTypes
  | [], _, propTypes => .ok propTypes
  | branch :: branches, i, propTypes => do
    checkKnownKeys branch.keywords (branchPath path i)
    let propTypes ← (branch.properties.getD []).foldlM
      (addPropType discriminatorKey (branchPath path i)) propTypes
    collectPropTypes discriminatorKey path branches (i + 1) propTypes

def flattenObjectOneOf (branches : List JsonSchema) (discriminatorKey : Option JStr) (path : JStr) :
    Conversion (List (JStr × Zod)) := do
  let propTypes ← collectPropTypes discriminatorKey path branches 0 .empty
  let discriminant ← match truthyKey discriminatorKey with
    | some key => do
      let zType ← buildEnum (branches.filterMap fun b => b.constOf key) path
      pure [(key, zType)]
    | none => pure []
  return ownEntries (discriminant ++ propTypes.entries.map fun e => (e.1, .optional (mergeTypes e.2)))

/-- The values a discriminator's schema can have, and none where zod knows no values. -/
def getDiscriminator : Zod → List (Option Scalar)
  | .undefined => [none]
  | .literal c => [some c]
  | .enum values => values.map fun s => some (.str s)
  | .optional inner => none :: getDiscriminator inner
  | _ => []

/-- Two keys of a `Map` are one. -/
def sameKey : Option Scalar → Option Scalar → Bool
  | none, none => true
  | some c, some d => c.is d.value
  | _, _ => false

def addKeys (discriminator : JStr) (option : Zod) :
    List (Option Scalar) → List (Option Scalar × Zod) → Conversion (List (Option Scalar × Zod))
  | [], optionsMap => .ok optionsMap
  | value :: values, optionsMap =>
    if optionsMap.any fun e => sameKey e.1 value then
      .error (js "Discriminator property " ++ discriminator ++ js " has duplicate value " ++
        (value.map Scalar.text).getD (js "undefined"))
    else addKeys discriminator option values (optionsMap ++ [(value, option)])

/-- The values of an option's discriminator, `option.shape[discriminator]`. -/
def discriminatorValues (discriminator : JStr) : Zod → List (Option Scalar)
  | .object shape _ proto =>
    ((if discriminator = protoKey then proto else shape.lookup discriminator).map getDiscriminator).getD []
  | _ => []

def addOption (discriminator : JStr) (optionsMap : List (Option Scalar × Zod)) (option : Zod) :
    Conversion (List (Option Scalar × Zod)) :=
  match option with
  | .object _ _ _ =>
    if discriminatorValues discriminator option = [] then
      .error (js "A discriminator value for key \x60" ++ discriminator ++
        js "\x60 could not be extracted from all schema options")
    else addKeys discriminator option (discriminatorValues discriminator option) optionsMap
  | _ => .error (js "Cannot read properties of undefined (reading '" ++ discriminator ++ js "')")

/-- `z.discriminatedUnion(discriminator, options)`. -/
def discriminatedUnion (discriminator : JStr) (options : List Zod) : Conversion Zod :=
  .discriminatedUnion discriminator <$> options.foldlM (addOption discriminator) []

/-! ## The conversion -/

structure ZodSchemas where
  shape : List (JStr × Zod)
  full : Zod
  wrap : Bool

def wrapInput (zType : Zod) : ZodSchemas := ⟨[(js "input", zType)], zType, true⟩

/-- `discriminatorKey ? z.discriminatedUnion(..) : z.union(..)`. -/
def unionOf (discriminatorKey : Option JStr) (zodBranches : List Zod) : Conversion Zod :=
  match truthyKey discriminatorKey with
  | some key => discriminatedUnion key zodBranches
  | none => .ok (.union zodBranches)

def buildTopLevelOneOf (schema : JsonSchema) (branches : List JsonSchema) (path : JStr) :
    Conversion ZodSchemas :=
  if branches.length < 2 then
    .error (js "schema-to-zod: top-level oneOf must have at least 2 branches")
  else if !branches.all fun b => b.keywords.type == some .object && b.properties.isSome then
    wrapInput <$> convertSchema schema path
  else do
    let discriminatorKey := findCommonConstDiscriminator branches
    let shape ← flattenObjectOneOf branches discriminatorKey path
    let zodBranches ← convertBranches branches path 0
    let full ← unionOf discriminatorKey zodBranches
    return ⟨shape, describe schema.keywords.description full, false⟩

/-- A top-level schema that is no union. -/
def buildTopLevel (schema : JsonSchema) (path : JStr) : Conversion ZodSchemas :=
  if schema.keywords.type = some .object then do
    let shape ← convertObjectShape schema path
    let full := zObject shape (schema.keywords.additionalProperties == some false)
    return ⟨ownEntries shape, describe schema.keywords.description full, false⟩
  else wrapInput <$> convertSchema schema path

/-- Convert the input schema of an operation, or `none` for a void operation. -/
def jsonSchemaToZod : Option JsonSchema → Conversion ZodSchemas
  | none => .ok ⟨[], .undefined, false⟩
  | some schema => do
    checkKnownKeys schema.keywords (js "$")
    match schema.oneOf with
    | some branches => buildTopLevelOneOf schema branches (js "$")
    | none => buildTopLevel schema (js "$")

/-! ## Conversions that succeed -/

/-- The schema converts to `zType`, at some path. -/
def Converts (schema : JsonSchema) (zType : Zod) : Prop := ∃ path, convertSchema schema path = .ok zType

theorem checkKnownKeys_ok {kw : Keywords} {path : JStr} {u : Unit} :
    checkKnownKeys kw path = .ok u ↔ kw.unknownKeys = [] := by
  unfold checkKnownKeys
  cases kw.unknownKeys <;> simp

theorem convertBranches_ok {branches : List JsonSchema} {path : JStr} {i : Nat} {zTypes : List Zod}
    (h : convertBranches branches path i = .ok zTypes) : List.Forall₂ Converts branches zTypes := by
  induction branches generalizing i zTypes with
  | nil =>
    cases h
    exact .nil
  | cons branch branches ih =>
    simp only [convertBranches, Except.bind_eq_ok, Except.pure_eq_ok] at h
    obtain ⟨zType, hz, rest, hrest, rfl⟩ := h
    exact .cons ⟨_, hz⟩ (ih hrest)

/-- A property and its entry in a shape. -/
def ShapeEntry (required : List JStr) (p : JStr × JsonSchema) (e : JStr × Zod) : Prop :=
  e.1 = p.1 ∧ ∃ zType, Converts p.2 zType ∧
    e.2 = if required.contains p.1 then zType else .optional zType

theorem convertFields_ok {required : List JStr} {properties : List (JStr × JsonSchema)} {path : JStr}
    {shape : List (JStr × Zod)} (h : convertFields required properties path = .ok shape) :
    List.Forall₂ (ShapeEntry required) properties shape := by
  induction properties generalizing shape with
  | nil =>
    cases h
    exact .nil
  | cons p properties ih =>
    simp only [convertFields, Except.bind_eq_ok, Except.pure_eq_ok] at h
    obtain ⟨zType, hz, rest, hrest, rfl⟩ := h
    exact .cons ⟨rfl, zType, ⟨_, hz⟩, rfl⟩ (ih hrest)

theorem convertProperties_ok {required : List JStr}
    {properties : Option (List (JStr × JsonSchema))} {path : JStr} {shape : List (JStr × Zod)}
    (h : convertProperties required properties path = .ok shape) :
    List.Forall₂ (ShapeEntry required) (properties.getD []) shape := by
  cases properties with
  | none =>
    cases h
    exact .nil
  | some ps => exact convertFields_ok h

/-- The own keys of a shape come of the own properties. -/
theorem own_shapeEntries {required : List JStr} {properties : List (JStr × JsonSchema)}
    {shape : List (JStr × Zod)} (h : List.Forall₂ (ShapeEntry required) properties shape) :
    List.Forall₂ (ShapeEntry required) (ownEntries properties) (ownEntries shape) := by
  induction h with
  | nil => exact .nil
  | @cons p e _ _ hpe _ ih =>
    unfold ownEntries at ih ⊢
    rw [List.filter_cons, List.filter_cons, hpe.1]
    split
    · exact .cons hpe ih
    · exact ih

theorem allStrings_eq_some {values : List Scalar} {strings : List JStr}
    (h : allStrings values = some strings) : values = strings.map .str := by
  induction values generalizing strings with
  | nil =>
    cases h
    rfl
  | cons c values ih =>
    cases c with
    | str s =>
      obtain ⟨rest, hrest, rfl⟩ := Option.map_eq_some_iff.mp h
      rw [List.map_cons, ih hrest]
    | _ => cases h

/-- `buildEnum` makes a schema that accepts what is one of the values. -/
theorem buildEnum_ok {values : List Scalar} {path : JStr} {zType : Zod}
    (h : buildEnum values path = .ok zType) :
    zType.Closed ∧ ∀ v, zType.accepts v = true ↔ ∃ c ∈ values, c.is v = true := by
  unfold buildEnum at h
  split at h
  · cases h
  · next first rest =>
    split at h
    · next strings hs =>
      cases h
      refine ⟨.enum, fun v => ?_⟩
      rw [allStrings_eq_some hs]
      cases v <;> simp [Zod.accepts, Zod.parse, Scalar.is]
    · split at h
      · next hr =>
        cases h
        subst hr
        refine ⟨.literal, fun v => ?_⟩
        simp [Zod.accepts]
      · cases h
        refine ⟨.union fun option ho => ?_, fun v => ?_⟩
        · obtain ⟨c, _, rfl⟩ := List.mem_map.mp ho
          exact .literal
        · rw [Zod.accepts_union]
          simp [Zod.accepts]

/-- What `convertSchema` makes of a schema, by the first of `const`, `enum`, `oneOf` and `type` that
is there. -/
inductive Built (kw : Keywords) (properties : Option (List (JStr × JsonSchema)))
    (items : Option JsonSchema) : (const : Option Scalar) → (enum : Option (List Scalar)) →
    (oneOf : Option (List JsonSchema)) → (type : Option JsonType) → Zod → Prop where
  | const {c : Scalar} {enum : Option (List Scalar)} {oneOf : Option (List JsonSchema)}
      {type : Option JsonType} : Built kw properties items (some c) enum oneOf type (.literal c)
  | enum {values : List Scalar} {oneOf : Option (List JsonSchema)} {type : Option JsonType}
      {path : JStr} {zType : Zod} (built : buildEnum values path = .ok zType) :
      Built kw properties items none (some values) oneOf type zType
  | oneOf {branches : List JsonSchema} {type : Option JsonType} {zTypes : List Zod}
      (nonempty : branches ≠ []) (built : List.Forall₂ Converts branches zTypes) :
      Built kw properties items none none (some branches) type (mergeTypes zTypes)
  | object {shape : List (JStr × Zod)}
      (built : List.Forall₂ (ShapeEntry (kw.required.getD [])) (properties.getD []) shape) :
      Built kw properties items none none none (some .object)
        (zObject shape (kw.additionalProperties == some false))
  | string : Built kw properties items none none none (some .string) .string
  | number : Built kw properties items none none none (some .number)
      (.number false kw.minimum kw.maximum)
  | integer : Built kw properties items none none none (some .integer)
      (.number true kw.minimum kw.maximum)
  | boolean : Built kw properties items none none none (some .boolean) .boolean
  | array {item : Zod} (untyped : items = none → item = .unknown)
      (typed : ∀ s, items = some s → Converts s item) :
      Built kw properties items none none none (some .array) (.array item kw.minItems kw.maxItems)

theorem convertSchema_ok {kw : Keywords} {properties : Option (List (JStr × JsonSchema))}
    {oneOf : Option (List JsonSchema)} {items : Option JsonSchema} {path : JStr} {zType : Zod}
    (h : convertSchema (.mk kw properties oneOf items) path = .ok zType) :
    kw.unknownKeys = [] ∧ Built kw properties items kw.const kw.enum oneOf kw.type zType := by
  cases oneOf with
  | some branches =>
    rw [convertSchema] at h
    obtain ⟨_, hk, h⟩ := Except.bind_eq_ok.mp h
    obtain ⟨z, hz, rfl⟩ := Except.map_eq_ok.mp h
    refine ⟨checkKnownKeys_ok.mp hk, ?_⟩
    split at hz
    · next hconst => cases hz; exact hconst ▸ .const
    · next hconst =>
      rw [hconst]
      split at hz
      · next henum => exact henum ▸ .enum hz
      · next henum =>
        rw [henum]
        split at hz
        · cases hz
        · next hne =>
          obtain ⟨zTypes, hb, rfl⟩ := Except.map_eq_ok.mp hz
          exact .oneOf hne (convertBranches_ok hb)
  | none =>
    rw [convertSchema] at h
    obtain ⟨_, hk, h⟩ := Except.bind_eq_ok.mp h
    obtain ⟨z, hz, rfl⟩ := Except.map_eq_ok.mp h
    refine ⟨checkKnownKeys_ok.mp hk, ?_⟩
    split at hz
    · next hconst => cases hz; exact hconst ▸ .const
    · next hconst =>
      rw [hconst]
      split at hz
      · next henum => exact henum ▸ .enum hz
      · next henum =>
        rw [henum]
        split at hz
        · next htype =>
          obtain ⟨shape, hs, rfl⟩ := Except.map_eq_ok.mp hz
          exact htype ▸ .object (convertProperties_ok hs)
        · next htype => cases hz; exact htype ▸ .string
        · next htype => cases hz; exact htype ▸ .number
        · next htype => cases hz; exact htype ▸ .integer
        · next htype => cases hz; exact htype ▸ .boolean
        · next htype =>
          obtain ⟨item, hi, rfl⟩ := Except.map_eq_ok.mp hz
          refine htype ▸ .array ?_ ?_
          · rintro rfl
            cases hi
            rfl
          · rintro s rfl
            exact ⟨_, hi⟩
        · cases hz

theorem accepts_mergeTypes {types : List Zod} {v : JsValue} :
    (mergeTypes types).accepts v = true ↔ ∃ type ∈ types, type.accepts v = true := by
  unfold mergeTypes
  split
  · simp
  · exact Zod.accepts_union

/-- No converted schema takes `undefined`: what is not required is made optional apart from it. -/
theorem Converts.rejects_undefined {schema : JsonSchema} {zType : Zod}
    (h : Converts schema zType) : ¬zType.accepts .undefined = true := by
  induction schema using JsonSchema.induct generalizing zType with
  | mk kw properties oneOf items _ ihBranches _ =>
    obtain ⟨path, h⟩ := h
    have hb := (convertSchema_ok h).2
    generalize kw.const = const, kw.enum = enum, kw.type = type at hb
    cases hb with
    | const => simp [Zod.accepts, Scalar.is]
    | enum built =>
      rw [(buildEnum_ok built).2]
      rintro ⟨c, _, hc⟩
      cases c <;> cases hc
    | oneOf _ built =>
      rw [accepts_mergeTypes]
      rintro ⟨type, ht, ha⟩
      obtain ⟨branch, hbranch, hc⟩ := built.mem_right ht
      exact ihBranches _ rfl branch hbranch hc ha
    | _ => simp [Zod.accepts, Zod.parse, zObject]

theorem buildEnum_unique {values : List Scalar} {path path' : JStr} {zType zType' : Zod}
    (h : buildEnum values path = .ok zType) (h' : buildEnum values path' = .ok zType') :
    zType = zType' := by
  unfold buildEnum at h h'
  cases values with
  | nil => cases h
  | cons first rest =>
    cases hs : allStrings (first :: rest) <;> simp only [hs] at h h' <;>
      exact Except.ok.inj (h.symm.trans h')

/-- A schema converts to one type, whatever the path. -/
theorem Converts.unique {schema : JsonSchema} {zType zType' : Zod} (h : Converts schema zType)
    (h' : Converts schema zType') : zType = zType' := by
  induction schema using JsonSchema.induct generalizing zType zType' with
  | mk kw properties oneOf items ihProperties ihBranches ihItems =>
    obtain ⟨_, h⟩ := h
    obtain ⟨_, h'⟩ := h'
    have hb := (convertSchema_ok h).2
    have hb' := (convertSchema_ok h').2
    generalize kw.const = const, kw.enum = enum, kw.type = type at hb hb'
    cases hb with
    | const => cases hb'; rfl
    | enum built =>
      cases hb' with
      | enum built' => exact buildEnum_unique built built'
    | oneOf _ built =>
      cases hb' with
      | oneOf _ built' =>
        rw [built.right_unique built' fun b hb _ _ hc hc' => ihBranches _ rfl b hb hc hc']
    | object built =>
      cases hb' with
      | object built' =>
        rw [built.right_unique built' ?_]
        rintro p hp e e' ⟨hname, z, hc, he⟩ ⟨hname', z', hc', he'⟩
        obtain ⟨ps, rfl⟩ : ∃ ps, properties = some ps := by
          cases properties with
          | none => cases hp
          | some ps => exact ⟨ps, rfl⟩
        exact Prod.ext (hname.trans hname'.symm)
          (by rw [he, he', ihProperties ps rfl p hp hc hc'])
    | array untyped typed =>
      cases hb' with
      | array untyped' typed' =>
        cases hi : items with
        | none => rw [untyped hi, untyped' hi]
        | some s => rw [ihItems s hi (typed s hi) (typed' s hi)]
    | _ => cases hb'; rfl

end VigorMcp
