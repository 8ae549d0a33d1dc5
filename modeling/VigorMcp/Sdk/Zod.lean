import Mathlib.Data.Rat.Defs
import VigorMcp.Js.Same

/-!
# Zod schemas

The combinators of zod that the program's schemas are built from, and what
`safeParse` makes of a value: the data on success, `none` on failure. An object
schema reads its fields by name and lists them in the order of its shape; a
strict one refuses other names and a plain one drops them. A field is the
value's own, as zod documents it: what is only inherited from `Object.prototype`
is not there. The keys of a shape are its own too: a schema assigned under
`__proto__` is the shape's prototype, and zod looks at it only for the values of
a discriminator. `refined` stands for a check written by hand, which returns the
value it accepts. A `Closed` schema has strict objects only, and what it accepts
it returns (`Closed.parse_same`).
-/

namespace VigorMcp

/-- The name under which `shape[key] = ..` sets the prototype of `shape` and makes no key. -/
def protoKey : JStr := js "__proto__"

/-- A JSON scalar, as `const` and `enum` list them. -/
inductive Scalar where
  | null
  | bool (b : Bool)
  | num (value : ℚ) (text : JStr)
  | str (s : JStr)
  deriving DecidableEq

namespace Scalar

def value : Scalar → JsValue
  | null => .null
  | bool b => .bool b
  | num value text => .num (.finite value text)
  | str s => .str s

/-- `v === scalar`. -/
def is : Scalar → JsValue → Bool
  | null, .null => true
  | bool b, .bool c => b == c
  | num value _, .num (.finite q _) => value == q
  | str s, .str t => s == t
  | _, _ => false

/-- `String(scalar)`. -/
def text : Scalar → JStr
  | null => js "null"
  | bool b => if b then js "true" else js "false"
  | num _ text => text
  | str s => s

end Scalar

inductive Zod where
  | undefined
  | unknown
  | string
  | boolean
  | number (isInt : Bool) (min max : Option ℚ)
  | literal (value : Scalar)
  | enum (values : List JStr)
  | union (options : List Zod)
  /-- The options under the values their discriminator can have; `none` is `undefined`. -/
  | discriminatedUnion (discriminator : JStr) (optionsMap : List (Option Scalar × Zod))
  /-- `shape` lists the shape's own keys; `proto` is the schema that is its prototype, if one is. -/
  | object (shape : List (JStr × Zod)) (isStrict : Bool) (proto : Option Zod)
  | array (item : Zod) (min max : Option ℚ)
  | optional (inner : Zod)
  | refined (accepts : JsValue → Bool)

namespace Zod

/-- The checks of `z.number()`. -/
def numberOk (isInt : Bool) (min max : Option ℚ) : JsNumber → Bool
  | .finite value _ => (!isInt || value.den == 1) && min.all (fun m => decide (m ≤ value)) &&
    max.all fun m => decide (value ≤ m)
  | .nonFinite text => !isInt && ((text == js "Infinity" && max.isNone) ||
    (text == js "-Infinity" && min.isNone))

/-- The checks of `z.array(..)`. -/
def lengthOk (min max : Option ℚ) (length : Nat) : Bool :=
  min.all (fun m => decide (m ≤ (length : ℚ))) && max.all fun m => decide ((length : ℚ) ≤ m)

/-- `optionsMap.get(value)` takes the entry of this key. -/
def isKey : Option Scalar → JsValue → Bool
  | none, .undefined => true
  | none, _ => false
  | some c, v => c.is v

/-- `data[key]`. -/
def field (fields : List (JStr × JsValue)) (key : JStr) : JsValue :=
  (fields.lookup key).getD .undefined

/-- `data[discriminator]`: under `__proto__` an object without such a field has its prototype, an
object. -/
def discriminant (fields : List (JStr × JsValue)) (key : JStr) : JsValue :=
  (fields.lookup key).getD (if key = protoKey then .obj [] else .undefined)

theorem discriminant_eq_field {fields : List (JStr × JsValue)} {key : JStr} (h : key ≠ protoKey) :
    discriminant fields key = field fields key := by
  rw [discriminant, field, if_neg h]

def parseItems (parse : JsValue → Option JsValue) : List JsValue → Option (List JsValue)
  | [] => some []
  | item :: items => do
    let data ← parse item
    return data :: (← parseItems parse items)

mutual

/-- `schema.safeParse(v)`. -/
@[grind] def parse : Zod → JsValue → Option JsValue
  | .undefined, .undefined => some .undefined
  | .unknown, v => some v
  | .string, .str s => some (.str s)
  | .boolean, .bool b => some (.bool b)
  | .number isInt min max, .num n => if numberOk isInt min max n then some (.num n) else none
  | .literal c, v => if c.is v then some v else none
  | .enum values, .str s => if values.contains s then some (.str s) else none
  | .union options, v => parseUnion options v
  | .discriminatedUnion discriminator optionsMap, .obj fields =>
    parseOption optionsMap (discriminant fields discriminator) (.obj fields)
  | .object shape isStrict _, .obj fields =>
    if isStrict && fields.any (fun f => !(shape.map Prod.fst).contains f.1) then none
    else (parseShape shape fields).map .obj
  | .array item min max, .arr items =>
    if lengthOk min max items.length then (parseItems (fun v => parse item v) items).map .arr else none
  | .optional _, .undefined => some .undefined
  | .optional inner, v => parse inner v
  | .refined accepts, v => if accepts v then some v else none
  | _, _ => none

/-- The first option that accepts. -/
def parseUnion : List Zod → JsValue → Option JsValue
  | [], _ => none
  | option :: options, v =>
    match parse option v with
    | some data => some data
    | none => parseUnion options v

/-- The option under the discriminator's value. -/
def parseOption : List (Option Scalar × Zod) → JsValue → JsValue → Option JsValue
  | [], _, _ => none
  | (key, option) :: optionsMap, discriminant, v =>
    if isKey key discriminant then parse option v else parseOption optionsMap discriminant v

/-- A field that is not there stays away when its schema makes `undefined` of it. -/
def parseShape : List (JStr × Zod) → List (JStr × JsValue) → Option (List (JStr × JsValue))
  | [], _ => some []
  | (key, schema) :: shape, fields =>
    match parse schema (field fields key) with
    | none => none
    | some data =>
      match parseShape shape fields with
      | none => none
      | some rest =>
        match data, fields.lookup key with
        | .undefined, none => some rest
        | data, _ => some ((key, data) :: rest)

end

/-- `schema.safeParse(v).success`. -/
def accepts (schema : Zod) (v : JsValue) : Bool := (schema.parse v).isSome

/-! ## Acceptance, combinator by combinator -/

theorem accepts_iff {schema : Zod} {v : JsValue} :
    schema.accepts v = true ↔ ∃ data, schema.parse v = some data := Option.isSome_iff_exists

@[simp] theorem parse_unknown (v : JsValue) : unknown.parse v = some v := by simp [parse]

@[simp] theorem parse_literal (c : Scalar) (v : JsValue) :
    (literal c).parse v = if c.is v then some v else none := by simp [parse]

@[simp] theorem parse_union (options : List Zod) (v : JsValue) :
    (union options).parse v = parseUnion options v := by simp [parse]

@[simp] theorem parse_optional_undefined (inner : Zod) :
    (optional inner).parse .undefined = some .undefined := by simp [parse]

theorem parse_optional {inner : Zod} {v : JsValue} (h : v ≠ .undefined) :
    (optional inner).parse v = inner.parse v := by
  cases v <;> first | exact absurd rfl h | simp [parse]

theorem parseUnion_mem {options : List Zod} {v data : JsValue}
    (h : parseUnion options v = some data) : ∃ option ∈ options, option.parse v = some data := by
  induction options with
  | nil => cases h
  | cons option options ih =>
    rw [parseUnion] at h
    cases hp : option.parse v with
    | some d =>
      rw [hp] at h
      exact ⟨option, List.mem_cons_self, hp.trans h⟩
    | none =>
      rw [hp] at h
      obtain ⟨o, ho, hd⟩ := ih h
      exact ⟨o, List.mem_cons_of_mem _ ho, hd⟩

theorem accepts_union {options : List Zod} {v : JsValue} :
    (union options).accepts v = true ↔ ∃ option ∈ options, option.accepts v = true := by
  rw [accepts_iff, parse_union]
  constructor
  · rintro ⟨data, h⟩
    obtain ⟨o, ho, hd⟩ := parseUnion_mem h
    exact ⟨o, ho, accepts_iff.mpr ⟨data, hd⟩⟩
  · rintro ⟨o, ho, h⟩
    induction options with
    | nil => cases ho
    | cons option options ih =>
      rw [parseUnion]
      cases hp : option.parse v with
      | some d => exact ⟨d, rfl⟩
      | none =>
        rcases List.mem_cons.mp ho with rfl | ho
        · simp [accepts, hp] at h
        · exact ih ho

theorem accepts_optional {inner : Zod} {v : JsValue} :
    (optional inner).accepts v = true ↔ v = .undefined ∨ inner.accepts v = true := by
  by_cases hv : v = .undefined
  · subst hv
    exact iff_of_true rfl (.inl rfl)
  · rw [accepts, parse_optional hv, or_iff_right hv]
    rfl

theorem parseItems_eq_some {p : JsValue → Option JsValue} {items data : List JsValue} :
    parseItems p items = some data ↔ List.Forall₂ (fun item d => p item = some d) items data := by
  induction items generalizing data with
  | nil => simp [parseItems, eq_comm]
  | cons item items ih =>
    rw [parseItems, List.forall₂_cons_left_iff]
    simp only [bind, pure, Option.bind_eq_some_iff, Option.some.injEq, ih]
    constructor
    · rintro ⟨d, hd, ds, hds, rfl⟩
      exact ⟨d, ds, hd, hds, rfl⟩
    · rintro ⟨d, ds, hd, hds, rfl⟩
      exact ⟨d, hd, ds, hds, rfl⟩

theorem parseItems_isSome {p : JsValue → Option JsValue} {items : List JsValue} :
    (parseItems p items).isSome = true ↔ ∀ item ∈ items, (p item).isSome = true := by
  induction items with
  | nil => simp [parseItems]
  | cons item items ih =>
    rw [parseItems, List.forall_mem_cons, ← ih]
    cases p item <;> cases parseItems p items <;> simp

theorem accepts_array {item : Zod} {min max : Option ℚ} {items : List JsValue} :
    (array item min max).accepts (.arr items) = true ↔
      lengthOk min max items.length = true ∧ ∀ v ∈ items, item.accepts v = true := by
  simp only [accepts, parse]
  split
  · next h => rw [Option.isSome_map, parseItems_isSome, and_iff_right h]
  · next h => simp [h]

/-- A shape accepts fields when each of its schemas accepts the field of its name. -/
theorem parseShape_isSome {shape : List (JStr × Zod)} {fields : List (JStr × JsValue)} :
    (parseShape shape fields).isSome = true ↔
      ∀ e ∈ shape, e.2.accepts (field fields e.1) = true := by
  induction shape with
  | nil => simp [parseShape]
  | cons e shape ih =>
    rw [parseShape, List.forall_mem_cons, ← ih, accepts]
    cases e.2.parse (field fields e.1) with
    | none => simp
    | some data =>
      cases parseShape shape fields with
      | none => simp
      | some rest => simp only; split <;> simp

theorem accepts_object {shape : List (JStr × Zod)} {isStrict : Bool} {proto : Option Zod}
    {fields : List (JStr × JsValue)} :
    (object shape isStrict proto).accepts (.obj fields) = true ↔
      (isStrict = true → ∀ f ∈ fields, f.1 ∈ shape.map Prod.fst) ∧
        ∀ e ∈ shape, e.2.accepts (field fields e.1) = true := by
  have hextra : (isStrict && fields.any fun f => !(shape.map Prod.fst).contains f.1) = true ↔
      ¬(isStrict = true → ∀ f ∈ fields, f.1 ∈ shape.map Prod.fst) := by
    simp
  simp only [accepts, parse]
  by_cases h : isStrict = true → ∀ f ∈ fields, f.1 ∈ shape.map Prod.fst
  · rw [if_neg (by rw [hextra]; exact not_not_intro h), Option.isSome_map, and_iff_right h,
      parseShape_isSome]
    rfl
  · rw [if_pos (hextra.mpr h)]
    exact iff_of_false (by simp) fun hall => h hall.1

/-! ## What the values look like -/

theorem obj_of_accepts_object {shape : List (JStr × Zod)} {isStrict : Bool} {proto : Option Zod}
    {v : JsValue} (h : (object shape isStrict proto).accepts v = true) : ∃ fields, v = .obj fields := by
  cases v with
  | obj fields => exact ⟨fields, rfl⟩
  | _ => simp [accepts, parse] at h

theorem arr_of_accepts_array {item : Zod} {min max : Option ℚ} {v : JsValue}
    (h : (array item min max).accepts v = true) : ∃ items, v = .arr items := by
  cases v with
  | arr items => exact ⟨items, rfl⟩
  | _ => simp [accepts, parse] at h

theorem obj_of_accepts_discriminatedUnion {key : JStr} {optionsMap : List (Option Scalar × Zod)}
    {v : JsValue} (h : (discriminatedUnion key optionsMap).accepts v = true) :
    ∃ fields, v = .obj fields := by
  cases v with
  | obj fields => exact ⟨fields, rfl⟩
  | _ => simp [accepts, parse] at h

/-! ## What a schema returns -/

theorem parseOption_mem {optionsMap : List (Option Scalar × Zod)} {discriminant v data : JsValue}
    (h : parseOption optionsMap discriminant v = some data) :
    ∃ e ∈ optionsMap, isKey e.1 discriminant = true ∧ e.2.parse v = some data := by
  induction optionsMap with
  | nil => cases h
  | cons e optionsMap ih =>
    rw [parseOption] at h
    split at h
    · next hk => exact ⟨e, List.mem_cons_self, hk, h⟩
    · obtain ⟨e', he', hd⟩ := ih h
      exact ⟨e', List.mem_cons_of_mem _ he', hd⟩

/-- A schema that holds no other. -/
def isLeaf : Zod → Bool
  | union _ | discriminatedUnion _ _ | object _ _ _ | array _ _ _ | optional _ => false
  | _ => true

/-- Induction over a schema: its options, the schemas of its shape, its item, what is optional. -/
theorem induct {P : Zod → Prop} (leaf : ∀ schema, schema.isLeaf = true → P schema)
    (union : ∀ options, (∀ o ∈ options, P o) → P (.union options))
    (discriminatedUnion : ∀ key optionsMap, (∀ e ∈ optionsMap, P e.2) →
      P (.discriminatedUnion key optionsMap))
    (object : ∀ shape isStrict proto, (∀ e ∈ shape, P e.2) → P (.object shape isStrict proto))
    (array : ∀ item min max, P item → P (.array item min max))
    (optional : ∀ inner, P inner → P (.optional inner)) (schema : Zod) : P schema := by
  match schema with
  | .union options =>
    refine union options fun o ho => ?_
    have := List.sizeOf_lt_of_mem ho
    exact induct leaf union discriminatedUnion object array optional o
  | .discriminatedUnion key optionsMap =>
    refine discriminatedUnion key optionsMap fun e he => ?_
    have := List.sizeOf_lt_of_mem he
    have : sizeOf e.2 < sizeOf e := by
      cases e
      simp only [Prod.mk.sizeOf_spec]
      omega
    exact induct leaf union discriminatedUnion object array optional e.2
  | .object shape isStrict proto =>
    refine object shape isStrict proto fun e he => ?_
    have := List.sizeOf_lt_of_mem he
    have : sizeOf e.2 < sizeOf e := by
      cases e
      simp only [Prod.mk.sizeOf_spec]
      omega
    exact induct leaf union discriminatedUnion object array optional e.2
  | .array item min max =>
    exact array item min max (induct leaf union discriminatedUnion object array optional item)
  | .optional inner =>
    exact optional inner (induct leaf union discriminatedUnion object array optional inner)
  | .undefined | .unknown | .string | .boolean | .number _ _ _ | .literal _ | .enum _ | .refined _ =>
    exact leaf _ rfl
termination_by sizeOf schema
decreasing_by all_goals simp_wf <;> omega

mutual

/-- Every field of the value has its name in the object schema that takes it. -/
def knows : Zod → JsValue → Bool
  | .union options, v => knowsUnion options v
  | .discriminatedUnion discriminator optionsMap, .obj fields =>
    knowsOption optionsMap (discriminant fields discriminator) (.obj fields)
  | .object shape _ _, .obj fields => fields.all fun f => knowsField shape f.1 (field fields f.1)
  | .array item _ _, .arr items => items.all fun v => knows item v
  | .optional _, .undefined => true
  | .optional inner, v => knows inner v
  | _, _ => true

def knowsUnion : List Zod → JsValue → Bool
  | [], _ => true
  | option :: options, v => if option.accepts v then knows option v else knowsUnion options v

def knowsOption : List (Option Scalar × Zod) → JsValue → JsValue → Bool
  | [], _, _ => true
  | (key, option) :: optionsMap, discriminant, v =>
    if isKey key discriminant then knows option v else knowsOption optionsMap discriminant v

def knowsField : List (JStr × Zod) → JStr → JsValue → Bool
  | [], _, _ => false
  | (name, schema) :: shape, key, v => if key = name then knows schema v else knowsField shape key v

end

theorem parse_leaf {schema : Zod} (h : schema.isLeaf = true) {v data : JsValue}
    (hp : schema.parse v = some data) : v = data := by
  cases schema <;> cases v <;> simp only [isLeaf, Bool.false_eq_true, parse,
    Option.ite_none_right_eq_some, Option.some.injEq, reduceCtorEq] at h hp <;> grind

theorem parse_undefined {schema : Zod} {data : JsValue} (h : schema.parse .undefined = some data) :
    data = .undefined := by
  induction schema using induct with
  | leaf schema hleaf => exact (parse_leaf hleaf h).symm
  | union options ih =>
    obtain ⟨option, ho, hd⟩ := parseUnion_mem (by simpa using h)
    exact ih option ho hd
  | optional inner =>
    rw [parse_optional_undefined] at h
    exact (Option.some.inj h).symm
  | _ => simp [parse] at h

theorem knowsField_iff {shape : List (JStr × Zod)} {key : JStr} {v : JsValue} :
    knowsField shape key v = true ↔ ∃ schema, shape.lookup key = some schema ∧ schema.knows v = true := by
  induction shape with
  | nil => simp [knowsField]
  | cons e shape ih =>
    rw [knowsField, List.lookup_cons]
    by_cases hk : key = e.1
    · simp [hk]
    · simp only [hk, ↓reduceIte, beq_eq_false_iff_ne.mpr hk, ih]

/-- A field that is not there stays away. -/
theorem parseShape_absent {key : JStr} {schema : Zod} {shape : List (JStr × Zod)}
    {fields out : List (JStr × JsValue)} (h : fields.lookup key = none) :
    parseShape ((key, schema) :: shape) fields = some out ↔
      schema.parse .undefined = some .undefined ∧ parseShape shape fields = some out := by
  rw [parseShape, field, h, Option.getD_none]
  cases hd : schema.parse .undefined with
  | none => simp
  | some data =>
    obtain rfl := parse_undefined hd
    cases parseShape shape fields <;> simp

theorem parseShape_present {key : JStr} {schema : Zod} {shape : List (JStr × Zod)}
    {fields out : List (JStr × JsValue)} {v : JsValue} (h : fields.lookup key = some v) :
    parseShape ((key, schema) :: shape) fields = some out ↔ ∃ data rest,
      schema.parse v = some data ∧ parseShape shape fields = some rest ∧ out = (key, data) :: rest := by
  rw [parseShape, field, h, Option.getD_some]
  cases schema.parse v with
  | none => simp
  | some data => cases parseShape shape fields <;> simp [eq_comm]

/-- What a shape returns under a name: nothing where nothing was, and else what the name's schema
makes of the field. -/
theorem lookup_parseShape {shape : List (JStr × Zod)} {fields out : List (JStr × JsValue)}
    (h : parseShape shape fields = some out) (key : JStr) :
    out.lookup key = (fields.lookup key).bind fun v => (shape.lookup key).bind fun schema =>
      schema.parse v := by
  induction shape generalizing out with
  | nil =>
    rw [parseShape, Option.some.injEq] at h
    subst h
    simp
  | cons e shape ih =>
    rw [parseShape] at h
    cases hd : e.2.parse (field fields e.1) with
    | none => rw [hd] at h; cases h
    | some data =>
      cases hr : parseShape shape fields with
      | none => rw [hd, hr] at h; cases h
      | some rest =>
        rw [hd, hr] at h
        have hrest := ih hr
        simp only at h
        rw [List.lookup_cons]
        by_cases hk : key = e.1
        · subst hk
          rw [beq_self_eq_true]
          cases hf : fields.lookup e.1 with
          | none =>
            rw [hf] at h hrest
            rw [field, hf] at hd
            obtain rfl := parse_undefined hd
            cases h
            exact hrest
          | some v =>
            rw [field, hf, Option.getD_some] at hd
            split at h
            · next hf' => rw [hf] at hf'; cases hf'
            · cases h
              simp [hd]
        · rw [beq_eq_false_iff_ne.mpr hk]
          split at h <;> cases h
          · exact hrest
          · rw [List.lookup_cons, beq_eq_false_iff_ne.mpr hk]
            exact hrest

/-- **A schema returns what it accepts** exactly when it knows every field of it. -/
theorem parse_same_iff {schema : Zod} {v data : JsValue} (h : schema.parse v = some data) :
    data.Same v ↔ schema.knows v = true := by
  induction schema using induct generalizing v data with
  | leaf schema hleaf =>
    rw [parse_leaf hleaf h]
    refine iff_of_true (.refl _) ?_
    cases schema <;> first | rfl | cases hleaf
  | union options ih =>
    rw [parse_union] at h
    rw [knows]
    induction options with
    | nil => cases h
    | cons option options ihOptions =>
      rw [List.forall_mem_cons] at ih
      rw [knowsUnion, accepts]
      rw [parseUnion] at h
      cases hp : option.parse v with
      | some d =>
        rw [hp] at h
        simpa using ih.1 (hp.trans h)
      | none =>
        rw [hp] at h
        simpa using ihOptions ih.2 h
  | discriminatedUnion key optionsMap ih =>
    obtain ⟨fields, rfl⟩ := obj_of_accepts_discriminatedUnion (accepts_iff.mpr ⟨data, h⟩)
    rw [parse] at h
    rw [knows]
    induction optionsMap with
    | nil => cases h
    | cons e optionsMap ihOptions =>
      rw [List.forall_mem_cons] at ih
      rw [knowsOption]
      rw [parseOption] at h
      split at h
      · next hk => simpa [hk] using ih.1 h
      · next hk => simpa [hk] using ihOptions ih.2 h
  | object shape isStrict proto ih =>
    have ha := accepts_iff.mpr ⟨data, h⟩
    obtain ⟨fields, rfl⟩ := obj_of_accepts_object ha
    have hfields := (accepts_object.mp ha).2
    simp only [parse] at h
    split at h
    · cases h
    · obtain ⟨out, ho, rfl⟩ := Option.map_eq_some_iff.mp h
      rw [knows, List.all_eq_true]
      constructor
      · intro hsame f hf
        obtain ⟨v, hv⟩ : ∃ v, fields.lookup f.1 = some v := by
          rw [← Option.isSome_iff_exists, ← Option.ne_none_iff_isSome]
          exact fun hn => absurd (List.lookup_eq_none_iff.mp hn f hf) (by simp)
        have hfield := hsame.field f.1
        rw [lookup_parseShape ho, hv, Option.bind_some] at hfield
        cases hl : shape.lookup f.1 with
        | none => rw [hl] at hfield; cases hfield
        | some schema =>
          rw [hl, Option.bind_some] at hfield
          cases hp : schema.parse v with
          | none => rw [hp] at hfield; cases hfield
          | some d =>
            rw [hp] at hfield
            cases hfield with
            | present hd =>
              have := (ih _ (mem_of_lookup hl) hp).mp hd
              exact knowsField_iff.mpr ⟨schema, hl, by rw [field, hv]; exact this⟩
      · intro hall
        refine .obj fun key => ?_
        rw [lookup_parseShape ho]
        cases hv : fields.lookup key with
        | none => exact .absent
        | some v =>
          obtain ⟨schema, hl, hk⟩ := knowsField_iff.mp (hall _ (mem_of_lookup hv))
          have hacc := hfields _ (mem_of_lookup hl)
          rw [field, hv, Option.getD_some] at hk hacc
          obtain ⟨d, hd⟩ := accepts_iff.mp hacc
          rw [hl, Option.bind_some, Option.bind_some, hd]
          exact .present ((ih _ (mem_of_lookup hl) hd).mpr hk)
  | array item min max ih =>
    obtain ⟨items, rfl⟩ := arr_of_accepts_array (accepts_iff.mpr ⟨data, h⟩)
    simp only [parse] at h
    split at h
    · next hlength =>
      obtain ⟨out, ho, rfl⟩ := Option.map_eq_some_iff.mp h
      have hall := parseItems_eq_some.mp ho
      rw [knows, List.all_eq_true, JsValue.same_arr_iff]
      clear h ho hlength
      induction hall with
      | nil => simp
      | cons hp _ ihItems =>
        rw [List.forall₂_cons, List.forall_mem_cons]
        exact and_congr (ih hp) ihItems
    · cases h
  | optional inner ih =>
    by_cases hv : v = .undefined
    · subst hv
      rw [parse_optional_undefined, Option.some.injEq] at h
      exact iff_of_true (h ▸ .refl _) rfl
    · rw [parse_optional hv] at h
      rw [ih h]
      cases v <;> first | exact absurd rfl hv | rfl

/-- The schema accepts the value and knows all its fields. -/
def takes (schema : Zod) (v : JsValue) : Bool := schema.accepts v && schema.knows v

/-- It takes a value whole when it returns it. -/
theorem takes_iff {schema : Zod} {v : JsValue} :
    schema.takes v = true ↔ ∃ data, schema.parse v = some data ∧ data.Same v := by
  rw [takes, Bool.and_eq_true, accepts_iff]
  constructor
  · rintro ⟨⟨data, hd⟩, hknows⟩
    exact ⟨data, hd, (parse_same_iff hd).mpr hknows⟩
  · rintro ⟨data, hd, hsame⟩
    exact ⟨⟨data, hd⟩, (parse_same_iff hd).mp hsame⟩

/-- **No schema adds a field**: what it returns stands in the value. -/
theorem parse_within {schema : Zod} {v data : JsValue} (h : schema.parse v = some data) :
    data.Within v := by
  induction schema using induct generalizing v data with
  | leaf schema hleaf =>
    rw [parse_leaf hleaf h]
    exact .refl _
  | union options ih =>
    obtain ⟨option, ho, hd⟩ := parseUnion_mem (by simpa using h)
    exact ih option ho hd
  | discriminatedUnion key optionsMap ih =>
    obtain ⟨fields, rfl⟩ := obj_of_accepts_discriminatedUnion (accepts_iff.mpr ⟨data, h⟩)
    rw [parse] at h
    obtain ⟨e, he, _, hd⟩ := parseOption_mem h
    exact ih e he hd
  | object shape isStrict proto ih =>
    obtain ⟨fields, rfl⟩ := obj_of_accepts_object (accepts_iff.mpr ⟨data, h⟩)
    simp only [parse] at h
    split at h
    · cases h
    · obtain ⟨out, ho, rfl⟩ := Option.map_eq_some_iff.mp h
      refine .obj fun key c hc => ?_
      rw [lookup_parseShape ho] at hc
      obtain ⟨v, hv, hc⟩ := Option.bind_eq_some_iff.mp hc
      obtain ⟨schema, hschema, hc⟩ := Option.bind_eq_some_iff.mp hc
      exact ⟨v, hv, ih _ (mem_of_lookup hschema) hc⟩
  | array item min max ih =>
    obtain ⟨items, rfl⟩ := arr_of_accepts_array (accepts_iff.mpr ⟨data, h⟩)
    simp only [parse] at h
    split at h
    · obtain ⟨out, ho, rfl⟩ := Option.map_eq_some_iff.mp h
      exact .arr ((parseItems_eq_some.mp ho).flip.imp fun _ _ hp => ih hp)
    · cases h
  | optional inner ih =>
    by_cases hv : v = .undefined
    · subst hv
      rw [parse_optional_undefined, Option.some.injEq] at h
      exact h ▸ .refl _
    · rw [parse_optional hv] at h
      exact ih h

/-- A shape returns its keys once each at most, in its order. -/
theorem parseShape_keys {shape : List (JStr × Zod)} {fields out : List (JStr × JsValue)}
    (h : parseShape shape fields = some out) :
    (out.map Prod.fst).Sublist (shape.map Prod.fst) := by
  induction shape generalizing out with
  | nil =>
    cases h
    exact .slnil
  | cons e shape ih =>
    rw [parseShape] at h
    cases hd : e.2.parse (field fields e.1) with
    | none => rw [hd] at h; cases h
    | some data =>
      cases hr : parseShape shape fields with
      | none => rw [hd, hr] at h; cases h
      | some rest =>
        rw [hd, hr] at h
        simp only at h
        split at h <;> cases h
        · exact (ih hr).cons _
        · exact (ih hr).cons_cons _

/-- The schema returns what it accepts. -/
def Keeps (schema : Zod) : Prop := ∀ v data, schema.parse v = some data → data.Same v

/-- Every object schema inside is strict. -/
inductive Closed : Zod → Prop where
  | undefined : Closed .undefined
  | unknown : Closed .unknown
  | string : Closed .string
  | boolean : Closed .boolean
  | number {isInt : Bool} {min max : Option ℚ} : Closed (.number isInt min max)
  | literal {c : Scalar} : Closed (.literal c)
  | enum {values : List JStr} : Closed (.enum values)
  | union {options : List Zod} : (∀ option ∈ options, Closed option) → Closed (.union options)
  | discriminatedUnion {key : JStr} {optionsMap : List (Option Scalar × Zod)} :
      (∀ e ∈ optionsMap, Closed e.2) → Closed (.discriminatedUnion key optionsMap)
  | object {shape : List (JStr × Zod)} {proto : Option Zod} : (∀ e ∈ shape, Closed e.2) →
      Closed (.object shape true proto)
  | array {item : Zod} {min max : Option ℚ} : Closed item → Closed (.array item min max)
  | optional {inner : Zod} : Closed inner → Closed (.optional inner)
  | refined {p : JsValue → Bool} : Closed (.refined p)

theorem knowsUnion_of {options : List Zod} {v : JsValue}
    (h : ∀ option ∈ options, option.accepts v = true → option.knows v = true) :
    knowsUnion options v = true := by
  induction options with
  | nil => rfl
  | cons option options ih =>
    rw [List.forall_mem_cons] at h
    rw [knowsUnion]
    split
    · next ha => exact h.1 ha
    · exact ih h.2

theorem knowsOption_of {optionsMap : List (Option Scalar × Zod)} {discriminant v data : JsValue}
    (h : ∀ e ∈ optionsMap, e.2.accepts v = true → e.2.knows v = true)
    (hp : parseOption optionsMap discriminant v = some data) :
    knowsOption optionsMap discriminant v = true := by
  induction optionsMap with
  | nil => rfl
  | cons e optionsMap ih =>
    rw [List.forall_mem_cons] at h
    rw [parseOption] at hp
    rw [knowsOption]
    split
    · next hk =>
      rw [if_pos hk] at hp
      exact h.1 (accepts_iff.mpr ⟨data, hp⟩)
    · next hk =>
      rw [if_neg hk] at hp
      exact ih h.2 hp

/-- An object whose names all stand in the shape is known when its fields are. -/
theorem knows_object {shape : List (JStr × Zod)} {isStrict : Bool} {proto : Option Zod}
    {fields : List (JStr × JsValue)}
    (hshape : ∀ e ∈ shape, ∀ v, e.2.accepts v = true → e.2.knows v = true)
    (hnames : ∀ f ∈ fields, f.1 ∈ shape.map Prod.fst)
    (hfields : ∀ e ∈ shape, e.2.accepts (field fields e.1) = true) :
    (object shape isStrict proto).knows (.obj fields) = true := by
  rw [knows, List.all_eq_true]
  intro f hf
  cases hl : shape.lookup f.1 with
  | none =>
    obtain ⟨e, he, hname⟩ := List.mem_map.mp (hnames f hf)
    exact absurd (List.lookup_eq_none_iff.mp hl e he) (by simp [hname])
  | some schema =>
    have hmem := mem_of_lookup hl
    exact knowsField_iff.mpr ⟨schema, hl, hshape _ hmem _ (hfields _ hmem)⟩

/-- **A closed schema knows every field of what it accepts.** -/
theorem Closed.knows {schema : Zod} (h : Closed schema) {v : JsValue}
    (ha : schema.accepts v = true) : schema.knows v = true := by
  induction h generalizing v with
  | undefined | string | boolean | enum | number | unknown | literal | refined =>
    cases v <;> rfl
  | union _ ih =>
    rw [Zod.knows]
    exact knowsUnion_of fun option ho => ih option ho
  | discriminatedUnion _ ih =>
    obtain ⟨fields, rfl⟩ := obj_of_accepts_discriminatedUnion ha
    obtain ⟨data, hp⟩ := accepts_iff.mp ha
    rw [parse] at hp
    rw [Zod.knows]
    exact knowsOption_of (fun e he => ih e he) hp
  | object _ ih =>
    obtain ⟨fields, rfl⟩ := obj_of_accepts_object ha
    obtain ⟨hnames, hfields⟩ := accepts_object.mp ha
    exact knows_object (fun e he v => ih e he) (hnames rfl) hfields
  | array _ ih =>
    obtain ⟨items, rfl⟩ := arr_of_accepts_array ha
    rw [Zod.knows, List.all_eq_true]
    exact fun v hv => ih ((accepts_array.mp ha).2 v hv)
  | @optional inner _ ih =>
    by_cases hv : v = .undefined
    · subst hv
      rfl
    · have hinner := ih ((accepts_optional.mp ha).resolve_left hv)
      cases v <;> first | exact absurd rfl hv | exact hinner

theorem Closed.parse_same {schema : Zod} (h : Closed schema) : schema.Keeps := fun _ _ hp =>
  (parse_same_iff hp).mpr (h.knows (accepts_iff.mpr ⟨_, hp⟩))

end Zod

end VigorMcp
