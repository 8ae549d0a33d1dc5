import VigorMcp.Lib.Forall2
import VigorMcp.Sdk.Zod

/-!
# The values of an argument

`extractEnumValues` reads the values that a schema accepts off the schema, and
`expandArgCombos` makes every record of them. For `Expandable` schemas, those
built from enums, literals, unions and optionals, both are exact: the values are
the accepted ones (`Expandable.accepts_iff`), and the records are what the object
schema returns (`Picks.parseShape`, `picks_of_parseShape`).
-/

namespace VigorMcp

/-- What is put in for an argument: nothing (`OMIT`), a listed value, or, for a discriminated union,
one of its options, which is a schema and no value. -/
inductive ArgValue where
  | omit
  | scalar (value : Scalar)
  | schema (option : Zod)

mutual

/-- The values a schema lists; `none` when it lists none. -/
def extractEnumValues : Zod → Option (List ArgValue)
  | .optional inner => (extractEnumValues inner).map fun values => values ++ [.omit]
  | .enum values => some (values.map fun s => .scalar (.str s))
  | .literal value => some [.scalar value]
  | .union options => extractOptions options
  -- not a union to `extractEnumValues`, but something with an `options` list
  | .discriminatedUnion _ optionsMap => some (optionsMap.map fun e => .schema e.2)
  | _ => none

def extractOptions : List Zod → Option (List ArgValue)
  | [] => some []
  | option :: options =>
    match extractEnumValues option, extractOptions options with
    | some values, some rest => some (values ++ rest)
    | _, _ => none

end

/-- Built from enums, literals, unions and optionals. -/
inductive Expandable : Zod → Prop where
  | enum (values : List JStr) : Expandable (.enum values)
  | literal (value : Scalar) : Expandable (.literal value)
  | union {options : List Zod} (h : ∀ o ∈ options, Expandable o) : Expandable (.union options)
  | optional {inner : Zod} (h : Expandable inner) : Expandable (.optional inner)

mutual

/-- Without discriminated unions among the options and optionals. -/
def bare : Zod → Bool
  | .discriminatedUnion _ _ => false
  | .union options => bareOptions options
  | .optional inner => bare inner
  | _ => true

def bareOptions : List Zod → Bool
  | [] => true
  | option :: options => bare option && bareOptions options

end

theorem extractOptions_eq_some {options : List Zod} {values : List ArgValue} :
    extractOptions options = some values ↔
      ∃ parts, List.Forall₂ (fun o part => extractEnumValues o = some part) options parts ∧
        values = parts.flatten := by
  induction options generalizing values with
  | nil => simp [extractOptions, eq_comm]
  | cons option options ih =>
    rw [extractOptions]
    simp only [List.forall₂_cons_left_iff]
    constructor
    · intro h
      split at h
      · next vs rest hvs hrest =>
        obtain ⟨parts, hparts, rfl⟩ := ih.mp hrest
        exact ⟨vs :: parts, ⟨vs, parts, hvs, hparts, rfl⟩, (Option.some.inj h).symm⟩
      · cases h
    · rintro ⟨_, ⟨vs, parts, hvs, hparts, rfl⟩, rfl⟩
      rw [hvs, ih.mpr ⟨parts, hparts, rfl⟩]
      rfl

theorem bareOptions_iff {options : List Zod} :
    bareOptions options = true ↔ ∀ o ∈ options, bare o = true := by
  induction options with
  | nil => simp [bareOptions]
  | cons option options ih => rw [bareOptions, Bool.and_eq_true, ih, List.forall_mem_cons]

/-- Values are read off expandable schemas alone, discriminated unions apart. -/
theorem expandable_of_extract (schema : Zod) : bare schema = true → ∀ values,
    extractEnumValues schema = some values → Expandable schema := by
  induction schema using Zod.induct with
  | leaf schema hleaf =>
    intro _ values h
    cases schema <;> simp [Zod.isLeaf, extractEnumValues] at hleaf h
    · exact .literal _
    · exact .enum _
  | union options ih =>
    intro hbare values h
    rw [extractEnumValues] at h
    obtain ⟨parts, hparts, rfl⟩ := extractOptions_eq_some.mp h
    refine .union fun o ho => ?_
    obtain ⟨part, _, hpart⟩ := hparts.mem_left ho
    exact ih o ho (bareOptions_iff.mp hbare o ho) part hpart
  | discriminatedUnion key optionsMap ih => intro hbare; cases hbare
  | object shape isStrict proto ih => intro _ _ h; cases h
  | array item min max ih => intro _ _ h; cases h
  | optional inner ih =>
    intro hbare values h
    rw [extractEnumValues] at h
    obtain ⟨vs, hvs, rfl⟩ := Option.map_eq_some_iff.mp h
    exact .optional (ih hbare vs hvs)

/-! ## Expandable schemas -/

namespace Expandable

theorem extract {schema : Zod} (h : Expandable schema) :
    ∃ values, extractEnumValues schema = some values := by
  induction h with
  | enum values => exact ⟨_, rfl⟩
  | literal value => exact ⟨_, rfl⟩
  | @union options h ih =>
    have hparts : ∃ parts,
        List.Forall₂ (fun o part => extractEnumValues o = some part) options parts := by
      clear h
      induction options with
      | nil => exact ⟨[], .nil⟩
      | cons option options ihOptions =>
        rw [List.forall_mem_cons] at ih
        obtain ⟨vs, hvs⟩ := ih.1
        obtain ⟨parts, hparts⟩ := ihOptions ih.2
        exact ⟨vs :: parts, .cons hvs hparts⟩
    obtain ⟨parts, hparts⟩ := hparts
    exact ⟨parts.flatten, extractOptions_eq_some.mpr ⟨parts, hparts, rfl⟩⟩
  | optional h ih =>
    obtain ⟨vs, hvs⟩ := ih
    exact ⟨vs ++ [.omit], by rw [extractEnumValues, hvs]; rfl⟩

/-- No schema is read off as a value. -/
theorem no_schema {schema : Zod} (h : Expandable schema) {values : List ArgValue}
    (hvalues : extractEnumValues schema = some values) (option : Zod) :
    .schema option ∉ values := by
  induction h generalizing values with
  | enum listed =>
    obtain rfl := Option.some.inj hvalues
    simp
  | literal value =>
    obtain rfl := Option.some.inj hvalues
    simp
  | union h ih =>
    obtain ⟨parts, hparts, rfl⟩ := extractOptions_eq_some.mp hvalues
    intro hmem
    obtain ⟨part, hpart, hmem⟩ := List.mem_flatten.mp hmem
    obtain ⟨o, ho, hvs⟩ := hparts.mem_right hpart
    exact ih o ho hvs hmem
  | optional h ih =>
    obtain ⟨vs, hvs, rfl⟩ := Option.map_eq_some_iff.mp hvalues
    simpa using ih hvs

/-- An expandable schema returns what it accepts. -/
theorem parse_eq {schema : Zod} (h : Expandable schema) {v data : JsValue}
    (hp : schema.parse v = some data) : data = v := by
  induction h with
  | enum values => cases v <;> simp_all [Zod.parse]
  | literal value =>
    rw [Zod.parse_literal] at hp
    split at hp
    · exact (Option.some.inj hp).symm
    · cases hp
  | union h ih =>
    obtain ⟨o, ho, hd⟩ := Zod.parseUnion_mem (Zod.parse_union _ v ▸ hp)
    exact ih o ho hd
  | optional h ih =>
    by_cases hv : v = .undefined
    · subst hv
      exact (Option.some.inj (Zod.parse_optional_undefined _ ▸ hp)).symm
    · exact ih (Zod.parse_optional hv ▸ hp)

/-- **The values read off an expandable schema are the accepted ones**: `undefined` when the
argument may be omitted, and what is `===` to a listed value. -/
theorem accepts_iff {schema : Zod} (h : Expandable schema) {values : List ArgValue}
    (hvalues : extractEnumValues schema = some values) {v : JsValue} :
    schema.accepts v = true ↔
      v = .undefined ∧ .omit ∈ values ∨ ∃ c, .scalar c ∈ values ∧ c.is v = true := by
  induction h generalizing values with
  | enum listed =>
    obtain rfl := Option.some.inj hvalues
    cases v with
    | str s => simp [Zod.accepts, Zod.parse, Scalar.is]
    | _ => simp [Zod.accepts, Zod.parse, Scalar.is]
  | literal value =>
    obtain rfl := Option.some.inj hvalues
    simp [Zod.accepts]
  | @union options h ih =>
    obtain ⟨parts, hparts, rfl⟩ := extractOptions_eq_some.mp hvalues
    rw [Zod.accepts_union, ← hparts.exists_iff fun o ho part hpart => (ih o ho hpart).symm]
    constructor
    · rintro ⟨part, hpart, ⟨rfl, hmem⟩ | ⟨c, hc, hv⟩⟩
      · exact .inl ⟨rfl, List.mem_flatten.mpr ⟨part, hpart, hmem⟩⟩
      · exact .inr ⟨c, List.mem_flatten.mpr ⟨part, hpart, hc⟩, hv⟩
    · rintro (⟨rfl, hmem⟩ | ⟨c, hc, hv⟩)
      · obtain ⟨part, hpart, hmem⟩ := List.mem_flatten.mp hmem
        exact ⟨part, hpart, .inl ⟨rfl, hmem⟩⟩
      · obtain ⟨part, hpart, hc⟩ := List.mem_flatten.mp hc
        exact ⟨part, hpart, .inr ⟨c, hc, hv⟩⟩
  | optional h ih =>
    obtain ⟨vs, hvs, rfl⟩ := Option.map_eq_some_iff.mp hvalues
    rw [Zod.accepts_optional, ih hvs]
    constructor
    · rintro (rfl | ⟨rfl, _⟩ | ⟨c, hc, hv⟩)
      · exact .inl ⟨rfl, by simp⟩
      · exact .inl ⟨rfl, by simp⟩
      · exact .inr ⟨c, by simp [hc], hv⟩
    · rintro (⟨rfl, _⟩ | ⟨c, hc, hv⟩)
      · exact .inl rfl
      · exact .inr (.inr ⟨c, by simpa using hc, hv⟩)

end Expandable

/-! ## Every record of the values -/

/-- The argument, unless it is omitted; `schemaObject` is what a schema looks like to a reader. -/
def ArgValue.value? (schemaObject : Zod → JsValue) : ArgValue → Option JsValue
  | .omit => none
  | .scalar c => some c.value
  | .schema option => some (schemaObject option)

section

variable (schemaObject : Zod → JsValue)

def withArg (base : Args) (key : JStr) (v : ArgValue) : Args :=
  match v.value? schemaObject with
  | none => base
  | some x => base.set key x

def expandArgCombos (valueLists : List (JStr × List ArgValue)) : List Args :=
  valueLists.foldl
    (fun combos l => combos.flatMap fun base => l.2.map (withArg schemaObject base l.1)) [.empty]

/-- One value for each argument: the fields of the record. -/
inductive Picks : List (JStr × List ArgValue) → List (JStr × JsValue) → Prop
  | nil : Picks [] []
  | leaveOut {key : JStr} {values : List ArgValue} {valueLists : List (JStr × List ArgValue)}
      {fields : List (JStr × JsValue)} {v : ArgValue} (listed : v ∈ values)
      (omitted : v.value? schemaObject = none) (rest : Picks valueLists fields) :
      Picks ((key, values) :: valueLists) fields
  | pick {key : JStr} {values : List ArgValue} {valueLists : List (JStr × List ArgValue)}
      {fields : List (JStr × JsValue)} {v : ArgValue} {x : JsValue} (listed : v ∈ values)
      (value : v.value? schemaObject = some x) (rest : Picks valueLists fields) :
      Picks ((key, values) :: valueLists) ((key, x) :: fields)

end

variable {schemaObject : Zod → JsValue}

theorem Picks.keys_sublist {valueLists : List (JStr × List ArgValue)}
    {fields : List (JStr × JsValue)} (h : Picks schemaObject valueLists fields) :
    (fields.map Prod.fst).Sublist (valueLists.map Prod.fst) := by
  induction h with
  | nil => exact .slnil
  | leaveOut _ _ _ ih => exact ih.cons _
  | pick _ _ _ ih => exact ih.cons_cons _

theorem entries_withArg_of_none {base : Args} {key : JStr} {v : ArgValue}
    (h : v.value? schemaObject = none) : withArg schemaObject base key v = base := by
  simp only [withArg, h]

theorem entries_withArg_of_some {base : Args} {key : JStr} {v : ArgValue} {x : JsValue}
    (hkey : key ∉ base.keys) (h : v.value? schemaObject = some x) :
    (withArg schemaObject base key v).entries = base.entries ++ [(key, x)] := by
  simp only [withArg, h]
  exact OrderedMap.entries_set_of_not_has (OrderedMap.has_eq_false.mpr hkey)

theorem mem_foldl_combos {valueLists : List (JStr × List ArgValue)}
    (nodup : (valueLists.map Prod.fst).Nodup) {combos : List Args}
    (fresh : ∀ base ∈ combos, ∀ key ∈ valueLists.map Prod.fst, key ∉ base.keys) {args : Args} :
    args ∈ valueLists.foldl (fun combos l =>
        combos.flatMap fun base => l.2.map (withArg schemaObject base l.1)) combos ↔
      ∃ base ∈ combos, ∃ fields, Picks schemaObject valueLists fields ∧
        args.entries = base.entries ++ fields := by
  induction valueLists generalizing combos with
  | nil =>
    rw [List.foldl_nil]
    constructor
    · exact fun h => ⟨args, h, [], .nil, (List.append_nil _).symm⟩
    · rintro ⟨base, hbase, fields, hpicks, hargs⟩
      cases hpicks
      rw [List.append_nil] at hargs
      rwa [OrderedMap.ext hargs]
  | cons l valueLists ih =>
    obtain ⟨key, values⟩ := l
    rw [List.map_cons, List.nodup_cons] at nodup
    simp only [List.map_cons, List.forall_mem_cons] at fresh
    rw [List.foldl_cons, ih nodup.2]
    · constructor
      · rintro ⟨base', hbase', fields, hpicks, hargs⟩
        obtain ⟨base, hbase, hbase'⟩ := List.mem_flatMap.mp hbase'
        obtain ⟨v, hv, rfl⟩ := List.mem_map.mp hbase'
        refine ⟨base, hbase, ?_⟩
        cases hx : v.value? schemaObject with
        | none =>
          rw [entries_withArg_of_none hx] at hargs
          exact ⟨fields, .leaveOut hv hx hpicks, hargs⟩
        | some x =>
          rw [entries_withArg_of_some (fresh base hbase).1 hx, List.append_assoc] at hargs
          exact ⟨_, .pick hv hx hpicks, hargs⟩
      · rintro ⟨base, hbase, fields, hpicks, hargs⟩
        have hmem : ∀ v ∈ values, withArg schemaObject base key v ∈
            combos.flatMap fun base => values.map (withArg schemaObject base key) := fun v hv =>
          List.mem_flatMap.mpr ⟨base, hbase, List.mem_map.mpr ⟨v, hv, rfl⟩⟩
        cases hpicks with
        | @leaveOut _ _ _ _ v listed omitted rest =>
          refine ⟨_, hmem v listed, fields, rest, ?_⟩
          rw [entries_withArg_of_none omitted, hargs]
        | @pick _ _ _ fields v x listed value rest =>
          refine ⟨_, hmem v listed, fields, rest, ?_⟩
          rw [entries_withArg_of_some (fresh base hbase).1 value, hargs, List.append_assoc]
          rfl
    · intro base' hbase' k hk
      obtain ⟨base, hbase, hbase'⟩ := List.mem_flatMap.mp hbase'
      obtain ⟨v, _, rfl⟩ := List.mem_map.mp hbase'
      have hfresh := (fresh base hbase).2 k hk
      cases hx : v.value? schemaObject with
      | none => rwa [entries_withArg_of_none hx]
      | some x =>
        have hne : k ≠ key := fun he => nodup.1 (he ▸ hk)
        unfold OrderedMap.keys
        rw [entries_withArg_of_some (fresh base hbase).1 hx, List.map_append, List.mem_append,
          not_or]
        exact ⟨hfresh, by simpa using hne⟩

/-- **The records are the choices of one value for each argument.** -/
theorem mem_expandArgCombos {valueLists : List (JStr × List ArgValue)}
    (nodup : (valueLists.map Prod.fst).Nodup) {args : Args} :
    args ∈ expandArgCombos schemaObject valueLists ↔
      Picks schemaObject valueLists args.entries := by
  unfold expandArgCombos
  rw [mem_foldl_combos nodup (by simp [OrderedMap.keys])]
  constructor
  · rintro ⟨base, hbase, fields, hpicks, hargs⟩
    rw [List.mem_singleton.mp hbase] at hargs
    rw [hargs]
    exact hpicks
  · exact fun h => ⟨.empty, List.mem_singleton.mpr rfl, _, h, rfl⟩

/-! ## What the object schema returns -/

/-- One value to `===`: a number may be printed in two ways. -/
def Strict : JsValue → JsValue → Prop
  | .num (.finite q _), .num (.finite q' _) => q = q'
  | v, w => v = w

theorem strict_of_is {c : Scalar} {v : JsValue} (h : c.is v = true) : Strict v c.value := by
  cases c with
  | null =>
    cases v with
    | null => rfl
    | _ => cases h
  | bool b =>
    cases v with
    | bool b' => rw [show b = b' by simpa [Scalar.is] using h]; rfl
    | _ => cases h
  | num q text =>
    cases v with
    | num n =>
      cases n with
      | finite q' text' => exact (show q = q' by simpa [Scalar.is] using h).symm
      | nonFinite text' => cases h
    | _ => cases h
  | str s =>
    cases v with
    | str s' => rw [show s = s' by simpa [Scalar.is] using h]; rfl
    | _ => cases h

theorem Scalar.is_value (c : Scalar) : c.is c.value = true := by
  cases c <;> simp [Scalar.is, Scalar.value]

theorem Scalar.value_ne_undefined (c : Scalar) : c.value ≠ .undefined := by
  cases c <;> simp [Scalar.value]

/-- The argument schemas with the values read off them. -/
def ValueLists (shape : List (JStr × Zod)) (valueLists : List (JStr × List ArgValue)) : Prop :=
  List.Forall₂ (fun e l => l.1 = e.1 ∧ extractEnumValues e.2 = some l.2) shape valueLists

theorem ValueLists.names {shape : List (JStr × Zod)} {valueLists : List (JStr × List ArgValue)}
    (h : ValueLists shape valueLists) : valueLists.map Prod.fst = shape.map Prod.fst := by
  induction h with
  | nil => rfl
  | cons hel _ ih => rw [List.map_cons, List.map_cons, hel.1, ih]

/-- Fields of one name with one value, up to how numbers are printed. -/
def SameFields (fields fields' : List (JStr × JsValue)) : Prop :=
  List.Forall₂ (fun e e' => e.1 = e'.1 ∧ Strict e.2 e'.2) fields fields'

/-- **What the schemas return is a choice of listed values.** -/
theorem picks_of_parseShape {shape : List (JStr × Zod)} {valueLists : List (JStr × List ArgValue)}
    (lists : ValueLists shape valueLists) (listed : ∀ e ∈ shape, Expandable e.2)
    {fields out : List (JStr × JsValue)} (defined : ∀ e ∈ fields, e.2 ≠ .undefined)
    (h : Zod.parseShape shape fields = some out) :
    ∃ picked, Picks schemaObject valueLists picked ∧ SameFields out picked := by
  induction lists generalizing out with
  | nil =>
    obtain rfl := Option.some.inj h
    exact ⟨[], .nil, .nil⟩
  | @cons e l shape valueLists hel _ ih =>
    obtain ⟨key, schema⟩ := e
    obtain ⟨key', values⟩ := l
    obtain ⟨hkey, hvalues⟩ := hel
    obtain rfl : key = key' := hkey.symm
    rw [List.forall_mem_cons] at listed
    cases hlookup : fields.lookup key with
    | none =>
      obtain ⟨hparse, hrest⟩ := (Zod.parseShape_absent hlookup).mp h
      obtain ⟨picked, hpicked, hsame⟩ := ih listed.2 hrest
      rcases (listed.1.accepts_iff hvalues).mp (Zod.accepts_iff.mpr ⟨_, hparse⟩) with
        ⟨_, hmem⟩ | ⟨c, _, hc⟩
      · exact ⟨picked, .leaveOut hmem rfl hpicked, hsame⟩
      · cases c <;> cases hc
    | some v =>
      obtain ⟨data, rest, hparse, hrest, rfl⟩ := (Zod.parseShape_present hlookup).mp h
      obtain ⟨picked, hpicked, hsame⟩ := ih listed.2 hrest
      obtain rfl := listed.1.parse_eq hparse
      rcases (listed.1.accepts_iff hvalues).mp (Zod.accepts_iff.mpr ⟨_, hparse⟩) with
        ⟨hundefined, _⟩ | ⟨c, hmem, hc⟩
      · exact absurd hundefined (defined _ (mem_of_lookup hlookup))
      · exact ⟨_, .pick hmem rfl hpicked, .cons ⟨rfl, strict_of_is hc⟩ hsame⟩

/-- No listed value is `undefined`. -/
theorem Picks.defined {shape : List (JStr × Zod)} {valueLists : List (JStr × List ArgValue)}
    (lists : ValueLists shape valueLists) (listed : ∀ e ∈ shape, Expandable e.2)
    {picked : List (JStr × JsValue)} (h : Picks schemaObject valueLists picked) :
    ∀ e ∈ picked, e.2 ≠ .undefined := by
  induction lists generalizing picked with
  | nil =>
    cases h
    simp
  | @cons e l shape valueLists hel _ ih =>
    rw [List.forall_mem_cons] at listed
    cases h with
    | leaveOut _ _ rest => exact ih listed.2 rest
    | @pick _ _ _ picked v x hmem hv rest =>
      refine List.forall_mem_cons.mpr ⟨?_, ih listed.2 rest⟩
      rcases v with _ | c | option
      · cases hv
      · obtain rfl := Option.some.inj hv
        exact c.value_ne_undefined
      · exact absurd hmem (listed.1.no_schema hel.2 option)

/-- **The schemas return any choice of listed values**, from fields that read like it. -/
theorem Picks.parseShape {shape : List (JStr × Zod)} {valueLists : List (JStr × List ArgValue)}
    (lists : ValueLists shape valueLists) (listed : ∀ e ∈ shape, Expandable e.2)
    (nodup : (shape.map Prod.fst).Nodup) {fields picked : List (JStr × JsValue)}
    (hpicked : Picks schemaObject valueLists picked)
    (reads : ∀ key ∈ shape.map Prod.fst, fields.lookup key = picked.lookup key) :
    Zod.parseShape shape fields = some picked := by
  induction lists generalizing picked with
  | nil =>
    cases hpicked
    rfl
  | @cons e l shape valueLists hel hlists ih =>
    obtain ⟨key, schema⟩ := e
    obtain ⟨key', values⟩ := l
    obtain ⟨hkey, hvalues⟩ := hel
    obtain rfl : key = key' := hkey.symm
    rw [List.forall_mem_cons] at listed
    rw [List.map_cons, List.nodup_cons] at nodup
    rw [List.map_cons, List.forall_mem_cons] at reads
    have returned : ∀ {v}, schema.accepts v = true → schema.parse v = some v := fun {v} hv => by
      obtain ⟨data, hdata⟩ := Zod.accepts_iff.mp hv
      rw [hdata, listed.1.parse_eq hdata]
    cases hpicked with
    | @leaveOut _ _ _ _ v hmem hv rest =>
      have hnone : picked.lookup key = none := by
        rw [List.lookup_eq_none_iff]
        intro e he
        have hmem : e.1 ∈ shape.map Prod.fst :=
          ValueLists.names hlists ▸ rest.keys_sublist.subset (List.mem_map_of_mem he)
        have hne : key ≠ e.1 := fun heq => nodup.1 (by rw [heq]; exact hmem)
        exact bne_iff_ne.mpr hne
      obtain rfl : v = .omit := by cases v <;> first | rfl | cases hv
      exact (Zod.parseShape_absent (reads.1.trans hnone)).mpr
        ⟨returned ((listed.1.accepts_iff hvalues).mpr (.inl ⟨rfl, hmem⟩)),
          ih listed.2 nodup.2 rest reads.2⟩
    | @pick _ _ _ picked v x hmem hv rest =>
      have hx : schema.accepts x = true := by
        rcases v with _ | c | option
        · cases hv
        · obtain rfl := Option.some.inj hv
          exact (listed.1.accepts_iff hvalues).mpr (.inr ⟨c, hmem, c.is_value⟩)
        · exact absurd hmem (listed.1.no_schema hvalues option)
      have hlookup : fields.lookup key = some x := reads.1.trans (by simp)
      refine (Zod.parseShape_present hlookup).mpr ⟨x, picked, returned hx, ?_, rfl⟩
      refine ih listed.2 nodup.2 rest fun k hk => ?_
      have hne : k ≠ key := fun heq => nodup.1 (heq ▸ hk)
      rw [reads.2 k hk, List.lookup_cons, beq_eq_false_iff_ne.mpr hne]

end VigorMcp
