import VigorMcp.Sdk.Discriminators

/-!
# What a schema makes of equal values

The order of an object's fields cannot be read, and a converted schema does not
read it: of values that are the same it accepts both or neither, and returns the
same (`Uniform`). It holds of each combinator when it holds of the schemas inside,
so of whatever `convertSchema` makes (`Converts.uniform`) and of the schema of
the typed input (`full_uniform`).
-/

namespace VigorMcp

namespace Zod

/-- Of values that are the same, the schema makes the same. -/
def Uniform (schema : Zod) : Prop :=
  ∀ v w : JsValue, v.Same w → JsValue.SameChild (schema.parse v) (schema.parse w)

theorem Uniform.accepts_iff {schema : Zod} (h : schema.Uniform) {v w : JsValue} (hs : v.Same w) :
    schema.accepts v = true ↔ schema.accepts w = true := by
  rw [accepts, accepts, (h v w hs).isSome_eq]

/-- Both values are accepted, with the same result. -/
theorem Uniform.parse_eq_some {schema : Zod} (h : schema.Uniform) {v w data : JsValue}
    (hs : v.Same w) (hp : schema.parse v = some data) :
    ∃ data', schema.parse w = some data' ∧ data.Same data' := by
  have hsame := h v w hs
  rw [hp] at hsame
  cases hw : schema.parse w with
  | none => rw [hw] at hsame; cases hsame
  | some data' =>
    rw [hw] at hsame
    cases hsame with
    | present hd => exact ⟨data', rfl, hd⟩

/-- A schema is uniform when acceptance is, and what it returns. -/
theorem uniform_of_accepts {schema : Zod}
    (haccepts : ∀ v w, v.Same w → schema.accepts v = true → schema.accepts w = true)
    (hreturns : ∀ v w data data', v.Same w → schema.parse v = some data →
      schema.parse w = some data' → data.Same data') : schema.Uniform := by
  intro v w h
  cases hv : schema.parse v with
  | none =>
    cases hw : schema.parse w with
    | none => exact .absent
    | some data =>
      have hacc := haccepts w v h.symm (Zod.accepts_iff.mpr ⟨data, hw⟩)
      rw [accepts, hv] at hacc
      cases hacc
  | some data =>
    obtain ⟨data', hw⟩ := Zod.accepts_iff.mp (haccepts v w h (Zod.accepts_iff.mpr ⟨data, hv⟩))
    rw [hw]
    exact .present (hreturns v w data data' h hv hw)

/-! ## The combinators -/

theorem uniform_unknown : Uniform unknown := fun v w h => by
  rw [parse_unknown, parse_unknown]
  exact .present h

/-- A schema that takes no array and no object. -/
theorem uniform_of_scalar {schema : Zod} (arr : ∀ items, schema.parse (.arr items) = none)
    (obj : ∀ fields, schema.parse (.obj fields) = none) : schema.Uniform := by
  intro v w h
  obtain rfl | ⟨items, items', rfl, rfl⟩ | ⟨fields, fields', rfl, rfl⟩ := h.cases
  · exact .refl _
  · rw [arr, arr]
    exact .absent
  · rw [obj, obj]
    exact .absent

theorem uniform_literal (c : Scalar) : Uniform (.literal c) :=
  uniform_of_scalar (fun _ => by cases c <;> rfl) fun _ => by cases c <;> rfl

theorem uniform_union {options : List Zod} (h : ∀ option ∈ options, option.Uniform) :
    Uniform (.union options) := by
  intro v w hs
  rw [parse_union, parse_union]
  induction options with
  | nil => exact .absent
  | cons option options ih =>
    rw [List.forall_mem_cons] at h
    rw [parseUnion, parseUnion]
    have hoption := h.1 v w hs
    generalize option.parse v = a, option.parse w = b at hoption
    cases hoption with
    | absent => exact ih h.2
    | present hd => exact .present hd

theorem uniform_optional {inner : Zod} (h : inner.Uniform) : Uniform (.optional inner) := by
  intro v w hs
  by_cases hv : v = .undefined
  · subst hv
    obtain rfl | ⟨_, _, hv, _⟩ | ⟨_, _, hv, _⟩ := hs.cases
    · exact .refl _
    · cases hv
    · cases hv
  · have hw : w ≠ .undefined := by
      rintro rfl
      obtain rfl | ⟨_, _, _, hw⟩ | ⟨_, _, _, hw⟩ := hs.cases
      · exact hv rfl
      · cases hw
      · cases hw
    rw [parse_optional hv, parse_optional hw]
    exact h v w hs

theorem uniform_array {item : Zod} {min max : Option ℚ} (h : item.Uniform) :
    Uniform (.array item min max) := by
  refine uniform_of_accepts (fun v w hs ha => ?_) fun v w data data' hs hv hw => ?_
  · obtain ⟨items, rfl⟩ := arr_of_accepts_array ha
    obtain rfl | ⟨_, items', hitems, rfl⟩ | ⟨_, _, hv, _⟩ := hs.cases
    · exact ha
    · cases hitems
      have hall := JsValue.same_arr_iff.mp hs
      rw [accepts_array] at ha ⊢
      refine ⟨hall.length_eq ▸ ha.1, fun w hw => ?_⟩
      obtain ⟨v, hv, hsame⟩ := hall.mem_right hw
      exact (h.accepts_iff hsame).mp (ha.2 v hv)
    · cases hv
  · obtain ⟨items, rfl⟩ := arr_of_accepts_array (Zod.accepts_iff.mpr ⟨data, hv⟩)
    obtain ⟨items', rfl⟩ := arr_of_accepts_array (Zod.accepts_iff.mpr ⟨data', hw⟩)
    simp only [parse, Option.ite_none_right_eq_some, Option.map_eq_some_iff,
      parseItems_eq_some] at hv hw
    obtain ⟨-, out, hout, rfl⟩ := hv
    obtain ⟨-, out', hout', rfl⟩ := hw
    refine .arr ?_
    have hall := JsValue.same_arr_iff.mp hs
    clear hs
    induction hall generalizing out out' with
    | nil =>
      cases hout
      cases hout'
      exact .nil
    | cons hsame _ ih =>
      obtain ⟨d, ds, hd, hds, rfl⟩ := List.forall₂_cons_left_iff.mp hout
      obtain ⟨d', ds', hd', hds', rfl⟩ := List.forall₂_cons_left_iff.mp hout'
      obtain ⟨_, hw, hresult⟩ := h.parse_eq_some hsame hd
      obtain rfl := Option.some.inj (hd'.symm.trans hw)
      exact .cons hresult (ih ds hds ds' hds')

/-- Objects that are the same have the same names. -/
theorem names_of_same {fields fields' : List (JStr × JsValue)}
    (h : JsValue.Same (.obj fields) (.obj fields')) {key : JStr}
    (hkey : key ∈ fields.map Prod.fst) : key ∈ fields'.map Prod.fst := by
  obtain ⟨f, hf, rfl⟩ := List.mem_map.mp hkey
  by_contra hno
  have hnone : fields'.lookup f.1 = none := List.lookup_eq_none_iff.mpr fun f' hf' =>
    bne_iff_ne.mpr fun hname => hno (hname ▸ List.mem_map_of_mem hf')
  have hfield := (h.field f.1).isSome_eq
  rw [hnone, Option.isSome_none, Option.isSome_eq_false_iff, Option.isNone_iff_eq_none] at hfield
  exact absurd (List.lookup_eq_none_iff.mp hfield f hf) (by simp)

/-- What is the same as the empty object is empty. -/
theorem eq_nil_of_same {fields : List (JStr × JsValue)}
    (h : JsValue.Same (.obj fields) (.obj [])) : fields = [] := by
  by_contra hne
  obtain ⟨f, hf⟩ := List.exists_mem_of_ne_nil fields hne
  have hname := names_of_same h (List.mem_map_of_mem hf)
  cases hname

theorem field_same {fields fields' : List (JStr × JsValue)}
    (h : JsValue.Same (.obj fields) (.obj fields')) (key : JStr) :
    (field fields key).Same (field fields' key) := (h.field key).getD _

theorem discriminant_same {fields fields' : List (JStr × JsValue)}
    (h : JsValue.Same (.obj fields) (.obj fields')) (key : JStr) :
    (discriminant fields key).Same (discriminant fields' key) := (h.field key).getD _

theorem uniform_object {shape : List (JStr × Zod)} {isStrict : Bool} {proto : Option Zod}
    (h : ∀ e ∈ shape, e.2.Uniform) : Uniform (.object shape isStrict proto) := by
  refine uniform_of_accepts (fun v w hs ha => ?_) fun v w data data' hs hv hw => ?_
  · obtain ⟨fields, rfl⟩ := obj_of_accepts_object ha
    obtain rfl | ⟨_, _, hv, _⟩ | ⟨_, fields', hfields, rfl⟩ := hs.cases
    · exact ha
    · cases hv
    · cases hfields
      rw [accepts_object] at ha ⊢
      refine ⟨fun hstrict f hf => ?_, fun e he =>
        ((h e he).accepts_iff (field_same hs e.1)).mp (ha.2 e he)⟩
      obtain ⟨f', hf', hname⟩ :=
        List.mem_map.mp (names_of_same hs.symm (List.mem_map_of_mem (f := Prod.fst) hf))
      exact hname ▸ ha.1 hstrict f' hf'
  · obtain ⟨fields, rfl⟩ := obj_of_accepts_object (Zod.accepts_iff.mpr ⟨data, hv⟩)
    obtain ⟨fields', rfl⟩ := obj_of_accepts_object (Zod.accepts_iff.mpr ⟨data', hw⟩)
    simp only [parse] at hv hw
    split at hv
    · cases hv
    · split at hw
      · cases hw
      · obtain ⟨out, ho, rfl⟩ := Option.map_eq_some_iff.mp hv
        obtain ⟨out', ho', rfl⟩ := Option.map_eq_some_iff.mp hw
        refine .obj fun key => ?_
        rw [lookup_parseShape ho, lookup_parseShape ho']
        refine (hs.field key).bind fun v w hfield => ?_
        cases hl : shape.lookup key with
        | none => exact .absent
        | some schema => exact h _ (mem_of_lookup hl) v w hfield

/-- A discriminator has scalar values, so what is the same has the same option. -/
theorem isKey_same {v w : JsValue} (h : v.Same w) (key : Option Scalar) :
    isKey key v = isKey key w := by
  obtain rfl | ⟨_, _, rfl, rfl⟩ | ⟨_, _, rfl, rfl⟩ := h.cases
  · rfl
  · rcases key with _ | _ | _ | _ | _ <;> rfl
  · rcases key with _ | _ | _ | _ | _ <;> rfl

theorem uniform_discriminatedUnion {key : JStr} {optionsMap : List (Option Scalar × Zod)}
    (h : ∀ e ∈ optionsMap, e.2.Uniform) : Uniform (.discriminatedUnion key optionsMap) := by
  intro v w hs
  obtain rfl | ⟨_, _, rfl, rfl⟩ | ⟨fields, fields', rfl, rfl⟩ := hs.cases
  · exact .refl _
  · simp only [parse]
    exact .absent
  · simp only [parse]
    have hkeys := isKey_same (discriminant_same hs key)
    induction optionsMap with
    | nil => exact .absent
    | cons e optionsMap ih =>
      rw [List.forall_mem_cons] at h
      rw [parseOption, parseOption, hkeys]
      split
      · exact h.1 _ _ hs
      · exact ih h.2

end Zod

/-! ## The conversion -/

theorem buildEnum_uniform {values : List Scalar} {path : JStr} {zType : Zod}
    (h : buildEnum values path = .ok zType) : zType.Uniform := by
  unfold buildEnum at h
  split at h
  · cases h
  · split at h
    · cases h
      exact Zod.uniform_of_scalar (fun _ => by simp [Zod.parse]) fun _ => by simp [Zod.parse]
    · split at h
      · cases h
        exact Zod.uniform_literal _
      · cases h
        refine Zod.uniform_union fun option ho => ?_
        obtain ⟨c, _, rfl⟩ := List.mem_map.mp ho
        exact Zod.uniform_literal c

theorem mergeTypes_uniform {types : List Zod} (h : ∀ type ∈ types, type.Uniform) :
    (mergeTypes types).Uniform := by
  unfold mergeTypes
  split
  · exact h _ (List.mem_singleton_self _)
  · exact Zod.uniform_union h

theorem zObject_uniform {shape : List (JStr × Zod)} {isStrict : Bool}
    (h : ∀ e ∈ shape, e.2.Uniform) : (zObject shape isStrict).Uniform :=
  Zod.uniform_object fun e he => h e (mem_ownEntries.mp he).1

theorem ShapeEntry.uniform {required : List JStr} {p : JStr × JsonSchema} {e : JStr × Zod}
    (h : ShapeEntry required p e) (hp : ∀ zType, Converts p.2 zType → zType.Uniform) :
    e.2.Uniform := by
  obtain ⟨_, zType, hc, he⟩ := h
  rw [he]
  split
  · exact hp zType hc
  · exact Zod.uniform_optional (hp zType hc)

/-- **A converted schema does not read the order of fields.** -/
theorem Converts.uniform {schema : JsonSchema} {zType : Zod} (h : Converts schema zType) :
    zType.Uniform := by
  induction schema using JsonSchema.induct generalizing zType with
  | mk kw properties oneOf items ihProperties ihBranches ihItems =>
    obtain ⟨path, h⟩ := h
    have hb := (convertSchema_ok h).2
    generalize kw.const = const, kw.enum = enum, kw.type = type at hb
    cases hb with
    | const => exact Zod.uniform_literal _
    | enum built => exact buildEnum_uniform built
    | oneOf _ built =>
      refine mergeTypes_uniform fun type ht => ?_
      obtain ⟨branch, hbranch, hc⟩ := built.mem_right ht
      exact ihBranches _ rfl branch hbranch hc
    | object built =>
      refine zObject_uniform fun e he => ?_
      obtain ⟨p, hp, hpe⟩ := built.mem_right he
      cases properties with
      | none => cases hp
      | some ps => exact hpe.uniform fun zType hc => ihProperties ps rfl p hp hc
    | array untyped typed =>
      refine Zod.uniform_array ?_
      cases items with
      | none =>
        rw [untyped rfl]
        exact Zod.uniform_unknown
      | some s => exact ihItems s rfl (typed s rfl)
    | _ => exact Zod.uniform_of_scalar (fun _ => by simp [Zod.parse]) fun _ => by simp [Zod.parse]

theorem unionOf_uniform {discriminatorKey : Option JStr} {options : List Zod} {full : Zod}
    (h : ∀ option ∈ options, option.Uniform) (hf : unionOf discriminatorKey options = .ok full) :
    full.Uniform := by
  unfold unionOf at hf
  split at hf
  · obtain ⟨_, _, rfl⟩ := discriminatedUnion_ok_iff.mp hf
    refine Zod.uniform_discriminatedUnion fun e he => ?_
    obtain ⟨option, ho, he⟩ := List.mem_flatMap.mp he
    obtain ⟨_, _, rfl⟩ := List.mem_map.mp he
    exact h option ho
  · cases hf
    exact Zod.uniform_union h

/-- Neither does the schema of the typed input. -/
theorem full_uniform {schema : JsonSchema} {c : ZodSchemas}
    (h : jsonSchemaToZod (some schema) = .ok c) : c.full.Uniform := by
  obtain ⟨_, _, h⟩ := Except.bind_eq_ok.mp h
  cases hone : schema.oneOf with
  | some branches =>
    simp only [hone] at h
    obtain ⟨_, ⟨_, zType, hz, rfl⟩ | ⟨_, shape, options, full, _, ho, hf, rfl⟩⟩ :=
      buildTopLevelOneOf_ok_iff.mp h
    · exact Converts.uniform ⟨_, hz⟩
    · refine unionOf_uniform (fun option hoption => ?_) hf
      obtain ⟨_, _, hc⟩ := (convertBranches_ok ho).mem_right hoption
      exact hc.uniform
  | none =>
    simp only [hone, buildTopLevel] at h
    split at h
    · obtain ⟨shape, hs, hc⟩ := Except.bind_eq_ok.mp h
      obtain rfl := Except.pure_eq_ok.mp hc
      refine zObject_uniform fun e he => ?_
      obtain ⟨p, _, hpe⟩ := (convertProperties_ok hs).mem_right he
      exact hpe.uniform fun zType hc => hc.uniform
    · obtain ⟨zType, hz, rfl⟩ := Except.map_eq_ok.mp h
      exact Converts.uniform ⟨_, hz⟩

end VigorMcp
