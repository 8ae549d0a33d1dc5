import VigorMcp.Sdk.SchemaToZod

/-!
# Secret fields of a schema

`secretFieldsOf` lists the names of the string properties that look secret,
wherever they sit in a schema. `SecretPath` says where: the path from an input
to the secret's value. The names are the last steps of these paths
(`mem_secretFieldsOf`).
-/

namespace VigorMcp

/-- The names that `SECRET_FIELD` spells out. -/
def secretNames : List JStr :=
  [js "key", js "password", js "passwd", js "secret", js "psk", js "presharedkey", js "preshared_key",
    js "privatekey", js "private_key", js "token", js "community", js "appkey", js "app_key"]

/-- `SECRET_FIELD.test(name)`. -/
def secretField (name : JStr) : Bool :=
  let folded := name.map foldUnit
  secretNames.contains folded || (startsWith folded (js "pass") && (folded.drop 4).all isDigit)

/-- A string property whose name looks secret. -/
def isSecret (property : JStr × JsonSchema) : Bool :=
  secretField property.1 && property.2.keywords.type == some .string

mutual

/-- The secret names below a schema, in the order of the visit. -/
def visitSecrets : JsonSchema → List JStr
  | .mk _ properties oneOf items => visitProperties properties ++ visitBranches oneOf ++ visitItems items

def visitProperties : Option (List (JStr × JsonSchema)) → List JStr
  | none => []
  | some properties => visitFields properties

def visitFields : List (JStr × JsonSchema) → List JStr
  | [] => []
  | (name, property) :: properties =>
    (if isSecret (name, property) then [name] else []) ++ visitSecrets property ++ visitFields properties

def visitBranches : Option (List JsonSchema) → List JStr
  | none => []
  | some branches => visitSome branches

def visitSome : List JsonSchema → List JStr
  | [] => []
  | branch :: branches => visitSecrets branch ++ visitSome branches

def visitItems : Option JsonSchema → List JStr
  | none => []
  | some items => visitSecrets items

end

/-- String-typed secret property names across object properties and oneOf branches. -/
def secretFieldsOf : Option JsonSchema → List JStr
  | none => []
  | some schema => (visitSecrets schema).eraseDups

/-- The way from a value to a secret that the schema declares. -/
inductive SecretPath : JsonSchema → List Access → Prop where
  | here {schema : JsonSchema} {property : JStr × JsonSchema}
      (mem : property ∈ schema.properties.getD []) (secret : isSecret property = true) :
      SecretPath schema [.field property.1]
  | property {schema : JsonSchema} {property : JStr × JsonSchema} {path : List Access}
      (mem : property ∈ schema.properties.getD []) (below : SecretPath property.2 path) :
      SecretPath schema (.field property.1 :: path)
  | branch {schema branch : JsonSchema} {path : List Access} (mem : branch ∈ schema.oneOf.getD [])
      (below : SecretPath branch path) : SecretPath schema path
  | item {schema items : JsonSchema} {path : List Access} (i : Nat) (mem : schema.items = some items)
      (below : SecretPath items path) : SecretPath schema (.index i :: path)

theorem SecretPath.ne_nil {schema : JsonSchema} {path : List Access} (h : SecretPath schema path) :
    path ≠ [] := by
  induction h with
  | branch _ _ ih => exact ih
  | _ => simp

/-- The last step is the name of a secret. -/
theorem SecretPath.secretField_last {schema : JsonSchema} {path : List Access}
    (h : SecretPath schema path) :
    ∃ before name, path = before ++ [.field name] ∧ secretField name = true := by
  induction h with
  | here mem secret => exact ⟨[], _, rfl, (Bool.and_eq_true_iff.mp secret).1⟩
  | property _ _ ih =>
    obtain ⟨before, name, rfl, hname⟩ := ih
    exact ⟨_ :: before, name, rfl, hname⟩
  | branch _ _ ih => exact ih
  | item i _ _ ih =>
    obtain ⟨before, name, rfl, hname⟩ := ih
    exact ⟨_ :: before, name, rfl, hname⟩

theorem mem_visitFields {properties : List (JStr × JsonSchema)} {name : JStr} :
    name ∈ visitFields properties ↔
      ∃ p ∈ properties, (isSecret p = true ∧ p.1 = name) ∨ name ∈ visitSecrets p.2 := by
  induction properties with
  | nil => simp [visitFields]
  | cons p properties ih =>
    rw [visitFields, List.mem_append, List.mem_append, ih, List.exists_mem_cons_iff]
    refine or_congr_left (or_congr_left ?_)
    by_cases hs : isSecret p = true
    · simp [hs, eq_comm]
    · simp [hs]

theorem mem_visitSome {branches : List JsonSchema} {name : JStr} :
    name ∈ visitSome branches ↔ ∃ b ∈ branches, name ∈ visitSecrets b := by
  induction branches with
  | nil => simp [visitSome]
  | cons b branches ih => simp [visitSome, ih]

/-- One level of the visit. -/
theorem mem_visitSecrets {schema : JsonSchema} {name : JStr} :
    name ∈ visitSecrets schema ↔
      (∃ p ∈ schema.properties.getD [], (isSecret p = true ∧ p.1 = name) ∨ name ∈ visitSecrets p.2) ∨
      (∃ b ∈ schema.oneOf.getD [], name ∈ visitSecrets b) ∨
      ∃ s, schema.items = some s ∧ name ∈ visitSecrets s := by
  obtain ⟨kw, properties, oneOf, items⟩ := schema
  rw [visitSecrets, List.mem_append, List.mem_append, or_assoc]
  refine or_congr ?_ (or_congr ?_ ?_)
  · cases properties with
    | none => simp [visitProperties, JsonSchema.properties]
    | some ps => exact mem_visitFields
  · cases oneOf with
    | none => simp [visitBranches, JsonSchema.oneOf]
    | some bs => exact mem_visitSome
  · cases items <;> simp [visitItems, JsonSchema.items]

/-- **The visit finds the name of every secret**, and no other name. -/
theorem mem_secretFieldsOf {schema : JsonSchema} {name : JStr} :
    name ∈ secretFieldsOf (some schema) ↔ ∃ path, SecretPath schema (path ++ [.field name]) := by
  rw [secretFieldsOf, List.mem_eraseDups]
  constructor
  · intro h
    induction schema using JsonSchema.induct with
    | mk kw properties oneOf items ihProperties ihBranches ihItems =>
      rcases mem_visitSecrets.mp h with ⟨p, hp, ⟨hs, rfl⟩ | hn⟩ | ⟨b, hb, hn⟩ | ⟨s, hs, hn⟩
      · exact ⟨[], .here hp hs⟩
      · obtain ⟨ps, rfl⟩ : ∃ ps, properties = some ps := by
          cases properties with
          | none => cases hp
          | some ps => exact ⟨ps, rfl⟩
        obtain ⟨path, hpath⟩ := ihProperties ps rfl p hp hn
        exact ⟨.field p.1 :: path, .property hp hpath⟩
      · obtain ⟨bs, rfl⟩ : ∃ bs, oneOf = some bs := by
          cases oneOf with
          | none => cases hb
          | some bs => exact ⟨bs, rfl⟩
        obtain ⟨path, hpath⟩ := ihBranches bs rfl b hb hn
        exact ⟨path, .branch hb hpath⟩
      · obtain ⟨path, hpath⟩ := ihItems s hs hn
        exact ⟨.index 0 :: path, .item 0 hs hpath⟩
  · rintro ⟨path, hpath⟩
    generalize hlast : path ++ [Access.field name] = full at hpath
    induction hpath generalizing path with
    | @here schema p mem secret =>
      have he : name = p.1 := by
        rcases List.append_eq_singleton_iff.mp hlast with ⟨_, he⟩ | ⟨_, he⟩
        · injection he with he _
          injection he
        · cases he
      exact mem_visitSecrets.mpr (.inl ⟨p, mem, .inl ⟨secret, he.symm⟩⟩)
    | property mem below ih =>
      cases path with
      | nil =>
        injection hlast with _ hnil
        exact absurd hnil.symm below.ne_nil
      | cons step path =>
        injection hlast with _ hlast
        exact mem_visitSecrets.mpr (.inl ⟨_, mem, .inr (ih path hlast)⟩)
    | branch mem _ ih => exact mem_visitSecrets.mpr (.inr (.inl ⟨_, mem, ih path hlast⟩))
    | item i mem below ih =>
      cases path with
      | nil => injection hlast with h; cases h
      | cons step path =>
        injection hlast with _ hlast
        exact mem_visitSecrets.mpr (.inr (.inr ⟨_, mem, ih path hlast⟩))

end VigorMcp
