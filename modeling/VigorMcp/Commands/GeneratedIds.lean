import VigorMcp.Commands.Registry

/-!
# The ids of generated tools

A generated tool asks for the id its operation's manifest id maps to, and takes
the `sdk_` form of it when the id is taken. Nothing looks whether the fallback
is taken too. `Taken` says which ids are taken when an operation's turn comes,
and the loop's ids are distinct when no operation finds both of its ids taken.
The loop ends early at a released id that is taken, and at an operation whose
input schema does not convert.
-/

namespace VigorMcp

def isReleased (op : AnyOperation) : Bool :=
  (releasedGeneratedToolIds.lookup op.manifestId).isSome

/-- The id an operation's tool asks for first. -/
def wantedId (op : AnyOperation) : JStr :=
  (releasedGeneratedToolIds.lookup op.manifestId).getD (manifestToToolId op.manifestId)

def fallbackId (op : AnyOperation) : JStr := js "sdk_" ++ wantedId op

def errReleasedCollision (id : JStr) : Thrown :=
  .error none (js "sdk-generated: released tool id collision for \"" ++ id ++ js "\"")

/-- An id that is taken after the operations of a list, the latest first: a curated one, an id an
operation asked for, or the fallback of an operation that found its id taken. -/
def Taken (curatedIds : List JStr) : List AnyOperation → JStr → Prop
  | [], id => id ∈ curatedIds
  | op :: earlier, id => Taken curatedIds earlier id ∨ id = wantedId op ∨
    (id = fallbackId op ∧ Taken curatedIds earlier (wantedId op))

instance Taken.decidable (curatedIds : List JStr) :
    (earlier : List AnyOperation) → (id : JStr) → Decidable (Taken curatedIds earlier id)
  | [], id => inferInstanceAs (Decidable (id ∈ curatedIds))
  | op :: earlier, id =>
    have := Taken.decidable curatedIds earlier
    inferInstanceAs (Decidable (Taken curatedIds earlier id ∨ id = wantedId op ∨
      (id = fallbackId op ∧ Taken curatedIds earlier (wantedId op))))

/-- Some operation of a list has `P` of the operations before it, the latest first, and itself. -/
def SomeTurn (P : List AnyOperation → AnyOperation → Prop) (ops : List AnyOperation) : Prop :=
  ∃ before op after, ops = before ++ op :: after ∧ P before.reverse op

/-- The operations that get a tool of their own, in the order of the loop. -/
def uncovered (sdk : Sdk) (curated : List CommandDef) : List AnyOperation :=
  sdk.sorted.filter fun op =>
    !(collectCoveredManifestIds curated).contains op.manifestId || isReleased op

/-- The operation's input schema converts. -/
def Sdk.Converts (sdk : Sdk) (op : AnyOperation) : Prop :=
  (sdk.schemaFor op.manifestId).isOk = true

instance (sdk : Sdk) (op : AnyOperation) : Decidable (sdk.Converts op) :=
  inferInstanceAs (Decidable (_ = true))

/-- A released id is taken when its operation's turn comes, and the turn does come: the input schemas
of the operations before it convert. -/
def ReleasedTaken (sdk : Sdk) (curatedIds : List JStr) : List AnyOperation → Prop :=
  SomeTurn fun earlier op => isReleased op = true ∧ Taken curatedIds earlier (wantedId op) ∧
    ∀ op' ∈ earlier, sdk.Converts op'

/-- An operation finds both its ids taken. -/
def FallbackTaken (curatedIds : List JStr) : List AnyOperation → Prop :=
  SomeTurn fun earlier op =>
    Taken curatedIds earlier (wantedId op) ∧ Taken curatedIds earlier (fallbackId op)

/-- Ids that are new, each once. -/
def FreshIds (usedIds ids : List JStr) : Prop := ids.Nodup ∧ ∀ id ∈ ids, id ∉ usedIds

theorem freshIds_cons {usedIds ids : List JStr} {id : JStr} :
    FreshIds usedIds (id :: ids) ↔ id ∉ usedIds ∧ FreshIds (usedIds ++ [id]) ids := by
  unfold FreshIds
  simp only [List.nodup_cons, List.mem_cons, forall_eq_or_imp, List.mem_append, List.not_mem_nil,
    or_false, not_or]
  constructor
  · rintro ⟨⟨hid, hnodup⟩, hnew, hrest⟩
    exact ⟨hnew, hnodup, fun a ha => ⟨hrest a ha, fun h => hid (h ▸ ha)⟩⟩
  · rintro ⟨hnew, hnodup, hrest⟩
    exact ⟨⟨fun h => (hrest id h).2 rfl, hnodup⟩, hnew, fun a ha => (hrest a ha).1⟩

theorem nodup_append_iff_freshIds {usedIds ids : List JStr} (h : usedIds.Nodup) :
    (usedIds ++ ids).Nodup ↔ FreshIds usedIds ids := by
  rw [List.nodup_append]
  constructor
  · rintro ⟨_, hids, hsep⟩
    exact ⟨hids, fun id hid hu => hsep id hu id hid rfl⟩
  · rintro ⟨hids, hnew⟩
    exact ⟨h, hids, fun a ha b hb hab => hnew b hb (hab ▸ ha)⟩

/-- The first operation's turn, or a later one's. -/
theorem someTurn_cons {P : List AnyOperation → AnyOperation → Prop} {op : AnyOperation}
    {ops : List AnyOperation} :
    SomeTurn P (op :: ops) ↔ P [] op ∨ SomeTurn (fun earlier => P (earlier ++ [op])) ops := by
  constructor
  · rintro ⟨before, op', after, he, h⟩
    cases before with
    | nil =>
      obtain ⟨rfl, rfl⟩ := List.cons.inj he
      exact .inl h
    | cons b before =>
      obtain ⟨rfl, rfl⟩ := List.cons.inj he
      exact .inr ⟨before, op', after, rfl, by simpa using h⟩
  · rintro (h | ⟨before, op', after, rfl, h⟩)
    · exact ⟨[], op, ops, rfl, h⟩
    · exact ⟨op :: before, op', after, rfl, by simpa using h⟩

instance SomeTurn.decidable : (P : List AnyOperation → AnyOperation → Prop) →
    [∀ earlier op, Decidable (P earlier op)] → (ops : List AnyOperation) → Decidable (SomeTurn P ops)
  | _, _, [] => .isFalse fun ⟨_, _, _, he, _⟩ => List.append_ne_nil_of_right_ne_nil _ (by simp) he.symm
  | P, _, op :: ops =>
    have := SomeTurn.decidable (fun earlier => P (earlier ++ [op])) ops
    decidable_of_iff _ someTurn_cons.symm

instance (curatedIds : List JStr) (ops : List AnyOperation) :
    Decidable (FallbackTaken curatedIds ops) :=
  inferInstanceAs (Decidable (SomeTurn _ ops))

section

variable {sdk : Sdk} {op : AnyOperation} {usedIds curatedIds : List JStr}

theorem operationFor_mem (h : op ∈ sdk.operations) :
    ∃ op', sdk.operationFor op.manifestId = some op' := by
  rw [← Option.isSome_iff_exists, Sdk.operationFor, List.find?_isSome]
  exact ⟨op, h, decide_eq_true rfl⟩

theorem isReleased_iff :
    isReleased op = true ↔ releasedGeneratedToolIds.lookup op.manifestId ≠ none :=
  Option.isSome_iff_ne_none

theorem errReleasedCollision_ne (e : SchemaError) (id : JStr) :
    Thrown.error none e.message ≠ errReleasedCollision id := by
  intro h
  injection h with _ hmessage
  refine e.foreign ?_
  rw [hmessage, List.append_assoc]
  exact List.IsPrefix.trans ⟨js "generated: released tool id collision for \"", by decide⟩
    (List.prefix_append _ _)

/-- The turn of one operation. -/
theorem generatedTool_spec (h : op ∈ sdk.operations) (usedIds : List JStr) :
    (isReleased op = true ∧ wantedId op ∈ usedIds ∧
      generatedTool sdk usedIds op = .error (errReleasedCollision (wantedId op))) ∨
    (¬(isReleased op = true ∧ wantedId op ∈ usedIds) ∧ ¬sdk.Converts op ∧
      ∃ e : SchemaError, generatedTool sdk usedIds op = .error (.error none e.message)) ∨
    (¬(isReleased op = true ∧ wantedId op ∈ usedIds) ∧ sdk.Converts op ∧
      ∃ cmd, generatedTool sdk usedIds op = .ok cmd ∧
        cmd.id = if wantedId op ∈ usedIds then fallbackId op else wantedId op) := by
  unfold generatedTool
  by_cases hc : wantedId op ∈ usedIds ∧ releasedGeneratedToolIds.lookup op.manifestId ≠ none
  · exact .inl ⟨isReleased_iff.mpr hc.2, hc.1, if_pos hc⟩
  · right
    have hturn : ¬(isReleased op = true ∧ wantedId op ∈ usedIds) :=
      fun hr => hc ⟨hr.2, isReleased_iff.mp hr.1⟩
    obtain ⟨op', hop⟩ := operationFor_mem h
    simp only [S, hop, Sdk.Converts]
    cases sdk.schemaFor op.manifestId with
    | error e => exact .inl ⟨hturn, Bool.false_ne_true, e, if_neg hc⟩
    | ok converted => exact .inr ⟨hturn, rfl, _, if_neg hc, rfl⟩

/-- What `usedIds` holds after the operation's turn. -/
theorem taken_step {earlier : List AnyOperation}
    (h : ∀ id, id ∈ usedIds ↔ Taken curatedIds earlier id) (id : JStr) :
    id ∈ usedIds ++ [if wantedId op ∈ usedIds then fallbackId op else wantedId op] ↔
      Taken curatedIds (op :: earlier) id := by
  rw [List.mem_append, List.mem_singleton, Taken, ← h id, ← h (wantedId op)]
  by_cases hu : wantedId op ∈ usedIds
  · simp only [hu, ↓reduceIte, and_true]
    exact or_congr_right' fun hid => ⟨.inr, fun h => h.resolve_left fun he => hid (he ▸ hu)⟩
  · simp only [hu, ↓reduceIte, and_false, or_false]

/-- The id of an operation's turn is new unless both its ids are taken. -/
theorem new_id_iff {earlier : List AnyOperation}
    (h : ∀ id, id ∈ usedIds ↔ Taken curatedIds earlier id) :
    (if wantedId op ∈ usedIds then fallbackId op else wantedId op) ∉ usedIds ↔
      ¬(Taken curatedIds earlier (wantedId op) ∧ Taken curatedIds earlier (fallbackId op)) := by
  rw [← h, ← h]
  by_cases hu : wantedId op ∈ usedIds <;> simp [hu]

/-- **The loop**: it stops at a released id that is taken or at an input schema that does not
convert, whichever comes first, and otherwise its ids are new, each once, exactly when no operation
finds both its ids taken. -/
theorem generate_spec {covered : List JStr} {ops earlier : List AnyOperation}
    (hops : ∀ op ∈ ops, op ∈ sdk.operations)
    (h : ∀ id, id ∈ usedIds ↔ Taken curatedIds earlier id) :
    let left := ops.filter fun op => !covered.contains op.manifestId || isReleased op
    let releasedTaken := SomeTurn (fun before op => isReleased op = true ∧
      Taken curatedIds (before ++ earlier) (wantedId op) ∧ ∀ op' ∈ before, sdk.Converts op') left
    let fallbackTaken := SomeTurn (fun before op => Taken curatedIds (before ++ earlier) (wantedId op) ∧
      Taken curatedIds (before ++ earlier) (fallbackId op)) left
    (releasedTaken ∧ ∃ id, generate sdk covered ops usedIds = .error (errReleasedCollision id)) ∨
    (¬releasedTaken ∧ (∃ op ∈ left, ¬sdk.Converts op) ∧
      ∃ e : SchemaError, generate sdk covered ops usedIds = .error (.error none e.message)) ∨
    (¬releasedTaken ∧ (∀ op ∈ left, sdk.Converts op) ∧
      ∃ cmds, generate sdk covered ops usedIds = .ok cmds ∧
        (FreshIds usedIds (cmds.map CommandDef.id) ↔ ¬fallbackTaken)) := by
  induction ops generalizing earlier usedIds with
  | nil =>
    refine .inr (.inr ⟨?_, by simp, [], rfl, iff_of_true ⟨List.nodup_nil, by simp⟩ ?_⟩) <;>
      rintro ⟨before, op, after, he, _⟩ <;> simp at he
  | cons op ops ih =>
    rw [List.forall_mem_cons] at hops
    have hskip : (op.manifestId ∈ covered ∧ releasedGeneratedToolIds.lookup op.manifestId = none) ↔
        (!covered.contains op.manifestId || isReleased op) = false := by
      simp [isReleased, Option.isSome_eq_false_iff]
    by_cases hc : op.manifestId ∈ covered ∧ releasedGeneratedToolIds.lookup op.manifestId = none
    · simp only [generate, if_pos hc, List.filter_cons, hskip.mp hc, Bool.false_eq_true, ↓reduceIte]
      exact ih hops.2 h
    · have hkeep : (!covered.contains op.manifestId || isReleased op) = true := by
        rw [← Bool.not_eq_false]
        exact mt hskip.mpr hc
      simp only [generate, if_neg hc, List.filter_cons, hkeep, ↓reduceIte, someTurn_cons,
        List.append_assoc, List.singleton_append, List.nil_append, List.forall_mem_cons,
        List.exists_mem_cons_iff]
      rcases generatedTool_spec hops.1 usedIds with ⟨hr, hu, herr⟩ | ⟨hn, hbad, e, herr⟩ |
        ⟨hn, hgood, cmd, hcmd, hid⟩
      · exact .inl ⟨.inl ⟨hr, (h _).mp hu, by simp⟩, wantedId op, by rw [herr]; rfl⟩
      · -- no later turn comes
        refine .inr (.inl ⟨?_, .inl hbad, e, by rw [herr]; rfl⟩)
        rw [h] at hn
        rintro (⟨hr, hu, -⟩ | ⟨before, op', after, -, -, -, hall⟩)
        · exact hn ⟨hr, hu⟩
        · exact hbad (hall op (by simp))
      · have hstep : ∀ id, id ∈ usedIds ++ [cmd.id] ↔ Taken curatedIds (op :: earlier) id := by
          rw [hid]
          exact taken_step h
        rw [h] at hn
        have hturns : ∀ before : List AnyOperation,
            (∀ op' ∈ before ++ [op], sdk.Converts op') ↔ ∀ op' ∈ before, sdk.Converts op' :=
          fun before => by simp [or_imp, forall_and, hgood]
        simp only [hturns, and_iff_right hgood, or_iff_right (not_not_intro hgood)]
        have hfirst : ¬(isReleased op = true ∧ Taken curatedIds earlier (wantedId op) ∧
            ∀ op' ∈ ([] : List AnyOperation), sdk.Converts op') := fun hr => hn ⟨hr.1, hr.2.1⟩
        rw [or_iff_right hfirst]
        rcases ih hops.2 hstep with ⟨ht, id, herr⟩ | ⟨ht, hbad, e, herr⟩ | ⟨ht, hall, cmds, hok, hfresh⟩
        · exact .inl ⟨ht, id, by simp only [hcmd, bind, Except.bind, herr]⟩
        · exact .inr (.inl ⟨ht, hbad, e, by simp only [hcmd, bind, Except.bind, herr]⟩)
        · refine .inr (.inr ⟨ht, hall, cmd :: cmds, ?_, ?_⟩)
          · simp only [hcmd, bind, Except.bind, hok]
            rfl
          · rw [List.map_cons, freshIds_cons, hid, new_id_iff h, ← hid, hfresh, not_or]

end

/-- **Generated tool ids** are distinct from each other and from the curated ones, or a released id
collides, exactly when a released id is taken, or all input schemas convert and no operation finds
both its ids taken. -/
theorem generated_ids_unique (sdk : Sdk) (curated : List CommandDef)
    (distinct : (curated.map CommandDef.id).Nodup) :
    ((∃ id, buildSdkGeneratedFamily sdk curated = .error (errReleasedCollision id)) ∨
      ∃ cmds, buildSdkGeneratedFamily sdk curated = .ok cmds ∧
        ((curated ++ cmds).map CommandDef.id).Nodup) ↔
      ReleasedTaken sdk (curated.map CommandDef.id) (uncovered sdk curated) ∨
        (∀ op ∈ uncovered sdk curated, sdk.Converts op) ∧
          ¬FallbackTaken (curated.map CommandDef.id) (uncovered sdk curated) := by
  have h := @generate_spec sdk (curated.map CommandDef.id) (curated.map CommandDef.id)
    (collectCoveredManifestIds curated) sdk.sorted [] (fun op hop => sdk.sorted_perm.mem_iff.mp hop)
    fun id => Iff.rfl
  simp only [List.append_nil] at h
  unfold buildSdkGeneratedFamily ReleasedTaken FallbackTaken uncovered
  rcases h with ⟨hr, id, herr⟩ | ⟨hr, ⟨op, hop, hbad⟩, e, herr⟩ | ⟨hr, hall, cmds, hok, hfresh⟩
  · exact iff_of_true (.inl ⟨id, herr⟩) (.inl hr)
  · refine iff_of_false ?_ (not_or.mpr ⟨hr, fun hall => hbad (hall.1 op hop)⟩)
    rw [herr]
    rintro (⟨id, hcollision⟩ | ⟨cmds, hok, -⟩)
    · exact errReleasedCollision_ne e id (Except.error.inj hcollision)
    · cases hok
  · rw [or_iff_right hr, and_iff_right hall, ← hfresh, ← nodup_append_iff_freshIds distinct,
      ← List.map_append]
    constructor
    · rintro (⟨id, herr⟩ | ⟨cmds', hok', hnodup⟩)
      · rw [hok] at herr
        cases herr
      · rw [hok] at hok'
        cases hok'
        exact hnodup
    · exact fun hnodup => .inr ⟨cmds, hok, hnodup⟩

/-- With distinct ids, no tool hides another. -/
theorem findCommand_of_nodup {commands : List CommandDef}
    (h : (commands.map CommandDef.id).Nodup) {cmd : CommandDef} (hmem : cmd ∈ commands) :
    findCommand commands cmd.id = some cmd := by
  unfold findCommand
  cases hf : commands.reverse.find? fun c => c.id = cmd.id with
  | none =>
    have := List.find?_eq_none.mp hf cmd (List.mem_reverse.mpr hmem)
    simp at this
  | some c =>
    have hid : c.id = cmd.id := by simpa using List.find?_some hf
    have hc : c ∈ commands := List.mem_reverse.mp (List.mem_of_find?_eq_some hf)
    rw [List.inj_on_of_nodup_map h hc hmem hid]

/-! ## Three operations whose ids collapse -/

/-- A read of one operation. -/
def plainRead (manifestId : JStr) : AnyOperation where
  manifestId := manifestId
  classification := .read
  buildFrames _ := .ok [manifestId]

def collapsingOperations : List AnyOperation :=
  [plainRead (js "cli.a_b"), plainRead (js "cli.a-b"), plainRead (js "cli.a.b")]

/-- An SDK of void operations. -/
def voidSdk (operations : List AnyOperation)
    (nodup : (operations.map AnyOperation.manifestId).Nodup) : Sdk where
  operations := operations
  nodup := nodup
  sorted := operations
  sorted_perm := .refl _
  schemaFor _ := .ok
    { shape := fun _ => true
      wrapsInput := false
      full := fun input => match input with
        | .undefined => .ok input
        | _ => .error (js "$: Expected undefined")
      secretFields := [] }

def collapsingSdk : Sdk := voidSdk collapsingOperations (by decide)

theorem collapsing_ids :
    (buildSdkGeneratedFamily collapsingSdk []).map (List.map CommandDef.id) =
      .ok [js "a_b", js "sdk_a_b", js "sdk_a_b"] := by rfl

/-- The second and the third operation both get `sdk_a_b`. -/
theorem generated_ids_collide :
    ¬((∃ id, buildSdkGeneratedFamily collapsingSdk [] = .error (errReleasedCollision id)) ∨
      ∃ cmds, buildSdkGeneratedFamily collapsingSdk [] = .ok cmds ∧
        ((([] : List CommandDef) ++ cmds).map CommandDef.id).Nodup) := by
  have h := collapsing_ids
  rintro (⟨id, herr⟩ | ⟨cmds, hok, hnodup⟩)
  · rw [herr] at h
    cases h
  · rw [hok] at h
    have hids : cmds.map CommandDef.id = [js "a_b", js "sdk_a_b", js "sdk_a_b"] := by injection h
    rw [List.nil_append, hids] at hnodup
    exact absurd hnodup (by decide)

/-- Of two operations whose ids collapse, the later one takes its fallback. -/
theorem generated_ids_unique_pair :
    let sdk := voidSdk [plainRead (js "cli.a_b"), plainRead (js "cli.a-b")] (by decide)
    ∃ cmds, buildSdkGeneratedFamily sdk [] = .ok cmds ∧ (cmds.map CommandDef.id).Nodup := by
  intro sdk
  have hids : (buildSdkGeneratedFamily sdk []).map (List.map CommandDef.id) =
      .ok [js "a_b", js "sdk_a_b"] := by rfl
  rcases (generated_ids_unique sdk [] List.nodup_nil).mpr (.inr (by decide +kernel)) with
    ⟨id, herr⟩ | h
  · rw [herr] at hids
    cases hids
  · exact h

end VigorMcp
