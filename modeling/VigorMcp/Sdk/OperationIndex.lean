import Mathlib.Data.List.Find
import VigorMcp.Lib.Fallible
import VigorMcp.Lib.OrderedMap
import VigorMcp.Ssh.SdkVigorClient

/-!
# The indexes of the operations

The SDK publishes its operations as a tree that may reach one operation object
on several paths; a reference names an object and `heap` says what it is.
`buildOperationIndex` indexes the objects by `manifestId` and throws when two of
them share one. `buildVoidOperationIndex` indexes those that take no input by
their command, where the first object of a command stays. What the second index
finds by a command is what the first finds by its id
(`operationFor_of_voidOperationForCommand`).
-/

namespace VigorMcp

abbrev OperationRef := Nat

inductive OperationTree where
  | operation (ref : OperationRef)
  | array (items : List OperationTree)
  | record (values : List OperationTree)
  /-- A primitive value, `null` or a function. -/
  | other

mutual

/-- The operation leaves of a tree. -/
def walkOperations : OperationTree → List OperationRef
  | .operation ref => [ref]
  | .array items => walkNodes items
  | .record values => walkNodes values
  | .other => []

def walkNodes : List OperationTree → List OperationRef
  | [] => []
  | node :: nodes => walkOperations node ++ walkNodes nodes

end

def errDuplicateManifestId (manifestId : JStr) : Thrown :=
  .error none (js "operation-index: duplicate manifestId \"" ++ manifestId ++ js "\"")

section

variable (heap : OperationRef → AnyOperation)

/-- Operation objects by their `manifestId`. -/
structure OperationIndex where
  refs : OrderedMap JStr OperationRef
  keyed : ∀ e ∈ refs.entries, (heap e.2).manifestId = e.1

namespace OperationIndex

variable {heap}

def empty : OperationIndex heap := ⟨.empty, fun _ he => nomatch he⟩

def set (index : OperationIndex heap) (ref : OperationRef) : OperationIndex heap where
  refs := index.refs.set (heap ref).manifestId ref
  keyed e he := by
    rcases OrderedMap.mem_set.mp he with ⟨hold, _⟩ | rfl
    · exact index.keyed e hold
    · rfl

def add (index : OperationIndex heap) (ref : OperationRef) :
    Except Thrown (OperationIndex heap) :=
  match index.refs.get (heap ref).manifestId with
  | some existing =>
    if existing ≠ ref then .error (errDuplicateManifestId (heap ref).manifestId)
    else .ok (index.set ref)
  | none => .ok (index.set ref)

/-- The typed SDK operation of a manifest id. -/
def operationFor (index : OperationIndex heap) (manifestId : JStr) : Option AnyOperation :=
  (index.refs.get manifestId).map heap

def allOperations (index : OperationIndex heap) : List AnyOperation := index.refs.values.map heap

end OperationIndex

def buildOperationIndex (root : OperationTree) : Except Thrown (OperationIndex heap) :=
  (walkOperations root).foldlM OperationIndex.add .empty

/-- The one fixed command of an operation that accepts `undefined`. -/
def voidCommand (op : AnyOperation) : Option JStr :=
  match op.buildFrames .undefined with
  | .ok [command] => if command.length = 0 then none else some command
  | _ => none

/-- First writer wins. -/
def addVoid (index : OrderedMap JStr OperationRef) (ref : OperationRef) :
    OrderedMap JStr OperationRef :=
  match voidCommand (heap ref) with
  | some command => if index.has command then index else index.set command ref
  | none => index

def buildVoidOperationIndex (root : OperationTree) : OrderedMap JStr OperationRef :=
  (walkOperations root).foldl (addVoid heap) .empty

def voidOperationForCommand (root : OperationTree) (command : JStr) : Option AnyOperation :=
  ((buildVoidOperationIndex heap root).get command).map heap

end

/-! ## The index by manifest id -/

section

variable {heap : OperationRef → AnyOperation} {index index' : OperationIndex heap}
  {root : OperationTree} {ref : OperationRef} {command : JStr}

namespace OperationIndex

/-- An object is added under its own id, and takes no other object's place. -/
theorem mem_add (h : index.add ref = .ok index') (e : JStr × OperationRef) :
    e ∈ index'.refs.entries ↔ e ∈ index.refs.entries ∨ e = ((heap ref).manifestId, ref) := by
  unfold add at h
  have hset : index' = index.set ref →
      (∀ other, ((heap ref).manifestId, other) ∈ index.refs.entries → other = ref) →
      (e ∈ index'.refs.entries ↔
        e ∈ index.refs.entries ∨ e = ((heap ref).manifestId, ref)) := by
    rintro rfl alone
    simp only [set, OrderedMap.mem_set]
    refine or_congr_left' fun hne => and_iff_left_of_imp fun he hkey => hne ?_
    obtain ⟨key, other⟩ := e
    subst hkey
    rw [alone other he]
  cases hget : index.refs.get (heap ref).manifestId with
  | none =>
    rw [hget] at h
    exact hset (Except.ok.inj h).symm fun other hmem =>
      absurd hmem (OrderedMap.get_eq_none.mp hget other)
  | some existing =>
    rw [hget] at h
    simp only at h
    split at h
    · cases h
    · next heq =>
      obtain rfl := Decidable.not_not.mp heq
      exact hset (Except.ok.inj h).symm fun other hmem =>
        OrderedMap.eq_of_mem hmem (OrderedMap.get_eq_some.mp hget)

/-- The index has exactly the objects of the tree. -/
theorem mem_build (built : buildOperationIndex heap root = .ok index) (e : JStr × OperationRef) :
    e ∈ index.refs.entries ↔ ∃ ref ∈ walkOperations root, e = ((heap ref).manifestId, ref) := by
  have round : ∀ ref ∈ walkOperations root, ∀ index index' : OperationIndex heap,
      index.add ref = .ok index' → ∀ e : JStr × OperationRef, e ∈ index'.refs.entries ↔
        e ∈ index.refs.entries ∨ e = ((heap ref).manifestId, ref) :=
    fun ref _ index index' hadd e => mem_add hadd e
  rw [Except.foldlM_adds round built]
  simp [empty]

theorem operationFor_of_mem_walk (built : buildOperationIndex heap root = .ok index)
    (h : ref ∈ walkOperations root) : index.operationFor (heap ref).manifestId = some (heap ref) := by
  have hmem : ((heap ref).manifestId, ref) ∈ index.refs.entries := (mem_build built _).mpr ⟨ref, h, rfl⟩
  rw [operationFor, OrderedMap.get_eq_some.mpr hmem]
  rfl

/-- The ids of the indexed operations are the keys of the index. -/
theorem manifestIds_allOperations (index : OperationIndex heap) :
    index.allOperations.map AnyOperation.manifestId = index.refs.keys := by
  simp only [allOperations, OrderedMap.values, OrderedMap.keys, List.map_map]
  exact List.map_congr_left index.keyed

/-- A search of the operations by their id is a lookup in the index. -/
theorem find?_allOperations (index : OperationIndex heap) (manifestId : JStr) :
    (index.allOperations.find? fun op => op.manifestId = manifestId) =
      index.operationFor manifestId := by
  simp only [allOperations, OrderedMap.values, List.find?_map, operationFor, OrderedMap.get,
    Option.map_map]
  congr 1
  refine List.find?_congr fun e he => ?_
  simp only [Function.comp_apply, index.keyed e he]

end OperationIndex

/-! ## The index by void command -/

theorem get_addVoid (index : OrderedMap JStr OperationRef) (ref : OperationRef) (command : JStr) :
    (addVoid heap index ref).get command =
      (index.get command).or (if voidCommand (heap ref) = some command then some ref else none) := by
  unfold addVoid
  cases hv : voidCommand (heap ref) with
  | none => simp
  | some c =>
    by_cases hc : c = command
    · subst hc
      cases hget : index.get c with
      | none => simp [OrderedMap.has, hget]
      | some existing => simp [OrderedMap.has, hget]
    · have hset := OrderedMap.get_set_of_ne (m := index) (v := ref) (Ne.symm hc)
      cases hhas : index.has c <;> simp [hhas, hset, hc]

/-- The index has, for each command, the first operation of the tree with that command. -/
theorem get_buildVoidOperationIndex (root : OperationTree) (command : JStr) :
    (buildVoidOperationIndex heap root).get command =
      (walkOperations root).find? fun ref => voidCommand (heap ref) = some command := by
  have h : ∀ (refs : List OperationRef) (index : OrderedMap JStr OperationRef),
      (refs.foldl (addVoid heap) index).get command =
        (index.get command).or (refs.find? fun ref => voidCommand (heap ref) = some command) := by
    intro refs
    induction refs with
    | nil => simp
    | cons ref refs ih =>
      intro index
      rw [List.foldl_cons, ih, get_addVoid, Option.or_assoc, List.find?_cons]
      by_cases hv : voidCommand (heap ref) = some command <;> simp [hv]
  rw [buildVoidOperationIndex, h]
  rfl

/-- **The two indexes agree**: the operation found by a void command is the one its id leads to. -/
theorem operationFor_of_voidOperationForCommand (built : buildOperationIndex heap root = .ok index)
    {op : AnyOperation} (h : voidOperationForCommand heap root command = some op) :
    index.operationFor op.manifestId = some op ∧ op.buildFrames .undefined = .ok [command] := by
  unfold voidOperationForCommand at h
  rw [get_buildVoidOperationIndex] at h
  obtain ⟨ref, href, rfl⟩ := Option.map_eq_some_iff.mp h
  refine ⟨OperationIndex.operationFor_of_mem_walk built (List.mem_of_find?_eq_some href), ?_⟩
  have hvoid : voidCommand (heap ref) = some command := by simpa using List.find?_some href
  unfold voidCommand at hvoid
  split at hvoid
  · next c hframes =>
    split at hvoid
    · cases hvoid
    · rw [hframes, Option.some.inj hvoid]
  · cases hvoid

end

end VigorMcp
