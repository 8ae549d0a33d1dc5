import Mathlib.Data.Option.Basic
import VigorMcp.Js.Value

/-!
# Reading values

A value is read along a path of array indices and field names: `node` is what
stands at a place, `child` what stands one step below. Two values are the same
(`Same`) when every path reads the same in both; the order of an object's fields
cannot be read. A JSON value has no `undefined` and no infinite number at any
path.
-/

namespace VigorMcp

theorem mem_of_lookup {β : Type} {entries : List (JStr × β)} {key : JStr} {v : β}
    (h : entries.lookup key = some v) : (key, v) ∈ entries := by
  obtain ⟨before, after, rfl, _⟩ := List.lookup_eq_some_iff.mp h
  simp

/-- One step down into a value. -/
inductive Access where
  | index (i : Nat)
  | field (key : JStr)
  deriving DecidableEq

namespace JsValue

/-- What stands at one place: a scalar, an array of some length, or an object. -/
inductive Node where
  | undefined
  | null
  | bool (b : Bool)
  | num (n : JsNumber)
  | str (s : JStr)
  | arr (length : Nat)
  | obj
  deriving DecidableEq

def node : JsValue → Node
  | .undefined => .undefined
  | .null => .null
  | .bool b => .bool b
  | .num n => .num n
  | .str s => .str s
  | .arr items => .arr items.length
  | .obj _ => .obj

def child : JsValue → Access → Option JsValue
  | .arr items, .index i => items[i]?
  | .obj fields, .field key => fields.lookup key
  | _, _ => none

/-- What stands at the end of a path. -/
def at? (v : JsValue) : List Access → Option JsValue
  | [] => some v
  | step :: path => (v.child step).bind fun w => w.at? path

/-- Every path reads the same in both values. -/
def Same (v w : JsValue) : Prop := ∀ path, (v.at? path).map node = (w.at? path).map node

/-- `v` has no `undefined` and no infinite number at any path. -/
def IsJson (v : JsValue) : Prop :=
  ∀ path w, v.at? path = some w → w ≠ .undefined ∧ ∀ text, w ≠ .num (.nonFinite text)

@[simp] theorem at?_nil (v : JsValue) : v.at? [] = some v := rfl

@[simp] theorem at?_cons (v : JsValue) (step : Access) (path : List Access) :
    v.at? (step :: path) = (v.child step).bind fun w => w.at? path := rfl

/-! ## The same value -/

theorem Same.refl (v : JsValue) : Same v v := fun _ => rfl

theorem Same.symm {v w : JsValue} (h : Same v w) : Same w v := fun path => (h path).symm

theorem Same.trans {u v w : JsValue} (h : Same u v) (h' : Same v w) : Same u w := fun path =>
  (h path).trans (h' path)

theorem Same.node {v w : JsValue} (h : Same v w) : v.node = w.node := by
  simpa using h []

/-- Values that are the same are equal, or two arrays, or two objects. -/
theorem Same.cases {v w : JsValue} (h : Same v w) :
    v = w ∨ (∃ items items', v = .arr items ∧ w = .arr items') ∨
      ∃ fields fields', v = .obj fields ∧ w = .obj fields' := by
  have hnode := h.node
  cases v <;> cases w <;> simp_all [JsValue.node]

/-- One step down, both values have a child or neither has, and the children are the same. -/
inductive SameChild : Option JsValue → Option JsValue → Prop where
  | absent : SameChild none none
  | present {v w : JsValue} : Same v w → SameChild (some v) (some w)

theorem SameChild.refl (a : Option JsValue) : SameChild a a := by
  cases a with
  | none => exact .absent
  | some v => exact .present (.refl v)

theorem SameChild.isSome_eq {a b : Option JsValue} (h : SameChild a b) : a.isSome = b.isSome := by
  cases h <;> rfl

theorem SameChild.getD {a b : Option JsValue} (h : SameChild a b) (d : JsValue) :
    Same (a.getD d) (b.getD d) := by
  cases h with
  | absent => exact .refl d
  | present h => exact h

theorem SameChild.bind {a b : Option JsValue} (h : SameChild a b) {f : JsValue → Option JsValue}
    (hf : ∀ v w, Same v w → SameChild (f v) (f w)) : SameChild (a.bind f) (b.bind f) := by
  cases h with
  | absent => exact .absent
  | present h => exact hf _ _ h

theorem SameChild.of_reads {a b : Option JsValue}
    (h : ∀ path, ((a.bind fun v => v.at? path).map JsValue.node) =
      (b.bind fun v => v.at? path).map JsValue.node) : SameChild a b := by
  cases a with
  | none =>
    cases b with
    | none => exact .absent
    | some w => exact absurd (h []) (by simp)
  | some v =>
    cases b with
    | none => exact absurd (h []) (by simp)
    | some w => exact .present fun path => h path

theorem SameChild.reads {a b : Option JsValue} (h : SameChild a b) (path : List Access) :
    (a.bind fun v => v.at? path).map JsValue.node = (b.bind fun v => v.at? path).map JsValue.node := by
  cases h with
  | absent => rfl
  | present h => exact h path

theorem Same.child {v w : JsValue} (h : Same v w) (step : Access) :
    SameChild (v.child step) (w.child step) :=
  .of_reads fun path => h (step :: path)

theorem Same.of_child {v w : JsValue} (hnode : v.node = w.node)
    (hchild : ∀ step, SameChild (v.child step) (w.child step)) : Same v w := by
  intro path
  cases path with
  | nil => simpa using hnode
  | cons step path => exact (hchild step).reads path

/-- Arrays are the same when their items are, one by one. -/
theorem Same.arr {items items' : List JsValue} (h : List.Forall₂ Same items items') :
    Same (.arr items) (.arr items') := by
  refine Same.of_child (congrArg Node.arr h.length_eq) fun step => ?_
  cases step with
  | field key => exact .absent
  | index i =>
    show SameChild items[i]? items'[i]?
    rcases Nat.lt_or_ge i items.length with hi | hi
    · have hi' : i < items'.length := h.length_eq ▸ hi
      rw [List.getElem?_eq_getElem hi, List.getElem?_eq_getElem hi']
      exact .present (h.get hi hi')
    · rw [List.getElem?_eq_none hi, List.getElem?_eq_none (h.length_eq ▸ hi)]
      exact .absent

theorem same_arr_iff {items items' : List JsValue} :
    Same (.arr items) (.arr items') ↔ List.Forall₂ Same items items' := by
  refine ⟨fun h => ?_, .arr⟩
  have hlength : items.length = items'.length := by
    have := h.node
    injection this
  rw [List.forall₂_iff_get]
  refine ⟨hlength, fun i hi hi' => ?_⟩
  have hchild : SameChild items[i]? items'[i]? := h.child (.index i)
  rw [List.getElem?_eq_getElem hi, List.getElem?_eq_getElem hi'] at hchild
  cases hchild with
  | present h => exact h

/-- Objects are the same when their fields are, name by name. -/
theorem Same.obj {fields fields' : List (JStr × JsValue)}
    (h : ∀ key, SameChild (fields.lookup key) (fields'.lookup key)) :
    Same (.obj fields) (.obj fields') := by
  refine Same.of_child rfl fun step => ?_
  cases step with
  | index i => exact .absent
  | field key => exact h key

theorem Same.field {fields fields' : List (JStr × JsValue)} (h : Same (.obj fields) (.obj fields'))
    (key : JStr) : SameChild (fields.lookup key) (fields'.lookup key) := h.child (.field key)

/-! ## A value with fewer fields -/

/-- What stands in `v` stands in `w`, at every path. -/
def Within (v w : JsValue) : Prop :=
  ∀ path n, (v.at? path).map node = some n → (w.at? path).map node = some n

theorem Within.refl (v : JsValue) : Within v v := fun _ _ h => h

theorem Within.trans {u v w : JsValue} (h : Within u v) (h' : Within v w) : Within u w :=
  fun path n hn => h' path n (h path n hn)

/-- A value between two that are the same is the same as they are. -/
theorem Same.between {u v w : JsValue} (h : Same u w) (huv : Within u v) (hvw : Within v w) :
    Same v w := by
  intro path
  cases hv : (v.at? path).map JsValue.node with
  | some n => exact (hvw path n hv).symm
  | none =>
    cases hw : (w.at? path).map JsValue.node with
    | none => rfl
    | some n =>
      have hn := huv path n ((h path).trans hw)
      rw [hv] at hn
      cases hn

theorem Within.of_child {v w : JsValue} (hnode : v.node = w.node)
    (hchild : ∀ step c, v.child step = some c → ∃ c', w.child step = some c' ∧ Within c c') :
    Within v w := by
  intro path n hn
  cases path with
  | nil =>
    rw [at?_nil, Option.map_some] at hn ⊢
    rw [← hnode, hn]
  | cons step path =>
    obtain ⟨u, hu, rfl⟩ := Option.map_eq_some_iff.mp hn
    obtain ⟨c, hc, hu⟩ := Option.bind_eq_some_iff.mp hu
    obtain ⟨c', hc', hwithin⟩ := hchild step c hc
    rw [at?_cons, hc', Option.bind_some]
    exact hwithin path _ (by rw [hu]; rfl)

theorem Within.obj {fields fields' : List (JStr × JsValue)}
    (h : ∀ key c, fields.lookup key = some c → ∃ c', fields'.lookup key = some c' ∧ Within c c') :
    Within (.obj fields) (.obj fields') := by
  refine Within.of_child rfl fun step c hc => ?_
  cases step with
  | index i => cases hc
  | field key => exact h key c hc

theorem Within.arr {items items' : List JsValue} (h : List.Forall₂ Within items items') :
    Within (.arr items) (.arr items') := by
  refine Within.of_child (congrArg Node.arr h.length_eq) fun step c hc => ?_
  cases step with
  | field key => cases hc
  | index i =>
    obtain ⟨hi, rfl⟩ := List.getElem?_eq_some_iff.mp hc
    have hi' : i < items'.length := h.length_eq ▸ hi
    exact ⟨items'[i], List.getElem?_eq_getElem hi', h.get hi hi'⟩

/-! ## JSON values -/

theorem IsJson.ne_undefined {v : JsValue} (h : IsJson v) : v ≠ .undefined := (h [] v rfl).1

theorem IsJson.child {v w : JsValue} {step : Access} (h : IsJson v) (hw : v.child step = some w) :
    IsJson w := by
  intro path u hu
  exact h (step :: path) u (by rw [at?_cons, hw]; exact hu)

theorem IsJson.of_child {v : JsValue} (hu : v ≠ .undefined) (hn : ∀ text, v ≠ .num (.nonFinite text))
    (h : ∀ step w, v.child step = some w → IsJson w) : IsJson v := by
  intro path w hw
  cases path with
  | nil =>
    obtain rfl := Option.some.inj hw
    exact ⟨hu, hn⟩
  | cons step path =>
    obtain ⟨u, hu, hw⟩ := Option.bind_eq_some_iff.mp hw
    exact h step u hu path w hw

theorem IsJson.item {items : List JsValue} (h : IsJson (.arr items)) {v : JsValue}
    (hv : v ∈ items) : IsJson v := by
  obtain ⟨i, hi⟩ := List.getElem?_of_mem hv
  have hchild : (JsValue.arr items).child (.index i) = some v := hi
  exact h.child hchild

theorem IsJson.field {fields : List (JStr × JsValue)} (h : IsJson (.obj fields)) {key : JStr}
    {v : JsValue} (hv : fields.lookup key = some v) : IsJson v := by
  have hchild : (JsValue.obj fields).child (.field key) = some v := hv
  exact h.child hchild

end JsValue

end VigorMcp
