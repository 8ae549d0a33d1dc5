import Mathlib.Data.List.Nodup

/-!
# Insertion-ordered maps

`OrderedMap κ β` is a finite map that lists its entries in the order the keys
were first set, one entry a key. The keys' distinctness is a field, so a lookup
and a membership in `entries` say the same (`get_eq_some`). `set` keeps the
place of a key it overwrites and appends a new one; `delete` and `filter` keep
the order of what stays.
-/

structure OrderedMap (κ β : Type*) where
  entries : List (κ × β)
  nodup : (entries.map Prod.fst).Nodup

namespace OrderedMap

variable {κ β : Type*}

@[ext] theorem ext {m m' : OrderedMap κ β} (h : m.entries = m'.entries) : m = m' := by
  cases m; cases m'; cases h; rfl

def empty : OrderedMap κ β := ⟨[], List.nodup_nil⟩

instance : Inhabited (OrderedMap κ β) := ⟨empty⟩

def size (m : OrderedMap κ β) : Nat := m.entries.length

def keys (m : OrderedMap κ β) : List κ := m.entries.map Prod.fst

def values (m : OrderedMap κ β) : List β := m.entries.map Prod.snd

/-- The entries a predicate keeps. -/
def filter (m : OrderedMap κ β) (p : κ × β → Bool) : OrderedMap κ β where
  entries := m.entries.filter p
  nodup := m.nodup.sublist (List.filter_sublist.map Prod.fst)

@[simp] theorem entries_empty : (empty : OrderedMap κ β).entries = [] := rfl

@[simp] theorem entries_filter (m : OrderedMap κ β) (p : κ × β → Bool) :
    (m.filter p).entries = m.entries.filter p := rfl

/-- Two entries of one key are one entry. -/
theorem eq_of_mem {m : OrderedMap κ β} {k : κ} {v w : β} (hv : (k, v) ∈ m.entries)
    (hw : (k, w) ∈ m.entries) : v = w := by
  have := List.inj_on_of_nodup_map m.nodup hv hw rfl
  exact congrArg Prod.snd this

variable [DecidableEq κ]

def get (m : OrderedMap κ β) (k : κ) : Option β :=
  (m.entries.find? fun e => decide (e.1 = k)).map Prod.snd

def has (m : OrderedMap κ β) (k : κ) : Bool := (m.get k).isSome

def delete (m : OrderedMap κ β) (k : κ) : OrderedMap κ β := m.filter fun e => decide (e.1 ≠ k)

theorem get_eq_some {m : OrderedMap κ β} {k : κ} {v : β} :
    m.get k = some v ↔ (k, v) ∈ m.entries := by
  constructor
  · intro h
    obtain ⟨e, he, rfl⟩ := Option.map_eq_some_iff.mp h
    have hk : e.1 = k := by simpa using List.find?_some he
    exact hk ▸ List.mem_of_find?_eq_some he
  · intro h
    cases hf : m.entries.find? fun e => decide (e.1 = k) with
    | none =>
      have := List.find?_eq_none.mp hf (k, v) h
      simp at this
    | some e =>
      have hk : e.1 = k := by simpa using List.find?_some hf
      have he : (k, e.2) ∈ m.entries := hk ▸ List.mem_of_find?_eq_some hf
      simp [get, hf, eq_of_mem he h]

theorem get_eq_none {m : OrderedMap κ β} {k : κ} : m.get k = none ↔ ∀ v, (k, v) ∉ m.entries := by
  rw [Option.eq_none_iff_forall_ne_some]
  simp only [ne_eq, get_eq_some]

/-- The first entry of a key is its only one. -/
theorem lookup_entries [BEq κ] [LawfulBEq κ] (m : OrderedMap κ β) (k : κ) :
    m.entries.lookup k = m.get k := by
  ext v
  rw [get_eq_some]
  constructor
  · intro h
    obtain ⟨before, after, he, _⟩ := List.lookup_eq_some_iff.mp h
    rw [he]
    exact List.mem_append_right _ List.mem_cons_self
  · intro h
    cases hl : m.entries.lookup k with
    | none => exact absurd (List.lookup_eq_none_iff.mp hl _ h) (by simp)
    | some w =>
      obtain ⟨before, after, he, _⟩ := List.lookup_eq_some_iff.mp hl
      have hw : (k, w) ∈ m.entries := he ▸ List.mem_append_right _ List.mem_cons_self
      rw [eq_of_mem h hw]

theorem has_eq_true {m : OrderedMap κ β} {k : κ} : m.has k = true ↔ k ∈ m.keys := by
  unfold has keys
  rw [Option.isSome_iff_exists]
  simp [get_eq_some]

theorem has_eq_false {m : OrderedMap κ β} {k : κ} : m.has k = false ↔ k ∉ m.keys := by
  rw [← has_eq_true, Bool.not_eq_true]

theorem mem_delete {m : OrderedMap κ β} {k : κ} {e : κ × β} :
    e ∈ (m.delete k).entries ↔ e ∈ m.entries ∧ e.1 ≠ k := by simp [delete]

/-- The keys after a `set`: a known key keeps its place, a new one goes last. -/
theorem nodup_set (m : OrderedMap κ β) (k : κ) (v : β) :
    ((if m.has k then m.entries.map fun e => if e.1 = k then (k, v) else e
      else m.entries ++ [(k, v)]).map Prod.fst).Nodup := by
  split
  · have e : (m.entries.map fun e => if e.1 = k then (k, v) else e).map Prod.fst =
        m.entries.map Prod.fst := by
      rw [List.map_map]
      refine List.map_congr_left fun e _ => ?_
      by_cases h : e.1 = k <;> simp [h]
    rw [e]
    exact m.nodup
  · next h =>
    have hk : k ∉ m.keys := has_eq_false.mp (by simpa using h)
    rw [List.map_append, List.nodup_append]
    refine ⟨m.nodup, by simp, ?_⟩
    intro a ha b hb
    simp only [List.map_cons, List.map_nil, List.mem_singleton] at hb
    rintro rfl
    exact hk (hb ▸ ha)

def set (m : OrderedMap κ β) (k : κ) (v : β) : OrderedMap κ β where
  entries := if m.has k then m.entries.map fun e => if e.1 = k then (k, v) else e
    else m.entries ++ [(k, v)]
  nodup := m.nodup_set k v

theorem entries_set_of_not_has {m : OrderedMap κ β} {k : κ} {v : β} (h : m.has k = false) :
    (m.set k v).entries = m.entries ++ [(k, v)] := by simp [set, h]

theorem mem_set {m : OrderedMap κ β} {k : κ} {v : β} {e : κ × β} :
    e ∈ (m.set k v).entries ↔ (e ∈ m.entries ∧ e.1 ≠ k) ∨ e = (k, v) := by
  cases h : m.has k with
  | false =>
    rw [entries_set_of_not_has h, List.mem_append, List.mem_singleton]
    refine or_congr_left ⟨fun he => ⟨he, fun hk => ?_⟩, And.left⟩
    exact has_eq_false.mp h (hk ▸ List.mem_map_of_mem (f := Prod.fst) he)
  | true =>
    obtain ⟨⟨k', w⟩, hw, rfl⟩ := List.mem_map.mp (has_eq_true.mp h)
    simp only [set, h, ↓reduceIte, List.mem_map]
    constructor
    · rintro ⟨e', he', rfl⟩
      by_cases hk : e'.1 = k'
      · simp [hk]
      · simp [hk, he']
    · rintro (⟨he, hk⟩ | rfl)
      · exact ⟨e, he, by simp [hk]⟩
      · exact ⟨(k', w), hw, by simp⟩

@[simp] theorem get_set_self (m : OrderedMap κ β) (k : κ) (v : β) : (m.set k v).get k = some v := by
  rw [get_eq_some, mem_set]
  exact .inr rfl

theorem get_set_of_ne {m : OrderedMap κ β} {k k' : κ} {v : β} (h : k' ≠ k) :
    (m.set k v).get k' = m.get k' := by
  ext w
  rw [get_eq_some, get_eq_some, mem_set]
  simp [h]

/-- What is there after several keys were set was there or was set. -/
theorem mem_foldl_set {m : OrderedMap κ β} {pairs : List (κ × β)} {e : κ × β}
    (h : e ∈ (pairs.foldl (fun m e => m.set e.1 e.2) m).entries) : e ∈ m.entries ∨ e ∈ pairs := by
  induction pairs generalizing m with
  | nil => exact .inl h
  | cons pair pairs ih =>
    rcases ih h with h | h
    · rcases mem_set.mp h with ⟨h, _⟩ | rfl
      · exact .inl h
      · exact .inr List.mem_cons_self
    · exact .inr (List.mem_cons_of_mem _ h)

theorem get_foldl_set {m : OrderedMap κ β} {pairs : List (κ × β)} {k : κ}
    (h : k ∉ pairs.map Prod.fst) : (pairs.foldl (fun m e => m.set e.1 e.2) m).get k = m.get k := by
  induction pairs generalizing m with
  | nil => rfl
  | cons pair pairs ih =>
    rw [List.map_cons, List.mem_cons, not_or] at h
    rw [List.foldl_cons, ih h.2, get_set_of_ne h.1]

/-- Setting new keys one after the other appends their entries. -/
theorem entries_foldl_set {m : OrderedMap κ β} {pairs : List (κ × β)}
    (h : ∀ e ∈ pairs, m.has e.1 = false) (nodup : (pairs.map Prod.fst).Nodup) :
    (pairs.foldl (fun m e => m.set e.1 e.2) m).entries = m.entries ++ pairs := by
  induction pairs generalizing m with
  | nil => exact (List.append_nil _).symm
  | cons e pairs ih =>
    rw [List.map_cons, List.nodup_cons] at nodup
    have hset := entries_set_of_not_has (v := e.2) (h e List.mem_cons_self)
    rw [List.foldl_cons, ih ?_ nodup.2, hset, List.append_assoc]
    · rfl
    · intro f hf
      rw [has_eq_false, keys, hset, List.map_append, List.mem_append]
      rintro (hm | hm)
      · exact has_eq_false.mp (h f (List.mem_cons_of_mem _ hf)) hm
      · rw [List.map_singleton, List.mem_singleton] at hm
        exact nodup.1 (List.mem_map.mpr ⟨f, hf, hm⟩)

end OrderedMap
