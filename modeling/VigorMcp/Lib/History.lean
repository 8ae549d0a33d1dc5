import Mathlib.Logic.Basic
import Mathlib.Data.List.Basic

/-!
# Histories

A history is the list of what happened, oldest first. A law says what an entry
may rely on, given the entries before it; a history is `Justified` when each of
its entries is. A justified history stays justified when an entry is appended
that the law admits, so a run's history is justified by one fact a step.
-/

namespace History

variable {α : Type*}

/-- Each entry is admitted by the entries before it. -/
def Justified (law : List α → α → Prop) (h : List α) : Prop :=
  ∀ i a, h[i]? = some a → law (h.take i) a

theorem Justified.nil (law : List α → α → Prop) : Justified law [] := by
  intro i a ha
  simp at ha

theorem Justified.concat {law : List α → α → Prop} {h : List α} {a : α} (hj : Justified law h)
    (ha : law h a) : Justified law (h ++ [a]) := by
  intro i b hb
  rcases Nat.lt_trichotomy i h.length with hi | rfl | hi
  · rw [List.getElem?_append_left hi] at hb
    rw [List.take_append_of_le_length (by omega)]
    exact hj i b hb
  · rw [List.getElem?_concat_length] at hb
    rw [List.take_left, ← Option.some.inj hb]
    exact ha
  · rw [List.getElem?_eq_none (by simp; omega)] at hb
    cases hb

/-- What is before an entry has an earlier place. -/
theorem exists_of_mem_take {h : List α} {i : Nat} {a : α} (ha : a ∈ h.take i) :
    ∃ j, j < i ∧ h[j]? = some a := by
  obtain ⟨j, hj⟩ := List.mem_iff_getElem?.mp ha
  rw [List.getElem?_take] at hj
  split at hj
  · next hlt => exact ⟨j, hlt, hj⟩
  · cases hj

theorem mem_take_of_lt {h : List α} {i j : Nat} {a : α} (ha : h[j]? = some a) (hj : j < i) :
    a ∈ h.take i := by
  refine List.mem_iff_getElem?.mpr ⟨j, ?_⟩
  rw [List.getElem?_take, if_pos hj, ha]

/-- An entry of an extended history is an earlier one, or the last. -/
theorem getElem?_concat {l : List α} {x a : α} {i : Nat} (h : (l ++ [x])[i]? = some a) :
    l[i]? = some a ∨ i = l.length ∧ a = x := by
  rcases Nat.lt_or_ge i l.length with hlt | hge
  · exact .inl (by rwa [List.getElem?_append_left hlt] at h)
  · have hlen := (List.getElem?_eq_some_iff.mp h).1
    rw [List.length_append, List.length_singleton] at hlen
    obtain rfl : i = l.length := by omega
    rw [List.getElem?_concat_length] at h
    exact .inr ⟨rfl, (Option.some.inj h).symm⟩

/-- An entry of a history with `x` in it comes before `x`, is `x`, or has it in its past. -/
theorem getElem?_append_cons {l r : List α} {x a : α} {i : Nat} (h : (l ++ x :: r)[i]? = some a) :
    a ∈ l ∨ a = x ∨ a ∈ r ∧ x ∈ (l ++ x :: r).take i := by
  rcases Nat.lt_trichotomy i l.length with hlt | rfl | hlt
  · rw [List.getElem?_append_left hlt] at h
    exact .inl (List.mem_of_getElem? h)
  · rw [List.getElem?_append_right (Nat.le_refl _), Nat.sub_self] at h
    exact .inr (.inl (Option.some.inj h).symm)
  · have hx : (l ++ x :: r)[l.length]? = some x := by simp
    refine .inr (.inr ⟨?_, mem_take_of_lt hx hlt⟩)
    rw [List.getElem?_append_right (Nat.le_of_lt hlt)] at h
    obtain ⟨k, hk⟩ := Nat.exists_eq_add_of_lt hlt
    rw [show i - l.length = k + 1 by omega, List.getElem?_cons_succ] at h
    exact List.mem_of_getElem? h

/-- When no entry of a kind follows another one with the same key, entries with one key are one. -/
theorem index_unique {β : Type*} {key : α → Option β} {h : List α}
    (hj : Justified (fun prior a => ∀ b ∈ key a, ∀ a' ∈ prior, b ∉ key a') h) {i j : Nat} {a a' : α}
    {b : β} (hi : h[i]? = some a) (hj' : h[j]? = some a') (ha : b ∈ key a) (ha' : b ∈ key a') :
    i = j := by
  rcases Nat.lt_trichotomy i j with hlt | heq | hlt
  · exact absurd ha (hj j a' hj' b ha' a (mem_take_of_lt hi hlt))
  · exact heq
  · exact absurd ha' (hj i a hi b ha a' (mem_take_of_lt hj' hlt))

/-! ## Blocks -/

theorem split_last_block {key : α → Nat} {n : Nat} {h : List α}
    (sorted : h.Pairwise fun a b => key a ≤ key b) (bound : ∀ a ∈ h, key a < n + 1) :
    h = h.filter (fun a => key a < n) ++ h.filter (fun a => key a = n) := by
  induction h with
  | nil => rfl
  | cons a h ih =>
    rw [List.pairwise_cons] at sorted
    rw [List.forall_mem_cons] at bound
    rcases Nat.lt_or_eq_of_le (Nat.le_of_lt_succ bound.1) with hlt | heq
    · rw [List.filter_cons_of_pos (by simpa using hlt), List.filter_cons_of_neg (by simp; omega),
        List.cons_append, ← ih sorted.2 bound.2]
    · -- nothing behind an entry of the last block is of an earlier one
      have hall : ∀ b ∈ h, key b = n := fun b hb => by
        have := sorted.1 b hb
        have := bound.2 b hb
        omega
      have hnone : h.filter (fun a => key a < n) = [] :=
        List.filter_eq_nil_iff.mpr fun b hb => by simp [hall b hb]
      have hsame : h.filter (fun a => key a = n) = h :=
        List.filter_eq_self.mpr fun b hb => by simp [hall b hb]
      rw [List.filter_cons_of_neg (by simp; omega), List.filter_cons_of_pos (by simpa using heq),
        hnone, hsame, List.nil_append]

/-- **A history in the order of its keys is its blocks**, one behind the other. -/
theorem eq_blocks {key : α → Nat} {n : Nat} {h : List α}
    (sorted : h.Pairwise fun a b => key a ≤ key b) (bound : ∀ a ∈ h, key a < n) :
    h = (List.range n).flatMap fun k => h.filter fun a => key a = k := by
  induction n generalizing h with
  | zero => exact List.eq_nil_iff_forall_not_mem.mpr fun a ha => absurd (bound a ha) (Nat.not_lt_zero _)
  | succ n ih =>
    have hearlier := ih (sorted.sublist List.filter_sublist)
      (h := h.filter fun a => key a < n) fun a ha => by simpa using (List.mem_filter.mp ha).2
    have hblock : ∀ k ∈ List.range n, (h.filter fun a => key a < n).filter (fun a => key a = k) =
        h.filter fun a => key a = k := by
      intro k hk
      rw [List.filter_filter]
      refine List.filter_congr fun a _ => ?_
      have := List.mem_range.mp hk
      by_cases he : key a = k <;> simp [he, this]
    rw [List.range_succ, List.flatMap_append, List.flatMap_singleton,
      ← List.flatMap_congr hblock, ← hearlier]
    exact split_last_block sorted bound

end History
