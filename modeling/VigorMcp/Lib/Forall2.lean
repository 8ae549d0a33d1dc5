import Mathlib.Data.List.Forall2

/-!
# Lists side by side

Two lists related element by element: an element of one has its partner in the
other, and what holds of all or of some elements of one can be told from the
other.
-/

namespace List.Forall₂

variable {α β : Type*} {R : α → β → Prop} {xs : List α} {ys : List β}

theorem mem_right (h : List.Forall₂ R xs ys) {y : β} (hy : y ∈ ys) : ∃ x ∈ xs, R x y := by
  induction h with
  | nil => cases hy
  | cons hxy _ ih =>
    rcases List.mem_cons.mp hy with rfl | hy
    · exact ⟨_, List.mem_cons_self, hxy⟩
    · obtain ⟨x, hx, hr⟩ := ih hy
      exact ⟨x, List.mem_cons_of_mem _ hx, hr⟩

theorem mem_left (h : List.Forall₂ R xs ys) {x : α} (hx : x ∈ xs) : ∃ y ∈ ys, R x y :=
  h.flip.mem_right hx

theorem exists_iff (h : List.Forall₂ R xs ys) {p : α → Prop} {q : β → Prop}
    (hpq : ∀ x ∈ xs, ∀ y, R x y → (q y ↔ p x)) : (∃ y ∈ ys, q y) ↔ ∃ x ∈ xs, p x := by
  constructor
  · rintro ⟨y, hy, hq⟩
    obtain ⟨x, hx, hr⟩ := h.mem_right hy
    exact ⟨x, hx, (hpq x hx y hr).mp hq⟩
  · rintro ⟨x, hx, hp⟩
    obtain ⟨y, hy, hr⟩ := h.mem_left hx
    exact ⟨y, hy, (hpq x hx y hr).mpr hp⟩

theorem forall_iff (h : List.Forall₂ R xs ys) {p : α → Prop} {q : β → Prop}
    (hpq : ∀ x ∈ xs, ∀ y, R x y → (q y ↔ p x)) : (∀ y ∈ ys, q y) ↔ ∀ x ∈ xs, p x := by
  constructor
  · intro hall x hx
    obtain ⟨y, hy, hr⟩ := h.mem_left hx
    exact (hpq x hx y hr).mp (hall y hy)
  · intro hall y hy
    obtain ⟨x, hx, hr⟩ := h.mem_right hy
    exact (hpq x hx y hr).mpr (hall x hx)

theorem right_unique {zs : List β} (h : List.Forall₂ R xs ys) (h' : List.Forall₂ R xs zs)
    (unique : ∀ x ∈ xs, ∀ y z, R x y → R x z → y = z) : ys = zs := by
  induction h generalizing zs with
  | nil =>
    cases h'
    rfl
  | cons hxy _ ih =>
    cases h' with
    | cons hxz hrest =>
      rw [List.forall_mem_cons] at unique
      rw [unique.1 _ _ hxy hxz, ih hrest unique.2]

end List.Forall₂
