import Mathlib.Logic.Basic

/-!
# Computations that may fail

What an `Except` that ends well says of its parts: of a bind and a map, of the
values of a `mapM`, and of a `foldlM` whose rounds each add something to what
holds of the state; when a `mapM` and a `foldlM` end well; and what holds of the
error that ends a computation (`FailsWith`).
-/

namespace Except

universe u

variable {ε : Type*} {α β σ : Type u} {γ : Type*}

@[simp] theorem bind_eq_ok {x : Except ε α} {f : α → Except ε β} {b : β} :
    (x >>= f) = .ok b ↔ ∃ a, x = .ok a ∧ f a = .ok b := by
  cases x <;> simp [bind, Except.bind]

@[simp] theorem map_eq_ok {x : Except ε α} {f : α → β} {b : β} :
    f <$> x = .ok b ↔ ∃ a, x = .ok a ∧ f a = b := by
  cases x <;> simp [Functor.map, Except.map]

@[simp] theorem pure_eq_ok {a b : α} : (pure a : Except ε α) = .ok b ↔ a = b := by
  simp [pure, Except.pure]

@[simp] theorem throw_eq_ok {e : ε} {a : α} : ¬(throw e : Except ε α) = .ok a := nofun

theorem mem_mapM {f : α → Except ε β} {xs : List α} {ys : List β} (h : xs.mapM f = .ok ys) {y : β} :
    y ∈ ys ↔ ∃ x ∈ xs, f x = .ok y := by
  induction xs generalizing ys with
  | nil =>
    rw [List.mapM_nil, pure_eq_ok] at h
    simp [← h]
  | cons x xs ih =>
    rw [List.mapM_cons] at h
    obtain ⟨y', hy', h⟩ := bind_eq_ok.mp h
    obtain ⟨rest, hrest, h⟩ := bind_eq_ok.mp h
    obtain rfl := pure_eq_ok.mp h
    simp only [List.mem_cons, ih hrest, exists_eq_or_imp, hy', Except.ok.injEq, @eq_comm _ y]

/-- A `mapM` ends well when every element does. -/
theorem exists_mapM {f : α → Except ε β} {xs : List α} :
    (∃ ys, xs.mapM f = .ok ys) ↔ ∀ x ∈ xs, ∃ y, f x = .ok y := by
  induction xs with
  | nil => simp [List.mapM_nil]
  | cons x xs ih =>
    rw [List.forall_mem_cons, ← ih, List.mapM_cons]
    simp only [bind_eq_ok, pure_eq_ok]
    constructor
    · rintro ⟨_, y, hy, ys, hys, _⟩
      exact ⟨⟨y, hy⟩, ys, hys⟩
    · rintro ⟨⟨y, hy⟩, ys, hys⟩
      exact ⟨_, y, hy, ys, hys, rfl⟩

/-- A `foldlM` ends well when every element does, if no element minds the state. -/
theorem exists_foldlM {f : σ → α → Except ε σ} {ends : α → Prop} {xs : List α} {s : σ}
    (round : ∀ x ∈ xs, ∀ s, (∃ s', f s x = .ok s') ↔ ends x) :
    (∃ s', xs.foldlM f s = .ok s') ↔ ∀ x ∈ xs, ends x := by
  induction xs generalizing s with
  | nil => simp [List.foldlM_nil]
  | cons x xs ih =>
    rw [List.forall_mem_cons] at round ⊢
    rw [List.foldlM_cons, ← round.1 s]
    simp only [bind_eq_ok]
    constructor
    · rintro ⟨s', mid, hmid, h⟩
      exact ⟨⟨mid, hmid⟩, (ih round.2).mp ⟨s', h⟩⟩
    · rintro ⟨⟨mid, hmid⟩, hrest⟩
      obtain ⟨s', h⟩ := (ih (s := mid) round.2).mpr hrest
      exact ⟨s', mid, hmid, h⟩

/-- Each round adds what its element adds, so the run adds what some element adds. -/
theorem foldlM_adds {f : σ → α → Except ε σ} {holds : σ → γ → Prop} {adds : α → γ → Prop}
    {xs : List α} {s s' : σ}
    (round : ∀ x ∈ xs, ∀ s s', f s x = .ok s' → ∀ c, holds s' c ↔ holds s c ∨ adds x c)
    (h : xs.foldlM f s = .ok s') (c : γ) : holds s' c ↔ holds s c ∨ ∃ x ∈ xs, adds x c := by
  induction xs generalizing s with
  | nil =>
    rw [List.foldlM_nil, pure_eq_ok] at h
    simp [h]
  | cons x xs ih =>
    rw [List.foldlM_cons] at h
    obtain ⟨mid, hmid, h⟩ := bind_eq_ok.mp h
    rw [List.forall_mem_cons] at round
    simp only [ih round.2 h, round.1 _ _ hmid, List.mem_cons, exists_eq_or_imp, or_assoc]

/-! ## Errors -/

/-- The error that ends the computation, if one does, is as `P` says. -/
def FailsWith (P : ε → Prop) (x : Except ε α) : Prop := ∀ e, x = .error e → P e

namespace FailsWith

variable {P : ε → Prop}

theorem ok (a : α) : FailsWith P (.ok a : Except ε α) := fun _ h => nomatch h

theorem error {e : ε} (h : P e) : FailsWith P (.error e : Except ε α) := by
  rintro _ ⟨⟩
  exact h

theorem bind {x : Except ε α} {f : α → Except ε β} (hx : FailsWith P x)
    (hf : ∀ a, x = .ok a → FailsWith P (f a)) : FailsWith P (x >>= f) := by
  cases x with
  | error e => exact .error (hx e rfl)
  | ok a => exact hf a rfl

theorem map {x : Except ε α} {f : α → β} (hx : FailsWith P x) : FailsWith P (f <$> x) := by
  cases x with
  | error e => exact .error (hx e rfl)
  | ok a => exact .ok (f a)

theorem foldlM {f : σ → α → Except ε σ} {xs : List α} {s : σ}
    (h : ∀ x ∈ xs, ∀ s, FailsWith P (f s x)) : FailsWith P (xs.foldlM f s) := by
  induction xs generalizing s with
  | nil => exact .ok s
  | cons x xs ih =>
    rw [List.forall_mem_cons] at h
    rw [List.foldlM_cons]
    exact (h.1 s).bind fun _ _ => ih h.2

end FailsWith

end Except
