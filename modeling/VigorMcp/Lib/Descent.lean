import Mathlib.Data.List.Perm.Basic
import Mathlib.Logic.Hydra
import VigorMcp.Lib.Interaction

/-!
# Descent

Why a run gets somewhere. `WeaklyFair move run` says that a run makes a move of
a kind if one stays possible; where every such move descends in a well-founded
order and no other step climbs, the run reaches the goal the moves lead to
(`WeaklyFair.reaches`). Two orders to descend in: a list of which one component
gets smaller, and a program of which a call was answered.
-/

namespace Descent

variable {σ β : Type*} {r : β → β → Prop} {move : σ → σ → Prop} {run : Nat → σ}

/-- If a move stays possible, one is made. -/
def WeaklyFair (move : σ → σ → Prop) (run : Nat → σ) : Prop :=
  ∀ i, (∀ j, i ≤ j → ∃ s, move (run j) s) → ∃ j, i ≤ j ∧ move (run j) (run (j + 1))

/-- **The rule for fair runs**: while the goal is not reached a move is possible, moves descend and
other steps do not climb. -/
theorem WeaklyFair.reaches (fair : WeaklyFair move run) (wf : WellFounded r) (measure : σ → β)
    {goal : σ → Prop} {start : Nat}
    (enabled : ∀ i, start ≤ i → ¬goal (run i) → ∃ s, move (run i) s)
    (descends : ∀ i, start ≤ i → ¬goal (run i) →
      r (measure (run (i + 1))) (measure (run i)) ∨
        ¬move (run i) (run (i + 1)) ∧ measure (run (i + 1)) = measure (run i)) :
    ∃ i, start ≤ i ∧ goal (run i) := by
  by_contra hnever
  have never : ∀ i, start ≤ i → ¬goal (run i) := fun i hi hgoal => hnever ⟨i, hi, hgoal⟩
  -- no value of the measure is taken on the way
  have absent : ∀ b, ∀ i, start ≤ i → measure (run i) ≠ b := by
    intro b
    induction b using wf.induction with
    | _ b ih =>
      intro i hi hb
      have hstill : ∀ j, start ≤ j → measure (run j) = b →
          ¬move (run j) (run (j + 1)) ∧ measure (run (j + 1)) = b := by
        intro j hj hm
        rcases descends j hj (never j hj) with hless | ⟨hno, hsame⟩
        · exact absurd rfl (ih _ (hm ▸ hless) (j + 1) (Nat.le_succ_of_le hj))
        · exact ⟨hno, hsame.trans hm⟩
      have hsame : ∀ j, i ≤ j → measure (run j) = b := by
        intro j hj
        induction hj with
        | refl => exact hb
        | @step j hj hm => exact (hstill j (Nat.le_trans hi hj) hm).2
      obtain ⟨j, hj, hmove⟩ := fair i fun j hj =>
        enabled j (Nat.le_trans hi hj) (never j (Nat.le_trans hi hj))
      exact (hstill j (Nat.le_trans hi hj) (hsame j hj)).1 hmove
  exact absent _ start (Nat.le_refl _) rfl

/-! ## Lists -/

section

variable {α : Type*} {r : α → α → Prop} {l l' : List α}

/-- One component of the list got smaller. -/
def OneLess (r : α → α → Prop) (l' l : List α) : Prop :=
  ∃ k a a', l[k]? = some a ∧ r a' a ∧ l' = l.set k a'

theorem OneLess.cutExpand (h : OneLess r l' l) : Relation.CutExpand r (l' : Multiset α) l := by
  obtain ⟨k, a, a', hk, hr, rfl⟩ := h
  obtain ⟨hlt, rfl⟩ := List.getElem?_eq_some_iff.mp hk
  have hset : ((l.set k a' : List α) : Multiset α) = ↑(l.eraseIdx k) + {a'} := by
    rw [Multiset.coe_eq_coe.mpr (List.set_perm_cons_eraseIdx hlt a'), ← Multiset.cons_coe,
      ← Multiset.singleton_add, add_comm]
  have hself : (l : Multiset α) = ↑(l.eraseIdx k) + {l[k]} := by
    rw [← Multiset.coe_eq_coe.mpr (List.getElem_cons_eraseIdx_perm hlt), ← Multiset.cons_coe,
      ← Multiset.singleton_add, add_comm]
  rw [hset, hself]
  exact Relation.cutExpand_add_single _ hr

theorem OneLess.wf (h : WellFounded r) : WellFounded (OneLess r) :=
  Subrelation.wf (fun hless => OneLess.cutExpand hless) (InvImage.wf _ h.cutExpand)

end

/-! ## Programs -/

section

variable {I : Interface} {ε α : Type}

/-- `p'` is what is left of `p` after the answer to its first call. -/
def Answered (p' p : Prog I ε α) : Prop := ∃ o next a, p = .ask o next ∧ p' = next a

theorem Answered.wf : WellFounded (Answered (I := I) (ε := ε) (α := α)) := by
  refine ⟨fun p => ?_⟩
  induction p with
  | ret a => exact ⟨_, fun _ ⟨_, _, _, h, _⟩ => by cases h⟩
  | raise e => exact ⟨_, fun _ ⟨_, _, _, h, _⟩ => by cases h⟩
  | ask o next ih =>
    refine ⟨_, ?_⟩
    rintro _ ⟨_, _, a, h, rfl⟩
    cases h
    exact ih a

end

end Descent
