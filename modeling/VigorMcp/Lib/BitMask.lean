import Mathlib.Data.Nat.Factorization.Basic
import Mathlib.Tactic.Ring

/-!
# Contiguous bit masks

A mask of `w` bits is contiguous when ones come first and zeros follow. Filling the zeros behind
the last one (`m ||| (m - 1)`) then gives all ones, and does so for no other mask
(`or_pred_eq_iff`).
-/

namespace BitMask

/-- Ones down to the bit `k`, zeros below. -/
def Contiguous (w m : Nat) : Prop := ∃ k ≤ w, m = 2 ^ w - 2 ^ (w - k)

/-- The zeros behind the last one are filled. -/
theorem or_pred (q j : Nat) :
    2 ^ j * (2 * q + 1) ||| (2 ^ j * (2 * q + 1) - 1) = 2 ^ j * (2 * q + 1) + (2 ^ j - 1) := by
  have hpow := Nat.two_pow_pos j
  have hlt : 2 ^ j < 2 ^ (j + 1) := Nat.pow_lt_pow_right (by decide) (Nat.lt_succ_self j)
  have hm : 2 ^ j * (2 * q + 1) = 2 ^ (j + 1) * q + 2 ^ j := by ring
  have hpred : 2 ^ j * (2 * q + 1) - 1 = 2 ^ (j + 1) * q + (2 ^ j - 1) := by omega
  have hlow : 2 ^ j ||| (2 ^ j - 1) = 2 ^ j + (2 ^ j - 1) := by
    have := Nat.two_pow_add_eq_or_of_lt (by omega : 2 ^ j - 1 < 2 ^ j) 1
    rwa [Nat.mul_one, eq_comm] at this
  calc 2 ^ j * (2 * q + 1) ||| (2 ^ j * (2 * q + 1) - 1)
      = (2 ^ (j + 1) * q ||| 2 ^ j) ||| (2 ^ (j + 1) * q ||| (2 ^ j - 1)) := by
        rw [hpred, hm, Nat.two_pow_add_eq_or_of_lt hlt,
          Nat.two_pow_add_eq_or_of_lt (by omega : 2 ^ j - 1 < 2 ^ (j + 1))]
    _ = 2 ^ (j + 1) * q ||| (2 ^ j ||| (2 ^ j - 1)) := by
        rw [Nat.or_assoc, Nat.or_comm (2 ^ j), Nat.or_assoc, ← Nat.or_assoc, Nat.or_self,
          Nat.or_comm (2 ^ j - 1)]
    _ = 2 ^ (j + 1) * q + (2 ^ j + (2 ^ j - 1)) := by
        rw [hlow, Nat.two_pow_add_eq_or_of_lt (by omega)]
    _ = 2 ^ j * (2 * q + 1) + (2 ^ j - 1) := by omega

/-- The last one of a contiguous mask is where the zeros below it begin. -/
theorem last_one_unique {i j q w : Nat} (hi : i < w) (h : 2 ^ j * (2 * q + 1) + 2 ^ i = 2 ^ w) :
    i = j := by
  have hpos (n : Nat) := Nat.two_pow_pos n
  rcases lt_trichotomy i j with hij | rfl | hij
  · -- all but the ones digit of the sum would end below the bit `i`
    obtain ⟨t, rfl⟩ := Nat.exists_eq_add_of_lt hij
    obtain ⟨u, rfl⟩ := Nat.exists_eq_add_of_lt hi
    have hsum : 2 ^ i * (2 * (2 ^ t * (2 * q + 1)) + 1) = 2 ^ i * (2 * 2 ^ u) := by
      rw [← show 2 ^ (i + u + 1) = 2 ^ i * (2 * 2 ^ u) by ring, ← h]
      ring
    have := Nat.eq_of_mul_eq_mul_left (hpos i) hsum
    omega
  · rfl
  · obtain ⟨t, rfl⟩ := Nat.exists_eq_add_of_lt hij
    obtain ⟨u, rfl⟩ := Nat.exists_eq_add_of_lt hi
    have hsum : 2 ^ j * (2 * q + 1 + 2 * 2 ^ t) = 2 ^ j * (2 * 2 ^ (t + 1 + u)) := by
      rw [← show 2 ^ (j + t + 1 + u + 1) = 2 ^ j * (2 * 2 ^ (t + 1 + u)) by ring, ← h]
      ring
    have := Nat.eq_of_mul_eq_mul_left (hpos j) hsum
    omega

variable {m w : Nat}

/-- **The test for a contiguous mask**: filling the zeros behind the last one gives all ones. -/
theorem or_pred_eq_iff (hm : 0 < m) : m ||| (m - 1) = 2 ^ w - 1 ↔ Contiguous w m := by
  obtain ⟨j, odd, ⟨q, rfl⟩, rfl⟩ := Nat.exists_eq_two_pow_mul_odd hm.ne'
  have hj := Nat.two_pow_pos j
  have hw := Nat.two_pow_pos w
  rw [or_pred]
  constructor
  · intro h
    have hsum : 2 ^ j * (2 * q + 1) + 2 ^ j = 2 ^ w := by omega
    have hle : j ≤ w := by
      refine (Nat.pow_le_pow_iff_right (by decide : 1 < 2)).mp ?_
      omega
    exact ⟨w - j, Nat.sub_le _ _, by rw [Nat.sub_sub_self hle]; omega⟩
  · rintro ⟨k, hk, h⟩
    have hkpos : 0 < k := by
      refine Nat.pos_of_ne_zero ?_
      rintro rfl
      simp at h
    have hle : 2 ^ (w - k) ≤ 2 ^ w := Nat.pow_le_pow_right (by decide) (Nat.sub_le _ _)
    have hsum : 2 ^ j * (2 * q + 1) + 2 ^ (w - k) = 2 ^ w := by omega
    have hlast : w - k = j := last_one_unique (by omega) hsum
    rw [hlast] at h hle
    omega

end BitMask
