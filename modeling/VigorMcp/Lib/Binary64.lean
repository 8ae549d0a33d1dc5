import Mathlib

/-!
# Integers in binary64

`Float.Model` is Lean's own model of the binary64 format. An integer of magnitude below `2 ^ 53` is
one of its numbers exactly: `scaled` is its form, which rounding produces from every way to write
the integer as a mantissa and an exponent (`round_scaled`). So reading an integer off
(`toInt_ofInt`), negating, comparing and subtracting are exact on these integers, and a decimal
number rounds to one of them only when it is one (`ofScientific_eq_ofInt_iff`).
-/

namespace Binary64

open Float.Model Float.Model.UnpackedFloat

/-! ## Shifts and exponents -/

theorem repeat_shiftRightOne_exact (q k : Nat) :
    k.repeat ExtendedMantissa.shiftRightOne ⟨q * 2 ^ k, false, false⟩ = ⟨q, false, false⟩ := by
  induction k generalizing q with
  | zero => simp [Nat.repeat]
  | succ k ih =>
    have hq : q * 2 ^ (k + 1) = (2 * q) * 2 ^ k := by
      rw [Nat.pow_succ]
      grind
    rw [Nat.repeat, hq, ih]
    simp [ExtendedMantissa.shiftRightOne]

theorem mantissa_repeat_shiftRightOne (em : ExtendedMantissa) (k : Nat) :
    (k.repeat ExtendedMantissa.shiftRightOne em).mantissa = em.mantissa / 2 ^ k := by
  induction k with
  | zero => simp [Nat.repeat]
  | succ k ih =>
    rw [Nat.repeat, Nat.pow_succ, ← Nat.div_div_eq_div_mul, ← ih]
    rfl

theorem targetExponent_eq (m : Nat) (e : Int) :
    Format.binary64.targetExponent (totalExponent m e) = max (m.log2 + e - 52) (-1074) := by
  have hmin : Format.binary64.minExponent = -1074 := by decide
  have hbits : (Format.binary64.mantissaBits : Int) = 53 := by decide
  simp only [Format.targetExponent, totalExponent, hmin, hbits]
  omega

theorem log2_mul_two_pow {m : Nat} (hm : 0 < m) (k : Nat) : (m * 2 ^ k).log2 = m.log2 + k := by
  induction k with
  | zero => simp
  | succ k ih =>
    have hne : m * 2 ^ k ≠ 0 := (Nat.mul_pos hm (Nat.two_pow_pos k)).ne'
    rw [Nat.pow_succ, ← Nat.mul_assoc, Nat.mul_comm _ 2, Nat.log2_two_mul hne, ih]
    rfl

theorem log2_eq_52 {q : Nat} (hlo : 2 ^ 52 ≤ q) (hhi : q < 2 ^ 53) : q.log2 = 52 :=
  (Nat.log2_eq_iff (by omega)).mpr ⟨hlo, hhi⟩

/-! ## Rounding -/

/-- A mantissa of 53 bits loses the zeros behind it, and nothing else. -/
theorem shiftToTargetExponent_exact {q : Nat} (hlo : 2 ^ 52 ≤ q) (hhi : q < 2 ^ 53) (k : Nat)
    {e : Int} (he : -1074 ≤ e + k) :
    shiftToTargetExponent .binary64 (q * 2 ^ k) e .exact = (⟨q, false, false⟩, e + k) := by
  have hshift : ((max ((52 + k : Nat) + e - 52) (-1074) - e : Int)).toNat = k := by omega
  simp only [shiftToTargetExponent, shiftToExponent, targetExponent_eq,
    log2_mul_two_pow (by omega : 0 < q), log2_eq_52 hlo hhi, hshift, HShiftRight.hShiftRight,
    ExtendedMantissa.ofMantissaAndAccuracy, repeat_shiftRightOne_exact]

theorem roundWithAccuracy_exact (s : Sign) {q : Nat} (hlo : 2 ^ 52 ≤ q) (hhi : q < 2 ^ 53)
    (k : Nat) {e : Int} (he : -1074 ≤ e + k) :
    roundWithAccuracy .binary64 s (q * 2 ^ k) e .exact = .finite s q (e + k) (by omega) := by
  have hstay := shiftToTargetExponent_exact hlo hhi 0 (e := e + k) (by omega)
  rw [Nat.pow_zero, Nat.mul_one, Int.natCast_zero, Int.add_zero] at hstay
  simp only [roundWithAccuracy, shiftToTargetExponent_exact hlo hhi k he,
    ExtendedMantissa.roundedMantissa, ExtendedMantissa.accuracy, Accuracy.roundToNearestEven, hstay,
    dif_neg (by omega : ¬ q = 0)]

/-- The mantissa of `m` filled up to 53 bits. -/
def significand (m : Nat) : Nat := m * 2 ^ (52 - m.log2)

section

variable {m : Nat}

theorem log2_le_52 (h : m < 2 ^ 53) : m.log2 ≤ 52 := by
  by_cases hm : m = 0
  · simp [hm]
  · exact Nat.lt_succ_iff.mp ((Nat.log2_lt hm).mpr h)

theorem le_significand (hm : 0 < m) (h : m < 2 ^ 53) : 2 ^ 52 ≤ significand m := by
  have hlog := log2_le_52 h
  calc 2 ^ 52 = 2 ^ m.log2 * 2 ^ (52 - m.log2) := by rw [← Nat.pow_add]; congr 1; omega
    _ ≤ significand m := Nat.mul_le_mul_right _ (Nat.log2_self_le hm.ne')

theorem significand_lt (h : m < 2 ^ 53) : significand m < 2 ^ 53 := by
  have hlog := log2_le_52 h
  calc significand m < 2 ^ (m.log2 + 1) * 2 ^ (52 - m.log2) :=
        Nat.mul_lt_mul_of_pos_right Nat.lt_log2_self (Nat.two_pow_pos _)
    _ = 2 ^ 53 := by rw [← Nat.pow_add]; congr 1; omega

theorem significand_pos (hm : 0 < m) : 0 < significand m := Nat.mul_pos hm (Nat.two_pow_pos _)

/-- `m` as a number of the format. -/
def scaled (s : Sign) (m : Nat) (hm : 0 < m) : UnpackedFloat :=
  .finite s (significand m) (m.log2 - 52) (significand_pos hm)

/-- An integer written with more zeros than its significand has is cut back to it. -/
theorem roundWithAccuracy_scaled (s : Sign) (hm : 0 < m) (h : m < 2 ^ 53) {j : Nat}
    (hj : 52 - m.log2 ≤ j) :
    roundWithAccuracy .binary64 s (m * 2 ^ j) (-j) .exact = scaled s m hm := by
  have hlog := log2_le_52 h
  have hsplit : m * 2 ^ j = significand m * 2 ^ (j - (52 - m.log2)) := by
    rw [significand, Nat.mul_assoc, ← Nat.pow_add]
    congr 2
    omega
  rw [hsplit, roundWithAccuracy_exact s (le_significand hm h) (significand_lt h) _ (by omega)]
  unfold scaled
  congr 1
  omega

/-- Rounding finds the form of an integer, whatever zeros it is written with. -/
theorem round_scaled (s : Sign) (hm : 0 < m) (h : m < 2 ^ 53) (j : Nat) :
    UnpackedFloat.round .binary64 s (m * 2 ^ j) (-j) = scaled s m hm := by
  have hlog := log2_le_52 h
  have hshift : ((-j : Int) - max ((m.log2 + j : Nat) + (-j : Int) - 52) (-1074)).toNat =
      52 - m.log2 - j := by omega
  rw [UnpackedFloat.round, targetExponent_eq, log2_mul_two_pow hm, decreaseExponent, hshift,
    Nat.shiftLeft_eq, Nat.mul_assoc, ← Nat.pow_add]
  have hexponent : (-j : Int) - (52 - m.log2 - j : Nat) = -(j + (52 - m.log2 - j) : Nat) := by omega
  simp only [hexponent]
  exact roundWithAccuracy_scaled s hm h (by omega)

end

/-! ## Packing -/

theorem toNat_one_append (v : BitVec 52) : (1#1 ++ v).toNat = 2 ^ 52 + v.toNat := by
  rw [BitVec.toNat_append, ← Nat.shiftLeft_add_eq_or_of_lt v.isLt, Nat.shiftLeft_eq]
  simp

/-- The exponent of a number with 53 bits, shifted to start at 1, is none of the two that stand for
the other numbers. -/
theorem biased_exponent {k : Nat} (hpos : 0 < k) (h : k < 2047) :
    (BitVec.ofNat 11 k).toNat = k ∧ BitVec.ofNat 11 k ≠ -1#11 ∧ BitVec.ofNat 11 k ≠ 0#11 := by
  have hval : (BitVec.ofNat 11 k).toNat = k := by
    rw [BitVec.toNat_ofNat, Nat.mod_eq_of_lt (by omega)]
  refine ⟨hval, fun hlast => ?_, fun hfirst => ?_⟩
  · rw [hlast, show (-1#11).toNat = 2047 from rfl] at hval
    omega
  · rw [hfirst, show (0#11).toNat = 0 from rfl] at hval
    omega

/-- What packing keeps of a number with 53 bits: all of it, unless its exponent is too large. -/
theorem unpack_pack_finite (s : Sign) {q : Nat} (hlo : 2 ^ 52 ≤ q) (hhi : q < 2 ^ 53) {e : Int}
    (he : -1074 ≤ e) :
    UnpackedFloat.unpack .binary64 (UnpackedFloat.pack .binary64 (.finite s q e (by omega))) =
      if e ≤ 971 then .finite s q e (by omega) else .infinity s := by
  have hlog := log2_eq_52 hlo hhi
  have hbias : (e + Format.binary64.exponentBias +
      Format.binary64.mantissaBitsWithoutImplicit).toNat = (e + 1075).toNat := by
    rw [show Format.binary64.exponentBias = 1023 by decide,
      show Format.binary64.mantissaBitsWithoutImplicit = 52 from rfl]
    omega
  rw [UnpackedFloat.pack]
  simp only [hlog, hbias]
  by_cases hfits : e ≤ 971
  · obtain ⟨hexponent, hlast, hfirst⟩ :=
      biased_exponent (k := (e + 1075).toNat) (by omega) (by omega)
    have hmantissa : (1#1 ++ BitVec.ofNat 52 q).toNat = q := by
      rw [toNat_one_append, BitVec.toNat_ofNat]
      omega
    rw [if_neg (by omega), if_pos (show 52 + 1 = Format.binary64.mantissaBits from rfl),
      if_pos hfits, UnpackedFloat.unpack]
    simp only [unpackMantissa_packComponents, unpackExponent_packComponents,
      unpackSign_packComponents, Sign.ofBitVec_toBitVec]
    rw [if_neg hlast, if_neg hfirst]
    have hback : ((BitVec.ofNat 11 (e + 1075).toNat).toNat : Int) - (1023 + 52) = e := by
      rw [hexponent]
      omega
    simp only [UnpackedFloat.finite.injEq, true_and]
    exact ⟨hmantissa, hback⟩
  · rw [if_pos (by omega), if_neg hfits, UnpackedFloat.unpack, packedInfinity]
    simp only [unpackMantissa_packComponents, unpackExponent_packComponents,
      unpackSign_packComponents, Sign.ofBitVec_toBitVec]
    rfl

/-! ## Integers -/

def signOf (n : Int) : Sign := if n < 0 then .negative else .positive

/-- An integer as a number of the format. -/
def intForm (n : Int) : UnpackedFloat :=
  if h : n = 0 then .zero .positive else scaled (signOf n) n.natAbs (Int.natAbs_pos.mpr h)

variable {n : Int}

theorem apply_signOf (n : Int) : (signOf n).apply n.natAbs = n := by
  unfold signOf
  split
  · show -(n.natAbs : Int) = n
    omega
  · show (n.natAbs : Int) = n
    omega

theorem apply_mul_two_pow (n : Int) (j : Nat) :
    (signOf n).apply ((n.natAbs * 2 ^ j : Nat) : Int) = n * 2 ^ j := by
  have hmul (s : Sign) (a b : Int) : s.apply (a * b) = s.apply a * b := by
    cases s
    · exact (Int.neg_mul a b).symm
    · rfl
  rw [Int.natCast_mul, hmul, apply_signOf]
  push_cast
  rfl

theorem normalize_form (h : n.natAbs < 2 ^ 53) (j : Nat) :
    UnpackedFloat.normalize .binary64 (n * 2 ^ j) (-j) .positive = intForm n := by
  have hpow : (0 : Int) < 2 ^ j := by positivity
  have habs (m : Nat) : ((m : Int) * 2 ^ j).toNat = m * 2 ^ j := by
    have hcast : (m : Int) * 2 ^ j = (m * 2 ^ j : Nat) := by push_cast; rfl
    rw [hcast, Int.toNat_natCast]
  rcases lt_trichotomy n 0 with hn | rfl | hn
  · have hcmp : compare (n * 2 ^ j) 0 = .lt :=
      compare_lt_iff_lt.mpr (Int.mul_neg_of_neg_of_pos hn hpow)
    have hm : -(n * 2 ^ j) = (n.natAbs : Int) * 2 ^ j := by
      rw [← Int.neg_mul]
      congr 1
      omega
    rw [UnpackedFloat.normalize, hcmp]
    simp only [hm, habs, round_scaled .negative (by omega : 0 < n.natAbs) h, intForm, hn.ne, signOf,
      if_pos hn, dite_false]
  · simp [UnpackedFloat.normalize, intForm]
  · have hcmp : compare (n * 2 ^ j) 0 = .gt := compare_gt_iff_gt.mpr (Int.mul_pos hn hpow)
    have hm : n * 2 ^ j = (n.natAbs : Int) * 2 ^ j := by
      congr 1
      omega
    rw [UnpackedFloat.normalize, hcmp]
    simp only [hm, habs, round_scaled .positive (by omega : 0 < n.natAbs) h, intForm, hn.ne',
      signOf, if_neg (not_lt_of_gt hn), dite_false]

theorem ofInt_eq (h : n.natAbs < 2 ^ 53) : Float.Model.ofInt n = Float.Model.pack (intForm n) := by
  have hform := normalize_form h 0
  rw [Int.pow_zero, Int.mul_one] at hform
  exact congrArg Float.Model.pack hform

theorem unpack_pack_intForm (h : n.natAbs < 2 ^ 53) :
    (Float.Model.pack (intForm n)).unpack = intForm n := by
  show UnpackedFloat.unpack .binary64 (UnpackedFloat.pack .binary64 (intForm n)) = intForm n
  unfold intForm
  split
  · exact unpack_packedZero
  · next hn =>
    have hpos := Int.natAbs_pos.mpr hn
    have hlog := log2_le_52 h
    rw [scaled, unpack_pack_finite _ (le_significand hpos h) (significand_lt h) (by omega),
      if_pos (by omega)]

/-- **Small integers are numbers of the format.** -/
theorem unpack_ofInt (h : n.natAbs < 2 ^ 53) : (Float.Model.ofInt n).unpack = intForm n := by
  rw [ofInt_eq h, unpack_pack_intForm h]

/-! ## Operations on integers -/

theorem toInt_intForm (h : n.natAbs < 2 ^ 53) (a b : Int) : (intForm n).toInt a b = n := by
  unfold intForm
  split
  · next hn => exact hn.symm
  · have hlog := log2_le_52 h
    have hshift : (0 - (n.natAbs.log2 - 52 : Int)).toNat = 52 - n.natAbs.log2 := by omega
    have hstay : (n.natAbs.log2 - 52 : Int).toNat = 0 := by omega
    simp only [scaled, UnpackedFloat.toInt, roundToInt, decreaseExponent, shiftToExponent,
      Int.sub_zero, hstay, Nat.shiftLeft_zero, Int.natCast_zero, hshift, HShiftRight.hShiftRight,
      ExtendedMantissa.ofMantissaAndAccuracy, significand, repeat_shiftRightOne_exact]
    exact apply_signOf n

/-- Reading off an integer, whatever the infinities are sent to. -/
theorem toInt_ofInt (h : n.natAbs < 2 ^ 53) (a b : Int) :
    (Float.Model.ofInt n).unpack.toInt a b = n := by
  rw [unpack_ofInt h, toInt_intForm h]

theorem ofInt_inj {m : Int} (hn : n.natAbs < 2 ^ 53) (hm : m.natAbs < 2 ^ 53)
    (h : Float.Model.ofInt n = Float.Model.ofInt m) : n = m := by
  rw [← toInt_ofInt hn 0 0, h, toInt_ofInt hm]

theorem isFinite_ofInt (h : n.natAbs < 2 ^ 53) : (Float.Model.ofInt n).isFinite = true := by
  rw [Float.Model.isFinite, unpack_ofInt h, intForm]
  split <;> rfl

theorem neg_intForm (hn : n ≠ 0) : (intForm n).neg = intForm (-n) := by
  have hsign : signOf (-n) = -signOf n := by
    unfold signOf
    split <;> split <;> first | omega | rfl
  simp only [intForm, hn, neg_eq_zero, dite_false, scaled, UnpackedFloat.neg, hsign, Int.natAbs_neg]

theorem neg_ofInt (hn : n ≠ 0) (h : n.natAbs < 2 ^ 53) :
    -Float.Model.ofInt n = Float.Model.ofInt (-n) := by
  show Float.Model.pack (Float.Model.ofInt n).unpack.neg = _
  rw [unpack_ofInt h, neg_intForm hn, ofInt_eq (by rwa [Int.natAbs_neg])]

/-- The rational number a finite number stands for, without its sign. -/
def magnitude : UnpackedFloat → ℚ
  | .finite _ m e _ => m * 2 ^ e
  | _ => 0

theorem magnitude_intForm (h : n.natAbs < 2 ^ 53) : magnitude (intForm n) = n.natAbs := by
  unfold intForm
  split
  · next hn =>
    rw [hn]
    rfl
  · have hlog := log2_le_52 h
    have hexponent : (n.natAbs.log2 - 52 : Int) = -(52 - n.natAbs.log2 : Nat) := by omega
    simp only [scaled, magnitude, significand, hexponent, zpow_neg, zpow_natCast]
    push_cast
    rw [mul_assoc, mul_inv_cancel₀ (by positivity), mul_one]

/-- The rational number that a number stands for; an infinity stands for none. -/
def value (x : UnpackedFloat) : Option ℚ :=
  match x with
  | .zero _ => some 0
  | .finite .positive .. => some (magnitude x)
  | .finite .negative .. => some (-magnitude x)
  | _ => none

theorem value_intForm (h : n.natAbs < 2 ^ 53) : value (intForm n) = some (n : ℚ) := by
  have hmagnitude := magnitude_intForm h
  rcases lt_trichotomy n 0 with hn | rfl | hn
  · have hsign : signOf n = .negative := if_pos hn
    have habs : (n.natAbs : ℚ) = -n := by rw [Nat.cast_natAbs, abs_of_neg hn, Int.cast_neg]
    simp only [intForm, hn.ne, dite_false, scaled, hsign] at hmagnitude ⊢
    rw [value, hmagnitude, habs, neg_neg]
  · rfl
  · have hsign : signOf n = .positive := if_neg (by omega)
    have habs : (n.natAbs : ℚ) = n := by rw [Nat.cast_natAbs, abs_of_pos hn]
    simp only [intForm, hn.ne', dite_false, scaled, hsign] at hmagnitude ⊢
    rw [value, hmagnitude, habs]

theorem abs_ofInt (h : n.natAbs < 2 ^ 53) :
    (Float.Model.ofInt n).abs = Float.Model.ofInt n.natAbs := by
  rw [Float.Model.abs, unpack_ofInt h, ofInt_eq (by rwa [Int.natAbs_natCast])]
  by_cases hn : n = 0
  · subst hn
    rfl
  · have hsign : signOf n.natAbs = .positive := if_neg (by omega)
    have hne : (n.natAbs : Int) ≠ 0 := by omega
    simp only [intForm, hn, hne, dite_false, hsign, Int.natAbs_natCast]
    rfl

/-- The form of an integer is a number, and its zero is positive. -/
theorem intForm_ne (n : Int) : intForm n ≠ .notANumber ∧ intForm n ≠ .zero .negative := by
  unfold intForm scaled
  split <;> simp

theorem intForm_inj {m : Int} (hn : n.natAbs < 2 ^ 53) (hm : m.natAbs < 2 ^ 53) :
    intForm n = intForm m ↔ n = m := by
  constructor
  · intro h
    rw [← toInt_intForm hn 0 0, h, toInt_intForm hm 0 0]
  · rintro rfl
    rfl

theorem beq_ofInt {m : Int} (hn : n.natAbs < 2 ^ 53) (hm : m.natAbs < 2 ^ 53) :
    (Float.Model.ofInt n).beq (Float.Model.ofInt m) = decide (n = m) := by
  obtain ⟨hnumber, hnegative⟩ := intForm_ne n
  obtain ⟨hnumber', hnegative'⟩ := intForm_ne m
  rw [Float.Model.beq, unpack_ofInt hn, unpack_ofInt hm, Bool.eq_iff_iff, decide_eq_true_iff,
    beq_iff_ne_notANumber_and_eq, intForm_inj hn hm]
  simp [hnumber, hnegative, hnumber', hnegative']

theorem mul_two_pow_of_scaled {m : Nat} (h : m < 2 ^ 53) {j : Nat} (hj : 52 - m.log2 ≤ j) :
    significand m <<< ((m.log2 - 52 : Int) - -j).toNat = m * 2 ^ j := by
  have hlog := log2_le_52 h
  rw [Nat.shiftLeft_eq, significand, Nat.mul_assoc, ← Nat.pow_add]
  congr 2
  omega

/-- **Subtraction of small integers with a small difference is exact.** -/
theorem sub_ofInt {m : Int} (hn : n.natAbs < 2 ^ 53) (hm : m.natAbs < 2 ^ 53)
    (hsub : (n - m).natAbs < 2 ^ 53) :
    Float.Model.ofInt n - Float.Model.ofInt m = Float.Model.ofInt (n - m) := by
  show Float.Model.pack (UnpackedFloat.sub .binary64 (Float.Model.ofInt n).unpack
    (Float.Model.ofInt m).unpack) = _
  rw [unpack_ofInt hn, unpack_ofInt hm, ofInt_eq hsub]
  congr 1
  by_cases hn0 : n = 0
  · subst hn0
    by_cases hm0 : m = 0
    · subst hm0
      rfl
    · rw [Int.zero_sub, ← neg_intForm hm0]
      simp only [intForm, hm0, dite_false]
      rfl
  · by_cases hm0 : m = 0
    · subst hm0
      rw [Int.sub_zero]
      simp only [intForm, hn0, dite_false]
      rfl
    · have hlogn := log2_le_52 hn
      have hlogm := log2_le_52 hm
      obtain ⟨j, hj⟩ : ∃ j : Nat, min (n.natAbs.log2 - 52 : Int) (m.natAbs.log2 - 52) = -j :=
        ⟨(52 - min n.natAbs.log2 m.natAbs.log2 : Nat), by omega⟩
      simp only [intForm, hn0, hm0, dite_false, scaled, UnpackedFloat.sub, decreaseExponent, hj,
        mul_two_pow_of_scaled hn (by omega : 52 - n.natAbs.log2 ≤ j),
        mul_two_pow_of_scaled hm (by omega : 52 - m.natAbs.log2 ≤ j), apply_mul_two_pow,
        ← Int.sub_mul]
      rw [normalize_form hsub]
      rfl

/-! ## Decimal numbers -/

theorem roundedMantissa_cases (em : ExtendedMantissa) :
    em.roundedMantissa = em.mantissa ∨ em.roundedMantissa = em.mantissa + 1 := by
  obtain ⟨m, round, sticky⟩ := em
  cases round <;> cases sticky <;>
    simp only [ExtendedMantissa.roundedMantissa, ExtendedMantissa.accuracy,
      Accuracy.roundToNearestEven]
  · exact .inl trivial
  · exact .inl trivial
  · omega
  · exact .inr trivial

/-- A mantissa of 53 bits or more is shifted to 53 bits. -/
theorem shiftToTargetExponent_large {m : Nat} {e : Int} (hlog : 52 ≤ m.log2)
    (he : -1074 ≤ m.log2 + e - 52) :
    ∃ em : ExtendedMantissa, 2 ^ 52 ≤ em.mantissa ∧ em.mantissa < 2 ^ 53 ∧
      shiftToTargetExponent .binary64 m e .exact = (em, e + (m.log2 - 52 : Nat)) := by
  have hm : m ≠ 0 := by
    rintro rfl
    simp at hlog
  have hshift : ((max (m.log2 + e - 52) (-1074) - e : Int)).toNat = m.log2 - 52 := by omega
  refine ⟨(m.log2 - 52).repeat ExtendedMantissa.shiftRightOne ⟨m, false, false⟩, ?_, ?_, ?_⟩
  · rw [mantissa_repeat_shiftRightOne, Nat.le_div_iff_mul_le (Nat.two_pow_pos _), ← Nat.pow_add]
    show 2 ^ (52 + (m.log2 - 52)) ≤ m
    exact (Nat.pow_le_pow_right (by decide) (by omega)).trans (Nat.log2_self_le hm)
  · rw [mantissa_repeat_shiftRightOne, Nat.div_lt_iff_lt_mul (Nat.two_pow_pos _), ← Nat.pow_add]
    show m < 2 ^ (53 + (m.log2 - 52))
    exact Nat.lt_log2_self.trans_le (Nat.pow_le_pow_right (by decide) (by omega))
  · simp only [shiftToTargetExponent, shiftToExponent, targetExponent_eq, hshift,
      HShiftRight.hShiftRight, ExtendedMantissa.ofMantissaAndAccuracy]

/-- Rounding leaves 53 bits, and the exponent does not get smaller. -/
theorem roundWithAccuracy_large (s : Sign) {m : Nat} {e : Int} (hlog : 52 ≤ m.log2)
    (he : -1074 ≤ m.log2 + e - 52) :
    ∃ q e', ∃ hlo : 2 ^ 52 ≤ q, q < 2 ^ 53 ∧ m.log2 + e - 52 ≤ e' ∧
      roundWithAccuracy .binary64 s m e .exact = .finite s q e' (by omega) := by
  obtain ⟨em, hlo, hhi, hfirst⟩ := shiftToTargetExponent_large hlog he
  have hcases := roundedMantissa_cases em
  simp only [roundWithAccuracy, hfirst]
  by_cases hr : em.roundedMantissa < 2 ^ 53
  · have hstay := shiftToTargetExponent_exact (by omega : 2 ^ 52 ≤ em.roundedMantissa) hr 0
      (e := e + (m.log2 - 52 : Nat)) (by omega)
    rw [Nat.pow_zero, Nat.mul_one] at hstay
    refine ⟨em.roundedMantissa, e + (m.log2 - 52 : Nat), by omega, hr, by omega, ?_⟩
    simp only [hstay, Int.natCast_zero, Int.add_zero, dif_neg (by omega : ¬ em.roundedMantissa = 0)]
  · -- rounding up filled the mantissa, which costs one more bit
    have hstay := shiftToTargetExponent_exact (Nat.le_refl (2 ^ 52)) (by decide) 1
      (e := e + (m.log2 - 52 : Nat)) (by omega)
    rw [show 2 ^ 52 * 2 ^ 1 = em.roundedMantissa by omega] at hstay
    refine ⟨2 ^ 52, e + (m.log2 - 52 : Nat) + 1, Nat.le_refl _, by decide, by omega, ?_⟩
    simp only [hstay]
    rfl

/-- A decimal number without a fraction is rounded as the integer it is. -/
theorem ofScientific_eq_round {m : Nat} (hm : 0 < m) {d : Nat} (hd : d ≤ 2048) :
    UnpackedFloat.ofScientific .binary64 m d =
      roundWithAccuracy .binary64 .positive (m * 10 ^ d * 2 ^ 53) (-53) .exact := by
  have hmantissa : m <<< Format.binary64.mantissaBits * 10 ^ d = m * 10 ^ d * 2 ^ 53 := by
    rw [Nat.shiftLeft_eq, show Format.binary64.mantissaBits = 53 from rfl]
    grind
  have hbits : (Format.binary64.mantissaBits : Int) = 53 := rfl
  rw [UnpackedFloat.ofScientific, dif_neg hm.ne', if_neg (by
    show ¬ (d : Int) > 2048
    omega), if_neg (by
    show ¬ (d : Int) < -(2048 + (m.log2 : Int))
    omega), if_pos (Int.natCast_nonneg d)]
  simp only [UnpackedFloat.mul, Int.toNat_natCast, hmantissa, hbits, Int.add_zero]
  rfl

theorem ofScientific_ofInt {m d : Nat} (h : m * 10 ^ d < 2 ^ 53) :
    Float.Model.ofScientific m d = Float.Model.ofInt (m * 10 ^ d : Nat) := by
  by_cases hm : m = 0
  · subst hm
    rw [Nat.zero_mul]
    simp only [Float.Model.ofScientific, UnpackedFloat.ofScientific, dite_true]
    rfl
  · have hpos : 0 < m * 10 ^ d := by positivity
    have hd : d ≤ 2048 := by
      by_contra hlarge
      have hpow : 2 ^ 53 ≤ 10 ^ d :=
        (Nat.pow_le_pow_left (by decide) 53).trans (Nat.pow_le_pow_right (by decide) (by omega))
      have hle := Nat.le_mul_of_pos_left (10 ^ d) (Nat.pos_of_ne_zero hm)
      omega
    rw [ofInt_eq (by rwa [Int.natAbs_natCast])]
    unfold Float.Model.ofScientific
    rw [ofScientific_eq_round (by omega) hd]
    have hscaled := roundWithAccuracy_scaled .positive hpos h (j := 53) (by omega)
    rw [show (-(53 : Nat) : Int) = -53 from rfl] at hscaled
    have hsign : signOf (m * 10 ^ d : Nat) = .positive := if_neg (by omega)
    have hne : ((m * 10 ^ d : Nat) : Int) ≠ 0 := by omega
    rw [hscaled]
    simp only [intForm, hne, dite_false, hsign, Int.natAbs_natCast]

/-- The exponent of a small integer is not positive, and it is no infinity. -/
theorem intForm_small (h : n.natAbs < 2 ^ 53) (s : Sign) :
    intForm n ≠ .infinity s ∧ ∀ q e hq, 1 ≤ e → intForm n ≠ .finite s q e hq := by
  have hlog := log2_le_52 h
  unfold intForm scaled
  split
  · simp
  · refine ⟨by simp, fun q e hq he hform => ?_⟩
    have hexponent := (UnpackedFloat.finite.inj hform).2.2
    omega

/-- A decimal number that is too large for 53 bits is none of the small integers. -/
theorem ofScientific_ne_ofInt {m d : Nat} (hlarge : 2 ^ 53 ≤ m * 10 ^ d) (h : n.natAbs < 2 ^ 53) :
    Float.Model.ofScientific m d ≠ Float.Model.ofInt n := by
  intro heq
  obtain ⟨hinfinite, hfinite⟩ := intForm_small h .positive
  have hm : 0 < m := Nat.pos_of_ne_zero (by rintro rfl; simp at hlarge)
  have hform := unpack_ofInt h
  rw [← heq] at hform
  by_cases hd : d ≤ 2048
  · have hlog : 106 ≤ (m * 10 ^ d * 2 ^ 53).log2 := by
      rw [Nat.le_log2 (by positivity)]
      exact Nat.mul_le_mul_right (2 ^ 53) hlarge
    obtain ⟨q, e, hlo, hhi, he, hround⟩ :=
      roundWithAccuracy_large .positive (m := m * 10 ^ d * 2 ^ 53) (e := -53) (by omega) (by omega)
    have hpack : (Float.Model.ofScientific m d).unpack = UnpackedFloat.unpack .binary64
        (UnpackedFloat.pack .binary64 (.finite .positive q e (by omega))) := by
      unfold Float.Model.ofScientific
      rw [ofScientific_eq_round hm hd, hround]
      rfl
    rw [hpack, unpack_pack_finite _ hlo hhi (by omega)] at hform
    split at hform
    · exact hfinite q e _ (by omega) hform.symm
    · exact hinfinite hform.symm
  · have hinf : (Float.Model.ofScientific m d).unpack = .infinity .positive := by
      unfold Float.Model.ofScientific
      rw [UnpackedFloat.ofScientific, dif_neg hm.ne', if_pos (by
        show (d : Int) > 2048
        omega)]
      rfl
    exact hinfinite (hform.symm.trans hinf)

/-- **A decimal number without a fraction rounds to a small integer only when it is that
integer.** -/
theorem ofScientific_eq_ofInt_iff {m d : Nat} (h : n.natAbs < 2 ^ 53) :
    Float.Model.ofScientific m d = Float.Model.ofInt n ↔ ((m * 10 ^ d : Nat) : Int) = n := by
  constructor
  · intro heq
    by_cases hsmall : m * 10 ^ d < 2 ^ 53
    · rw [ofScientific_ofInt hsmall] at heq
      exact ofInt_inj (by rwa [Int.natAbs_natCast]) h heq
    · exact absurd heq (ofScientific_ne_ofInt (by omega) h)
  · rintro rfl
    exact ofScientific_ofInt (by rwa [Int.natAbs_natCast] at h)

end Binary64
