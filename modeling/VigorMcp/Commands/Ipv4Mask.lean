import VigorMcp.Js.Number
import VigorMcp.Lib.BitMask

/-!
# Netmasks

`ipv4Mask` is a dotted quad whose bits are ones first and zeros after. It folds the octets into one
number with the 32-bit operators, which are signed, and makes the result unsigned again after each
step. The fold gives the address (`maskOf_dottedQuad`), and the test behind it holds of exactly the
contiguous masks (`ipv4Mask_contiguous`).
-/

namespace VigorMcp

def point : UInt16 := 46

/-- One step of the fold over the octets. -/
def appendOctet (result : Num) (octet : JStr) : Num :=
  unsignedShiftRight (bitOr (shiftLeft result (num 8)) (toNumber octet)) (num 0)

def maskOf (value : JStr) : Num :=
  unsignedShiftRight ((value.splitOn point).foldl appendOctet (num 0)) (num 0)

/-- Contiguous 1-bits then 0-bits. -/
def contiguousBits (value : JStr) : Bool :=
  let mask := maskOf value
  mask.beq (num 0) || (unsignedShiftRight (bitOr mask (mask - num 1)) (num 0)).beq (num 0xffffffff)

/-- `ipv4` is the check that the text is an address. -/
def ipv4Mask (ipv4 : JStr → Bool) : JsValue → Bool
  | .str s => ipv4 s && contiguousBits s
  | _ => false

def dottedQuad (a b c d : UInt8) : JStr :=
  join [point] ([a, b, c, d].map fun octet => decimal octet.toNat)

/-! ## The operators on 32 bits -/

theorem toInt32_toInt (x : BitVec 32) : toInt32 (num x.toInt) = x := by
  have := x.toInt_lt
  have := x.le_toInt
  rw [toInt32_num (by omega), BitVec.ofInt_toInt]

/-- `x >>> 0` reads the bits of `x` without a sign. -/
theorem unsignedShiftRight_zero (x : Num) :
    unsignedShiftRight x (num 0) = num (toInt32 x).toNat := by
  rw [unsignedShiftRight, toInt32_num (by decide)]
  rfl

theorem shiftLeft_eight (x : Num) : shiftLeft x (num 8) = num (toInt32 x <<< 8).toInt := by
  rw [shiftLeft, toInt32_num (by decide)]
  rfl

theorem toInt32_natCast {n : Nat} (h : n < 2 ^ 32) : toInt32 (num n) = BitVec.ofNat 32 n := by
  rw [toInt32_num (by omega), BitVec.ofInt_natCast]

/-- An octet goes behind the octets before it. -/
theorem appendOctet_num {r : Nat} (hr : r < 2 ^ 24) (octet : UInt8) :
    appendOctet (num r) (decimal octet.toNat) = num (r * 2 ^ 8 + octet.toNat : Nat) := by
  have hoctet := octet.toNat_lt
  rw [appendOctet, toNumber_decimal (by omega), shiftLeft_eight, bitOr, toInt32_toInt,
    unsignedShiftRight_zero, toInt32_toInt, toInt32_natCast (by omega), toInt32_natCast (by omega),
    BitVec.toNat_or, BitVec.toNat_shiftLeft, BitVec.toNat_ofNat, BitVec.toNat_ofNat]
  congr 2
  rw [Nat.mod_eq_of_lt (by omega : r < 2 ^ 32), Nat.mod_eq_of_lt (by omega : octet.toNat < 2 ^ 32),
    Nat.shiftLeft_eq, Nat.mod_eq_of_lt (by omega), Nat.mul_comm,
    ← Nat.two_pow_add_eq_or_of_lt (by omega)]

/-! ## The fold -/

/-- The address of four octets. -/
def address (a b c d : UInt8) : Nat :=
  a.toNat * 2 ^ 24 + b.toNat * 2 ^ 16 + c.toNat * 2 ^ 8 + d.toNat

theorem address_lt (a b c d : UInt8) : address a b c d < 2 ^ 32 := by
  have := a.toNat_lt
  have := b.toNat_lt
  have := c.toNat_lt
  have := d.toNat_lt
  unfold address
  omega

theorem split_dottedQuad (a b c d : UInt8) :
    (dottedQuad a b c d).splitOn point = [a, b, c, d].map fun octet => decimal octet.toNat := by
  refine List.splitOn_intercalate point (fun t ht hpoint => ?_) (List.cons_ne_nil _ _)
  obtain ⟨octet, -, rfl⟩ := List.mem_map.mp ht
  rcases (decimal_units octet.toNat).2 _ hpoint with h | h <;> revert h <;> decide

/-- The fold over the octets gives the address. -/
theorem maskOf_dottedQuad (a b c d : UInt8) :
    maskOf (dottedQuad a b c d) = num (address a b c d) := by
  have ha := a.toNat_lt
  have hb := b.toNat_lt
  have hc := c.toNat_lt
  have hlt := address_lt a b c d
  have hfold : [a, b, c, d].foldl (fun result octet => appendOctet result (decimal octet.toNat))
      (num 0) = num (address a b c d) := by
    have hfirst := appendOctet_num (r := 0) (by decide) a
    rw [Nat.zero_mul, Nat.zero_add] at hfirst
    have haddress : ((a.toNat * 2 ^ 8 + b.toNat) * 2 ^ 8 + c.toNat) * 2 ^ 8 + d.toNat =
        address a b c d := by
      unfold address
      omega
    simp only [List.foldl_cons, List.foldl_nil]
    rw [show num 0 = num (0 : Nat) from rfl, hfirst, appendOctet_num (by omega) b,
      appendOctet_num (by omega) c, appendOctet_num (by omega) d, haddress]
  rw [maskOf, split_dottedQuad, List.foldl_map, hfold, unsignedShiftRight_zero, toInt32_natCast hlt,
    BitVec.toNat_ofNat, Nat.mod_eq_of_lt hlt]

/-! ## The test -/

theorem contiguousBits_num {value : JStr} {m : Nat} (hm : m < 2 ^ 32)
    (hvalue : maskOf value = num m) : contiguousBits value = true ↔ BitMask.Contiguous 32 m := by
  have hzero : (num m).beq (num 0) = decide (m = 0) := by
    rw [Binary64.beq_ofInt (by omega) (by decide)]
    exact decide_eq_decide.mpr Int.natCast_eq_zero
  rw [contiguousBits, hvalue, Bool.or_eq_true, hzero, decide_eq_true_iff]
  rcases Nat.eq_zero_or_pos m with rfl | hpos
  · exact iff_of_true (.inl rfl) ⟨0, by decide, rfl⟩
  · have hpred : num m - num 1 = num (m - 1 : Nat) := by
      rw [Binary64.sub_ofInt (by omega) (by decide) (by omega), Int.natCast_sub hpos]
      rfl
    have hor : m ||| (m - 1) < 2 ^ 32 := Nat.or_lt_two_pow hm (by omega)
    have hfilled : unsignedShiftRight (bitOr (num m) (num m - num 1)) (num 0) =
        num (m ||| (m - 1) : Nat) := by
      rw [hpred, unsignedShiftRight_zero, bitOr, toInt32_toInt, toInt32_natCast hm,
        toInt32_natCast (by omega), BitVec.toNat_or, BitVec.toNat_ofNat, BitVec.toNat_ofNat,
        Nat.mod_eq_of_lt hm, Nat.mod_eq_of_lt (by omega)]
    rw [hfilled, Binary64.beq_ofInt (by omega) (by decide), decide_eq_true_iff,
      ← BitMask.or_pred_eq_iff hpos]
    constructor
    · rintro (h | h) <;> omega
    · intro h
      right
      omega

theorem contiguousBits_dottedQuad (a b c d : UInt8) :
    contiguousBits (dottedQuad a b c d) = true ↔ BitMask.Contiguous 32 (address a b c d) :=
  contiguousBits_num (address_lt a b c d) (maskOf_dottedQuad a b c d)

/-- **Contiguous masks.** The test of `ipv4Mask` accepts exactly the dotted quads whose bits are
ones first and zeros after. -/
theorem ipv4Mask_contiguous (a b c d : UInt8) :
    contiguousBits (dottedQuad a b c d) = true ↔
      ∃ k ≤ 32, a.toNat * 2 ^ 24 + b.toNat * 2 ^ 16 + c.toNat * 2 ^ 8 + d.toNat =
        2 ^ 32 - 2 ^ (32 - k) :=
  contiguousBits_dottedQuad a b c d

/-- What `ipv4Mask` accepts, when the check before it accepts the dotted quads and nothing else. -/
theorem ipv4Mask_accepts_iff {ipv4 : JStr → Bool}
    (quads : ∀ s, ipv4 s = true ↔ ∃ a b c d, s = dottedQuad a b c d) (value : JsValue) :
    ipv4Mask ipv4 value = true ↔
      ∃ a b c d, value = .str (dottedQuad a b c d) ∧ BitMask.Contiguous 32 (address a b c d) := by
  constructor
  · intro h
    cases value with
    | str s =>
      rw [ipv4Mask, Bool.and_eq_true, quads] at h
      obtain ⟨⟨a, b, c, d, rfl⟩, hbits⟩ := h
      exact ⟨a, b, c, d, rfl, (contiguousBits_dottedQuad a b c d).mp hbits⟩
    | _ => cases h
  · rintro ⟨a, b, c, d, rfl, hbits⟩
    rw [ipv4Mask, Bool.and_eq_true, quads]
    exact ⟨⟨a, b, c, d, rfl⟩, (contiguousBits_dottedQuad a b c d).mpr hbits⟩

end VigorMcp
