import Mathlib.Data.Int.Log
import Mathlib.Data.Rat.Floor
import VigorMcp.Js.Digits
import VigorMcp.Js.JsonText
import VigorMcp.Lib.Binary64

/-!
# Numbers

A JavaScript number is a binary64 value with a single `NaN`, which is what `Float.Model` is.
`toNumber` is `Number(text)`, `numberText` the text that a template literal makes of a number,
`JsNumber.ofNum` the number as a value, and the bit operators work on `toInt32` of their operands.
Integers below `2 ^ 53` in magnitude are read and printed as their decimal digits
(`toNumber_decimal`, `numberText_num`).
-/

namespace VigorMcp

abbrev Num := Float.Model

/-- An integer literal. -/
abbrev num (n : Int) : Num := Float.Model.ofInt n

def nan : Num := Float.Model.pack .notANumber

def infinity : Num := Float.Model.pack (.infinity .positive)

/-! ## `Number(text)` -/

/-- The digits of a literal like `0xff`; there must be one, and each is below the radix. -/
def radixNumber (radix : Nat) (digits : JStr) : Num :=
  if digits ≠ [] ∧ digits.all fun u => Json.isHexDigit u && (hexValue u).toNat < radix then
    num (digits.foldl (fun n u => radix * n + (hexValue u).toNat) 0 : Nat)
  else nan

/-- Digits, a point that may be missing with the digits after it, and what follows. -/
def readPoint (s : JStr) : JStr × JStr × JStr :=
  match s.dropWhile isDigit with
  | 46 :: rest => (s.takeWhile isDigit, rest.takeWhile isDigit, rest.dropWhile isDigit)
  | rest => (s.takeWhile isDigit, [], rest)

/-- A decimal literal without a sign. -/
def unsignedNumber (s : JStr) : Num :=
  if s = js "Infinity" then infinity
  else
    let (whole, fraction, rest) := readPoint s
    if whole ++ fraction = [] then nan
    else match Json.readExponent rest with
      | some (exponent, []) => Float.Model.ofScientific (Json.digitsValue (whole ++ fraction))
          (exponent - fraction.length)
      | _ => nan

def toNumber (text : JStr) : Num :=
  match trim text with
  | [] => num 0
  | 43 :: s => unsignedNumber s
  | 45 :: s => -unsignedNumber s
  | 48 :: u :: s =>
    if u = 98 ∨ u = 66 then radixNumber 2 s
    else if u = 111 ∨ u = 79 then radixNumber 8 s
    else if u = 120 ∨ u = 88 then radixNumber 16 s
    else unsignedNumber (48 :: u :: s)
  | s => unsignedNumber s

/-! ## The text of a number -/

/-- `digits` places of a positive number `x` of value `q`, whose decimal point stands behind the
place `n`: the nearer of the two that read back as `x`. -/
def digitsAt (x : Num) (q : ℚ) (n : Int) (digits : Nat) : Option Nat :=
  let t := q / 10 ^ (n - digits)
  let low : Nat := ⌊t⌋.toNat
  let near := if t - low < 1 / 2 ∨ (t - low = 1 / 2 ∧ low % 2 = 0) then [low, low + 1]
    else [low + 1, low]
  near.find? fun s => Float.Model.ofScientific s (n - digits) = x

/-- The decimal digits of a number, how many they are and where the decimal point stands. -/
structure Shortest where
  significand : Nat
  digits : Nat
  point : Int

def candidate (x : Num) (q : ℚ) (n : Int) (digits : Nat) : Option Shortest :=
  (digitsAt x q n digits).map fun s =>
    -- rounding up gave one more digit, of which only the first is not zero
    if s = 10 ^ digits then ⟨10 ^ (digits - 1), digits, n + 1⟩ else ⟨s, digits, n⟩

/-- The fewest digits that read back as the positive number `x`; seventeen always do. -/
def shortest (x : Num) : Shortest :=
  let q := Binary64.magnitude x.unpack
  let n := Int.log 10 q + 1
  ((List.range 17).findSome? fun i => candidate x q n (i + 1)).getD ⟨0, 1, 1⟩

def placeDigits (d : Shortest) : JStr :=
  let digits := Json.digitUnits d.significand
  if d.digits ≤ d.point ∧ d.point ≤ 21 then
    digits ++ List.replicate (d.point - d.digits).toNat 48
  else if 0 < d.point ∧ d.point ≤ 21 then
    digits.take d.point.toNat ++ js "." ++ digits.drop d.point.toNat
  else if -6 < d.point ∧ d.point ≤ 0 then
    js "0." ++ List.replicate (-d.point).toNat 48 ++ digits
  else
    digits.take 1 ++ (if d.digits = 1 then [] else js "." ++ digits.drop 1) ++ js "e" ++
      (if d.point - 1 < 0 then js "-" else js "+") ++ decimal (d.point - 1).natAbs

/-- `${x}`. -/
def numberText (x : Num) : JStr :=
  match x.unpack with
  | .notANumber => js "NaN"
  | .zero _ => js "0"
  | .infinity .positive => js "Infinity"
  | .infinity .negative => js "-Infinity"
  | .finite .positive _ _ _ => placeDigits (shortest x)
  | .finite .negative _ _ _ => js "-" ++ placeDigits (shortest x.abs)

/-- A number as a value. -/
def JsNumber.ofNum (x : Num) : JsNumber :=
  match Binary64.value x.unpack with
  | some q => .finite q (numberText x)
  | none => .nonFinite (numberText x)

/-! ## Integers are read -/

theorem readPoint_digits {digits : JStr} (h : ∀ u ∈ digits, isDigit u = true) :
    readPoint digits = (digits, [], []) := by
  have hdrop : digits.dropWhile isDigit = [] := List.dropWhile_eq_nil_iff.mpr h
  have htake : digits.takeWhile isDigit = digits := List.takeWhile_eq_self_iff.mpr h
  simp only [readPoint, hdrop, htake]

theorem unsignedNumber_digits {n : Nat} (h : n < 2 ^ 53) :
    unsignedNumber (Json.digitUnits n) = num n := by
  obtain ⟨hne, hdigits, hvalue, -⟩ := Json.digitUnits_spec n
  have hinfinity : Json.digitUnits n ≠ js "Infinity" := fun heq =>
    absurd (hdigits 73 (by rw [heq]; decide)) (by decide)
  have hread := Binary64.ofScientific_ofInt (m := n) (d := 0) (by simpa using h)
  rw [Nat.pow_zero, Nat.mul_one] at hread
  simp only [unsignedNumber, if_neg hinfinity, readPoint_digits hdigits, List.append_nil,
    if_neg hne, Json.readExponent, hvalue, List.length_nil, Int.natCast_zero, Int.sub_zero]
  exact hread

theorem decimal_units (n : Int) :
    decimal n ≠ [] ∧ ∀ u ∈ decimal n, u = 45 ∨ isDigit u = true := by
  cases n with
  | ofNat n =>
    rw [show decimal (Int.ofNat n) = Json.digitUnits n from Json.decimal_ofNat n]
    obtain ⟨hne, hdigits, -, -⟩ := Json.digitUnits_spec n
    exact ⟨hne, fun u hu => .inr (hdigits u hu)⟩
  | negSucc n =>
    rw [Json.decimal_negSucc]
    obtain ⟨-, hdigits, -, -⟩ := Json.digitUnits_spec (n + 1)
    refine ⟨List.cons_ne_nil _ _, fun u hu => ?_⟩
    rcases List.mem_cons.mp hu with rfl | hu
    · exact .inl rfl
    · exact .inr (hdigits u hu)

theorem isSpace_decimal {n : Int} {u : UInt16} (h : u ∈ decimal n) : isSpace u = false := by
  rcases (decimal_units n).2 u h with rfl | hdigit
  · decide
  · exact isSpace_of_isDigit hdigit

theorem toNumber_decimal {n : Int} (h : n.natAbs < 2 ^ 53) : toNumber (decimal n) = num n := by
  unfold toNumber
  rw [trim_eq_self fun u hu => isSpace_decimal hu]
  cases n with
  | ofNat n =>
    rw [show decimal (Int.ofNat n) = Json.digitUnits n from Json.decimal_ofNat n]
    obtain ⟨hne, hdigits, -, hhead⟩ := Json.digitUnits_spec n
    have hread := unsignedNumber_digits (n := n) h
    split
    · next heq => exact absurd heq hne
    · next heq => exact absurd (hdigits 43 (by rw [heq]; exact List.mem_cons_self)) (by decide)
    · next heq => exact absurd (hdigits 45 (by rw [heq]; exact List.mem_cons_self)) (by decide)
    · next u s heq =>
      rcases Nat.eq_zero_or_pos n with rfl | hpos
      · cases heq
      · exact absurd (by rw [heq]; rfl) (hhead hpos)
    · exact hread
  | negSucc n =>
    rw [Json.decimal_negSucc]
    show -unsignedNumber (Json.digitUnits (n + 1)) = _
    rw [unsignedNumber_digits (by omega), Binary64.neg_ofInt (by omega) (by omega)]
    rfl

/-! ## Integers are printed -/

/-- The places of an integer read back as it only when the rest of its digits are zeros. -/
theorem digitsAt_num {m : Nat} (h : m < 2 ^ 53) (k d : Nat) :
    digitsAt (num m) m (k + d : Nat) k = if 10 ^ d ∣ m then some (m / 10 ^ d) else none := by
  have hpos : 0 < 10 ^ d := by positivity
  have hexponent : ((k + d : Nat) : Int) - k = d := by omega
  have hlow : ⌊(m : ℚ) / 10 ^ (d : Int)⌋.toNat = m / 10 ^ d := by
    rw [zpow_natCast]
    have hfloor := Rat.floor_intCast_div_natCast m (10 ^ d)
    push_cast at hfloor
    rw [hfloor]
    norm_cast
  have hread (s : Nat) : Float.Model.ofScientific s d = num m ↔ s * 10 ^ d = m := by
    rw [Binary64.ofScientific_eq_ofInt_iff (by rwa [Int.natAbs_natCast])]
    exact Int.ofNat_inj
  have hnext : ¬ (m / 10 ^ d + 1) * 10 ^ d = m := by
    have := Nat.lt_div_mul_add (a := m) hpos
    rw [Nat.add_mul, Nat.one_mul]
    omega
  have hdvd : m / 10 ^ d * 10 ^ d = m ↔ 10 ^ d ∣ m := (Nat.dvd_iff_div_mul_eq m (10 ^ d)).symm
  simp only [digitsAt, hexponent, hlow, hread]
  by_cases hd : 10 ^ d ∣ m
  · split <;> simp [hdvd, hnext, hd]
  · split <;> simp [hdvd, hnext, hd]

theorem candidate_num {m k d : Nat} (h : m < 2 ^ 53) (hplaces : m < 10 ^ (k + d)) :
    candidate (num m) m (k + d : Nat) k =
      if 10 ^ d ∣ m then some ⟨m / 10 ^ d, k, (k + d : Nat)⟩ else none := by
  have hlt : m / 10 ^ d < 10 ^ k := by
    rw [Nat.div_lt_iff_lt_mul (by positivity), ← Nat.pow_add]
    exact hplaces
  rw [candidate, digitsAt_num h]
  split
  · rw [Option.map_some, if_neg hlt.ne]
  · rfl

/-- With as many digits as there are places nothing is left out, so the search ends there. -/
theorem exists_candidate {m places : Nat} (h : m < 2 ^ 53) (hpos : 0 < places)
    (hplaces : m < 10 ^ places) :
    ∃ i < places, ∃ found, candidate (num m) m places (i + 1) = some found ∧
      (List.range places).findSome? (fun i => candidate (num m) m places (i + 1)) = some found := by
  have hlast : candidate (num m) m places (places - 1 + 1) ≠ none := by
    rw [Nat.sub_add_cancel hpos]
    have hcandidate := candidate_num (k := places) (d := 0) h hplaces
    rw [Nat.pow_zero, if_pos (Nat.one_dvd m), Nat.add_zero] at hcandidate
    rw [hcandidate]
    exact Option.some_ne_none _
  obtain ⟨found, hfound⟩ : ∃ found, ((List.range places).findSome? fun i =>
      candidate (num m) m places (i + 1)) = some found := by
    rw [← Option.ne_none_iff_exists']
    intro hnone
    exact hlast (List.findSome?_eq_none_iff.mp hnone (places - 1) (List.mem_range.mpr (by omega)))
  obtain ⟨i, hi, hcandidate⟩ := List.exists_of_findSome?_eq_some hfound
  exact ⟨i, List.mem_range.mp hi, found, hcandidate, hfound⟩

/-- The fewest digits of an integer are those before its last zeros. -/
theorem shortest_num {m : Nat} (hm : 0 < m) (h : m < 2 ^ 53) :
    ∃ s k d, s * 10 ^ d = m ∧ k + d ≤ 16 ∧ shortest (num m) = ⟨s, k, (k + d : Nat)⟩ := by
  have hsmall : (m : Int).natAbs < 2 ^ 53 := by rwa [Int.natAbs_natCast]
  have hmagnitude : Binary64.magnitude (num m).unpack = m := by
    rw [Binary64.unpack_ofInt hsmall, Binary64.magnitude_intForm hsmall, Int.natAbs_natCast]
  have hlog : Nat.log 10 m < 16 := Nat.log_lt_of_lt_pow hm.ne' (h.trans (by decide))
  obtain ⟨places, hplaces⟩ : ∃ places, Nat.log 10 m + 1 = places := ⟨_, rfl⟩
  have hpoint : Int.log 10 (m : ℚ) + 1 = (places : Nat) := by
    rw [Int.log_natCast, ← hplaces]
    rfl
  have htop : m < 10 ^ places := by
    rw [← hplaces]
    exact Nat.lt_pow_succ_log_self (by decide) m
  obtain ⟨i, hi, found, hcandidate, hfound⟩ := exists_candidate h (by omega) htop
  obtain ⟨d, rfl⟩ : ∃ d, places = i + 1 + d := ⟨places - (i + 1), by omega⟩
  rw [candidate_num h htop] at hcandidate
  split at hcandidate
  · next hdvd =>
    refine ⟨m / 10 ^ d, i + 1, d, Nat.div_mul_cancel hdvd, by omega, ?_⟩
    have hrange : 17 = (i + 1 + d) + (17 - (i + 1 + d)) := by omega
    rw [shortest, hmagnitude, hpoint, hrange, List.range_add, List.findSome?_append, hfound,
      Option.some.inj hcandidate]
    rfl
  · cases hcandidate

theorem digitUnits_mul_pow {s : Nat} (hs : 0 < s) (d : Nat) :
    Json.digitUnits (s * 10 ^ d) = Json.digitUnits s ++ List.replicate d 48 := by
  induction d with
  | zero => simp
  | succ d ih =>
    have hpos : 0 < s * 10 ^ d := by positivity
    rw [Json.digitUnits_eq, Nat.pow_succ, ← Nat.mul_assoc, if_neg (by omega),
      Nat.mul_div_cancel _ (by decide), ih, Nat.mul_mod_left, List.append_assoc,
      List.replicate_succ']
    rfl

theorem placeDigits_num {m : Nat} (hm : 0 < m) (h : m < 2 ^ 53) :
    placeDigits (shortest (num m)) = decimal m := by
  obtain ⟨s, k, d, rfl, hplaces, hshortest⟩ := shortest_num hm h
  have hs : 0 < s := Nat.pos_of_mul_pos_right hm
  have hzeros : ((k + d : Nat) - k : Int).toNat = d := by omega
  rw [hshortest, placeDigits, if_pos (by dsimp only; omega), hzeros, Json.decimal_ofNat,
    digitUnits_mul_pow hs]

/-- **An integer is printed as its decimal digits.** -/
theorem numberText_num {n : Int} (h : n.natAbs < 2 ^ 53) : numberText (num n) = decimal n := by
  rw [numberText, Binary64.abs_ofInt h, Binary64.unpack_ofInt h]
  rcases lt_trichotomy n 0 with hn | rfl | hn
  · have hsign : Binary64.signOf n = .negative := if_pos hn
    have htext : decimal n = js "-" ++ decimal n.natAbs := by
      obtain ⟨m, rfl⟩ := Int.eq_negSucc_of_lt_zero hn
      rw [Json.decimal_negSucc, Int.natAbs_negSucc, Json.decimal_ofNat]
      rfl
    simp only [Binary64.intForm, hn.ne, dite_false, Binary64.scaled, hsign]
    rw [placeDigits_num (Int.natAbs_pos.mpr hn.ne) h, htext]
  · simp only [Binary64.intForm, dite_true]
    rfl
  · obtain ⟨m, rfl⟩ := Int.eq_ofNat_of_zero_le hn.le
    have hsign : Binary64.signOf m = .positive := if_neg (by omega)
    simp only [Binary64.intForm, hn.ne', dite_false, Binary64.scaled, hsign]
    exact placeDigits_num (by omega) h

theorem JsNumber.ofNum_num {n : Int} (h : n.natAbs < 2 ^ 53) :
    JsNumber.ofNum (num n) = .finite n (decimal n) := by
  rw [JsNumber.ofNum, Binary64.unpack_ofInt h, Binary64.value_intForm h, numberText_num h]

/-! ## Bit operators -/

def toInt32 (x : Num) : BitVec 32 := BitVec.ofInt 32 (x.unpack.toInt 0 0)

/-- `x << y`. -/
def shiftLeft (x y : Num) : Num := num (toInt32 x <<< ((toInt32 y).toNat % 32)).toInt

/-- `x | y`. -/
def bitOr (x y : Num) : Num := num (toInt32 x ||| toInt32 y).toInt

/-- `x >>> y`. -/
def unsignedShiftRight (x y : Num) : Num := num (toInt32 x >>> ((toInt32 y).toNat % 32)).toNat

theorem toInt32_num {n : Int} (h : n.natAbs < 2 ^ 53) : toInt32 (num n) = BitVec.ofInt 32 n := by
  rw [toInt32, Binary64.toInt_ofInt h]

end VigorMcp
