import VigorMcp.Js.Text

/-!
# Decimal digits

How a literal is taken apart: a sign, digits, a fraction and an exponent, each
read with what stands behind it. `digitUnits` are the digits of a number, which
give its value back (`digitUnits_spec`), and `decimal` writes them.
-/

namespace VigorMcp

namespace Json

def isHexDigit (u : UInt16) : Bool := isDigit u || (65 ≤ u && u ≤ 70) || (97 ≤ u && u ≤ 102)

/-! ## Literals -/

def digitsValue (digits : JStr) : Nat := digits.foldl (fun n u => 10 * n + (u.toNat - 48)) 0

def readDigits (s : JStr) : Option (JStr × JStr) :=
  if s.takeWhile isDigit = [] then none else some (s.takeWhile isDigit, s.dropWhile isDigit)

def readSign : JStr → Bool × JStr
  | 45 :: s => (true, s)
  | s => (false, s)

def readFraction : JStr → Option (JStr × JStr)
  | 46 :: s => readDigits s
  | s => some ([], s)

def readExponent : JStr → Option (Int × JStr)
  | [] => some (0, [])
  | u :: s =>
    if u = 101 ∨ u = 69 then
      let (negative, s) := match s with
        | 43 :: s => (false, s)
        | s => readSign s
      (readDigits s).map fun (digits, s) =>
        (if negative then -(digitsValue digits : Int) else digitsValue digits, s)
    else some (0, u :: s)

/-! ## The digits of a number -/

/-- The digits of a number. -/
def digitUnits (n : Nat) : JStr := (Nat.toDigits 10 n).map fun c => UInt16.ofNat c.toNat

theorem digitUnits_eq (n : Nat) : digitUnits n =
    if n < 10 then [UInt16.ofNat (48 + n)]
    else digitUnits (n / 10) ++ [UInt16.ofNat (48 + n % 10)] := by
  unfold digitUnits
  rw [Nat.toDigits_eq_if (by decide)]
  split
  · next h => simp [Nat.toNat_digitChar_of_lt_ten h]
  · simp [Nat.toNat_digitChar_of_lt_ten (Nat.mod_lt n (by decide : 0 < 10))]

theorem toNat_digit {d : Nat} (h : d < 10) : (UInt16.ofNat (48 + d)).toNat = 48 + d := by
  rw [UInt16.toNat_ofNat']
  exact Nat.mod_eq_of_lt (by omega)

/-- What the digits of a number are: digits that give its value, not starting with `0` but for
zero itself. -/
theorem digitUnits_spec (n : Nat) :
    digitUnits n ≠ [] ∧ (∀ u ∈ digitUnits n, isDigit u = true) ∧ digitsValue (digitUnits n) = n ∧
      (0 < n → (digitUnits n).head? ≠ some 48) := by
  have digit : ∀ d, d < 10 → isDigit (UInt16.ofNat (48 + d)) = true := by decide
  induction n using Nat.strong_induction_on with
  | _ n ih =>
    rw [digitUnits_eq]
    split
    · next h =>
      refine ⟨List.cons_ne_nil _ _, ?_, ?_, fun hpos hhead => ?_⟩
      · intro u hu
        obtain rfl := List.mem_singleton.mp hu
        exact digit n h
      · simp only [digitsValue, List.foldl_cons, List.foldl_nil, toNat_digit h]
        omega
      · have := congrArg UInt16.toNat (Option.some.inj hhead)
        rw [toNat_digit h, show UInt16.toNat 48 = 48 from rfl] at this
        omega
    · next h =>
      have hmod := Nat.mod_lt n (by decide : 0 < 10)
      obtain ⟨hne, hdigits, hvalue, hhead⟩ := ih (n / 10) (by omega)
      refine ⟨by simp, ?_, ?_, fun _ => ?_⟩
      · intro u hu
        rcases List.mem_append.mp hu with hu | hu
        · exact hdigits u hu
        · obtain rfl := List.mem_singleton.mp hu
          exact digit _ hmod
      · unfold digitsValue at hvalue ⊢
        rw [List.foldl_append, hvalue]
        simp only [List.foldl_cons, List.foldl_nil, toNat_digit hmod]
        omega
      · rw [List.head?_append_of_ne_nil _ hne]
        exact hhead (by omega)

theorem js_digits (n : Nat) : js (toString n) = digitUnits n := by
  show ((Nat.repr n).toList).flatMap utf16 = _
  rw [Nat.toList_repr]
  unfold digitUnits
  rw [List.map_eq_flatMap]
  refine List.flatMap_congr fun c hc => if_pos ?_
  have hdigit := Nat.isDigit_of_mem_toDigits (by decide) (by decide) hc
  have hle : c.toNat ≤ 57 := by
    simp only [Char.isDigit, Bool.and_eq_true, decide_eq_true_eq] at hdigit
    exact hdigit.2
  omega

theorem decimal_ofNat (n : Nat) : decimal n = digitUnits n := js_digits n

theorem decimal_negSucc (n : Nat) : decimal (Int.negSucc n) = 45 :: digitUnits (n + 1) := by
  rw [← js_digits]
  unfold decimal js
  show (("-" ++ toString (n + 1)).toList).flatMap utf16 = _
  rw [String.toList_append, List.flatMap_append]
  rfl

end Json

end VigorMcp
