import Mathlib.Algebra.Order.Ring.Nat
import Mathlib.Data.List.Basic

/-!
# Bytes in groups of six bits

`sextets` writes three bytes as four groups of six bits, and a rest of one or two bytes as two or
three groups filled up with zero bits. `bytes` reads the groups back (`bytes_sextets`).
-/

namespace Base64

/-- The lowest six bits. -/
def sextet (n : Nat) : Fin 64 := Fin.ofNat 64 n

/-- The six bits of `n` above the lowest `k`. -/
def sextetAt (n k : Nat) : Fin 64 := sextet (n / 2 ^ k)

def sextets : List UInt8 → List (Fin 64)
  | [] => []
  | [a] =>
    let n := a.toNat * 2 ^ 4
    [sextetAt n 6, sextetAt n 0]
  | [a, b] =>
    let n := (a.toNat * 2 ^ 8 + b.toNat) * 2 ^ 2
    [sextetAt n 12, sextetAt n 6, sextetAt n 0]
  | a :: b :: c :: rest =>
    let n := a.toNat * 2 ^ 16 + b.toNat * 2 ^ 8 + c.toNat
    [sextetAt n 18, sextetAt n 12, sextetAt n 6, sextetAt n 0] ++ sextets rest

/-- The byte of `n` above the lowest `k` bits. -/
def byteAt (n k : Nat) : UInt8 := UInt8.ofNat (n / 2 ^ k)

def bytes : List (Fin 64) → List UInt8
  | [w, x] => [byteAt (w.val * 2 ^ 6 + x.val) 4]
  | [w, x, y] =>
    let n := w.val * 2 ^ 12 + x.val * 2 ^ 6 + y.val
    [byteAt n 10, byteAt n 2]
  | w :: x :: y :: z :: rest =>
    let n := w.val * 2 ^ 18 + x.val * 2 ^ 12 + y.val * 2 ^ 6 + z.val
    byteAt n 16 :: byteAt n 8 :: byteAt n 0 :: bytes rest
  | _ => []

theorem val_sextetAt (n k : Nat) : (sextetAt n k).val = n / 2 ^ k % 64 := rfl

theorem byteAt_eq {n k : Nat} {a : UInt8} (h : n / 2 ^ k % 256 = a.toNat) : byteAt n k = a :=
  UInt8.toNat_inj.mp (by rw [byteAt, UInt8.toNat_ofNat', h])

/-- **The groups are read back.** -/
theorem bytes_sextets (data : List UInt8) : bytes (sextets data) = data := by
  induction data using sextets.induct with
  | case1 => simp [sextets, bytes]
  | case2 a =>
    have ha := a.toNat_lt
    simp only [sextets, bytes, val_sextetAt]
    refine List.cons_eq_cons.mpr ⟨byteAt_eq ?_, rfl⟩
    omega
  | case3 a b =>
    have ha := a.toNat_lt
    have hb := b.toNat_lt
    simp only [sextets, bytes, val_sextetAt]
    refine List.cons_eq_cons.mpr ⟨byteAt_eq ?_, List.cons_eq_cons.mpr ⟨byteAt_eq ?_, rfl⟩⟩
    · omega
    · omega
  | case4 a b c rest ih =>
    have ha := a.toNat_lt
    have hb := b.toNat_lt
    have hc := c.toNat_lt
    simp only [sextets, List.cons_append, List.nil_append, bytes, val_sextetAt, ih]
    refine List.cons_eq_cons.mpr ⟨byteAt_eq ?_, List.cons_eq_cons.mpr ⟨byteAt_eq ?_,
      List.cons_eq_cons.mpr ⟨byteAt_eq ?_, rfl⟩⟩⟩
    · omega
    · omega
    · omega

end Base64
