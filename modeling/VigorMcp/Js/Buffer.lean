import VigorMcp.Js.Value
import VigorMcp.Lib.Base64

/-!
# Buffers

The bytes of a text in UTF-8 (`utf8`), where a surrogate without its partner becomes U+FFFD, the
text of bytes, and bytes as base64 text. The text of a text's bytes is that text made well formed
(`utf8Text_utf8`), so two texts have the same bytes exactly when they differ in such surrogates only
(`utf8_eq_iff`). Bytes are read back from their base64 text (`fromBase64_toBase64`).
-/

namespace VigorMcp

/-! ## UTF-8 -/

/-- The bytes of a code point. -/
def utf8Point (p : Nat) : List UInt8 :=
  if p < 0x80 then [UInt8.ofNat p]
  else if p < 0x800 then [UInt8.ofNat (0xC0 + p / 0x40), UInt8.ofNat (0x80 + p % 0x40)]
  else if p < 0x10000 then
    [UInt8.ofNat (0xE0 + p / 0x1000), UInt8.ofNat (0x80 + p / 0x40 % 0x40),
      UInt8.ofNat (0x80 + p % 0x40)]
  else
    [UInt8.ofNat (0xF0 + p / 0x40000), UInt8.ofNat (0x80 + p / 0x1000 % 0x40),
      UInt8.ofNat (0x80 + p / 0x40 % 0x40), UInt8.ofNat (0x80 + p % 0x40)]

/-- The code point of a code unit that no partner belongs to. -/
def lonePoint (u : UInt16) : Nat :=
  if isHighSurrogate u || isLowSurrogate u then 0xFFFD else u.toNat

/-- `Buffer.from(s, 'utf8')`. -/
def utf8 : JStr → List UInt8
  | [] => []
  | [u] => utf8Point (lonePoint u)
  | u :: v :: s =>
    if isHighSurrogate u && isLowSurrogate v then
      utf8Point (0x10000 + (u.toNat - 0xD800) * 0x400 + (v.toNat - 0xDC00)) ++ utf8 s
    else utf8Point (lonePoint u) ++ utf8 (v :: s)

/-- `s.toWellFormed()`. -/
def toWellFormed : JStr → JStr
  | [] => []
  | [u] => [UInt16.ofNat (lonePoint u)]
  | u :: v :: s =>
    if isHighSurrogate u && isLowSurrogate v then u :: v :: toWellFormed s
    else UInt16.ofNat (lonePoint u) :: toWellFormed (v :: s)

/-! ### The text of bytes -/

/-- The code units of a code point. -/
def pointUnits (p : Nat) : JStr :=
  if p < 0x10000 then [UInt16.ofNat p]
  else [UInt16.ofNat (0xD800 + (p - 0x10000) / 0x400), UInt16.ofNat (0xDC00 + (p - 0x10000) % 0x400)]

/-- What has been read of a character: how many bytes of it are to come, its point so far, and the
bounds of the next byte. -/
structure Utf8State where
  needed : Nat
  point : Nat
  lower : Nat
  upper : Nat

namespace Utf8State

def start : Utf8State := ⟨0, 0, 0x80, 0xBF⟩

/-- The first byte of a character: the units it gives at once, and what is read then. -/
def lead (b : Nat) : JStr × Utf8State :=
  if b ≤ 0x7F then ([UInt16.ofNat b], start)
  else if 0xC2 ≤ b ∧ b ≤ 0xDF then ([], ⟨1, b - 0xC0, 0x80, 0xBF⟩)
  else if 0xE0 ≤ b ∧ b ≤ 0xEF then
    ([], ⟨2, b - 0xE0, if b = 0xE0 then 0xA0 else 0x80, if b = 0xED then 0x9F else 0xBF⟩)
  else if 0xF0 ≤ b ∧ b ≤ 0xF4 then
    ([], ⟨3, b - 0xF0, if b = 0xF0 then 0x90 else 0x80, if b = 0xF4 then 0x8F else 0xBF⟩)
  else ([0xFFFD], start)

/-- The next byte. One that the character cannot go on with ends it and is read as a first byte. -/
def step (s : Utf8State) (b : Nat) : JStr × Utf8State :=
  if s.needed = 0 then lead b
  else if s.lower ≤ b ∧ b ≤ s.upper then
    let point := s.point * 0x40 + (b - 0x80)
    if s.needed = 1 then (pointUnits point, start) else ([], ⟨s.needed - 1, point, 0x80, 0xBF⟩)
  else (0xFFFD :: (lead b).1, (lead b).2)

def text (s : Utf8State) : List UInt8 → JStr
  | [] => if s.needed = 0 then [] else [0xFFFD]
  | b :: bytes => (s.step b.toNat).1 ++ (s.step b.toNat).2.text bytes

variable {needed point lower upper b : Nat} (bytes : List UInt8)

theorem toNat_byte (h : b < 256) : (UInt8.ofNat b).toNat = b := by
  rw [UInt8.toNat_ofNat', Nat.mod_eq_of_lt h]

theorem text_lead (h : b < 256) :
    start.text (UInt8.ofNat b :: bytes) = (lead b).1 ++ (lead b).2.text bytes := by
  have hstep : start.step b = lead b := if_pos rfl
  rw [text, toNat_byte h, hstep]

theorem text_more (h : lower ≤ b ∧ b ≤ upper) (hb : b < 256) :
    text ⟨needed + 2, point, lower, upper⟩ (UInt8.ofNat b :: bytes) =
      text ⟨needed + 1, point * 0x40 + (b - 0x80), 0x80, 0xBF⟩ bytes := by
  have hstep : step ⟨needed + 2, point, lower, upper⟩ b =
      ([], ⟨needed + 1, point * 0x40 + (b - 0x80), 0x80, 0xBF⟩) := by
    rw [step, if_neg (Nat.succ_ne_zero _), if_pos h]
    exact if_neg (by simp)
  rw [text, toNat_byte hb, hstep, List.nil_append]

theorem text_last (h : lower ≤ b ∧ b ≤ upper) (hb : b < 256) :
    text ⟨1, point, lower, upper⟩ (UInt8.ofNat b :: bytes) =
      pointUnits (point * 0x40 + (b - 0x80)) ++ start.text bytes := by
  have hstep : step ⟨1, point, lower, upper⟩ b = (pointUnits (point * 0x40 + (b - 0x80)), start) := by
    rw [step, if_neg Nat.one_ne_zero, if_pos h]
    exact if_pos rfl
  rw [text, toNat_byte hb, hstep]

/-- A code point that is no surrogate. -/
def IsScalar (p : Nat) : Prop := p < 0xD800 ∨ (0xE000 ≤ p ∧ p < 0x110000)

/-- **The bytes of a character give its units.** -/
theorem text_utf8Point {p : Nat} (h : IsScalar p) :
    start.text (utf8Point p ++ bytes) = pointUnits p ++ start.text bytes := by
  unfold IsScalar at h
  unfold utf8Point
  split
  · next h1 =>
    rw [List.singleton_append, text_lead bytes (by omega), lead, if_pos (by omega), pointUnits,
      if_pos (by omega)]
  · split
    · next h1 h2 =>
      have hpoint : (0xC0 + p / 0x40 - 0xC0) * 0x40 + (0x80 + p % 0x40 - 0x80) = p := by omega
      rw [List.cons_append, List.singleton_append, text_lead _ (by omega), lead, if_neg (by omega),
        if_pos (by omega), List.nil_append, text_last bytes (by omega) (by omega), hpoint]
    · split
      · next h1 h2 h3 =>
        have hpoint : ((0xE0 + p / 0x1000 - 0xE0) * 0x40 + (0x80 + p / 0x40 % 0x40 - 0x80)) * 0x40 +
            (0x80 + p % 0x40 - 0x80) = p := by omega
        rw [List.cons_append, List.cons_append, List.singleton_append, text_lead _ (by omega), lead,
          if_neg (by omega), if_neg (by omega), if_pos (by omega), List.nil_append,
          text_more _ (by constructor <;> split <;> omega) (by omega),
          text_last bytes (by omega) (by omega), hpoint]
      · next h1 h2 h3 =>
        have hpoint : (((0xF0 + p / 0x40000 - 0xF0) * 0x40 + (0x80 + p / 0x1000 % 0x40 - 0x80)) * 0x40 +
            (0x80 + p / 0x40 % 0x40 - 0x80)) * 0x40 + (0x80 + p % 0x40 - 0x80) = p := by omega
        rw [List.cons_append, List.cons_append, List.cons_append, List.singleton_append,
          text_lead _ (by omega), lead, if_neg (by omega), if_neg (by omega), if_neg (by omega),
          if_pos (by omega), List.nil_append,
          text_more _ (by constructor <;> split <;> omega) (by omega),
          text_more _ (by omega) (by omega), text_last bytes (by omega) (by omega), hpoint]

end Utf8State

/-- `buffer.toString('utf8')`. -/
def utf8Text (bytes : List UInt8) : JStr := Utf8State.start.text bytes

theorem lonePoint_scalar (u : UInt16) :
    Utf8State.IsScalar (lonePoint u) ∧ pointUnits (lonePoint u) = [UInt16.ofNat (lonePoint u)] := by
  have hu := u.toNat_lt
  unfold lonePoint Utf8State.IsScalar pointUnits
  split
  · decide
  · next h =>
    simp only [isHighSurrogate, isLowSurrogate, Bool.or_eq_true, Bool.and_eq_true, decide_eq_true_eq,
      UInt16.le_iff_toNat_le, UInt16.reduceToNat] at h
    exact ⟨by omega, rfl⟩

/-- A pair is the units of the point it stands for. -/
theorem pair_scalar {u v : UInt16} (h : (isHighSurrogate u && isLowSurrogate v) = true) :
    Utf8State.IsScalar (0x10000 + (u.toNat - 0xD800) * 0x400 + (v.toNat - 0xDC00)) ∧
      pointUnits (0x10000 + (u.toNat - 0xD800) * 0x400 + (v.toNat - 0xDC00)) = [u, v] := by
  simp only [isHighSurrogate, isLowSurrogate, Bool.and_eq_true, decide_eq_true_eq,
    UInt16.le_iff_toNat_le, UInt16.reduceToNat] at h
  refine ⟨.inr (by omega), ?_⟩
  have hhigh : 0xD800 + (0x10000 + (u.toNat - 0xD800) * 0x400 + (v.toNat - 0xDC00) - 0x10000) / 0x400 =
      u.toNat := by omega
  have hlow : 0xDC00 + (0x10000 + (u.toNat - 0xD800) * 0x400 + (v.toNat - 0xDC00) - 0x10000) % 0x400 =
      v.toNat := by omega
  rw [pointUnits, if_neg (by omega), hhigh, hlow, UInt16.ofNat_toNat, UInt16.ofNat_toNat]

/-- **The text of a text's bytes** is that text made well formed. -/
theorem utf8Text_utf8 (s : JStr) : utf8Text (utf8 s) = toWellFormed s := by
  unfold utf8Text
  induction s using utf8.induct with
  | case1 => rfl
  | case2 u =>
    obtain ⟨hscalar, hunits⟩ := lonePoint_scalar u
    have h := Utf8State.text_utf8Point [] hscalar
    rwa [List.append_nil, hunits] at h
  | case3 u v s hpair ih =>
    obtain ⟨hscalar, hunits⟩ := pair_scalar hpair
    rw [utf8, if_pos hpair, Utf8State.text_utf8Point _ hscalar, hunits, ih, toWellFormed, if_pos hpair]
    rfl
  | case4 u v s hpair ih =>
    obtain ⟨hscalar, hunits⟩ := lonePoint_scalar u
    rw [utf8, if_neg hpair, Utf8State.text_utf8Point _ hscalar, hunits, ih, toWellFormed, if_neg hpair]
    rfl

/-- A unit that is no surrogate stands for itself, and U+FFFD is none. -/
theorem lonePoint_unit (u : UInt16) : isHighSurrogate (UInt16.ofNat (lonePoint u)) = false ∧
    lonePoint (UInt16.ofNat (lonePoint u)) = lonePoint u := by
  cases h : isHighSurrogate u || isLowSurrogate u with
  | true =>
    have hpoint : lonePoint u = 0xFFFD := if_pos h
    rw [hpoint]
    decide
  | false =>
    have hunit : UInt16.ofNat (lonePoint u) = u := by
      rw [lonePoint, h]
      exact UInt16.ofNat_toNat
    rw [hunit]
    exact ⟨(Bool.or_eq_false_iff.mp h).1, rfl⟩

theorem utf8_cons {u : UInt16} (h : isHighSurrogate u = false) (s : JStr) :
    utf8 (u :: s) = utf8Point (lonePoint u) ++ utf8 s := by
  cases s with
  | nil => exact (List.append_nil _).symm
  | cons v s => rw [utf8, h, Bool.false_and, if_neg Bool.false_ne_true]

/-- Made well formed, a text keeps its bytes. -/
theorem utf8_toWellFormed (s : JStr) : utf8 (toWellFormed s) = utf8 s := by
  have lone (u : UInt16) (s : JStr) :
      utf8 (UInt16.ofNat (lonePoint u) :: s) = utf8Point (lonePoint u) ++ utf8 s := by
    rw [utf8_cons (lonePoint_unit u).1, (lonePoint_unit u).2]
  induction s using utf8.induct with
  | case1 => rfl
  | case2 u => exact (lone u []).trans (List.append_nil _)
  | case3 u v s hpair ih => rw [toWellFormed, if_pos hpair, utf8, if_pos hpair, ih, utf8, if_pos hpair]
  | case4 u v s hpair ih => rw [toWellFormed, if_neg hpair, lone, ih, utf8, if_neg hpair]

/-- **Two texts have the same bytes** exactly when they are the same once made well formed. -/
theorem utf8_eq_iff {s t : JStr} : utf8 s = utf8 t ↔ toWellFormed s = toWellFormed t := by
  constructor
  · intro h
    rw [← utf8Text_utf8, h, utf8Text_utf8]
  · intro h
    rw [← utf8_toWellFormed s, h, utf8_toWellFormed]

def Ascii (s : JStr) : Prop := ∀ u ∈ s, u.toNat < 128

/-- An ASCII text is well formed. -/
theorem toWellFormed_ascii {s : JStr} (h : Ascii s) : toWellFormed s = s := by
  have hunit {u : UInt16} (hu : u.toNat < 128) :
      isHighSurrogate u = false ∧ UInt16.ofNat (lonePoint u) = u := by
    have hnone : isHighSurrogate u = false ∧ isLowSurrogate u = false := by
      simp only [isHighSurrogate, isLowSurrogate, Bool.and_eq_false_iff, decide_eq_false_iff_not,
        UInt16.le_iff_toNat_le, UInt16.reduceToNat]
      omega
    refine ⟨hnone.1, ?_⟩
    rw [lonePoint, hnone.1, hnone.2]
    exact UInt16.ofNat_toNat
  induction s using toWellFormed.induct with
  | case1 => rfl
  | case2 u => rw [toWellFormed, (hunit (h u List.mem_cons_self)).2]
  | case3 u v s hpair ih =>
    rw [(hunit (h u List.mem_cons_self)).1] at hpair
    cases hpair
  | case4 u v s hpair ih =>
    rw [toWellFormed, if_neg hpair, (hunit (h u List.mem_cons_self)).2,
      ih fun w hw => h w (List.mem_cons_of_mem u hw)]

/-- Each byte as a code unit. -/
def byteUnits (bytes : List UInt8) : JStr := bytes.map fun byte => UInt16.ofNat byte.toNat

theorem byteUnits_injective : Function.Injective byteUnits := by
  refine List.map_injective_iff.mpr fun a b h => UInt8.toNat_inj.mp ?_
  have hunits := congrArg UInt16.toNat h
  have ha := a.toNat_lt
  have hb := b.toNat_lt
  rwa [UInt16.toNat_ofNat', UInt16.toNat_ofNat', Nat.mod_eq_of_lt (by omega),
    Nat.mod_eq_of_lt (by omega)] at hunits

/-! ## Base64 -/

/-- The character of six bits. -/
def base64Digit (k : Fin 64) : UInt16 :=
  if k.val < 26 then UInt16.ofNat (65 + k.val)
  else if k.val < 52 then UInt16.ofNat (71 + k.val)
  else if k.val < 62 then UInt16.ofNat (k.val - 4)
  else if k.val = 62 then 43 else 47

/-- `sig.toString('base64')`. -/
def toBase64 (bytes : List UInt8) : JStr :=
  let digits := (Base64.sextets bytes).map base64Digit
  digits ++ List.replicate ((4 - digits.length % 4) % 4) 61

/-- The six bits of a character, of the alphabet for URLs too. -/
def base64Value (u : UInt16) : Option (Fin 64) :=
  if 65 ≤ u ∧ u ≤ 90 then some (Base64.sextet (u.toNat - 65))
  else if 97 ≤ u ∧ u ≤ 122 then some (Base64.sextet (u.toNat - 71))
  else if 48 ≤ u ∧ u ≤ 57 then some (Base64.sextet (u.toNat + 4))
  else if u = 43 ∨ u = 45 then some (Base64.sextet 62)
  else if u = 47 ∨ u = 95 then some (Base64.sextet 63)
  else none

/-- The low byte of a code unit. -/
def lowByte (u : UInt16) : UInt16 := u &&& 0xFF

/-- `Buffer.from(s, 'base64')`: of each code unit the low byte is read; what stands behind `=` and
other characters count for nothing. -/
def fromBase64 (s : JStr) : List UInt8 :=
  Base64.bytes (((s.map lowByte).takeWhile (· ≠ 61)).filterMap base64Value)

theorem base64Value_digit : ∀ k, base64Value (base64Digit k) = some k := by decide

theorem base64Digit_ne_pad : ∀ k, base64Digit k ≠ 61 := by decide

theorem lowByte_toBase64 (bytes : List UInt8) : (toBase64 bytes).map lowByte = toBase64 bytes := by
  have hdigit : ∀ k, lowByte (base64Digit k) = base64Digit k := by decide
  rw [toBase64, List.map_append, List.map_map, List.map_replicate]
  exact congrArg (· ++ _) (List.map_congr_left fun k _ => hdigit k)

/-- **Base64 text is read back.** -/
theorem fromBase64_toBase64 (bytes : List UInt8) : fromBase64 (toBase64 bytes) = bytes := by
  have hdigits : ∀ u ∈ (Base64.sextets bytes).map base64Digit, decide (u ≠ 61) = true := by
    intro u hu
    obtain ⟨k, -, rfl⟩ := List.mem_map.mp hu
    exact decide_eq_true (base64Digit_ne_pad k)
  have htake : (toBase64 bytes).takeWhile (· ≠ 61) = (Base64.sextets bytes).map base64Digit := by
    rw [toBase64, List.takeWhile_append_of_pos hdigits, List.takeWhile_replicate]
    simp
  have hvalues : (Base64.sextets bytes).filterMap (base64Value ∘ base64Digit) =
      Base64.sextets bytes := by
    rw [show base64Value ∘ base64Digit = some from funext base64Value_digit, List.filterMap_some]
  rw [fromBase64, lowByte_toBase64, htake, List.filterMap_map, hvalues, Base64.bytes_sextets]

/-- U+0151 is read as `Q`. -/
example : fromBase64 [89, 0x151, 81] = fromBase64 (js "YQQ") := by decide

end VigorMcp
