import Mathlib.Data.List.DropRight
import VigorMcp.Lib.Scan

/-!
# JavaScript strings

A string is its UTF-16 code units (`JStr`); `js` writes one as a literal. The
functions below are the built-ins the program calls, under their own names, on
code units: so `slice` may cut a surrogate pair, and `trim` and `\s` agree on
the white space (`isSpace`).
-/

namespace VigorMcp

abbrev JStr := List UInt16

instance : LawfulBEq JStr := inferInstance

/-- The UTF-16 code units of a character. -/
def utf16 (c : Char) : JStr :=
  if c.toNat < 0x10000 then [UInt16.ofNat c.toNat]
  else [UInt16.ofNat (0xD800 + (c.toNat - 0x10000) / 0x400),
    UInt16.ofNat (0xDC00 + (c.toNat - 0x10000) % 0x400)]

def js (s : String) : JStr := s.toList.flatMap utf16

def lf : UInt16 := 10

def cr : UInt16 := 13

def space : UInt16 := 32

/-- White space and line terminators: what `trim` strips and `\s` matches. -/
def isSpace (u : UInt16) : Bool :=
  (9 ≤ u && u ≤ 13) || u == 0x20 || u == 0xA0 || u == 0x1680 || (0x2000 ≤ u && u ≤ 0x200A) ||
    u == 0x2028 || u == 0x2029 || u == 0x202F || u == 0x205F || u == 0x3000 || u == 0xFEFF

def isDigit (u : UInt16) : Bool := 48 ≤ u && u ≤ 57

def trim (s : JStr) : JStr := (s.dropWhile isSpace).rdropWhile isSpace

/-- The lower case of a code unit. Units whose lower case lies outside ASCII stay as they are:
the texts the program compares lower-cased strings with are ASCII. -/
def lowerUnit (u : UInt16) : JStr :=
  if 65 ≤ u ∧ u ≤ 90 then [u + 32]
  else if u = 0x212A then [107]
  else if u = 0x130 then [105, 0x307]
  else [u]

/-- ASCII case folding, which is what the `i` flag does to ASCII words. -/
def foldUnit (u : UInt16) : UInt16 := if 65 ≤ u ∧ u ≤ 90 then u + 32 else u

def toLowerCase (s : JStr) : JStr := s.flatMap lowerUnit

def includes (s w : JStr) : Bool := decide (w <:+: s)

def startsWith (s w : JStr) : Bool := w.isPrefixOf s

/-- `s.slice(0, n)`. -/
def slice (s : JStr) (n : Nat) : JStr := s.take n

def join (sep : JStr) (parts : List JStr) : JStr := List.intercalate sep parts

/-- The decimal text of an integer. -/
def decimal (n : Int) : JStr := js (toString n)

theorem includes_iff {s w : JStr} : includes s w = true ↔ w <:+: s := decide_eq_true_iff

theorem startsWith_iff {s w : JStr} : startsWith s w = true ↔ w <+: s :=
  List.isPrefixOf_iff_prefix

/-- A text that begins and ends with no white space is all that `trim` leaves of its padding. -/
theorem trim_pad {before s after : JStr} {first last : UInt16}
    (hbefore : ∀ u ∈ before, isSpace u = true) (hafter : ∀ u ∈ after, isSpace u = true)
    (hfirst : s.head? = some first) (hlast : s.getLast? = some last)
    (hfirst' : isSpace first = false) (hlast' : isSpace last = false) :
    trim (before ++ (s ++ after)) = s := by
  have hleft : (before ++ (s ++ after)).dropWhile isSpace = s ++ after := by
    rw [List.dropWhile_append_of_pos hbefore]
    obtain ⟨rest, rfl⟩ := List.head?_eq_some_iff.mp hfirst
    exact List.dropWhile_cons_of_neg (by simp [hfirst'])
  obtain ⟨rest, rfl⟩ := List.getLast?_eq_some_iff.mp hlast
  rw [trim, hleft, List.rdropWhile, List.reverse_append,
    List.dropWhile_append_of_pos (by simpa using hafter), List.reverse_concat,
    List.dropWhile_cons_of_neg (by simp [hlast']), List.reverse_cons, List.reverse_reverse]

theorem trim_eq_self {s : JStr} (h : ∀ u ∈ s, isSpace u = false) : trim s = s := by
  have hdrop : s.dropWhile isSpace = s := by
    cases s with
    | nil => rfl
    | cons u s => exact List.dropWhile_cons_of_neg (by simp [h u])
  rw [trim, hdrop, List.rdropWhile_eq_self_iff]
  exact fun hne => by simp [h _ (List.getLast_mem hne)]

theorem isSpace_of_isDigit {u : UInt16} (h : isDigit u = true) : isSpace u = false := by
  have hall : ∀ k : Fin 10, isSpace (UInt16.ofNat (48 + k)) = false := by decide
  simp only [isDigit, Bool.and_eq_true, decide_eq_true_eq, UInt16.le_iff_toNat_le,
    UInt16.reduceToNat] at h
  have hu := hall ⟨u.toNat - 48, by omega⟩
  rwa [show 48 + (u.toNat - 48) = u.toNat by omega, UInt16.ofNat_toNat] at hu

/-! ## Line splitting -/

/-- The matcher of `/\r?\n/`. -/
def crlfAt : JStr → Nat
  | 13 :: 10 :: _ => 2
  | 10 :: _ => 1
  | _ => 0

/-- `s.split(/\r?\n/)`. -/
def splitLines (s : JStr) : List JStr := Scan.texts (Scan.scan crlfAt s)

/-- The matcher of `/\s+/`. -/
def spacesAt (s : JStr) : Nat := (s.takeWhile isSpace).length

/-- `s.replace(/\s+/g, ' ')`. -/
def collapse (s : JStr) : JStr :=
  List.intercalate [space] (Scan.texts (Scan.scan spacesAt s))

end VigorMcp
