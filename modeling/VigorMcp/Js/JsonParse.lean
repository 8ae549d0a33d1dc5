import VigorMcp.Js.Number
import VigorMcp.Js.PrettyJson

/-!
# Reading JSON

`JSON.parse`: recursive descent over the code units. A number is rounded to
binary64. The recursion is on a fuel that a text of length `n` never uses up
when it starts at `2 * n + 1` (`value_fuel`).
-/

namespace VigorMcp

namespace Json

def isBlank (u : UInt16) : Bool := u == 32 || u == 9 || u == 10 || u == 13

def skipBlanks (s : JStr) : JStr := s.dropWhile isBlank

/-- What may stand behind a backslash, `u` apart. -/
def isEscape (u : UInt16) : Bool := [34, 92, 47, 98, 102, 110, 114, 116].contains u

/-- The text holds a string's inside and the closing quote. -/
def closes : JStr → Bool
  | [] => false
  | 34 :: _ => true
  | 92 :: 117 :: a :: b :: c :: d :: rest => [a, b, c, d].all isHexDigit && closes rest
  | 92 :: u :: rest => isEscape u && closes rest
  | u :: rest => 32 ≤ u && closes rest

def readNumber (s : JStr) : Option (JsValue × JStr) := do
  let signed := readSign s
  let (whole, s₂) ← readDigits signed.2
  if whole.length > 1 ∧ whole.head? = some 48 then none
  else
    let (fraction, s₃) ← readFraction s₂
    let (exponent, s₄) ← readExponent s₃
    let magnitude : Num := Float.Model.ofScientific (digitsValue (whole ++ fraction))
      (exponent - fraction.length)
    return (.num (.ofNum (if signed.1 then -magnitude else magnitude)), s₄)

def readWord (s : JStr) : Option (JsValue × JStr) :=
  if startsWith s (js "true") then some (.bool true, s.drop 4)
  else if startsWith s (js "false") then some (.bool false, s.drop 5)
  else if startsWith s (js "null") then some (.null, s.drop 4)
  else readNumber s

/-- A key that occurs again keeps its place and gets the later value. -/
def record (pairs : List (JStr × JsValue)) : JsValue :=
  .obj (pairs.foldl (fun m e => m.set e.1 e.2) (OrderedMap.empty : Args)).entries

mutual

def value : Nat → JStr → Option (JsValue × JStr)
  | 0, _ => none
  | fuel + 1, s =>
    match skipBlanks s with
    | 34 :: s => if closes s then some (.str (unescape s).1, (unescape s).2) else none
    | 91 :: s =>
      match skipBlanks s with
      | 93 :: s => some (.arr [], s)
      | s => (items fuel s).map fun r => (.arr r.1, r.2)
    | 123 :: s =>
      match skipBlanks s with
      | 125 :: s => some (.obj [], s)
      | s => (fields fuel s).map fun r => (record r.1, r.2)
    | s => readWord s

def items : Nat → JStr → Option (List JsValue × JStr)
  | 0, _ => none
  | fuel + 1, s => do
    let (v, s) ← value fuel s
    match skipBlanks s with
    | 44 :: s => (items fuel s).map fun r => (v :: r.1, r.2)
    | 93 :: s => some ([v], s)
    | _ => none

def fields : Nat → JStr → Option (List (JStr × JsValue) × JStr)
  | 0, _ => none
  | fuel + 1, s =>
    match skipBlanks s with
    | 34 :: s =>
      if closes s then
        match skipBlanks (unescape s).2 with
        | 58 :: s₁ => do
          let (v, s₂) ← value fuel s₁
          match skipBlanks s₂ with
          | 44 :: s₃ => (fields fuel s₃).map fun r => (((unescape s).1, v) :: r.1, r.2)
          | 125 :: s₃ => some ([((unescape s).1, v)], s₃)
          | _ => none
        | _ => none
      else none
    | _ => none

end

/-- `JSON.parse`; what it throws is a syntax error. -/
def parse (text : JStr) : Option JsValue := do
  let (v, rest) ← value (2 * text.length + 1) text
  if skipBlanks rest = [] then some v else none

/-- A number comes back as the nearest of binary64. -/
example : (parse (js "8640000000000000.4")).map stringify = some (js "8640000000000000") := by
  decide +kernel

/-! ## The fuel is enough -/

theorem length_skipBlanks_le (s : JStr) : (skipBlanks s).length ≤ s.length :=
  (List.dropWhile_suffix _).length_le

theorem length_lt_of_skipBlanks {s rest : JStr} {u : UInt16} (h : skipBlanks s = u :: rest) :
    rest.length < s.length := by
  have hs := length_skipBlanks_le s
  rwa [h] at hs

theorem length_unescape_lt {s : JStr} (h : closes s = true) : (unescape s).2.length < s.length := by
  fun_induction unescape s with
  | case1 => cases h
  | case2 rest => exact Nat.lt_succ_self _
  | case3 a b c d rest r ih =>
    have hr := ih (by rw [closes, Bool.and_eq_true] at h; exact h.2)
    have : r.2.length < rest.length := hr
    simp only [List.length_cons]
    omega
  | case4 u rest hu r ih =>
    have hr := ih (by rw [closes, Bool.and_eq_true] at h; exact h.2; exact hu)
    have : r.2.length < rest.length := hr
    simp only [List.length_cons]
    omega
  | case5 u rest h34 hu h92 r ih =>
    have hr := ih (by rw [closes, Bool.and_eq_true] at h; exact h.2; all_goals assumption)
    have : r.2.length < rest.length := hr
    simp only [List.length_cons]
    omega

theorem length_readDigits_lt {s digits rest : JStr} (h : readDigits s = some (digits, rest)) :
    rest.length < s.length := by
  unfold readDigits at h
  split at h
  · cases h
  · next hne =>
    obtain ⟨-, rfl⟩ := Prod.mk.inj (Option.some.inj h)
    have := List.length_pos_iff.mpr hne
    have := congrArg List.length (List.takeWhile_append_dropWhile (p := isDigit) (l := s))
    rw [List.length_append] at this
    omega

theorem length_readSign_le (s : JStr) : (readSign s).2.length ≤ s.length := by
  unfold readSign
  split
  · exact Nat.le_succ _
  · exact Nat.le_refl _

theorem length_readFraction_le {s digits rest : JStr} (h : readFraction s = some (digits, rest)) :
    rest.length ≤ s.length := by
  unfold readFraction at h
  split at h
  · exact (length_readDigits_lt h).le.trans (Nat.le_succ _)
  · obtain ⟨-, rfl⟩ := Prod.mk.inj (Option.some.inj h)
    exact Nat.le_refl _

theorem length_readExponent_le {s rest : JStr} {e : Int} (h : readExponent s = some (e, rest)) :
    rest.length ≤ s.length := by
  unfold readExponent at h
  split at h
  · obtain ⟨-, rfl⟩ := Prod.mk.inj (Option.some.inj h)
    exact Nat.le_refl _
  · next u s =>
    split at h
    · obtain ⟨⟨digits, rest'⟩, hdigits, heq⟩ := Option.map_eq_some_iff.mp h
      obtain ⟨-, rfl⟩ := Prod.mk.inj heq
      have := length_readDigits_lt hdigits
      rw [List.length_cons]
      split at this
      · simp only [List.length_cons] at this ⊢
        omega
      · have := length_readSign_le s
        omega
    · obtain ⟨-, rfl⟩ := Prod.mk.inj (Option.some.inj h)
      exact Nat.le_refl _

theorem length_readNumber_lt {s rest : JStr} {v : JsValue} (h : readNumber s = some (v, rest)) :
    rest.length < s.length := by
  unfold readNumber at h
  obtain ⟨⟨whole, s₂⟩, hwhole, h⟩ := Option.bind_eq_some_iff.mp h
  dsimp only at h
  split at h
  · cases h
  · obtain ⟨⟨fraction, s₃⟩, hfraction, h⟩ := Option.bind_eq_some_iff.mp h
    obtain ⟨⟨exponent, s₄⟩, hexponent, h⟩ := Option.bind_eq_some_iff.mp h
    obtain ⟨-, rfl⟩ := Prod.mk.inj (Option.some.inj h)
    calc s₄.length ≤ s₃.length := length_readExponent_le hexponent
      _ ≤ s₂.length := length_readFraction_le hfraction
      _ < (readSign s).2.length := length_readDigits_lt hwhole
      _ ≤ s.length := length_readSign_le s

theorem length_readWord_lt {s rest : JStr} {v : JsValue} (h : readWord s = some (v, rest)) :
    rest.length < s.length := by
  have word {w : JStr} {n : Nat} (hw : startsWith s w = true) (hn : w.length = n + 1) :
      (s.drop (n + 1)).length < s.length := by
    have := (startsWith_iff.mp hw).length_le
    rw [List.length_drop]
    omega
  unfold readWord at h
  split at h
  · next hw =>
    obtain ⟨-, rfl⟩ := Prod.mk.inj (Option.some.inj h)
    exact word hw rfl
  · split at h
    · next hw =>
      obtain ⟨-, rfl⟩ := Prod.mk.inj (Option.some.inj h)
      exact word hw rfl
    · split at h
      · next hw =>
        obtain ⟨-, rfl⟩ := Prod.mk.inj (Option.some.inj h)
        exact word hw rfl
      · exact length_readNumber_lt h

/-- What is read is consumed. -/
def Consumes {α : Type} (read : JStr → Option (α × JStr)) : Prop :=
  ∀ s v rest, read s = some (v, rest) → rest.length < s.length

theorem Consumes.map {α β : Type} {read : JStr → Option (α × JStr)} (h : Consumes read)
    {f : α × JStr → β} {s rest : JStr} {v : β}
    (heq : ((read s).map fun r => (f r, r.2)) = some (v, rest)) : rest.length < s.length := by
  obtain ⟨⟨w, rest'⟩, hread, hr⟩ := Option.map_eq_some_iff.mp heq
  obtain ⟨-, rfl⟩ := Prod.mk.inj hr
  exact h _ _ _ hread

variable {n : Nat}

theorem Consumes.value (hitems : Consumes (items n)) (hfields : Consumes (fields n)) :
    Consumes (value (n + 1)) := by
  intro s v rest h
  rw [Json.value] at h
  split at h
  · next s₁ heq =>
    have hs₁ := length_lt_of_skipBlanks heq
    split at h
    · next hcloses =>
      obtain ⟨-, rfl⟩ := Prod.mk.inj (Option.some.inj h)
      exact (length_unescape_lt hcloses).trans hs₁
    · cases h
  · next s₁ heq =>
    have hs₁ := length_lt_of_skipBlanks heq
    split at h
    · next s₂ heq₂ =>
      obtain ⟨-, rfl⟩ := Prod.mk.inj (Option.some.inj h)
      exact (length_lt_of_skipBlanks heq₂).trans hs₁
    · have hrest := hitems.map h
      exact (hrest.trans_le (length_skipBlanks_le s₁)).trans hs₁
  · next s₁ heq =>
    have hs₁ := length_lt_of_skipBlanks heq
    split at h
    · next s₂ heq₂ =>
      obtain ⟨-, rfl⟩ := Prod.mk.inj (Option.some.inj h)
      exact (length_lt_of_skipBlanks heq₂).trans hs₁
    · have hrest := hfields.map h
      exact (hrest.trans_le (length_skipBlanks_le s₁)).trans hs₁
  · exact (length_readWord_lt h).trans_le (length_skipBlanks_le s)

theorem Consumes.items (hvalue : Consumes (Json.value n)) (hitems : Consumes (Json.items n)) :
    Consumes (Json.items (n + 1)) := by
  intro s vs rest h
  rw [Json.items] at h
  obtain ⟨⟨v, s₁⟩, hv, h⟩ := Option.bind_eq_some_iff.mp h
  have hs₁ := hvalue _ _ _ hv
  dsimp only at h
  split at h
  · next s₂ heq =>
    have hrest := hitems.map h
    exact (hrest.trans (length_lt_of_skipBlanks heq)).trans hs₁
  · next s₂ heq =>
    obtain ⟨-, rfl⟩ := Prod.mk.inj (Option.some.inj h)
    exact (length_lt_of_skipBlanks heq).trans hs₁
  · cases h

theorem Consumes.fields (hvalue : Consumes (Json.value n)) (hfields : Consumes (Json.fields n)) :
    Consumes (Json.fields (n + 1)) := by
  intro s es rest h
  rw [Json.fields] at h
  split at h
  · next s₁ heq =>
    have hs₁ := length_lt_of_skipBlanks heq
    split at h
    · next hcloses =>
      have hkey := (length_unescape_lt hcloses).trans hs₁
      split at h
      · next s₃ heq₃ =>
        have hs₃ := (length_lt_of_skipBlanks heq₃).trans hkey
        obtain ⟨⟨v, s₄⟩, hv, h⟩ := Option.bind_eq_some_iff.mp h
        have hs₄ := (hvalue _ _ _ hv).trans hs₃
        dsimp only at h
        split at h
        · next s₅ heq₅ =>
          have hrest := hfields.map h
          exact (hrest.trans (length_lt_of_skipBlanks heq₅)).trans hs₄
        · next s₅ heq₅ =>
          obtain ⟨-, rfl⟩ := Prod.mk.inj (Option.some.inj h)
          exact (length_lt_of_skipBlanks heq₅).trans hs₄
        · cases h
      · cases h
    · cases h
  · cases h

theorem consumes (n : Nat) :
    Consumes (Json.value n) ∧ Consumes (Json.items n) ∧ Consumes (Json.fields n) := by
  induction n with
  | zero =>
    refine ⟨fun s v rest h => ?_, fun s vs rest h => ?_, fun s es rest h => ?_⟩
    · rw [Json.value] at h; cases h
    · rw [Json.items] at h; cases h
    · rw [Json.fields] at h; cases h
  | succ n ih =>
    obtain ⟨hvalue, hitems, hfields⟩ := ih
    exact ⟨.value hitems hfields, .items hvalue hitems, .fields hvalue hfields⟩

/-- **The fuel is enough**: more of it than twice the length of the text changes nothing. -/
theorem value_fuel (n : Nat) :
    (∀ s, 2 * s.length + 1 ≤ n → value (n + 1) s = value n s) ∧
    (∀ s, 2 * s.length + 2 ≤ n → items (n + 1) s = items n s) ∧
    (∀ s, 2 * s.length + 2 ≤ n → fields (n + 1) s = fields n s) := by
  induction n with
  | zero =>
    refine ⟨fun s h => ?_, fun s h => ?_, fun s h => ?_⟩ <;> omega
  | succ n ih =>
    obtain ⟨ihv, ihi, ihf⟩ := ih
    refine ⟨fun s h => ?_, fun s h => ?_, fun s h => ?_⟩
    · rw [value, value]
      split
      · rfl
      · next s₁ heq =>
        have hs₁ := length_lt_of_skipBlanks heq
        have hs₂ := length_skipBlanks_le s₁
        split
        · rfl
        · rw [ihi _ (by omega)]
      · next s₁ heq =>
        have hs₁ := length_lt_of_skipBlanks heq
        have hs₂ := length_skipBlanks_le s₁
        split
        · rfl
        · rw [ihf _ (by omega)]
      · rfl
    · rw [items, items, ihv _ (by omega)]
      refine Option.bind_congr fun r hr => ?_
      obtain ⟨v, s₁⟩ := r
      have hs₁ := (consumes n).1 _ _ _ hr
      dsimp only
      split
      · next s₂ heq =>
        have hs₂ := length_lt_of_skipBlanks heq
        rw [ihi _ (by omega)]
      · rfl
      · rfl
    · rw [fields, fields]
      split
      · next s₁ heq =>
        have hs₁ := length_lt_of_skipBlanks heq
        split
        · next hcloses =>
          have hkey := length_unescape_lt hcloses
          split
          · next s₃ heq₃ =>
            have hs₃ := length_lt_of_skipBlanks heq₃
            rw [ihv s₃ (by omega)]
            refine Option.bind_congr fun r hr => ?_
            obtain ⟨v, s₄⟩ := r
            have hs₄ := (consumes n).1 _ _ _ hr
            dsimp only
            split
            · next s₅ heq₅ =>
              have hs₅ := length_lt_of_skipBlanks heq₅
              rw [ihf _ (by omega)]
            · rfl
            · rfl
          · rfl
        · rfl
      · rfl

end Json

end VigorMcp
