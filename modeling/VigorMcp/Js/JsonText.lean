import VigorMcp.Js.Same

/-!
# What a JSON text tells apart

`JSON.stringify` of two values that differ in strings only gives two texts, and
the texts can be read back: a quoted string ends where its closing quote stands
(`unescape_escape`), so equal texts come from equal values
(`Rewritten.stringify_inj`). `Rewritten P` relates a value to one with other
strings at the paths in `P`.
-/

namespace VigorMcp

/-! ## Reading a quoted string -/

def hexValue (u : UInt16) : UInt16 :=
  if u < 58 then u - 48 else if u < 97 then u - 55 else u - 87

/-- The unit behind a backslash, `u` apart. -/
def controlUnit (u : UInt16) : UInt16 :=
  if u = 98 then 8 else if u = 102 then 12 else if u = 110 then 10 else if u = 114 then 13
  else if u = 116 then 9 else u

/-- The string up to the closing quote, and what follows the quote. -/
def unescape : JStr → JStr × JStr
  | [] => ([], [])
  | 34 :: rest => ([], rest)
  | 92 :: 117 :: a :: b :: c :: d :: rest =>
    let r := unescape rest
    ((hexValue a * 4096 + hexValue b * 256 + hexValue c * 16 + hexValue d) :: r.1, r.2)
  | 92 :: u :: rest =>
    let r := unescape rest
    (controlUnit u :: r.1, r.2)
  | u :: rest =>
    let r := unescape rest
    (u :: r.1, r.2)

theorem unescape_raw {u : UInt16} (h : u ≠ 34) (h' : u ≠ 92) (rest : JStr) :
    unescape (u :: rest) = (u :: (unescape rest).1, (unescape rest).2) := by
  rw [unescape] <;> simp_all

theorem hexValue_hexDigit {n : UInt16} (h : n.toNat < 16) : hexValue (hexDigit n) = n := by
  have hn : n < 16 := h
  unfold hexDigit hexValue
  rw [← UInt16.toNat_inj]
  split
  · next h10 =>
    rw [if_pos]
    all_goals
      simp only [UInt16.lt_iff_toNat_lt, UInt16.toNat_add, UInt16.toNat_sub, UInt16.reduceToNat] at *
      omega
  · next h10 =>
    rw [if_neg, if_neg]
    all_goals
      simp only [UInt16.lt_iff_toNat_lt, UInt16.toNat_add, UInt16.toNat_sub, UInt16.reduceToNat] at *
      omega

theorem toNat_and_15 (u : UInt16) : (u &&& 15).toNat = u.toNat % 16 := by
  rw [UInt16.toNat_and]
  exact Nat.and_two_pow_sub_one_eq_mod u.toNat 4

theorem unescape_unicodeEscape (u : UInt16) (rest : JStr) :
    unescape (unicodeEscape u ++ rest) = (u :: (unescape rest).1, (unescape rest).2) := by
  have hu : u.toNat < 65536 := u.toNat_lt
  have h12 : (u >>> 12).toNat = u.toNat / 4096 := by
    simp [UInt16.toNat_shiftRight, Nat.shiftRight_eq_div_pow]
  have h8 : (u >>> 8).toNat = u.toNat / 256 := by
    simp [UInt16.toNat_shiftRight, Nat.shiftRight_eq_div_pow]
  have h4 : (u >>> 4).toNat = u.toNat / 16 := by
    simp [UInt16.toNat_shiftRight, Nat.shiftRight_eq_div_pow]
  have hvalue : (u >>> (12 : UInt16)) * (4096 : UInt16) + ((u >>> (8 : UInt16)) &&& (15 : UInt16)) *
      (256 : UInt16) + ((u >>> (4 : UInt16)) &&& (15 : UInt16)) * (16 : UInt16) + (u &&& (15 : UInt16)) = u := by
    rw [← UInt16.toNat_inj]
    simp only [UInt16.toNat_add, UInt16.toNat_mul, toNat_and_15, h12, h8, h4, UInt16.reduceToNat]
    omega
  show unescape (92 :: 117 :: _ :: _ :: _ :: _ :: rest) = _
  rw [unescape, hexValue_hexDigit (by omega), hexValue_hexDigit (by rw [toNat_and_15]; omega),
    hexValue_hexDigit (by rw [toNat_and_15]; omega), hexValue_hexDigit (by rw [toNat_and_15]; omega), hvalue]

theorem unescape_escapeUnit (u : UInt16) (rest : JStr) :
    unescape (escapeUnit u ++ rest) = (u :: (unescape rest).1, (unescape rest).2) := by
  unfold escapeUnit
  by_cases h34 : u = 34
  · subst h34; rfl
  by_cases h92 : u = 92
  · subst h92; rfl
  by_cases h8 : u = 8
  · subst h8; rfl
  by_cases h12 : u = 12
  · subst h12; rfl
  by_cases h10 : u = 10
  · subst h10; rfl
  by_cases h13 : u = 13
  · subst h13; rfl
  by_cases h9 : u = 9
  · subst h9; rfl
  simp only [h34, h92, h8, h12, h10, h13, h9, ↓reduceIte]
  split
  · exact unescape_unicodeEscape u rest
  · exact unescape_raw h34 h92 rest

/-- **The inside of a quoted string can be read back**, whatever follows the closing quote. -/
theorem unescape_escape (s rest : JStr) : unescape (escape s ++ 34 :: rest) = (s, rest) := by
  have raw : ∀ u : UInt16, (isHighSurrogate u || isLowSurrogate u) = true → u ≠ 34 ∧ u ≠ 92 := by
    intro u hu
    constructor <;> rintro rfl <;> revert hu <;> decide
  induction s using escape.induct with
  | case1 => rfl
  | case2 u h => rw [escape, if_pos h, unescape_unicodeEscape]; rfl
  | case3 u h => rw [escape, if_neg h, unescape_escapeUnit]; rfl
  | case4 u v s hu hv ih =>
    obtain ⟨h34, h92⟩ := raw u (by simp [hu])
    obtain ⟨h34', h92'⟩ := raw v (by simp [hv])
    simp only [escape, hu, hv, ↓reduceIte, List.cons_append]
    rw [unescape_raw h34 h92, unescape_raw h34' h92', ih]
  | case5 u v s hu hv ih =>
    simp only [escape, hu, hv, Bool.false_eq_true, ↓reduceIte, List.append_assoc]
    rw [unescape_unicodeEscape, ih]
  | case6 u v s hu hl ih =>
    simp only [escape, hu, hl, Bool.false_eq_true, ↓reduceIte, List.append_assoc]
    rw [unescape_unicodeEscape, ih]
  | case7 u v s hu hl ih =>
    simp only [escape, hu, hl, Bool.false_eq_true, ↓reduceIte, List.append_assoc]
    rw [unescape_escapeUnit, ih]

/-- Two quoted strings at the start of one text are one string. -/
theorem quote_inj {s s' rest rest' : JStr} (h : quote s ++ rest = quote s' ++ rest') :
    s = s' ∧ rest = rest' := by
  have he : escape s ++ 34 :: rest = escape s' ++ 34 :: rest' := by
    simpa [quote, show js "\"" = [34] by decide] using h
  have := unescape_escape s rest
  rw [he, unescape_escape] at this
  exact ⟨(congrArg Prod.fst this).symm, (congrArg Prod.snd this).symm⟩

/-! ## Values with other strings -/

/-- The value with other strings at paths in `P`. -/
inductive Rewritten : (List Access → Prop) → JsValue → JsValue → Prop where
  | same {P : List Access → Prop} (v : JsValue) : Rewritten P v v
  | str {P : List Access → Prop} {s s' : JStr} (here : P []) : Rewritten P (.str s) (.str s')
  | arr {P : List Access → Prop} {items items' : List JsValue} (length_eq : items.length = items'.length)
      (item : ∀ i (hi : i < items.length) (hi' : i < items'.length),
        Rewritten (fun path => P (.index i :: path)) items[i] items'[i]) :
      Rewritten P (.arr items) (.arr items')
  | obj {P : List Access → Prop} {fields fields' : List (JStr × JsValue)}
      (names : fields.map Prod.fst = fields'.map Prod.fst)
      (field : ∀ i (hi : i < fields.length) (hi' : i < fields'.length),
        Rewritten (fun path => P (.field fields[i].1 :: path)) fields[i].2 fields'[i].2) :
      Rewritten P (.obj fields) (.obj fields')

/-- Of two texts that start alike, one value is read, and the same rest. -/
def ReadsBack (v w : JsValue) : Prop :=
  ∀ rest rest', stringify v ++ rest = stringify w ++ rest' → v = w ∧ rest = rest'

theorem join_cons_cons (sep a b : JStr) (l : List JStr) :
    join sep (a :: b :: l) = a ++ (sep ++ join sep (b :: l)) := by
  simp [join, List.intercalate]

theorem items_readBack {items items' : List JsValue} (h : List.Forall₂ ReadsBack items items')
    (rest rest' : JStr) (he : join (js ",") (stringifyItems items) ++ rest =
      join (js ",") (stringifyItems items') ++ rest') : items = items' ∧ rest = rest' := by
  induction h generalizing rest rest' with
  | nil => exact ⟨rfl, by simpa using he⟩
  | @cons v w vs ws hvw htail ih =>
    cases htail with
    | nil =>
      obtain ⟨rfl, hrest⟩ := hvw rest rest' (by simpa [stringifyItems, join, List.intercalate] using he)
      exact ⟨rfl, hrest⟩
    | cons _ _ =>
      simp only [stringifyItems, join_cons_cons, List.append_assoc] at he ih
      obtain ⟨rfl, hmore⟩ := hvw _ _ he
      obtain ⟨hitems, hrest⟩ := ih rest rest' (List.append_cancel_left hmore)
      exact ⟨by rw [hitems], hrest⟩

/-- A field's own text, in front of those of the fields behind it. -/
theorem stringifyFields_cons {key : JStr} {v : JsValue} {fields : List (JStr × JsValue)}
    (h : v ≠ .undefined) : stringifyFields ((key, v) :: fields) =
      (quote key ++ (js ":" ++ stringify v)) :: stringifyFields fields := by
  cases v <;> first | exact absurd rfl h | simp [stringifyFields]

/-- The fields of two objects, side by side. -/
structure FieldReadsBack (f g : JStr × JsValue) : Prop where
  name : f.1 = g.1
  undefined : f.2 = .undefined ↔ g.2 = .undefined
  readsBack : ReadsBack f.2 g.2

theorem join_cons (sep a : JStr) (l : List JStr) : join sep (a :: l) = a ++ l.flatMap (sep ++ ·) := by
  induction l generalizing a with
  | nil => simp [join, List.intercalate]
  | cons b l ih => rw [join_cons_cons, ih, List.flatMap_cons, List.append_assoc]

theorem field_readBack {f g : JStr × JsValue} (h : FieldReadsBack f g) {rest rest' : JStr}
    (he : quote f.1 ++ (js ":" ++ (stringify f.2 ++ rest)) =
      quote g.1 ++ (js ":" ++ (stringify g.2 ++ rest'))) : f = g ∧ rest = rest' := by
  rw [h.name] at he
  obtain ⟨hv, hrest⟩ := h.readsBack _ _ (List.append_cancel_left (List.append_cancel_left he))
  exact ⟨Prod.ext h.name hv, hrest⟩

/-- The fields behind the first. -/
theorem moreFields_readBack {fields fields' : List (JStr × JsValue)}
    (h : List.Forall₂ FieldReadsBack fields fields') (rest rest' : JStr)
    (he : (stringifyFields fields).flatMap (js "," ++ ·) ++ rest =
      (stringifyFields fields').flatMap (js "," ++ ·) ++ rest') : fields = fields' ∧ rest = rest' := by
  induction h generalizing rest rest' with
  | nil => exact ⟨rfl, by simpa [stringifyFields] using he⟩
  | @cons f g fs gs hfg _ ih =>
    obtain ⟨key, v⟩ := f
    obtain ⟨key', w⟩ := g
    by_cases hv : v = .undefined
    · have hw : w = .undefined := hfg.undefined.mp hv
      obtain rfl : key = key' := hfg.name
      subst hv hw
      obtain ⟨hfields, hrest⟩ := ih rest rest' (by simpa [stringifyFields] using he)
      exact ⟨by rw [hfields], hrest⟩
    · have hw : w ≠ .undefined := mt hfg.undefined.mpr hv
      simp only [stringifyFields_cons hv, stringifyFields_cons hw, List.flatMap_cons,
        List.append_assoc] at he
      obtain ⟨hhead, hmore⟩ := field_readBack hfg (List.append_cancel_left he)
      obtain ⟨hfields, hrest⟩ := ih rest rest' hmore
      exact ⟨by rw [hhead, hfields], hrest⟩

theorem fields_readBack {fields fields' : List (JStr × JsValue)}
    (h : List.Forall₂ FieldReadsBack fields fields') (rest rest' : JStr)
    (he : join (js ",") (stringifyFields fields) ++ rest =
      join (js ",") (stringifyFields fields') ++ rest') : fields = fields' ∧ rest = rest' := by
  induction h with
  | nil => exact ⟨rfl, by simpa using he⟩
  | @cons f g fs gs hfg htail ih =>
    obtain ⟨key, v⟩ := f
    obtain ⟨key', w⟩ := g
    by_cases hv : v = .undefined
    · have hw : w = .undefined := hfg.undefined.mp hv
      obtain rfl : key = key' := hfg.name
      subst hv hw
      obtain ⟨hfields, hrest⟩ := ih (by simpa [stringifyFields] using he)
      exact ⟨by rw [hfields], hrest⟩
    · have hw : w ≠ .undefined := mt hfg.undefined.mpr hv
      simp only [stringifyFields_cons hv, stringifyFields_cons hw, join_cons, List.append_assoc] at he
      obtain ⟨hhead, hmore⟩ := field_readBack hfg he
      obtain ⟨hfields, hrest⟩ := moreFields_readBack htail rest rest' hmore
      exact ⟨by rw [hhead, hfields], hrest⟩

theorem Rewritten.undefined_iff {P : List Access → Prop} {v w : JsValue} (h : Rewritten P v w) :
    v = .undefined ↔ w = .undefined := by
  cases h <;> simp

/-- **Equal JSON texts come from equal values**, among values that differ in strings only. -/
theorem Rewritten.readsBack {P : List Access → Prop} {v w : JsValue} (h : Rewritten P v w) :
    ReadsBack v w := by
  induction h with
  | same v => exact fun rest rest' he => ⟨rfl, List.append_cancel_left he⟩
  | str =>
    intro rest rest' he
    obtain ⟨rfl, hrest⟩ := quote_inj he
    exact ⟨rfl, hrest⟩
  | arr length_eq _ ih =>
    intro rest rest' he
    simp only [stringify, List.append_assoc] at he
    obtain ⟨hitems, hmore⟩ := items_readBack
      (List.forall₂_iff_get.mpr ⟨length_eq, fun i hi hi' => ih i hi hi'⟩) _ _ (List.append_cancel_left he)
    exact ⟨by rw [hitems], List.append_cancel_left hmore⟩
  | @obj P fields fields' names field ih =>
    intro rest rest' he
    simp only [stringify, List.append_assoc] at he
    have hfields : List.Forall₂ FieldReadsBack fields fields' := by
      refine List.forall₂_iff_get.mpr ⟨by simpa using congrArg List.length names, fun i hi hi' => ?_⟩
      have hname : (fields.map Prod.fst)[i]? = (fields'.map Prod.fst)[i]? := by rw [names]
      exact ⟨by simpa [hi, hi'] using hname, (field i hi hi').undefined_iff, ih i hi hi'⟩
    obtain ⟨hfields, hmore⟩ := fields_readBack hfields _ _ (List.append_cancel_left he)
    exact ⟨by rw [hfields], List.append_cancel_left hmore⟩

end VigorMcp
