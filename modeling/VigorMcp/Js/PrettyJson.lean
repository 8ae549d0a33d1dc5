import VigorMcp.Js.JsonText

/-!
# Indented JSON text

`stringifyIndented` is `JSON.stringify(value, null, 2)`. Strings are quoted and
their line breaks escaped, so every line of the text starts with indentation and
a bracket, a quote or the first unit of a number or a word: none starts with `%`
(`stringifyIndented_plainLines`).
-/

namespace VigorMcp

/-- The parts between brackets, one a line, behind one more level of indentation. -/
def bracket (indent opening closing : JStr) : List JStr → JStr
  | [] => opening ++ closing
  | parts => opening ++ (js "\n" ++ (indent ++ (js "  " ++
      (join (js ",\n" ++ (indent ++ js "  ")) parts ++ (js "\n" ++ (indent ++ closing))))))

mutual

/-- The text of a value at some level of indentation. -/
def pretty (indent : JStr) : JsValue → JStr
  | .arr items => bracket indent (js "[") (js "]") (prettyItems (indent ++ js "  ") items)
  | .obj fields => bracket indent (js "\x7b") (js "\x7d") (prettyFields (indent ++ js "  ") fields)
  | v => stringify v

def prettyItems (indent : JStr) : List JsValue → List JStr
  | [] => []
  | item :: items => pretty indent item :: prettyItems indent items

/-- A field that holds `undefined` is left out. -/
def prettyFields (indent : JStr) : List (JStr × JsValue) → List JStr
  | [] => []
  | (_, .undefined) :: fields => prettyFields indent fields
  | (key, value) :: fields =>
    (quote key ++ (js ": " ++ pretty indent value)) :: prettyFields indent fields

end

/-- `JSON.stringify(value, null, 2)` of a value that is not `undefined`. -/
def stringifyIndented (v : JsValue) : JStr := pretty [] v

mutual

/-- The strings a value carries, at any depth. -/
def strings : JsValue → List JStr
  | .str s => [s]
  | .arr items => stringsItems items
  | .obj fields => stringsFields fields
  | _ => []

def stringsItems : List JsValue → List JStr
  | [] => []
  | item :: items => strings item ++ stringsItems items

def stringsFields : List (JStr × JsValue) → List JStr
  | [] => []
  | (_, value) :: fields => strings value ++ stringsFields fields

end

mutual

/-- Numbers print as numbers: without `%` and line breaks. -/
def numbersPrinted : JsValue → Bool
  | .num n => n.text.all fun u => u ≠ 37 && u ≠ 13
  | .arr items => numbersPrintedItems items
  | .obj fields => numbersPrintedFields fields
  | _ => true

def numbersPrintedItems : List JsValue → Bool
  | [] => true
  | item :: items => numbersPrinted item && numbersPrintedItems items

def numbersPrintedFields : List (JStr × JsValue) → Bool
  | [] => true
  | (_, value) :: fields => numbersPrinted value && numbersPrintedFields fields

end

/-! ## Lines that do not start with `%` -/

/-- No line starts with `%` behind white space; `fresh`: only white space stands before `s` on its
line. -/
def plainFrom (fresh : Bool) : JStr → Bool
  | [] => true
  | u :: s =>
    if u = lf then plainFrom true s
    else if fresh && isSpace u then plainFrom true s
    else !(fresh && u == 37) && plainFrom false s

/-- A text that starts no line with `%`, wherever it stands, and has no carriage return. -/
structure PlainLines (s : JStr) : Prop where
  noReturn : cr ∉ s
  plain : ∀ fresh, plainFrom fresh s = true

theorem plainFrom_append {a b : JStr} (hb : ∀ fresh, plainFrom fresh b = true) {fresh : Bool}
    (ha : plainFrom fresh a = true) : plainFrom fresh (a ++ b) = true := by
  induction a generalizing fresh with
  | nil => exact hb fresh
  | cons u a ih =>
    rw [List.cons_append, plainFrom]
    rw [plainFrom] at ha
    split at ha
    · next h => rw [if_pos h]; exact ih ha
    · next h =>
      rw [if_neg h]
      split at ha
      · next h => rw [if_pos h]; exact ih ha
      · next h =>
        rw [if_neg h]
        rw [Bool.and_eq_true] at ha ⊢
        exact ⟨ha.1, ih ha.2⟩

theorem PlainLines.append {a b : JStr} (ha : PlainLines a) (hb : PlainLines b) : PlainLines (a ++ b) :=
  ⟨by simp [ha.noReturn, hb.noReturn], fun fresh => plainFrom_append hb.plain (ha.plain fresh)⟩

theorem plainLines_of_units {s : JStr} (h : ∀ u ∈ s, u ≠ 37 ∧ u ≠ cr) : PlainLines s := by
  refine ⟨fun hm => (h cr hm).2 rfl, fun fresh => ?_⟩
  induction s generalizing fresh with
  | nil => rfl
  | cons u s ih =>
    rw [List.forall_mem_cons] at h
    rw [plainFrom, ih h.2, ih h.2]
    simp [h.1.1]

theorem plainFrom_of_oneLine {s : JStr} (h : lf ∉ s) : plainFrom false s = true := by
  induction s with
  | nil => rfl
  | cons u s ih =>
    rw [List.mem_cons, not_or] at h
    rw [plainFrom, if_neg (Ne.symm h.1)]
    simpa using ih h.2

theorem ge_of_all {s : JStr} (h : s.all (fun w => 32 ≤ w.toNat) = true) : ∀ w ∈ s, 32 ≤ w.toNat :=
  fun w hw => of_decide_eq_true (List.all_eq_true.mp h w hw)

theorem hexDigit_ge {n : UInt16} (h : n.toNat < 16) : 32 ≤ (hexDigit n).toNat := by
  unfold hexDigit
  split <;> rw [UInt16.toNat_add] <;> simp only [UInt16.reduceToNat] <;> omega

theorem unicodeEscape_ge (u : UInt16) : ∀ w ∈ unicodeEscape u, 32 ≤ w.toNat := by
  have hu : u.toNat < 65536 := u.toNat_lt
  have h12 : (u >>> 12).toNat < 16 := by
    simp [UInt16.toNat_shiftRight, Nat.shiftRight_eq_div_pow]
    omega
  have h15 : ∀ v : UInt16, (v &&& 15).toNat < 16 := fun v => by rw [toNat_and_15]; omega
  simp only [unicodeEscape, List.forall_mem_append, List.forall_mem_cons]
  exact ⟨ge_of_all (by decide), hexDigit_ge h12, hexDigit_ge (h15 _), hexDigit_ge (h15 _),
    hexDigit_ge (h15 _), nofun⟩

theorem escapeUnit_ge (u : UInt16) : ∀ w ∈ escapeUnit u, 32 ≤ w.toNat := by
  unfold escapeUnit
  repeat' split
  all_goals first | exact ge_of_all (by decide) | exact unicodeEscape_ge u | skip
  next h =>
    intro w hw
    rw [List.mem_singleton.mp hw]
    exact Nat.le_of_not_lt fun hlt => h (UInt16.lt_iff_toNat_lt.mpr hlt)

theorem surrogate_ge {u : UInt16} (h : (isHighSurrogate u || isLowSurrogate u) = true) :
    32 ≤ u.toNat := by
  simp only [isHighSurrogate, isLowSurrogate, Bool.or_eq_true, Bool.and_eq_true, decide_eq_true_eq,
    UInt16.le_iff_toNat_le, UInt16.reduceToNat] at h
  omega

/-- The inside of a JSON string has no control characters. -/
theorem escape_ge (s : JStr) : ∀ w ∈ escape s, 32 ≤ w.toNat := by
  induction s using escape.induct with
  | case1 => exact List.forall_mem_nil _
  | case2 u h => rw [escape, if_pos h]; exact unicodeEscape_ge u
  | case3 u h => rw [escape, if_neg h]; exact escapeUnit_ge u
  | case4 u v s hu hv ih =>
    simp only [escape, hu, hv, ↓reduceIte, List.forall_mem_cons]
    exact ⟨surrogate_ge (by simp [hu]), surrogate_ge (by simp [hv]), ih⟩
  | case5 u v s hu hv ih =>
    simp only [escape, hu, hv, Bool.false_eq_true, ↓reduceIte, List.forall_mem_append]
    exact ⟨unicodeEscape_ge u, ih⟩
  | case6 u v s hu hl ih =>
    simp only [escape, hu, hl, Bool.false_eq_true, ↓reduceIte, List.forall_mem_append]
    exact ⟨unicodeEscape_ge u, ih⟩
  | case7 u v s hu hl ih =>
    simp only [escape, hu, hl, Bool.false_eq_true, ↓reduceIte, List.forall_mem_append]
    exact ⟨escapeUnit_ge u, ih⟩

theorem plainLines_quote (s : JStr) : PlainLines (quote s) := by
  have hge : ∀ w ∈ escape s ++ js "\"", 32 ≤ w.toNat := by
    rw [List.forall_mem_append]
    exact ⟨escape_ge s, ge_of_all (by decide)⟩
  have hlf : lf ∉ escape s ++ js "\"" := fun h => absurd (hge lf h) (by decide)
  have hcr : cr ∉ escape s ++ js "\"" := fun h => absurd (hge cr h) (by decide)
  refine ⟨fun h => hcr ((List.mem_cons.mp h).resolve_left (by decide)), fun fresh => ?_⟩
  have hrest := plainFrom_of_oneLine hlf
  show plainFrom fresh (34 :: (escape s ++ js "\"")) = true
  cases fresh <;> simpa [plainFrom, lf, isSpace] using hrest

/-! ## The text of a value -/

theorem plainLines_js {s : JStr} (h : s.all (fun u => u ≠ 37 && u ≠ cr) = true) : PlainLines s :=
  plainLines_of_units fun u hu => by simpa using List.all_eq_true.mp h u hu

theorem plainLines_join {sep : JStr} (hsep : PlainLines sep) {parts : List JStr}
    (h : ∀ p ∈ parts, PlainLines p) : PlainLines (join sep parts) := by
  cases parts with
  | nil => exact plainLines_of_units nofun
  | cons part parts =>
    rw [join_cons]
    rw [List.forall_mem_cons] at h
    refine h.1.append ?_
    induction parts with
    | nil => exact plainLines_of_units nofun
    | cons part parts ih =>
      rw [List.forall_mem_cons] at h
      rw [List.flatMap_cons]
      exact (hsep.append h.2.1).append (ih ⟨h.1, h.2.2⟩)

theorem plainLines_bracket {indent opening closing : JStr} (hi : PlainLines indent)
    (ho : PlainLines opening) (hc : PlainLines closing) {parts : List JStr}
    (h : ∀ p ∈ parts, PlainLines p) : PlainLines (bracket indent opening closing parts) := by
  have hnl : PlainLines (js "\n") := plainLines_js (by decide)
  have hin : PlainLines (indent ++ js "  ") := hi.append (plainLines_js (by decide))
  cases parts with
  | nil => exact ho.append hc
  | cons part parts =>
    have hjoin := plainLines_join ((plainLines_js (s := js ",\n") (by decide)).append hin) h
    exact ho.append (hnl.append (hi.append ((plainLines_js (by decide)).append
      (hjoin.append (hnl.append (hi.append hc))))))

theorem prettyFields_cons {indent key : JStr} {v : JsValue} {fields : List (JStr × JsValue)}
    (h : v ≠ .undefined) : prettyFields indent ((key, v) :: fields) =
      (quote key ++ (js ": " ++ pretty indent v)) :: prettyFields indent fields := by
  cases v <;> first | exact absurd rfl h | simp [prettyFields]

mutual

theorem pretty_plainLines {indent : JStr} (hi : PlainLines indent) :
    (v : JsValue) → numbersPrinted v = true → PlainLines (pretty indent v)
  | .undefined, _ | .null, _ => plainLines_js (s := js "null") (by decide)
  | .bool true, _ => plainLines_js (s := js "true") (by decide)
  | .bool false, _ => plainLines_js (s := js "false") (by decide)
  | .num (.finite _ text), h => plainLines_js h
  | .num (.nonFinite _), _ => plainLines_js (s := js "null") (by decide)
  | .str s, _ => plainLines_quote s
  | .arr items, h => plainLines_bracket hi (plainLines_js (by decide)) (plainLines_js (by decide))
      (prettyItems_plainLines (hi.append (plainLines_js (by decide))) items h)
  | .obj fields, h => plainLines_bracket hi (plainLines_js (by decide)) (plainLines_js (by decide))
      (prettyFields_plainLines (hi.append (plainLines_js (by decide))) fields h)

theorem prettyItems_plainLines {indent : JStr} (hi : PlainLines indent) :
    (items : List JsValue) → numbersPrintedItems items = true →
      ∀ p ∈ prettyItems indent items, PlainLines p
  | [], _ => nofun
  | item :: items, h => by
    rw [numbersPrintedItems, Bool.and_eq_true] at h
    rw [prettyItems, List.forall_mem_cons]
    exact ⟨pretty_plainLines hi item h.1, prettyItems_plainLines hi items h.2⟩

theorem prettyFields_plainLines {indent : JStr} (hi : PlainLines indent) :
    (fields : List (JStr × JsValue)) → numbersPrintedFields fields = true →
      ∀ p ∈ prettyFields indent fields, PlainLines p
  | [], _ => nofun
  | (key, v) :: fields, h => by
    rw [numbersPrintedFields, Bool.and_eq_true] at h
    have hrest := prettyFields_plainLines hi fields h.2
    have hpart : PlainLines (quote key ++ (js ": " ++ pretty indent v)) :=
      (plainLines_quote key).append ((plainLines_js (by decide)).append (pretty_plainLines hi v h.1))
    by_cases hv : v = .undefined
    · subst hv
      exact hrest
    · rw [prettyFields_cons hv, List.forall_mem_cons]
      exact ⟨hpart, hrest⟩

end

/-- **No line of an indented JSON text starts with `%`.** -/
theorem stringifyIndented_plainLines {v : JsValue} (h : numbersPrinted v = true) :
    PlainLines (stringifyIndented v) := pretty_plainLines (plainLines_of_units (List.forall_mem_nil _)) v h

end VigorMcp
