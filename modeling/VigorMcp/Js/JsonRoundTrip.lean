import VigorMcp.Js.JsonParse

/-!
# The JSON round trip

What `stringifyIndented` writes, `parse` reads back (`parse_stringifyIndented`),
for every value JSON can hold whose numbers are safe integers: strings by their
escapes, integers by their digits, arrays and objects by induction on the value.
-/

namespace VigorMcp

namespace Json

/-! ## Strings are read back -/

theorem closes_raw {u : UInt16} (h34 : u ≠ 34) (h92 : u ≠ 92) (h32 : 32 ≤ u) (rest : JStr) :
    closes (u :: rest) = closes rest := by
  rw [closes]
  · simp [h32]
  all_goals simp_all

theorem closes_unicodeEscape (u : UInt16) (rest : JStr) :
    closes (unicodeEscape u ++ rest) = closes rest := by
  have hex : ∀ n : UInt16, n.toNat < 16 → isHexDigit (hexDigit n) = true := by
    intro n hn
    have hall : ∀ k : Fin 16, isHexDigit (hexDigit (UInt16.ofNat k)) = true := by decide
    have := hall ⟨n.toNat, hn⟩
    rwa [UInt16.ofNat_toNat] at this
  have hu := u.toNat_lt
  have h12 : (u >>> 12).toNat = u.toNat / 4096 := by
    simp [UInt16.toNat_shiftRight, Nat.shiftRight_eq_div_pow]
  have low : ∀ v : UInt16, isHexDigit (hexDigit (v &&& 15)) = true := fun v =>
    hex _ (by rw [toNat_and_15]; exact Nat.mod_lt _ (by decide))
  show closes (92 :: 117 :: _ :: _ :: _ :: _ :: rest) = _
  rw [closes]
  simp [low, hex (u >>> 12) (by omega)]

theorem closes_escapeUnit (u : UInt16) (rest : JStr) :
    closes (escapeUnit u ++ rest) = closes rest := by
  unfold escapeUnit
  by_cases h34 : u = 34
  · subst h34; rfl
  by_cases h92 : u = 92
  · subst h92; rfl
  by_cases h8 : u = 8
  · subst h8; rfl
  by_cases h12 : u = 12
  · subst h12; rfl
  by_cases h10 : u = 10
  · subst h10; rfl
  by_cases h13 : u = 13
  · subst h13; rfl
  by_cases h9 : u = 9
  · subst h9; rfl
  simp only [h34, h92, h8, h12, h10, h13, h9, ↓reduceIte]
  split
  · exact closes_unicodeEscape u rest
  · next h32 => exact closes_raw h34 h92 (UInt16.not_lt.mp h32) rest

theorem closes_escape (s rest : JStr) : closes (escape s ++ 34 :: rest) = true := by
  have surrogate : ∀ u : UInt16, (isHighSurrogate u || isLowSurrogate u) = true →
      u ≠ 34 ∧ u ≠ 92 ∧ 32 ≤ u := by
    intro u hu
    refine ⟨?_, ?_, ?_⟩
    · rintro rfl; revert hu; decide
    · rintro rfl; revert hu; decide
    · simp only [isHighSurrogate, isLowSurrogate, Bool.or_eq_true, Bool.and_eq_true,
        decide_eq_true_eq, UInt16.le_iff_toNat_le, UInt16.reduceToNat] at hu ⊢
      omega
  induction s using escape.induct with
  | case1 => rfl
  | case2 u h => rw [escape, if_pos h, closes_unicodeEscape]; rfl
  | case3 u h => rw [escape, if_neg h, closes_escapeUnit]; rfl
  | case4 u v s hu hv ih =>
    obtain ⟨h34, h92, h32⟩ := surrogate u (by simp [hu])
    obtain ⟨h34', h92', h32'⟩ := surrogate v (by simp [hv])
    simp only [escape, hu, hv, ↓reduceIte, List.cons_append]
    rw [closes_raw h34 h92 h32, closes_raw h34' h92' h32', ih]
  | case5 u v s hu hv ih =>
    simp only [escape, hu, hv, Bool.false_eq_true, ↓reduceIte, List.append_assoc]
    rw [closes_unicodeEscape, ih]
  | case6 u v s hu hl ih =>
    simp only [escape, hu, hl, Bool.false_eq_true, ↓reduceIte, List.append_assoc]
    rw [closes_unicodeEscape, ih]
  | case7 u v s hu hl ih =>
    simp only [escape, hu, hl, Bool.false_eq_true, ↓reduceIte, List.append_assoc]
    rw [closes_escapeUnit, ih]

/-! ## Integers are read back -/

/-- A number ends here: the text does not go on with a digit, a fraction or an exponent. -/
def Ends (s : JStr) : Prop :=
  ∀ u ∈ s.head?, isDigit u = false ∧ u ≠ 46 ∧ u ≠ 101 ∧ u ≠ 69

theorem readDigits_append {digits rest : JStr} (hne : digits ≠ [])
    (hdigits : ∀ u ∈ digits, isDigit u = true) (ends : Ends rest) :
    readDigits (digits ++ rest) = some (digits, rest) := by
  have htake : (digits ++ rest).takeWhile isDigit = digits := by
    rw [List.takeWhile_append_of_pos hdigits]
    cases rest with
    | nil => simp
    | cons u rest => simp [(ends u rfl).1]
  have hdrop : (digits ++ rest).dropWhile isDigit = rest := by
    rw [List.dropWhile_append_of_pos hdigits]
    cases rest with
    | nil => rfl
    | cons u rest => simp [(ends u rfl).1]
  unfold readDigits
  rw [htake, hdrop, if_neg hne]

theorem readFraction_ends {rest : JStr} (ends : Ends rest) :
    readFraction rest = some ([], rest) := by
  unfold readFraction
  split
  · exact absurd rfl (ends 46 rfl).2.1
  · rfl

theorem readExponent_ends {rest : JStr} (ends : Ends rest) :
    readExponent rest = some (0, rest) := by
  cases rest with
  | nil => rfl
  | cons u rest =>
    obtain ⟨-, -, he, hE⟩ := ends u rfl
    exact if_neg (by simp [he, hE])

/-- A sign and digits are an integer. -/
theorem readNumber_digits {s rest : JStr} {n : Nat} {k : Int} {negative : Bool}
    (hsign : readSign s = (negative, digitUnits n ++ rest))
    (hk : if negative then k = -(n : Int) ∧ n ≠ 0 else k = n) (safe : n < 2 ^ 53) (ends : Ends rest) :
    readNumber s = some (.num (.finite k (decimal k)), rest) := by
  obtain ⟨hne, hdigits, hvalue, hhead⟩ := digitUnits_spec n
  have hzero : ¬ ((digitUnits n).length > 1 ∧ (digitUnits n).head? = some 48) := by
    rintro ⟨hlen, hhead'⟩
    refine hhead ?_ hhead'
    rcases Nat.eq_zero_or_pos n with rfl | hpos
    · exact absurd hlen (by decide)
    · exact hpos
  have hround : Float.Model.ofScientific n 0 = num n := by
    have hread := Binary64.ofScientific_ofInt (m := n) (d := 0) (by simpa using safe)
    rwa [Nat.pow_zero, Nat.mul_one] at hread
  have hnumber : (if negative then -num n else num n) = num k ∧ k.natAbs < 2 ^ 53 := by
    cases negative with
    | false =>
      obtain rfl : k = n := hk
      exact ⟨rfl, by rwa [Int.natAbs_natCast]⟩
    | true =>
      obtain ⟨rfl, hn⟩ : k = -(n : Int) ∧ n ≠ 0 := hk
      refine ⟨Binary64.neg_ofInt (by omega) (by rwa [Int.natAbs_natCast]), ?_⟩
      rwa [Int.natAbs_neg, Int.natAbs_natCast]
  unfold readNumber
  simp only [hsign, readDigits_append hne hdigits ends, readFraction_ends ends,
    readExponent_ends ends, Option.bind_eq_bind, Option.bind_some, if_neg hzero,
    List.append_nil, hvalue, List.length_nil, Nat.cast_zero, sub_zero, hround, hnumber.1,
    JsNumber.ofNum_num hnumber.2]
  rfl

/-- **An integer's text is read back**, whatever follows that does not go on with it. -/
theorem readNumber_decimal {k : Int} (safe : k.natAbs < 2 ^ 53) {rest : JStr} (ends : Ends rest) :
    readNumber (decimal k ++ rest) = some (.num (.finite k (decimal k)), rest) := by
  cases k with
  | ofNat n =>
    have hsign : readSign (decimal (Int.ofNat n) ++ rest) = (false, digitUnits n ++ rest) := by
      rw [show decimal (Int.ofNat n) = digitUnits n from decimal_ofNat n]
      obtain ⟨hne, hdigits, -, -⟩ := digitUnits_spec n
      obtain ⟨u, units, hunits⟩ := List.exists_cons_of_ne_nil hne
      rw [hunits, List.cons_append]
      unfold readSign
      split
      · next heq =>
        obtain ⟨rfl, -⟩ := List.cons.inj heq
        exact absurd (hdigits 45 (hunits ▸ List.mem_cons_self)) (by decide)
      · rfl
    exact readNumber_digits hsign rfl safe ends
  | negSucc n =>
    have hsign : readSign (decimal (Int.negSucc n) ++ rest) =
        (true, digitUnits (n + 1) ++ rest) := by
      rw [decimal_negSucc]
      rfl
    exact readNumber_digits hsign ⟨Int.negSucc_eq n, Nat.succ_ne_zero n⟩ safe ends

/-! ## Values are read back -/

/-- The values whose text is read back: every number a safe integer, the keys of an object distinct. -/
inductive Readable : JsValue → Prop where
  | null : Readable .null
  | bool (b : Bool) : Readable (.bool b)
  | int {k : Int} (safe : k.natAbs < 2 ^ 53) : Readable (.num (.finite k (decimal k)))
  | str (s : JStr) : Readable (.str s)
  | arr {vs : List JsValue} (item : ∀ v ∈ vs, Readable v) : Readable (.arr vs)
  | obj {es : List (JStr × JsValue)} (nodup : (es.map Prod.fst).Nodup)
      (field : ∀ e ∈ es, Readable e.2) : Readable (.obj es)

def Blank (b : JStr) : Prop := ∀ u ∈ b, isBlank u = true

variable {b s rest : JStr} {n : Nat} {v : JsValue}

theorem Blank.append {b' : JStr} (h : Blank b) (h' : Blank b') : Blank (b ++ b') := by
  intro u hu
  rcases List.mem_append.mp hu with hu | hu
  · exact h u hu
  · exact h' u hu

theorem blank_newline : Blank (js "\n") := List.all_eq_true.mp (by decide)

theorem blank_indent : Blank (js "  ") := List.all_eq_true.mp (by decide)

theorem not_blank_of_digit {u : UInt16} (h : isDigit u = true) : isBlank u = false := by
  by_contra hblank
  simp only [isDigit, isBlank, Bool.not_eq_false, Bool.and_eq_true, Bool.or_eq_true,
    beq_iff_eq, decide_eq_true_eq] at hblank h
  rcases hblank with ((rfl | rfl) | rfl) | rfl <;> revert h <;> decide

theorem skipBlanks_append (h : Blank b) (s : JStr) : skipBlanks (b ++ s) = skipBlanks s :=
  List.dropWhile_append_of_pos h

theorem skipBlanks_cons {u : UInt16} (h : isBlank u = false) (s : JStr) :
    skipBlanks (u :: s) = u :: s :=
  List.dropWhile_cons_of_neg (by simp [h])

theorem value_blanks (h : Blank b) (n : Nat) (s : JStr) : value n (b ++ s) = value n s := by
  cases n with
  | zero => rw [value, value]
  | succ n => rw [value, value, skipBlanks_append h]

theorem items_blanks (h : Blank b) (n : Nat) (s : JStr) : items n (b ++ s) = items n s := by
  cases n with
  | zero => rw [items, items]
  | succ n => rw [items, items, value_blanks h]

theorem fields_blanks (h : Blank b) (n : Nat) (s : JStr) : fields n (b ++ s) = fields n s := by
  cases n with
  | zero => rw [fields, fields]
  | succ n => rw [fields, fields, skipBlanks_append h]

theorem ends_append (h : Blank b) (hs : Ends s) : Ends (b ++ s) := by
  cases b with
  | nil => exact hs
  | cons u b =>
    intro u' hu'
    obtain rfl := Option.some.inj hu'
    have hu := h u List.mem_cons_self
    refine ⟨?_, ?_, ?_, ?_⟩
    · by_contra hdigit
      rw [not_blank_of_digit (by simpa using hdigit)] at hu
      cases hu
    all_goals
      rintro rfl
      revert hu
      decide

theorem ends_cons {u : UInt16} (h : [44, 93, 125].contains u = true) (s : JStr) :
    Ends (u :: s) := by
  intro u' hu'
  obtain rfl := Option.some.inj hu'
  simp only [List.contains_eq_mem, List.mem_cons, List.not_mem_nil, or_false,
    decide_eq_true_eq] at h
  rcases h with rfl | rfl | rfl <;> decide

/-- The text of `v` is read back at every indentation. -/
def PrettyReadable (v : JsValue) : Prop :=
  ∀ (indent rest : JStr) (n : Nat), Blank indent → Ends rest →
    2 * (pretty indent v ++ rest).length + 1 ≤ n →
    value n (pretty indent v ++ rest) = some (v, rest)

/-- The text of a value starts with a unit of its own. -/
theorem pretty_cons (h : Readable v) (indent : JStr) :
    ∃ u t, pretty indent v = u :: t ∧ isBlank u = false ∧ u ≠ 93 := by
  cases h with
  | null => exact ⟨110, js "ull", rfl, by decide, by decide⟩
  | bool b => cases b with
    | true => exact ⟨116, js "rue", rfl, by decide, by decide⟩
    | false => exact ⟨102, js "alse", rfl, by decide, by decide⟩
  | int safe =>
    rename_i k
    cases k with
    | ofNat m =>
      obtain ⟨hne, hdigits, -, -⟩ := digitUnits_spec m
      obtain ⟨u, units, hunits⟩ := List.exists_cons_of_ne_nil hne
      have hu := hdigits u (hunits ▸ List.mem_cons_self)
      refine ⟨u, units, (decimal_ofNat m).trans hunits, not_blank_of_digit hu, ?_⟩
      rintro rfl
      revert hu
      decide
    | negSucc m => exact ⟨45, digitUnits (m + 1), decimal_negSucc m, by decide, by decide⟩
  | str s => exact ⟨34, escape s ++ js "\"", rfl, by decide, by decide⟩
  | arr item =>
    rename_i vs
    cases vs with
    | nil => exact ⟨91, js "]", rfl, by decide, by decide⟩
    | cons w vs => exact ⟨91, _, rfl, by decide, by decide⟩
  | obj nodup field =>
    rename_i es
    cases hes : prettyFields (indent ++ js "  ") es with
    | nil => exact ⟨123, js "\x7d", by rw [pretty, hes]; rfl, by decide, by decide⟩
    | cons t ts => exact ⟨123, _, by rw [pretty, hes]; rfl, by decide, by decide⟩

/-- The text between two items, and around them. -/
theorem items_pretty {vs : List JsValue} (read : ∀ v ∈ vs, PrettyReadable v) (hne : vs ≠ [])
    {indent gap gap' : JStr} (hindent : Blank indent) (hgap : Blank gap) (hgap' : Blank gap') :
    ∀ n, 2 * (join (44 :: gap) (prettyItems indent vs) ++ (gap' ++ 93 :: rest)).length + 2 ≤ n →
      items n (join (44 :: gap) (prettyItems indent vs) ++ (gap' ++ 93 :: rest)) =
        some (vs, rest) := by
  induction vs with
  | nil => exact absurd rfl hne
  | cons v vs ih =>
    intro n hn
    obtain ⟨n, rfl⟩ : ∃ m, n = m + 1 := ⟨n - 1, by omega⟩
    have hv := read v List.mem_cons_self
    cases vs with
    | nil =>
      have htext : join (44 :: gap) (prettyItems indent [v]) = pretty indent v := by
        simp [prettyItems, join]
      rw [htext] at hn ⊢
      rw [items, hv indent _ n hindent (ends_append hgap' (ends_cons (by decide) _)) (by omega)]
      simp only [Option.bind_eq_bind, Option.bind_some]
      rw [skipBlanks_append hgap', skipBlanks_cons (by decide)]
      rfl
    | cons w vs =>
      have htext : join (44 :: gap) (prettyItems indent (v :: w :: vs)) =
          pretty indent v ++ 44 :: (gap ++ join (44 :: gap) (prettyItems indent (w :: vs))) := by
        simp only [prettyItems, join_cons_cons, List.cons_append]
      rw [htext, List.append_assoc, List.cons_append] at hn ⊢
      rw [items, hv indent _ n hindent (ends_cons (by decide) _) (by omega)]
      simp only [Option.bind_eq_bind, Option.bind_some]
      rw [skipBlanks_cons (by decide), List.append_assoc]
      show Option.map _ (items n (gap ++ _)) = _
      simp only [List.length_append, List.length_cons] at hn
      rw [items_blanks hgap, ih (fun v hv => read v (List.mem_cons_of_mem _ hv))
        (List.cons_ne_nil _ _) n (by simp only [List.length_append, List.length_cons]; omega)]
      rfl

theorem prettyFields_cons {indent key : JStr} {es : List (JStr × JsValue)} (h : v ≠ .undefined) :
    prettyFields indent ((key, v) :: es) =
      (quote key ++ (js ": " ++ pretty indent v)) :: prettyFields indent es := by
  cases v <;> first | exact absurd rfl h | simp [prettyFields]

/-- A key is read back, then its value, and then a comma or the closing brace. -/
theorem fields_key {key tail : JStr} (hv : value n tail = some (v, s)) :
    (∀ t, skipBlanks s = 44 :: t → fields (n + 1) (quote key ++ (js ": " ++ tail)) =
      (fields n t).map fun r => ((key, v) :: r.1, r.2)) ∧
    (∀ t, skipBlanks s = 125 :: t →
      fields (n + 1) (quote key ++ (js ": " ++ tail)) = some ([(key, v)], t)) := by
  have htext : quote key ++ (js ": " ++ tail) =
      34 :: (escape key ++ 34 :: 58 :: (js " " ++ tail)) := by
    simp [quote, show js "\"" = [34] by decide, show js ": " = 58 :: js " " by decide]
  have hblank : Blank (js " ") := List.all_eq_true.mp (by decide)
  rw [htext, fields, skipBlanks_cons (by decide)]
  simp only [closes_escape, unescape_escape, ↓reduceIte]
  rw [skipBlanks_cons (by decide)]
  simp only [value_blanks hblank, hv, Option.bind_eq_bind, Option.bind_some]
  constructor
  · intro t ht
    simp only [ht]
  · intro t ht
    simp only [ht]

theorem fields_pretty {es : List (JStr × JsValue)} (read : ∀ e ∈ es, PrettyReadable e.2)
    (known : ∀ e ∈ es, e.2 ≠ .undefined) (hne : es ≠ [])
    {indent gap gap' : JStr} (hindent : Blank indent) (hgap : Blank gap) (hgap' : Blank gap') :
    ∀ n, 2 * (join (44 :: gap) (prettyFields indent es) ++ (gap' ++ 125 :: rest)).length + 2 ≤ n →
      fields n (join (44 :: gap) (prettyFields indent es) ++ (gap' ++ 125 :: rest)) =
        some (es, rest) := by
  induction es with
  | nil => exact absurd rfl hne
  | cons e es ih =>
    intro n hn
    obtain ⟨n, rfl⟩ : ∃ m, n = m + 1 := ⟨n - 1, by omega⟩
    obtain ⟨key, v⟩ := e
    have hv := read (key, v) List.mem_cons_self
    have hknown : v ≠ .undefined := known (key, v) List.mem_cons_self
    cases es with
    | nil =>
      have htext : join (44 :: gap) (prettyFields indent [(key, v)]) =
          quote key ++ (js ": " ++ pretty indent v) := by
        simp [prettyFields_cons hknown, prettyFields, join]
      rw [htext, List.append_assoc, List.append_assoc] at hn ⊢
      simp only [List.length_append] at hn
      have hread := hv indent (gap' ++ 125 :: rest) n hindent
        (ends_append hgap' (ends_cons (by decide) rest)) (by simp only [List.length_append]; omega)
      refine (fields_key hread).2 rest ?_
      rw [skipBlanks_append hgap', skipBlanks_cons (by decide)]
    | cons f es =>
      obtain ⟨key', w⟩ := f
      have htext : join (44 :: gap) (prettyFields indent ((key, v) :: (key', w) :: es)) =
          quote key ++ (js ": " ++ (pretty indent v ++
            44 :: (gap ++ join (44 :: gap) (prettyFields indent ((key', w) :: es))))) := by
        have hknown' : w ≠ .undefined := known (key', w) (by simp)
        rw [prettyFields_cons hknown, prettyFields_cons hknown', join_cons_cons]
        simp only [List.cons_append, List.append_assoc]
      rw [htext] at hn ⊢
      simp only [List.append_assoc, List.cons_append] at hn ⊢
      simp only [List.length_append, List.length_cons] at hn
      have hread := hv indent (44 :: (gap ++ (join (44 :: gap)
        (prettyFields indent ((key', w) :: es)) ++ (gap' ++ 125 :: rest)))) n hindent
        (ends_cons (by decide) _) (by simp only [List.length_append, List.length_cons]; omega)
      rw [(fields_key hread).1 _ (skipBlanks_cons (by decide) _), fields_blanks hgap,
        ih (fun e he => read e (List.mem_cons_of_mem _ he))
        (fun e he => known e (List.mem_cons_of_mem _ he)) (List.cons_ne_nil _ _) n
        (by simp only [List.length_append, List.length_cons]; omega)]
      rfl

theorem record_of_nodup {pairs : List (JStr × JsValue)} (nodup : (pairs.map Prod.fst).Nodup) :
    record pairs = .obj pairs := by
  unfold record
  rw [OrderedMap.entries_foldl_set (fun _ _ => rfl) nodup]
  rfl

/-- The items of a text behind its opening bracket. -/
theorem bracket_eq (indent opening closing : JStr) {parts : List JStr} (h : parts ≠ []) :
    bracket indent opening closing parts = opening ++ ((js "\n" ++ (indent ++ js "  ")) ++
      (join (44 :: (js "\n" ++ (indent ++ js "  "))) parts ++
        ((js "\n" ++ indent) ++ closing))) := by
  cases parts with
  | nil => exact absurd rfl h
  | cons a parts =>
    simp only [bracket, List.append_assoc]
    rfl

theorem value_word {u : UInt16} (hblank : isBlank u = false) (h34 : u ≠ 34) (h91 : u ≠ 91)
    (h123 : u ≠ 123) (n : Nat) (s : JStr) : value (n + 1) (u :: s) = readWord (u :: s) := by
  rw [value, skipBlanks_cons hblank]
  split
  · next heq => exact absurd (List.cons.inj heq).1 h34
  · next heq => exact absurd (List.cons.inj heq).1 h91
  · next heq => exact absurd (List.cons.inj heq).1 h123
  · rfl

theorem readWord_number {u : UInt16} (h : u ≠ 116 ∧ u ≠ 102 ∧ u ≠ 110) (s : JStr) :
    readWord (u :: s) = readNumber (u :: s) := by
  have other {w : UInt16} {ws : JStr} (hw : u ≠ w) : startsWith (u :: s) (w :: ws) = false := by
    simp [startsWith, List.isPrefixOf, Ne.symm hw]
  unfold readWord
  rw [show js "true" = 116 :: js "rue" from rfl, show js "false" = 102 :: js "alse" from rfl,
    show js "null" = 110 :: js "ull" from rfl, other h.1, other h.2.1, other h.2.2]
  rfl

theorem value_decimal {k : Int} (safe : k.natAbs < 2 ^ 53) (n : Nat) (ends : Ends rest) :
    value (n + 1) (decimal k ++ rest) = some (.num (.finite k (decimal k)), rest) := by
  obtain ⟨u, units, hunits, hu⟩ :
      ∃ u units, decimal k = u :: units ∧ (isDigit u = true ∨ u = 45) := by
    cases k with
    | ofNat m =>
      obtain ⟨hne, hdigits, -, -⟩ := digitUnits_spec m
      obtain ⟨u, units, hunits⟩ := List.exists_cons_of_ne_nil hne
      have hu := hdigits u (hunits ▸ List.mem_cons_self)
      exact ⟨u, units, (decimal_ofNat m).trans hunits, .inl hu⟩
    | negSucc m => exact ⟨45, _, decimal_negSucc m, .inr rfl⟩
  have other {w : UInt16} (hw : isDigit w = false ∧ w ≠ 45) : u ≠ w := by
    rintro rfl
    rcases hu with hu | hu
    · rw [hw.1] at hu
      cases hu
    · exact hw.2 hu
  have hblank : isBlank u = false := by
    rcases hu with hu | rfl
    · exact not_blank_of_digit hu
    · rfl
  rw [← readNumber_decimal safe ends, hunits, List.cons_append,
    value_word hblank (other (by decide)) (other (by decide)) (other (by decide))]
  exact readWord_number ⟨other (by decide), other (by decide), other (by decide)⟩ _

/-- What stands behind `[`, when it is not `]`. -/
theorem value_arr {u : UInt16} (hb : Blank b) (hblank : isBlank u = false) (h : u ≠ 93) (n : Nat) :
    value (n + 1) (91 :: (b ++ u :: s)) = (items n (u :: s)).map fun r => (.arr r.1, r.2) := by
  have hskip : skipBlanks (b ++ u :: s) = u :: s := by
    rw [skipBlanks_append hb, skipBlanks_cons hblank]
  rw [value, skipBlanks_cons (by decide)]
  split
  · next heq => exact absurd (List.cons.inj heq).1 (by decide)
  · next s₁ heq =>
    obtain rfl := (List.cons.inj heq).2
    rw [hskip]
    split
    · next heq => exact absurd (List.cons.inj heq).1 h
    · rfl
  · next heq => exact absurd (List.cons.inj heq).1 (by decide)
  · next h91 _ => exact absurd rfl (h91 _)

/-- What stands behind an opening brace, when it is not the closing one. -/
theorem value_obj {u : UInt16} (hb : Blank b) (hblank : isBlank u = false) (h : u ≠ 125) (n : Nat) :
    value (n + 1) (123 :: (b ++ u :: s)) = (fields n (u :: s)).map fun r => (record r.1, r.2) := by
  have hskip : skipBlanks (b ++ u :: s) = u :: s := by
    rw [skipBlanks_append hb, skipBlanks_cons hblank]
  rw [value, skipBlanks_cons (by decide)]
  split
  · next heq => exact absurd (List.cons.inj heq).1 (by decide)
  · next heq => exact absurd (List.cons.inj heq).1 (by decide)
  · next s₁ heq =>
    obtain rfl := (List.cons.inj heq).2
    rw [hskip]
    split
    · next heq => exact absurd (List.cons.inj heq).1 h
    · rfl
  · next h123 => exact absurd rfl (h123 _)

theorem PrettyReadable.arr {vs : List JsValue} (item : ∀ v ∈ vs, Readable v)
    (read : ∀ v ∈ vs, PrettyReadable v) : PrettyReadable (.arr vs) := by
  intro indent rest n hindent ends hn
  obtain ⟨n, rfl⟩ : ∃ m, n = m + 1 := ⟨n - 1, by omega⟩
  cases vs with
  | nil => rfl
  | cons w vs =>
    have hin := hindent.append blank_indent
    have hgap := blank_newline.append hin
    have hgap' := blank_newline.append hindent
    have hparts : prettyItems (indent ++ js "  ") (w :: vs) ≠ [] := by simp [prettyItems]
    have htext : pretty indent (.arr (w :: vs)) ++ rest =
        91 :: ((js "\n" ++ (indent ++ js "  ")) ++
          (join (44 :: (js "\n" ++ (indent ++ js "  ")))
              (prettyItems (indent ++ js "  ") (w :: vs)) ++
            ((js "\n" ++ indent) ++ 93 :: rest))) := by
      rw [pretty, bracket_eq indent _ _ hparts]
      simp only [List.append_assoc]
      rfl
    obtain ⟨u, t, hu, hblank, h93⟩ := pretty_cons (item w List.mem_cons_self) (indent ++ js "  ")
    have hhead : ∃ t', join (44 :: (js "\n" ++ (indent ++ js "  ")))
        (prettyItems (indent ++ js "  ") (w :: vs)) ++ ((js "\n" ++ indent) ++ 93 :: rest) =
          u :: t' := by
      rw [prettyItems, join_cons, hu]
      exact ⟨_, rfl⟩
    obtain ⟨t', ht'⟩ := hhead
    have hitems := @items_pretty rest _ read (List.cons_ne_nil _ _) _ _ _ hin hgap hgap' n ?_
    · rw [htext, ht', value_arr hgap hblank h93, ← ht', hitems]
      rfl
    · rw [htext] at hn
      simp only [List.length_cons, List.length_append] at hn ⊢
      omega

theorem PrettyReadable.obj {es : List (JStr × JsValue)} (nodup : (es.map Prod.fst).Nodup)
    (field : ∀ e ∈ es, Readable e.2) (read : ∀ e ∈ es, PrettyReadable e.2) :
    PrettyReadable (.obj es) := by
  intro indent rest n hindent ends hn
  obtain ⟨n, rfl⟩ : ∃ m, n = m + 1 := ⟨n - 1, by omega⟩
  cases es with
  | nil => rfl
  | cons e es =>
    obtain ⟨key, w⟩ := e
    have known : ∀ e ∈ (key, w) :: es, e.2 ≠ .undefined := by
      intro e he hundefined
      have := field e he
      rw [hundefined] at this
      cases this
    have hin := hindent.append blank_indent
    have hgap := blank_newline.append hin
    have hgap' := blank_newline.append hindent
    have hparts : prettyFields (indent ++ js "  ") ((key, w) :: es) =
        (34 :: (escape key ++ 34 :: (js ": " ++ pretty (indent ++ js "  ") w))) ::
          prettyFields (indent ++ js "  ") es := by
      rw [prettyFields_cons (known (key, w) List.mem_cons_self)]
      simp [quote, show js "\"" = [34] by decide]
    have htext : pretty indent (.obj ((key, w) :: es)) ++ rest =
        123 :: ((js "\n" ++ (indent ++ js "  ")) ++
          (join (44 :: (js "\n" ++ (indent ++ js "  ")))
              (prettyFields (indent ++ js "  ") ((key, w) :: es)) ++
            ((js "\n" ++ indent) ++ 125 :: rest))) := by
      rw [pretty, bracket_eq indent _ _ (by rw [hparts]; exact List.cons_ne_nil _ _)]
      simp only [List.append_assoc]
      rfl
    have hhead : ∃ t, join (44 :: (js "\n" ++ (indent ++ js "  ")))
        (prettyFields (indent ++ js "  ") ((key, w) :: es)) ++
          ((js "\n" ++ indent) ++ 125 :: rest) = 34 :: t := by
      rw [hparts, join_cons]
      exact ⟨_, rfl⟩
    obtain ⟨t, ht⟩ := hhead
    have hfields :=
      @fields_pretty rest _ read known (List.cons_ne_nil _ _) _ _ _ hin hgap hgap' n ?_
    · rw [htext, ht, value_obj hgap (by decide) (by decide), ← ht, hfields]
      exact congrArg (fun v => some (v, rest)) (record_of_nodup nodup)
    · rw [htext] at hn
      simp only [List.length_cons, List.length_append] at hn ⊢
      omega

theorem prettyReadable (h : Readable v) : PrettyReadable v := by
  induction h with
  | null =>
    intro indent rest n hindent ends hn
    obtain ⟨n, rfl⟩ : ∃ m, n = m + 1 := ⟨n - 1, by omega⟩
    exact value_word (by decide) (by decide) (by decide) (by decide) n _
  | bool b =>
    intro indent rest n hindent ends hn
    obtain ⟨n, rfl⟩ : ∃ m, n = m + 1 := ⟨n - 1, by omega⟩
    cases b with
    | true => exact value_word (by decide) (by decide) (by decide) (by decide) n _
    | false => exact value_word (by decide) (by decide) (by decide) (by decide) n _
  | int safe =>
    intro indent rest n hindent ends hn
    obtain ⟨n, rfl⟩ : ∃ m, n = m + 1 := ⟨n - 1, by omega⟩
    exact value_decimal safe n ends
  | str s =>
    intro indent rest n hindent ends hn
    obtain ⟨n, rfl⟩ : ∃ m, n = m + 1 := ⟨n - 1, by omega⟩
    have htext : pretty indent (.str s) ++ rest = 34 :: (escape s ++ 34 :: rest) := by
      simp [pretty, stringify, quote, show js "\"" = [34] by decide]
    rw [htext, value, skipBlanks_cons (by decide)]
    simp only [closes_escape, unescape_escape, ↓reduceIte]
  | arr item ih => exact .arr item ih
  | obj nodup field ih => exact .obj nodup field ih

/-- **What `stringifyIndented` writes is read back.** -/
theorem parse_stringifyIndented (h : Readable v) (hb : Blank b) :
    parse (stringifyIndented v ++ b) = some v := by
  have ends : Ends b := by
    have := ends_append hb (show Ends [] from fun _ hu => by cases hu)
    rwa [List.append_nil] at this
  have hvalue := prettyReadable h [] b _ (fun _ hu => by cases hu) ends (Nat.le_refl _)
  have hrest : skipBlanks b = [] := by
    have := skipBlanks_append hb []
    rwa [List.append_nil] at this
  unfold parse stringifyIndented
  rw [hvalue]
  simp only [Option.bind_eq_bind, Option.bind_some, hrest, ↓reduceIte]

end Json

end VigorMcp
