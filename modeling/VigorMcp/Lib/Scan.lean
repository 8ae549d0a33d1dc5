import Mathlib.Data.List.Infix
import Mathlib.Data.List.Flatten

/-!
# Scanning a list for matches

A matcher `m` gives the length of the match at the head of a list (`0` is no
match). `scan m s` cuts `s` at its leftmost non-overlapping matches: the text
before the first match, then every match with the text that follows it.
`splitOn w` and `replaceAll w v` are the instances for one fixed word. The
lemmas say when a scan walks over a stretch of text, that a cut list joins back
to the list it came from, and that no text of a split holds the word.
-/

namespace Scan

variable {α : Type*}

/-- `scan` with `k` elements of the last match still to skip. -/
def scanFrom (m : List α → Nat) : Nat → List α → List α × List (List α × List α)
  | _, [] => ([], [])
  | k + 1, _ :: cs => scanFrom m k cs
  | 0, c :: cs =>
    match m (c :: cs) with
    | 0 => (c :: (scanFrom m 0 cs).1, (scanFrom m 0 cs).2)
    | n + 1 => ([], ((c :: cs).take (n + 1), (scanFrom m n cs).1) :: (scanFrom m n cs).2)

/-- The text before the first match, and each match with the text after it. -/
def scan (m : List α → Nat) (s : List α) : List α × List (List α × List α) := scanFrom m 0 s

/-- A cut list put back together. -/
def unscan (r : List α × List (List α × List α)) : List α :=
  r.1 ++ r.2.flatMap fun p => p.1 ++ p.2

/-- The texts of a cut list, without the matches. -/
def texts (r : List α × List (List α × List α)) : List (List α) := r.1 :: r.2.map Prod.snd

/-- Every match replaced by `v`. -/
def replaceMatches (m : List α → Nat) (v s : List α) : List α :=
  List.intercalate v (texts (scan m s))

/-! ## One step of a scan -/

theorem scanFrom_eq_drop (m : List α → Nat) (k : Nat) (s : List α) :
    scanFrom m k s = scan m (s.drop k) := by
  induction s generalizing k with
  | nil => cases k <;> simp [scan, scanFrom]
  | cons c cs ih =>
    cases k with
    | zero => rfl
    | succ k => simpa [scanFrom] using ih k

@[simp] theorem scan_nil (m : List α → Nat) : scan m [] = ([], []) := rfl

theorem scan_cons_text {m : List α → Nat} {c : α} {cs : List α} (h : m (c :: cs) = 0) :
    scan m (c :: cs) = (c :: (scan m cs).1, (scan m cs).2) := by
  unfold scan; rw [scanFrom, h]

theorem scan_hit {m : List α → Nat} {s : List α} {n : Nat} (hs : s ≠ []) (h : m s = n + 1) :
    scan m s = ([], (s.take (n + 1), (scan m (s.drop (n + 1))).1) ::
      (scan m (s.drop (n + 1))).2) := by
  obtain ⟨c, cs, rfl⟩ := List.exists_cons_of_ne_nil hs
  unfold scan
  rw [scanFrom, h]
  simp only [scanFrom_eq_drop, List.drop_succ_cons]
  rfl

/-- A scan walks over text at none of whose positions the matcher fires. -/
theorem scan_append_text {m : List α → Nat} {t s : List α}
    (h : ∀ u, u <:+ t → u ≠ [] → m (u ++ s) = 0) :
    scan m (t ++ s) = (t ++ (scan m s).1, (scan m s).2) := by
  induction t with
  | nil => simp
  | cons c t ih =>
    have hc : m (c :: (t ++ s)) = 0 := h (c :: t) List.suffix_rfl (by simp)
    rw [List.cons_append, scan_cons_text hc, ih fun u hu => h u (hu.trans (List.suffix_cons c t))]
    rfl

/-- A text with no match at all. -/
theorem scan_text {m : List α → Nat} {t : List α} (h : ∀ u, u <:+ t → u ≠ [] → m u = 0) :
    scan m t = (t, []) := by
  have := scan_append_text (m := m) (t := t) (s := []) (by simpa using h)
  simpa using this

/-- Strong induction along a scan: over text one element, over a match its length. -/
theorem scan_induction {P : List α → Prop} (m : List α → Nat) (nil : P [])
    (text : ∀ c cs, m (c :: cs) = 0 → P cs → P (c :: cs))
    (hit : ∀ s n, s ≠ [] → m s = n + 1 → P (s.drop (n + 1)) → P s) (s : List α) : P s := by
  induction h : s.length using Nat.strong_induction_on generalizing s with
  | _ len ih =>
    cases s with
    | nil => exact nil
    | cons c cs =>
      cases hm : m (c :: cs) with
      | zero => exact text c cs hm (ih cs.length (by simp [← h]) cs rfl)
      | succ n =>
        refine hit (c :: cs) n (by simp) hm (ih _ ?_ _ rfl)
        simp only [List.drop_succ_cons, List.length_drop, ← h, List.length_cons]
        omega

/-! ## Cut lists -/

theorem unscan_scan (m : List α → Nat) (s : List α) : unscan (scan m s) = s := by
  induction s using scan_induction m with
  | nil => rfl
  | text c cs h ih => rw [scan_cons_text h]; simpa [unscan] using ih
  | hit s n hs h ih =>
    rw [scan_hit hs h]
    have e : unscan ([], (s.take (n + 1), (scan m (s.drop (n + 1))).1) ::
        (scan m (s.drop (n + 1))).2) = s.take (n + 1) ++ unscan (scan m (s.drop (n + 1))) := by
      simp [unscan]
    rw [e, ih, List.take_append_drop]

theorem prefix_scan_fst (m : List α → Nat) (s : List α) : (scan m s).1 <+: s := by
  conv_rhs => rw [← unscan_scan m s]
  exact List.prefix_append _ _

theorem infix_unscan {r : List α × List (List α × List α)} {t : List α} (h : t ∈ texts r) :
    t <:+: unscan r := by
  rcases List.mem_cons.mp h with rfl | h
  · exact (List.prefix_append _ _).isInfix
  · obtain ⟨p, hp, rfl⟩ := List.mem_map.mp h
    have h1 : p.1 ++ p.2 <:+: r.2.flatMap fun p => p.1 ++ p.2 := by
      rw [List.flatMap_def]
      exact List.infix_of_mem_flatten (List.mem_map_of_mem (f := fun p => p.1 ++ p.2) hp)
    exact ((List.suffix_append _ _).isInfix.trans h1).trans (List.suffix_append _ _).isInfix

theorem infix_of_mem_texts {m : List α → Nat} {s t : List α} (h : t ∈ texts (scan m s)) :
    t <:+: s := by
  have := infix_unscan h
  rwa [unscan_scan] at this

theorem intercalate_texts (v : List α) (t : List α) (r : List (List α × List α)) :
    List.intercalate v (texts (t, r)) = t ++ r.flatMap fun p => v ++ p.2 := by
  induction r generalizing t with
  | nil => simp [texts, List.intercalate]
  | cons p r ih =>
    have e : List.intercalate v (texts (t, p :: r)) =
        t ++ (v ++ List.intercalate v (texts (p.2, r))) := by
      simp [texts, List.intercalate]
    rw [e, ih, List.flatMap_cons, List.append_assoc]

theorem length_intercalate (v : List α) (ts : List (List α)) :
    (List.intercalate v ts).length = (ts.length - 1) * v.length + ts.flatten.length := by
  induction ts with
  | nil => simp
  | cons t ts ih =>
    cases ts with
    | nil => simp [List.intercalate]
    | cons u ts =>
      have e : List.intercalate v (t :: u :: ts) = t ++ (v ++ List.intercalate v (u :: ts)) := by
        simp [List.intercalate]
      rw [e, List.length_append, List.length_append, ih]
      simp only [List.length_cons, List.flatten_cons, List.length_append, Nat.add_sub_cancel,
        Nat.succ_mul]
      omega

/-! ## Replacing matches -/

theorem replaceMatches_nil (m : List α → Nat) (v : List α) : replaceMatches m v [] = [] := by
  simp [replaceMatches, texts, List.intercalate]

/-- Replacing walks over text at none of whose positions the matcher fires. -/
theorem replaceMatches_append_text {m : List α → Nat} {v t s : List α}
    (h : ∀ u, u <:+ t → u ≠ [] → m (u ++ s) = 0) :
    replaceMatches m v (t ++ s) = t ++ replaceMatches m v s := by
  unfold replaceMatches
  rw [scan_append_text h, intercalate_texts,
    show scan m s = ((scan m s).1, (scan m s).2) from rfl, intercalate_texts, List.append_assoc]

theorem replaceMatches_hit {m : List α → Nat} {v s : List α} {n : Nat} (hs : s ≠ [])
    (h : m s = n + 1) : replaceMatches m v s = v ++ replaceMatches m v (s.drop (n + 1)) := by
  unfold replaceMatches
  rw [scan_hit hs h, intercalate_texts,
    show scan m (s.drop (n + 1)) = ((scan m (s.drop (n + 1))).1, (scan m (s.drop (n + 1))).2) from rfl,
    intercalate_texts]
  simp

/-! ## One fixed word -/

variable [DecidableEq α]

/-- The matcher of a fixed word. -/
def wordAt (w s : List α) : Nat := if w.isPrefixOf s then w.length else 0

theorem wordAt_eq_zero {w s : List α} (h : ¬ w <+: s) : wordAt w s = 0 := by
  simp [wordAt, List.isPrefixOf_iff_prefix, h]

theorem wordAt_append (w s : List α) : wordAt w (w ++ s) = w.length := by
  simp [wordAt, List.isPrefixOf_iff_prefix]

theorem prefix_of_wordAt {w s : List α} {n : Nat} (h : wordAt w s = n + 1) :
    w <+: s ∧ w.length = n + 1 := by
  unfold wordAt at h
  split at h
  · next hp => exact ⟨List.isPrefixOf_iff_prefix.mp hp, h⟩
  · cases h

/-- `s` cut at the leftmost non-overlapping occurrences of `w`. -/
def splitOn (w s : List α) : List (List α) := texts (scan (wordAt w) s)

/-- Every leftmost non-overlapping occurrence of `w` replaced by `v`. -/
def replaceAll (w v s : List α) : List α := List.intercalate v (splitOn w s)

theorem scan_wordAt_hits {w s : List α} {p : List α × List α}
    (h : p ∈ (scan (wordAt w) s).2) : p.1 = w := by
  induction s using scan_induction (wordAt w) with
  | nil => cases h
  | text c cs hm ih => rw [scan_cons_text hm] at h; exact ih h
  | hit s n hs hm ih =>
    rw [scan_hit hs hm] at h
    obtain ⟨hp, hl⟩ := prefix_of_wordAt hm
    rcases List.mem_cons.mp h with rfl | h
    · exact (hl ▸ List.prefix_iff_eq_take.mp hp).symm
    · exact ih h

/-- Splitting and joining with the word gives the list back. -/
theorem intercalate_splitOn (w s : List α) : List.intercalate w (splitOn w s) = s := by
  unfold splitOn
  rw [show scan (wordAt w) s = ((scan (wordAt w) s).1, (scan (wordAt w) s).2) from rfl,
    intercalate_texts]
  conv_rhs => rw [← unscan_scan (wordAt w) s]
  unfold unscan
  congr 1
  rw [List.flatMap_def, List.flatMap_def]
  congr 1
  exact List.map_congr_left fun p hp => by rw [scan_wordAt_hits hp]

/-- A word that does not occur leaves the list in one piece. -/
theorem splitOn_eq_singleton {w s : List α} (h : ¬ w <:+: s) : splitOn w s = [s] := by
  unfold splitOn
  rw [scan_text fun u hu _ => wordAt_eq_zero fun hp => h (hp.isInfix.trans hu.isInfix)]
  rfl

theorem replaceAll_eq_self {w v s : List α} (h : ¬ w <:+: s) : replaceAll w v s = s := by
  simp [replaceAll, splitOn_eq_singleton h, List.intercalate]

/-- The texts between the occurrences hold none. -/
theorem not_infix_of_mem_splitOn {w s t : List α} (hw : w ≠ []) (h : t ∈ splitOn w s) :
    ¬ w <:+: t := by
  unfold splitOn at h
  induction s using scan_induction (wordAt w) generalizing t with
  | nil =>
    simp only [scan_nil, texts, List.map_nil, List.mem_singleton] at h
    subst h
    exact fun hi => hw (List.infix_nil.mp hi)
  | text c cs hm ih =>
    rw [scan_cons_text hm] at h
    rcases List.mem_cons.mp h with rfl | h
    · intro hi
      rcases List.infix_cons_iff.mp hi with hp | hi
      · -- an occurrence at the head of the text is one at the head of the list
        have hpre : w <+: c :: cs :=
          hp.trans (List.prefix_cons_inj c |>.mpr (prefix_scan_fst _ cs))
        have : wordAt w (c :: cs) = w.length := by
          simp [wordAt, List.isPrefixOf_iff_prefix, hpre]
        rw [hm] at this
        exact hw (List.eq_nil_of_length_eq_zero this.symm)
      · exact ih (List.mem_cons_self ..) hi
    · exact ih (List.mem_cons_of_mem _ h)
  | hit s n hs hm ih =>
    rw [scan_hit hs hm] at h
    rcases List.mem_cons.mp h with rfl | h
    · exact fun hi => hw (List.infix_nil.mp hi)
    · exact ih h

theorem infix_of_mem_splitOn {w s t : List α} (h : t ∈ splitOn w s) : t <:+: s :=
  infix_of_mem_texts h

theorem splitOn_ne_nil (w s : List α) : splitOn w s ≠ [] := by simp [splitOn, texts]

/-- Replacing walks over text in which the word starts nowhere. -/
theorem replaceAll_append_text {w v t s : List α}
    (h : ∀ u, u <:+ t → u ≠ [] → ¬ w <+: u ++ s) :
    replaceAll w v (t ++ s) = t ++ replaceAll w v s :=
  replaceMatches_append_text fun u hu hu0 => wordAt_eq_zero (h u hu hu0)

theorem replaceAll_hit {w v s : List α} (hw : w ≠ []) :
    replaceAll w v (w ++ s) = v ++ replaceAll w v s := by
  obtain ⟨n, hn⟩ : ∃ n, w.length = n + 1 :=
    Nat.exists_eq_succ_of_ne_zero (mt List.length_eq_zero_iff.mp hw)
  have e := replaceMatches_hit (v := v) (by simp [hw]) ((wordAt_append w s).trans hn)
  rw [← hn, List.drop_left] at e
  exact e

theorem two_le_splitOn {w s : List α} (hw : w ≠ []) : 2 ≤ (splitOn w s).length ↔ w <:+: s := by
  constructor
  · intro h
    by_contra hn
    rw [splitOn_eq_singleton hn] at h
    simp at h
  · intro h
    by_contra hn
    have e := intercalate_splitOn w s
    match hs : splitOn w s with
    | [] => exact splitOn_ne_nil w s hs
    | [u] =>
      rw [hs] at e
      have hu : u = s := by simpa [List.intercalate] using e
      exact not_infix_of_mem_splitOn hw (hs ▸ List.mem_singleton_self u) (hu ▸ h)
    | _ :: _ :: _ => rw [hs] at hn; simp at hn

/-- A list that loses nothing when the word is erased does not hold it. -/
theorem not_infix_of_replaceAll_nil {w s : List α} (hw : w ≠ []) (h : replaceAll w [] s = s) :
    ¬ w <:+: s := by
  intro hi
  have h2 := (two_le_splitOn hw).mpr hi
  have e : (List.intercalate w (splitOn w s)).length = (List.intercalate [] (splitOn w s)).length := by
    rw [intercalate_splitOn]; exact congrArg _ h.symm
  rw [length_intercalate, length_intercalate, List.length_nil, Nat.mul_zero] at e
  have hpos : 0 < ((splitOn w s).length - 1) * w.length :=
    Nat.mul_pos (by omega) (List.length_pos_of_ne_nil hw)
  omega

end Scan
