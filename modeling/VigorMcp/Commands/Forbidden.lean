import VigorMcp.Js.Text

/-!
# The hard blocklist

`isForbidden` is the check of the driver; it cuts a command at `/\r?\n/` only.
The router's shell also takes a bare carriage return as end of line:
`shellLines`. A line is forbidden alike for both (`forbiddenLine`), so they
differ exactly on a forbidden line that stands behind a bare carriage return
and text that is not blank (`BehindCr`).
-/

namespace VigorMcp

def FORBIDDEN : List JStr :=
  [js "sys cfg default", js "sys halt", js "mngt rmtcfg enable", js "linux clean"]

def norm (command : JStr) : JStr := toLowerCase (collapse (trim command))

/-- The line is a forbidden command, or one with arguments. -/
def forbiddenLine (line : JStr) : Bool :=
  let normalized := norm line
  FORBIDDEN.any fun entry => normalized == entry || startsWith normalized (entry ++ js " ")

def isForbidden (command : JStr) : Bool := (splitLines command).any forbiddenLine

/-- The lines of the router's shell: what lies between carriage returns and line feeds. -/
def shellLines (command : JStr) : List JStr := command.splitOnP fun u => u == cr || u == lf

/-- The parts of a line between its carriage returns. -/
def crSegments (line : JStr) : List JStr := line.splitOn cr

/-- A forbidden line stands behind a bare carriage return and text that is not blank. -/
def BehindCr (command : JStr) : Prop :=
  ∃ line ∈ splitLines command, ∃ before segment after,
    crSegments line = before ++ segment :: after ∧ forbiddenLine segment = true ∧
      ∃ t ∈ before, trim t ≠ []

/-! ## Collapsing white space -/

theorem collapse_text {c : UInt16} {s : JStr} (hc : isSpace c = false) :
    collapse (c :: s) = c :: collapse s := by
  have := Scan.replaceMatches_append_text (m := spacesAt) (v := [space]) (t := [c]) (s := s) ?_
  · exact this
  · intro u hu hu0
    obtain rfl : u = [c] := (List.suffix_cons_iff.mp hu).resolve_right (by simp [hu0])
    simp [spacesAt, hc]

theorem collapse_space {c : UInt16} {s : JStr} (hc : isSpace c = true) :
    collapse (c :: s) = space :: collapse (s.dropWhile isSpace) := by
  have hn : spacesAt (c :: s) = (s.takeWhile isSpace).length + 1 := by simp [spacesAt, hc]
  have hd : s.drop (s.takeWhile isSpace).length = s.dropWhile isSpace :=
    calc s.drop (s.takeWhile isSpace).length
        = (s.takeWhile isSpace ++ s.dropWhile isSpace).drop (s.takeWhile isSpace).length := by
          rw [List.takeWhile_append_dropWhile]
      _ = s.dropWhile isSpace := List.drop_left
  have := Scan.replaceMatches_hit (v := [space]) (List.cons_ne_nil c s) hn
  rw [List.drop_succ_cons, hd] at this
  exact this

/-- Collapsing is done in parts when the cut is behind a unit that is no white space. -/
theorem collapse_append {t s : JStr} (h : ∃ u c, t = u ++ [c] ∧ isSpace c = false) :
    collapse (t ++ s) = collapse t ++ collapse s := by
  induction hl : t.length using Nat.strong_induction_on generalizing t with
  | _ n ih =>
    obtain ⟨u, c, rfl, hc⟩ := h
    cases u with
    | nil =>
      have hnil : collapse [] = [] := Scan.replaceMatches_nil _ _
      rw [List.nil_append, List.singleton_append, collapse_text hc, collapse_text hc, hnil]
      rfl
    | cons d u =>
      rw [List.cons_append, List.cons_append]
      cases hd : isSpace d with
      | false =>
        rw [collapse_text hd, collapse_text hd, ih _ (by simp [← hl]) ⟨u, c, rfl, hc⟩ rfl]
        rfl
      | true =>
        have hdrop : (u ++ [c]).dropWhile isSpace = u.dropWhile isSpace ++ [c] := by
          rw [List.dropWhile_append]
          split
          · next he => simp [hc, List.isEmpty_iff.mp he]
          · rfl
        have happ : ((u ++ [c]) ++ s).dropWhile isSpace = (u.dropWhile isSpace ++ [c]) ++ s := by
          rw [List.dropWhile_append, hdrop]
          simp
        rw [collapse_space hd, collapse_space hd, happ, hdrop,
          ih _ ?_ ⟨u.dropWhile isSpace, c, rfl, hc⟩ rfl]
        · rfl
        · have := (List.dropWhile_suffix (l := u) isSpace).length_le
          simp only [← hl, List.length_append, List.length_cons, List.length_nil]
          omega

/-! ## Forbidden lines inside longer lines -/

theorem norm_append_blank {b s : JStr} (hb : ∀ u ∈ b, isSpace u = true) :
    norm (b ++ s) = norm s := by
  unfold norm trim
  rw [List.dropWhile_append_of_pos hb]

theorem rdropWhile_append (l s : JStr) :
    (l ++ s).rdropWhile isSpace =
      if s.rdropWhile isSpace = [] then l.rdropWhile isSpace else l ++ s.rdropWhile isSpace := by
  unfold List.rdropWhile
  rw [List.reverse_append, List.dropWhile_append]
  simp only [List.isEmpty_iff, List.reverse_eq_nil_iff]
  split <;> simp

/-- What follows a white space leaves the normalized text before it as it is. -/
theorem norm_append_space {t s : JStr} {c : UInt16} (ht : trim t ≠ []) (hc : isSpace c = true) :
    norm (t ++ c :: s) = norm t ∨ ∃ y, norm (t ++ c :: s) = norm t ++ space :: y := by
  have hlead : (t ++ c :: s).dropWhile isSpace = t.dropWhile isSpace ++ c :: s := by
    rw [List.dropWhile_append, if_neg]
    exact fun he => ht (by simp [trim, List.isEmpty_iff.mp he])
  have htrim : trim (t ++ c :: s) = if (c :: s).rdropWhile isSpace = [] then trim t
      else t.dropWhile isSpace ++ (c :: s).rdropWhile isSpace := by
    rw [trim, hlead, rdropWhile_append]
    rfl
  split at htrim
  · exact .inl (by rw [norm, htrim, norm])
  · next hne =>
    right
    obtain ⟨x, xs, hx⟩ := List.exists_cons_of_ne_nil hne
    have hxc : x = c := by
      obtain ⟨r, hr⟩ := List.rdropWhile_prefix isSpace (l := c :: s)
      rw [hx, List.cons_append, List.cons.injEq] at hr
      exact hr.1
    have hcore : t.dropWhile isSpace = trim t ++ (t.dropWhile isSpace).rtakeWhile isSpace :=
      (List.rdropWhile_append_rtakeWhile (p := isSpace) (l := t.dropWhile isSpace)).symm
    obtain ⟨d, ds, hd⟩ : ∃ d ds, (t.dropWhile isSpace).rtakeWhile isSpace ++ x :: xs = d :: ds :=
      List.exists_cons_of_ne_nil (by simp)
    have hds : isSpace d = true := by
      cases hw : (t.dropWhile isSpace).rtakeWhile isSpace with
      | nil =>
        rw [hw, List.nil_append, List.cons.injEq] at hd
        exact hd.1 ▸ hxc ▸ hc
      | cons e es =>
        rw [hw, List.cons_append, List.cons.injEq] at hd
        exact hd.1 ▸ List.mem_rtakeWhile_imp (hw ▸ List.mem_cons_self)
    have hlast : ∃ u e, trim t = u ++ [e] ∧ isSpace e = false := by
      refine ⟨(trim t).dropLast, (trim t).getLast ht, (List.dropLast_concat_getLast ht).symm, ?_⟩
      have := List.rdropWhile_last_not isSpace (t.dropWhile isSpace) ht
      exact Bool.not_eq_true _ ▸ this
    rw [hx, hcore, List.append_assoc, hd] at htrim
    refine ⟨toLowerCase (collapse (ds.dropWhile isSpace)), ?_⟩
    rw [norm, htrim, collapse_append hlast, collapse_space hds, norm]
    simp [toLowerCase, lowerUnit, space]

theorem trim_ne_nil_of_forbidden {line : JStr} (h : forbiddenLine line = true) : trim line ≠ [] := by
  intro ht
  have hn : norm line = [] := by rw [norm, ht]; rfl
  rw [forbiddenLine, hn] at h
  revert h
  decide

/-- A line that starts with a forbidden line is forbidden. -/
theorem forbiddenLine_append {line s : JStr} {c : UInt16} (h : forbiddenLine line = true)
    (hc : isSpace c = true) : forbiddenLine (line ++ c :: s) = true := by
  rcases norm_append_space (s := s) (trim_ne_nil_of_forbidden h) hc with he | ⟨y, he⟩
  · rw [forbiddenLine, he]
    exact h
  · rw [forbiddenLine, List.any_eq_true] at h
    obtain ⟨entry, hmem, h⟩ := h
    rw [forbiddenLine, he, List.any_eq_true]
    refine ⟨entry, hmem, Bool.or_eq_true_iff.mpr (.inr (startsWith_iff.mpr ?_))⟩
    rcases Bool.or_eq_true_iff.mp h with h | h
    · rw [beq_iff_eq.mp h]
      exact ⟨y, by simp [js, utf16, space]⟩
    · exact (startsWith_iff.mp h).trans (List.prefix_append _ _)

/-! ## Lines of the check and lines of the shell -/

theorem crlfAt_hit {s : JStr} {n : Nat} (h : crlfAt s = n + 1) :
    (∃ cs, s = cr :: lf :: cs ∧ n = 1) ∨ ∃ cs, s = lf :: cs ∧ n = 0 := by
  unfold crlfAt at h
  split at h
  · exact .inl ⟨_, rfl, by omega⟩
  · exact .inr ⟨_, rfl, by omega⟩
  · cases h

theorem shellLines_break {u : UInt16} {s : JStr} (h : u = cr ∨ u = lf) :
    shellLines (u :: s) = [] :: shellLines s := by
  rw [shellLines, List.splitOnP_cons_eq_if_modifyHead, if_pos (by simpa using h)]
  rfl

/-- Both cuts agree on the first part, and on every part that is not empty. -/
theorem shellLines_splitLines (s : JStr) : ∃ first rest rest',
    shellLines s = first :: rest ∧ (splitLines s).flatMap crSegments = first :: rest' ∧
      rest.filter (!·.isEmpty) = rest'.filter (!·.isEmpty) := by
  induction s using Scan.scan_induction crlfAt with
  | nil => exact ⟨[], [], [], rfl, rfl, rfl⟩
  | text c cs hm ih =>
    obtain ⟨first, rest, rest', h1, h2, h3⟩ := ih
    have hlf : c ≠ lf := by rintro rfl; simp [crlfAt, lf] at hm
    have hlines : splitLines (c :: cs) = (c :: (Scan.scan crlfAt cs).1) ::
        (Scan.scan crlfAt cs).2.map Prod.snd := by
      rw [splitLines, Scan.scan_cons_text hm]; rfl
    have h2' : crSegments (Scan.scan crlfAt cs).1 ++
        ((Scan.scan crlfAt cs).2.map Prod.snd).flatMap crSegments = first :: rest' := h2
    rw [hlines, List.flatMap_cons, shellLines, List.splitOnP_cons_eq_if_modifyHead, crSegments,
      List.splitOn_cons_eq_if_modifyHead]
    rw [shellLines] at h1
    rw [crSegments] at h2'
    by_cases hcr : c = cr
    · refine ⟨[], first :: rest, first :: rest', ?_, ?_, ?_⟩
      · simp [hcr, h1]
      · simp only [hcr, BEq.rfl, ↓reduceIte, List.cons_append, h2']
      · cases first <;> simp [h3]
    · obtain ⟨x, xs, hx⟩ := List.exists_cons_of_ne_nil
        (List.splitOn_ne_nil cr (Scan.scan crlfAt cs).1)
      rw [hx, List.cons_append, List.cons.injEq] at h2'
      refine ⟨c :: first, rest, rest', ?_, ?_, h3⟩
      · simp [hcr, hlf, h1]
      · simp [hcr, hx, h2'.1, h2'.2]
  | hit s n hs hm ih =>
    obtain ⟨first, rest, rest', h1, h2, h3⟩ := ih
    have hlines : splitLines s = [] :: splitLines (s.drop (n + 1)) := by
      rw [splitLines, Scan.scan_hit hs hm]; rfl
    have hseg : (splitLines s).flatMap crSegments = [] :: first :: rest' := by
      rw [hlines, List.flatMap_cons, h2]; rfl
    refine ⟨[], ?_⟩
    rcases crlfAt_hit hm with ⟨cs, rfl, rfl⟩ | ⟨cs, rfl, rfl⟩
    · refine ⟨[] :: first :: rest, first :: rest', ?_, hseg, ?_⟩
      · rw [shellLines_break (.inl rfl), shellLines_break (.inr rfl)]
        exact congrArg _ (congrArg _ h1)
      · cases first <;> simp [h3]
    · refine ⟨first :: rest, first :: rest', ?_, hseg, ?_⟩
      · rw [shellLines_break (.inr rfl)]
        exact congrArg _ h1
      · cases first <;> simp [h3]

theorem mem_shellLines {s line : JStr} (hl : line ≠ []) :
    line ∈ shellLines s ↔ ∃ l ∈ splitLines s, line ∈ crSegments l := by
  obtain ⟨first, rest, rest', h1, h2, h3⟩ := shellLines_splitLines s
  have hmem : line ∈ rest ↔ line ∈ rest' := by
    have := congrArg (line ∈ ·) h3
    simpa [List.mem_filter, hl] using this
  rw [← List.mem_flatMap, h1, h2, List.mem_cons, List.mem_cons, hmem]

/-- Blank parts in front, and a carriage return behind, leave a forbidden line forbidden. -/
theorem forbiddenLine_of_segments {line segment : JStr} {before after : List JStr}
    (hl : crSegments line = before ++ segment :: after) (hb : ∀ t ∈ before, trim t = [])
    (hs : forbiddenLine segment = true) : forbiddenLine line = true := by
  have hline : line = List.intercalate [cr] (before ++ segment :: after) := by
    rw [← hl]; exact (List.intercalate_splitOn cr).symm
  subst hline
  clear hl
  induction before with
  | nil =>
    cases after with
    | nil => simpa [List.intercalate] using hs
    | cons a as =>
      rw [List.nil_append, List.intercalate_cons_cons, List.append_assoc]
      exact forbiddenLine_append hs (by decide)
  | cons t before ih =>
    have hspace : ∀ u ∈ t ++ [cr], isSpace u = true := by
      intro u hu
      rcases List.mem_append.mp hu with hu | hu
      · have h1 := hb t List.mem_cons_self
        rw [trim, List.rdropWhile_eq_nil_iff] at h1
        by_contra hn
        have : u ∈ t.dropWhile isSpace := by
          rw [← List.takeWhile_append_dropWhile (p := isSpace) (l := t)] at hu
          exact (List.mem_append.mp hu).resolve_left fun h => hn (List.mem_takeWhile_imp h)
        exact hn (h1 u this)
      · rw [List.mem_singleton.mp hu]; decide
    have hne : before ++ segment :: after ≠ [] := by simp
    rw [List.cons_append, List.intercalate_cons_of_ne_nil hne, forbiddenLine,
      norm_append_blank hspace]
    exact ih fun t ht => hb t (List.mem_cons_of_mem _ ht)

/-- **What the check misses**: a command the check passes has a forbidden shell line exactly when
one stands behind a bare carriage return. -/
theorem behindCr_iff {command : JStr} (h : isForbidden command = false) :
    (shellLines command).any forbiddenLine = true ↔ BehindCr command := by
  have hlines : ∀ line ∈ splitLines command, forbiddenLine line = false := by
    simpa [isForbidden] using h
  rw [List.any_eq_true]
  constructor
  · rintro ⟨segment, hmem, hs⟩
    have hne : segment ≠ [] := by
      rintro rfl
      exact trim_ne_nil_of_forbidden hs rfl
    obtain ⟨line, hline, hseg⟩ := (mem_shellLines hne).mp hmem
    obtain ⟨before, after, hl⟩ := List.append_of_mem hseg
    refine ⟨line, hline, before, segment, after, hl, hs, ?_⟩
    by_contra hb
    push Not at hb
    have := hlines line hline
    rw [forbiddenLine_of_segments hl hb hs] at this
    cases this
  · rintro ⟨line, hline, before, segment, after, hl, hs, _⟩
    have hne : segment ≠ [] := by
      rintro rfl
      exact trim_ne_nil_of_forbidden hs rfl
    exact ⟨segment, (mem_shellLines hne).mpr ⟨line, hline, by simp [hl]⟩, hs⟩

end VigorMcp
