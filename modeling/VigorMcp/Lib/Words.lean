import Mathlib.Data.List.Basic

/-!
# Words

`words sep s` are the parts of `s` between separators that are not empty.
Joining texts with a separator joins their words (`words_intercalate`), and a
word is what stands between two separators or ends of the text (`mem_words`).
-/

namespace Words

variable {α : Type*} (sep : α → Bool)

/-- The text up to the first separator, and the texts behind each separator. -/
def pieces : List α → List α × List (List α)
  | [] => ([], [])
  | c :: s =>
    let r := pieces s
    if sep c then ([], r.1 :: r.2) else (c :: r.1, r.2)

def words (s : List α) : List (List α) :=
  ((pieces sep s).1 :: (pieces sep s).2).filter fun w => !w.isEmpty

variable {sep} {c : α} {s t w : List α}

theorem pieces_append (h : sep c = true) (s t : List α) :
    pieces sep (s ++ c :: t) =
      ((pieces sep s).1, (pieces sep s).2 ++ (pieces sep t).1 :: (pieces sep t).2) := by
  induction s with
  | nil => simp [pieces, h]
  | cons d s ih =>
    rw [List.cons_append, pieces, pieces, ih]
    by_cases hd : sep d = true
    · simp [hd]
    · simp [hd]

/-- A separator ends a word. -/
theorem words_append (h : sep c = true) (s t : List α) :
    words sep (s ++ c :: t) = words sep s ++ words sep t := by
  unfold words
  rw [pieces_append h, ← List.filter_append]
  rfl

/-- **Joining texts with a separator joins their words.** -/
theorem words_intercalate (h : sep c = true) (texts : List (List α)) :
    words sep (List.intercalate [c] texts) = texts.flatMap (words sep) := by
  induction texts with
  | nil => rfl
  | cons s texts ih =>
    cases texts with
    | nil => simp
    | cons t texts =>
      rw [List.intercalate_cons_cons, List.append_assoc, List.singleton_append, words_append h, ih]
      rfl

/-! ## Where a word stands -/

theorem pieces_fst (s : List α) : (pieces sep s).1 = s.takeWhile fun c => !sep c := by
  induction s with
  | nil => rfl
  | cons d s ih =>
    rw [pieces, List.takeWhile_cons]
    by_cases hd : sep d = true
    · simp [hd]
    · simp [hd, ih]

theorem mem_pieces_snd {s : List α} : w ∈ (pieces sep s).2 ↔
    ∃ before c rest, s = before ++ c :: rest ∧ sep c = true ∧ w = rest.takeWhile fun c => !sep c := by
  induction s with
  | nil => simp [pieces]
  | cons d s ih =>
    have behind : (∃ before c rest, d :: s = before ++ c :: rest ∧ sep c = true ∧
        w = rest.takeWhile fun c => !sep c) ↔
          (sep d = true ∧ w = s.takeWhile fun c => !sep c) ∨ w ∈ (pieces sep s).2 := by
      rw [ih]
      constructor
      · rintro ⟨before, c, rest, hs, hc, hw⟩
        cases before with
        | nil =>
          obtain ⟨rfl, rfl⟩ := List.cons.inj hs
          exact .inl ⟨hc, hw⟩
        | cons b before =>
          obtain ⟨rfl, rfl⟩ := List.cons.inj hs
          exact .inr ⟨before, c, rest, rfl, hc, hw⟩
      · rintro (⟨hd, hw⟩ | ⟨before, c, rest, rfl, hc, hw⟩)
        · exact ⟨[], d, s, rfl, hd, hw⟩
        · exact ⟨d :: before, c, rest, rfl, hc, hw⟩
    rw [behind, pieces]
    by_cases hd : sep d = true
    · simp [hd, pieces_fst]
    · simp [hd]

/-- **A word stands at the start of the text or right behind a separator**, and goes up to the next
one. -/
theorem mem_words : w ∈ words sep s ↔ w ≠ [] ∧ ((w = s.takeWhile fun c => !sep c) ∨
    ∃ before c rest, s = before ++ c :: rest ∧ sep c = true ∧ w = rest.takeWhile fun c => !sep c) := by
  unfold words
  rw [List.mem_filter, List.mem_cons, pieces_fst, mem_pieces_snd, and_comm]
  simp

end Words
