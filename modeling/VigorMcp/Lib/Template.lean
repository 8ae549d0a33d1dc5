import VigorMcp.Lib.Scan

/-!
# Texts with named holes

A `Template` is text with named holes; `fill σ` writes `σ k` into hole `k`.
`punch w k` turns every occurrence of a word into a hole and `plug k v` closes
a hole with a text; both commute with filling (`fill_punch`, `fill_plug`).
A `Bracketing` writes a hole's name between an opening mark and a closing symbol.
When no text holds the mark (`Clear`), a scan for bracketed names finds exactly
the holes (`scan_fill`), and replacing one bracketed name plugs that hole
(`replaceAll_fill`): the written form and the template say the same.
-/

inductive Template (α : Type*) where
  | last (t : List α)
  | hole (t : List α) (k : List α) (rest : Template α)

namespace Template

variable {α : Type*}

def fill (σ : List α → List α) : Template α → List α
  | last t => t
  | hole t k rest => t ++ (σ k ++ rest.fill σ)

def texts : Template α → List (List α)
  | last t => [t]
  | hole t _ rest => t :: rest.texts

def keys : Template α → List (List α)
  | last _ => []
  | hole _ k rest => k :: rest.keys

def mapText (f : List α → List α) : Template α → Template α
  | last t => last (f t)
  | hole t k rest => hole (f t) k (rest.mapText f)

/-- `T`, then hole `k`, then `T'`. -/
def join (T : Template α) (k : List α) (T' : Template α) : Template α :=
  match T with
  | last t => hole t k T'
  | hole t k' rest => hole t k' (rest.join k T')

/-- A text in front of a template. -/
def cons (s : List α) : Template α → Template α
  | last t => last (s ++ t)
  | hole t k rest => hole (s ++ t) k rest

/-- Pieces of text with hole `k` between them. -/
def ofPieces (k : List α) : List (List α) → Template α
  | [] => last []
  | [t] => last t
  | t :: u :: ts => hole t k (ofPieces k (u :: ts))

variable {σ : List α → List α} {T T' : Template α} {k k' w v : List α}

theorem infix_fill {t : List α} (h : t ∈ T.texts) : t <:+: T.fill σ := by
  induction T with
  | last u =>
    rw [texts, List.mem_singleton] at h
    exact h ▸ List.infix_rfl
  | hole u k rest ih =>
    rcases List.mem_cons.mp h with rfl | h
    · exact (List.prefix_append _ _).isInfix
    · exact ((ih h).trans (List.suffix_append _ _).isInfix).trans (List.suffix_append _ _).isInfix

theorem key_infix_fill (h : k ∈ T.keys) : σ k <:+: T.fill σ := by
  induction T with
  | last u => cases h
  | hole u k' rest ih =>
    rcases List.mem_cons.mp h with rfl | h
    · exact (List.prefix_append _ _).isInfix.trans (List.suffix_append _ _).isInfix
    · exact ((ih h).trans (List.suffix_append _ _).isInfix).trans (List.suffix_append _ _).isInfix

@[simp] theorem fill_join : (T.join k T').fill σ = T.fill σ ++ (σ k ++ T'.fill σ) := by
  induction T with
  | last t => rfl
  | hole t k' rest ih => simp [join, fill, ih]

@[simp] theorem texts_join : (T.join k T').texts = T.texts ++ T'.texts := by
  induction T with
  | last t => rfl
  | hole t k' rest ih => simp [join, texts, ih]

@[simp] theorem keys_join : (T.join k T').keys = T.keys ++ k :: T'.keys := by
  induction T with
  | last t => rfl
  | hole t k' rest ih => simp [join, keys, ih]

@[simp] theorem fill_cons (s : List α) : (T.cons s).fill σ = s ++ T.fill σ := by
  cases T <;> simp [cons, fill]

@[simp] theorem keys_cons (s : List α) : (T.cons s).keys = T.keys := by cases T <;> rfl

theorem fill_ofPieces (ts : List (List α)) : (ofPieces k ts).fill σ = List.intercalate (σ k) ts := by
  induction ts with
  | nil => rfl
  | cons t ts ih =>
    cases ts with
    | nil => simp [ofPieces, fill, List.intercalate]
    | cons u ts =>
      rw [ofPieces, fill, ih]
      simp [List.intercalate]

theorem texts_ofPieces {ts : List (List α)} (h : ts ≠ []) : (ofPieces k ts).texts = ts := by
  induction ts with
  | nil => exact absurd rfl h
  | cons t ts ih =>
    cases ts with
    | nil => rfl
    | cons u ts => rw [ofPieces, texts, ih (by simp)]

theorem mem_keys_ofPieces {ts : List (List α)} :
    k' ∈ (ofPieces k ts).keys ↔ k' = k ∧ 2 ≤ ts.length := by
  induction ts with
  | nil => simp [ofPieces, keys]
  | cons t ts ih =>
    cases ts with
    | nil => simp [ofPieces, keys]
    | cons u ts =>
      rw [ofPieces, keys, List.mem_cons, ih]
      simp only [List.length_cons, Nat.le_add_left, and_true]
      exact ⟨fun h => h.elim id And.left, .inl⟩

theorem mapText_eq_self {f : List α → List α} (h : ∀ t, f t = t) : T.mapText f = T := by
  induction T with
  | last t => rw [mapText, h]
  | hole t k rest ih => rw [mapText, h, ih]

theorem fill_of_keys_nil (h : T.keys = []) (τ : List α → List α) : T.fill σ = T.fill τ := by
  cases T with
  | last t => rfl
  | hole t k rest => simp [keys] at h

variable [DecidableEq α]

/-! ## Making holes -/

/-- Every occurrence of `w` in a text becomes hole `k`. -/
def punch (w k : List α) : Template α → Template α
  | last t => ofPieces k (Scan.splitOn w t)
  | hole t k' rest => (ofPieces k (Scan.splitOn w t)).join k' (rest.punch w k)

theorem fill_punch : (T.punch w k).fill σ = (T.mapText (Scan.replaceAll w (σ k))).fill σ := by
  induction T with
  | last t => exact fill_ofPieces _
  | hole t k' rest ih => rw [punch, fill_join, ih, fill_ofPieces]; rfl

/-- A hole that is filled with the word it was made from changes nothing. -/
theorem fill_punch_self (h : σ k = w) : (T.punch w k).fill σ = T.fill σ := by
  rw [fill_punch, h, mapText_eq_self (f := Scan.replaceAll w w) (Scan.intercalate_splitOn w)]

theorem mem_texts_punch {u : List α} :
    u ∈ (T.punch w k).texts ↔ ∃ t ∈ T.texts, u ∈ Scan.splitOn w t := by
  induction T with
  | last t => simp [punch, texts, texts_ofPieces (Scan.splitOn_ne_nil w t)]
  | hole t k' rest ih => simp [punch, texts, ih, texts_ofPieces (Scan.splitOn_ne_nil w t)]

theorem mem_keys_punch (hw : w ≠ []) :
    k' ∈ (T.punch w k).keys ↔ k' ∈ T.keys ∨ (k' = k ∧ ∃ t ∈ T.texts, w <:+: t) := by
  induction T with
  | last t => simp [punch, keys, texts, mem_keys_ofPieces, Scan.two_le_splitOn hw]
  | hole t k'' rest ih =>
    rw [punch, keys_join, List.mem_append, List.mem_cons, ih, mem_keys_ofPieces, Scan.two_le_splitOn hw]
    simp only [keys, texts, List.mem_cons, exists_eq_or_imp]
    tauto

/-- No text of a punched template holds the word. -/
theorem not_infix_punch {u : List α} (hw : w ≠ []) (h : u ∈ (T.punch w k).texts) : ¬ w <:+: u := by
  obtain ⟨t, _, ht⟩ := mem_texts_punch.mp h
  exact Scan.not_infix_of_mem_splitOn hw ht

theorem infix_of_mem_punch {u : List α} (h : u ∈ (T.punch w k).texts) : ∃ t ∈ T.texts, u <:+: t := by
  obtain ⟨t, ht, hu⟩ := mem_texts_punch.mp h
  exact ⟨t, ht, Scan.infix_of_mem_splitOn hu⟩

/-! ## Closing holes -/

/-- Hole `k` closed with `v`. -/
def plug (k v : List α) : Template α → Template α
  | last t => last t
  | hole t k' rest =>
    if k' = k then (rest.plug k v).cons (t ++ v) else hole t k' (rest.plug k v)

theorem fill_plug (h : σ k = v) : (T.plug k v).fill σ = T.fill σ := by
  induction T with
  | last t => rfl
  | hole t k' rest ih =>
    rw [plug]
    split
    · next hk => simp [fill, ih, hk, h]
    · simp [fill, ih]

theorem mem_keys_plug : k' ∈ (T.plug k v).keys ↔ k' ∈ T.keys ∧ k' ≠ k := by
  induction T with
  | last t => simp [plug, keys]
  | hole t k'' rest ih =>
    rw [plug]
    split
    · next hk =>
      rw [keys_cons, ih, keys, List.mem_cons, hk]
      exact ⟨fun h => ⟨.inr h.1, h.2⟩, fun h => ⟨h.1.resolve_left h.2, h.2⟩⟩
    · next hk =>
      rw [keys, keys, List.mem_cons, List.mem_cons, ih]
      constructor
      · rintro (rfl | h)
        · exact ⟨.inl rfl, hk⟩
        · exact ⟨.inr h.1, h.2⟩
      · rintro ⟨rfl | h, hn⟩
        · exact .inl rfl
        · exact .inr ⟨h, hn⟩

theorem plug_of_not_mem (h : k ∉ T.keys) : T.plug k v = T := by
  induction T with
  | last t => rfl
  | hole t k' rest ih =>
    simp only [keys, List.mem_cons, not_or] at h
    rw [plug, if_neg (Ne.symm h.1), ih h.2]

end Template

/-! ## Bracketed names -/

/-- An opening mark and a closing symbol; the mark's first symbol is found nowhere else in it. -/
structure Bracketing (α : Type*) where
  start : α
  tail : List α
  stop : α
  start_not_mem : start ∉ tail
  stop_not_mem : stop ∉ start :: tail

namespace Bracketing

variable {α : Type*} (B : Bracketing α)

def mark : List α := B.start :: B.tail

/-- The written form of hole `k`. -/
def code (k : List α) : List α := B.mark ++ (k ++ [B.stop])

/-- A name that can be told from its bracket. -/
def Safe (k : List α) : Prop := B.start ∉ k ∧ B.stop ∉ k

/-- No text holds the mark, and every name is safe. -/
def Clear (T : Template α) : Prop := (∀ t ∈ T.texts, ¬ B.mark <:+: t) ∧ ∀ k ∈ T.keys, B.Safe k

variable {B} {T : Template α} {t u k f v s : List α}

theorem Clear.hole {rest : Template α} (h : B.Clear (.hole t k rest)) :
    ¬ B.mark <:+: t ∧ B.Safe k ∧ B.Clear rest := by
  refine ⟨h.1 t (by simp [Template.texts]), h.2 k (by simp [Template.keys]), ?_, ?_⟩
  · exact fun u hu => h.1 u (by simp [Template.texts, hu])
  · exact fun k hk => h.2 k (by simp [Template.keys, hk])

/-- The mark starts nowhere inside a text without it, whatever hole or end follows. -/
theorem not_prefix_text (ht : ¬ B.mark <:+: t) (hu : u <:+ t) (hu0 : u ≠ [])
    (hs : s = [] ∨ ∃ r, s = B.start :: r) : ¬ B.mark <+: u ++ s := by
  rintro ⟨r, hr⟩
  rcases List.append_eq_append_iff.mp hr with ⟨a, rfl, _⟩ | ⟨a, ha, hs'⟩
  · exact ht ((List.prefix_append _ _).isInfix.trans hu.isInfix)
  · obtain ⟨c, cs, rfl⟩ := List.exists_cons_of_ne_nil hu0
    rw [mark, List.cons_append, List.cons.injEq] at ha
    cases a with
    | nil =>
      refine ht ?_
      rw [mark, ha.1, ha.2, List.append_nil]
      exact hu.isInfix
    | cons a as =>
      rcases hs with rfl | ⟨r', rfl⟩
      · simp at hs'
      · have h1 := ha.2
        have : B.start = a := by simpa using congrArg List.head? hs'
        exact B.start_not_mem (h1 ▸ this ▸ by simp)

theorem code_starts (k s : List α) : ∃ r, B.code k ++ s = B.start :: r := ⟨_, rfl⟩

theorem mark_prefix_code (k : List α) : B.mark <+: B.code k := List.prefix_append _ _

/-- Inside a safe name's code only the whole code starts with the mark. -/
theorem not_prefix_code (hk : B.Safe k) (hu : u <:+ B.code k) (hu0 : u ≠ []) (hne : u ≠ B.code k) :
    ¬ B.mark <+: u ++ s := by
  obtain ⟨r, hr⟩ := hu
  obtain ⟨c, cs, rfl⟩ := List.exists_cons_of_ne_nil hu0
  obtain ⟨d, ds, rfl⟩ := List.exists_cons_of_ne_nil (l := r) fun h => hne (by simpa [h] using hr)
  rintro ⟨x, hx⟩
  have hc : B.start = c := by simpa [mark] using congrArg List.head? hx
  have hmem : c ∈ B.tail ++ (k ++ [B.stop]) := by
    have := congrArg List.tail hr
    simp only [List.cons_append, List.tail_cons, code, mark] at this
    exact this ▸ by simp
  rw [List.mem_append, List.mem_append, List.mem_singleton, ← hc] at hmem
  rcases hmem with h | h | h
  · exact B.start_not_mem h
  · exact hk.1 h
  · exact B.stop_not_mem (h ▸ List.mem_cons_self)

/-- Filling keeps a template clear when its texts join to a text without the mark. -/
theorem clear_of_fill {σ : List α → List α} (h : ¬ B.mark <:+: T.fill σ)
    (hk : ∀ k ∈ T.keys, B.Safe k) : B.Clear T :=
  ⟨fun _ ht hi => h (hi.trans (Template.infix_fill ht)), hk⟩

variable (B) in
/-- The cut of a written template at its holes. -/
def cut : Template α → List α × List (List α × List α)
  | .last t => (t, [])
  | .hole t k rest => (t, (B.code k, (cut rest).1) :: (cut rest).2)

theorem texts_cut (T : Template α) : Scan.texts (B.cut T) = T.texts := by
  induction T with
  | last t => rfl
  | hole t k rest ih =>
    rw [cut, Template.texts, ← ih]
    rfl

variable [DecidableEq α]

theorem takeWhile_stop (hk : B.stop ∉ k) (s : List α) :
    (k ++ B.stop :: s).takeWhile (fun c => decide (c ≠ B.stop)) = k := by
  rw [List.takeWhile_append_of_pos]
  · simp
  · exact fun c hc => decide_eq_true fun h => hk (h ▸ hc)

/-- Two codes at one place name the same hole. -/
theorem code_inj (hf : B.stop ∉ f) (hk : B.stop ∉ k) (h : B.code f <+: B.code k ++ s) : f = k := by
  obtain ⟨r, hr⟩ := h
  have e : f ++ B.stop :: r = k ++ B.stop :: s := by simpa [code] using hr
  calc f = (f ++ B.stop :: r).takeWhile (fun c => decide (c ≠ B.stop)) := (takeWhile_stop hf r).symm
    _ = k := by rw [e, takeWhile_stop hk]

variable (B) in
/-- The matcher of bracketed names: the mark, what is not the closing symbol, the symbol. -/
def matchAt (s : List α) : Nat :=
  if B.mark.isPrefixOf s then
    match (s.drop B.mark.length).dropWhile (fun c => decide (c ≠ B.stop)) with
    | [] => 0
    | _ :: rest => s.length - rest.length
  else 0

theorem matchAt_code (hk : B.stop ∉ k) (s : List α) :
    B.matchAt (B.code k ++ s) = (B.code k).length := by
  have h1 : B.mark.isPrefixOf (B.code k ++ s) = true :=
    List.isPrefixOf_iff_prefix.mpr ((mark_prefix_code k).trans (List.prefix_append _ _))
  have h2 : (B.code k ++ s).drop B.mark.length = k ++ B.stop :: s := by simp [code]
  have h3 : (k ++ B.stop :: s).dropWhile (fun c => decide (c ≠ B.stop)) = B.stop :: s := by
    rw [List.dropWhile_append_of_pos]
    · simp
    · exact fun c hc => decide_eq_true fun h => hk (h ▸ hc)
  unfold matchAt
  rw [if_pos h1, h2, h3]
  simp

theorem matchAt_eq_zero (h : ¬ B.mark <+: s) : B.matchAt s = 0 := by
  unfold matchAt
  rw [if_neg fun hp => h (List.isPrefixOf_iff_prefix.mp hp)]

/-- **Scanning finds the holes**: the bracketed names of a written template are its holes. -/
theorem scan_fill (h : B.Clear T) : Scan.scan B.matchAt (T.fill B.code) = B.cut T := by
  induction T with
  | last t =>
    refine Scan.scan_text fun u hu hu0 => matchAt_eq_zero ?_
    have := not_prefix_text (s := []) (h.1 t (by simp [Template.texts])) hu hu0 (.inl rfl)
    rwa [List.append_nil] at this
  | hole t k rest ih =>
    obtain ⟨ht, hk, hrest⟩ := h.hole
    have hlen : (B.code k).length = B.tail.length + k.length + 1 + 1 := by
      simp [code, mark]; omega
    rw [Template.fill, Scan.scan_append_text fun u hu hu0 =>
      matchAt_eq_zero (not_prefix_text ht hu hu0 (.inr (code_starts _ _)))]
    rw [Scan.scan_hit (by simp [code, mark]) ((matchAt_code hk.2 _).trans hlen), ← hlen,
      List.take_left, List.drop_left, ih hrest]
    simp [cut]

/-- **Replacing a code plugs its hole.** -/
theorem replaceAll_fill (h : B.Clear T) (hf : B.Safe f) :
    Scan.replaceAll (B.code f) v (T.fill B.code) = (T.plug f v).fill B.code := by
  induction T with
  | last t =>
    refine Scan.replaceAll_eq_self fun hi => h.1 t (by simp [Template.texts]) ?_
    exact (mark_prefix_code f).isInfix.trans hi
  | hole t k rest ih =>
    obtain ⟨ht, hk, hrest⟩ := h.hole
    rw [Template.fill, Scan.replaceAll_append_text fun u hu hu0 hp =>
      not_prefix_text ht hu hu0 (.inr (code_starts _ _)) ((mark_prefix_code f).trans hp)]
    rw [Template.plug]
    split
    · next hkf =>
      rw [hkf, Scan.replaceAll_hit (by simp [code, mark]), ih hrest, Template.fill_cons,
        List.append_assoc]
    · next hkf =>
      rw [Scan.replaceAll_append_text, ih hrest, Template.fill]
      intro u hu hu0 hp
      by_cases hne : u = B.code k
      · exact hkf (code_inj hf.2 hk.2 (hne ▸ hp)).symm
      · exact not_prefix_code hk hu hu0 hne ((mark_prefix_code f).trans hp)

theorem code_infix_fill (h : B.Clear T) (hf : B.Safe f) :
    B.code f <:+: T.fill B.code ↔ f ∈ T.keys := by
  constructor
  · intro hi
    by_contra hn
    have e := replaceAll_fill (v := []) h hf
    rw [Template.plug_of_not_mem hn] at e
    exact Scan.not_infix_of_replaceAll_nil (by simp [code, mark]) e hi
  · intro hm
    induction T with
    | last t => simp [Template.keys] at hm
    | hole t k rest ih =>
      obtain ⟨ht, hk, hrest⟩ := h.hole
      rw [Template.fill]
      rcases List.mem_cons.mp hm with rfl | hm
      · exact (List.prefix_append _ _).isInfix.trans (List.suffix_append _ _).isInfix
      · exact ((ih hrest hm).trans (List.suffix_append _ _).isInfix).trans
          (List.suffix_append _ _).isInfix

end Bracketing
