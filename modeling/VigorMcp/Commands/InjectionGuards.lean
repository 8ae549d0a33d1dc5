import VigorMcp.Commands.FlagTokens
import VigorMcp.Commands.WriteExecutor
import VigorMcp.Js.JsonText

/-!
# Injection guards

`noControl` and `safeText` are to keep control characters and the characters that separate commands
out of a command line. They look for the control characters below U+0020 and so let U+007F through:
an accepted text is plain exactly when it does not hold that character, and so is the line of
`swm_tr069`, a tool without an SDK operation that joins its tokens behind its name
(`injection_guards_iff`).
-/

namespace VigorMcp

/-! ## The raw tool -/

/-- Catalog-only write entry. -/
def W (id : JStr) (render : Args → Except Thrown JStr) (accepts : Args → Bool) : CommandDef where
  id := id
  kind := .write
  render := render
  accepts := accepts
  confirm := none
  affectsNetwork := none
  snapshotRead := none
  secretArgs := none
  sensitiveOutput := none
  timeoutMs := none
  skipCommit := none
  sdk := none

/-- `(v as string[]).join(' ')`. -/
def joinTokens : JsValue → Except Thrown JStr
  | .arr items => join [space] <$> itemsOf items
  | .undefined => .error (.error none (js "Cannot read properties of undefined (reading 'join')"))
  | .null => .error (.error none (js "Cannot read properties of null (reading 'join')"))
  | _ => .error (.error none (js "a.args.join is not a function"))

/-- `z.array(safeText()).min(1)`. -/
def safeTokens : JsValue → Bool
  | .arr items => items.all (safeText 255) && 1 ≤ items.length
  | _ => false

def swmTr069 : CommandDef :=
  W (js "swm_tr069") (fun a => (js "swm tr069 " ++ ·) <$> joinTokens (a.value (js "args")))
    fun a => safeTokens (a.value (js "args"))

/-! ## What the guards are for -/

/-- An ASCII control character. -/
abbrev IsControl (u : UInt16) : Prop := u.toNat ≤ 31 ∨ u = 127

/-- A character that separates or substitutes commands. -/
abbrev IsFraming (u : UInt16) : Prop := u ∈ js ";|&`"

/-- A text that the shell reads as it is shown. -/
structure PlainText (s : JStr) : Prop where
  noControl : ∀ u ∈ s, ¬ IsControl u
  noFraming : ∀ u ∈ s, ¬ IsFraming u
  noSubstitution : ¬ js "$(" <:+: s

variable {max : Nat} {s : JStr} {u : UInt16}

/-- Where the other dangers are kept out, U+007F is the one that is left. -/
theorem plainText_iff (low : ∀ u ∈ s, 32 ≤ u) (framing : ∀ u ∈ s, ¬ IsFraming u)
    (substitution : ¬ js "$(" <:+: s) : PlainText s ↔ 127 ∉ s := by
  constructor
  · exact fun h hmem => h.noControl 127 hmem (.inr rfl)
  · intro hdel
    refine ⟨fun u hu hcontrol => ?_, framing, substitution⟩
    rcases hcontrol with hcontrol | rfl
    · have hlow : 32 ≤ u.toNat := UInt16.le_iff_toNat_le.mp (low u hu)
      omega
    · exact hdel hu

/-! ## What the guards let through -/

theorem plainText_of_noControl_iff (h : noControl max (.str s) = true) : PlainText s ↔ 127 ∉ s := by
  simp only [noControl, Bool.and_eq_true, List.all_eq_true, decide_eq_true_eq,
    Bool.not_eq_true'] at h
  obtain ⟨⟨⟨-, low⟩, framing⟩, substitution⟩ := h
  refine plainText_iff low (fun u hu hframing => ?_) fun hin => ?_
  · have := framing u hu
    rw [List.contains_eq_mem, decide_eq_false_iff_not] at this
    exact this hframing
  · rw [includes_iff.mpr hin] at substitution
    cases substitution

/-- A character that `safeText` lets through. -/
abbrev IsSafe (u : UInt16) : Prop := 32 ≤ u ∧ ¬ IsFraming u ∧ u ≠ 36

theorem safe_of_safeText (h : safeText max (.str s) = true) : ∀ u ∈ s, IsSafe u := by
  simp only [safeText, Bool.and_eq_true, List.all_eq_true, decide_eq_true_eq,
    Bool.not_eq_true'] at h
  intro u hu
  obtain ⟨low, other⟩ := h.2 u hu
  rw [List.contains_eq_mem, decide_eq_false_iff_not] at other
  refine ⟨low, fun hframing => other ?_, ?_⟩
  · exact List.mem_append_left [36] hframing
  · rintro rfl
    exact other (by decide)

/-- Safe characters hold no substitution, as they hold no `$`. -/
theorem plainText_of_safe_iff (safe : ∀ u ∈ s, IsSafe u) : PlainText s ↔ 127 ∉ s :=
  plainText_iff (fun u hu => (safe u hu).1) (fun u hu => (safe u hu).2.1)
    fun hin => (safe 36 (hin.subset (by decide))).2.2 rfl

/-! ## The line of the raw tool -/

theorem itemsOf_strings {items : List JsValue} (h : items.all (safeText max) = true) :
    itemsOf items = .ok (items.filterMap JsValue.string?) := by
  induction items with
  | nil => rfl
  | cons item items ih =>
    rw [List.all_cons, Bool.and_eq_true] at h
    cases item with
    | str s =>
      rw [itemsOf, ih h.2]
      · rfl
      · exact nofun
      · exact nofun
    | _ => cases h.1

/-- Accepted tokens are strings, and the line is made of them. -/
theorem joinTokens_safe {v : JsValue} (h : safeTokens v = true) :
    joinTokens v = .ok (join [space] (tokensOf v)) ∧ ∀ t ∈ tokensOf v, ∀ u ∈ t, IsSafe u := by
  cases v with
  | arr items =>
    rw [safeTokens, Bool.and_eq_true] at h
    refine ⟨by rw [joinTokens, itemsOf_strings h.1]; rfl, fun t ht => ?_⟩
    obtain ⟨item, hitem, ht⟩ := List.mem_filterMap.mp ht
    have haccepts := List.all_eq_true.mp h.1 item hitem
    cases item with
    | str s =>
      obtain rfl := Option.some.inj ht
      exact safe_of_safeText haccepts
    | _ => cases ht
  | _ => cases h

theorem mem_join {sep : JStr} {parts : List JStr} (h : u ∈ join sep parts) :
    u ∈ sep ∨ ∃ t ∈ parts, u ∈ t := by
  cases parts with
  | nil => cases h
  | cons t parts =>
    rw [join_cons, List.mem_append, List.mem_flatMap] at h
    rcases h with h | ⟨p, hp, h⟩
    · exact .inr ⟨t, List.mem_cons_self, h⟩
    · rcases List.mem_append.mp h with h | h
      · exact .inl h
      · exact .inr ⟨p, List.mem_cons_of_mem t hp, h⟩

theorem mem_join_of_mem {sep t : JStr} {parts : List JStr} (ht : t ∈ parts) (hu : u ∈ t) :
    u ∈ join sep parts := by
  cases parts with
  | nil => cases ht
  | cons p parts =>
    rw [join_cons, List.mem_append, List.mem_flatMap]
    rcases List.mem_cons.mp ht with rfl | ht
    · exact .inl hu
    · exact .inr ⟨t, ht, List.mem_append_right sep hu⟩

/-- The line of `swm_tr069` on accepted arguments, and when it is plain. -/
theorem swmTr069_render {args : Args} (h : swmTr069.accepts args = true) :
    ∃ command, swmTr069.render args = .ok command ∧
      (PlainText command ↔ ∀ t ∈ tokensOf (args.value (js "args")), 127 ∉ t) := by
  obtain ⟨hjoin, hsafe⟩ := joinTokens_safe h
  refine ⟨js "swm tr069 " ++ join [space] (tokensOf (args.value (js "args"))), ?_, ?_⟩
  · show (js "swm tr069 " ++ ·) <$> joinTokens (args.value (js "args")) = _
    rw [hjoin]
    rfl
  · have hname : ∀ u ∈ js "swm tr069 ", IsSafe u ∧ u ≠ 127 := by
      have hall : (js "swm tr069 ").all fun u => decide (IsSafe u ∧ u ≠ 127) := by decide
      exact fun u hu => of_decide_eq_true (List.all_eq_true.mp hall u hu)
    rw [plainText_of_safe_iff]
    · simp only [List.mem_append, not_or]
      constructor
      · exact fun hdel t ht hmem => hdel.2 (mem_join_of_mem ht hmem)
      · intro hdel
        refine ⟨fun hmem => (hname 127 hmem).2 rfl, fun hmem => ?_⟩
        rcases mem_join hmem with hspace | ⟨t, ht, hmem⟩
        · revert hspace
          decide
        · exact hdel t ht hmem
    · intro u hu
      rcases List.mem_append.mp hu with hu | hu
      · exact (hname u hu).1
      · rcases mem_join hu with hspace | ⟨t, ht, hu⟩
        · obtain rfl := List.mem_singleton.mp hspace
          decide
        · exact hsafe t ht u hu

/-- Without secret arguments the preview is the line. -/
theorem prepareWrite_preview {cmd : CommandDef} {args : Args} {p : PreparedWrite}
    (hsecrets : cmd.secrets = []) (h : prepareWrite cmd args = .ok p) :
    p.commandLog = p.command := by
  have hredact := (prepareWrite_eq_ok.mp h).2.1
  rw [hsecrets, redactCommand] at hredact
  split at hredact
  · cases hredact
  · exact (congrArg Redacted.preview (Except.ok.inj hredact)).symm

/-- `swm_tr069` as it is registered. -/
def swmTr069Tool (operationFor : JStr → Option AnyOperation) : CommandDef :=
  applyToolPolicy operationFor swmTr069

theorem swmTr069Tool_secrets (operationFor : JStr → Option AnyOperation) :
    (swmTr069Tool operationFor).secrets = [] := by
  have hpolicy : writePolicy.lookup (js "swm_tr069") = none := by decide
  simp [swmTr069Tool, applyToolPolicy, swmTr069, W, hpolicy, CommandDef.secrets]

/-- **What the injection guards let through.** A text that `noControl` or `safeText` accepts is
plain exactly when it does not hold U+007F. The line of `swm_tr069` on accepted tokens, which its
preview shows, is plain exactly when none of them does. -/
theorem injection_guards_iff (operationFor : JStr → Option AnyOperation) (max : Nat) (s : JStr)
    (args : Args) :
    (noControl max (.str s) = true → (PlainText s ↔ 127 ∉ s)) ∧
    (safeText max (.str s) = true → (PlainText s ↔ 127 ∉ s)) ∧
    ((swmTr069Tool operationFor).accepts args = true →
      ∃ command, (swmTr069Tool operationFor).render args = .ok command ∧
        (∀ p, prepareWrite (swmTr069Tool operationFor) args = .ok p → p.commandLog = command) ∧
        (PlainText command ↔ ∀ t ∈ tokensOf (args.value (js "args")), 127 ∉ t)) := by
  refine ⟨plainText_of_noControl_iff, fun h => plainText_of_safe_iff (safe_of_safeText h), ?_⟩
  intro h
  obtain ⟨command, hrender, hplain⟩ := swmTr069_render h
  refine ⟨command, hrender, fun p hp => ?_, hplain⟩
  have hcommand := (prepareWrite_eq_ok.mp hp).1
  rw [prepareWrite_preview (swmTr069Tool_secrets operationFor) hp]
  exact Except.ok.inj (hcommand.symm.trans hrender)

theorem injection_guards_sample :
    (PlainText (js "p@ssw0rd!") ↔ 127 ∉ js "p@ssw0rd!") ∧
    (PlainText (js "limit 10") ↔ 127 ∉ js "limit 10") ∧
    ∃ command, swmTr069.render (flagArgs [js "-s", js "1"]) = .ok command ∧
      (PlainText command ↔ ∀ t ∈ [js "-s", js "1"], 127 ∉ t) := by
  have hpassword := injection_guards_iff (fun _ => none) 255 (js "p@ssw0rd!") .empty
  obtain ⟨-, htext, hline⟩ :=
    injection_guards_iff (fun _ => none) 255 (js "limit 10") (flagArgs [js "-s", js "1"])
  obtain ⟨command, hrender, -, hplain⟩ := hline (by decide)
  exact ⟨hpassword.1 (by decide), htext (by decide), command, hrender, hplain⟩

/-- Both guards accept `a`, U+007F and `b`, and so does `swm_tr069` as a token: the line it renders
holds the control character. -/
theorem guards_accept_delete :
    noControl 255 (.str [97, 127, 98]) = true ∧ safeText 255 (.str [97, 127, 98]) = true ∧
    ¬ PlainText [97, 127, 98] ∧ swmTr069.accepts (flagArgs [[97, 127, 98]]) = true ∧
    swmTr069.render (flagArgs [[97, 127, 98]]) = .ok (js "swm tr069 a" ++ [127] ++ js "b") ∧
    ¬ PlainText (js "swm tr069 a" ++ [127] ++ js "b") := by
  refine ⟨by decide, by decide, fun h => ?_, by decide, by rfl, fun h => ?_⟩
  · exact h.noControl 127 (by decide) (.inr rfl)
  · exact h.noControl 127 (by decide) (.inr rfl)

end VigorMcp
