import VigorMcp.Commands.WriteSecrets
import VigorMcp.Js.PrettyJson

/-!
# Rejections inside a reply

The client hands an SDK result on as one text: a string as it is, an object's
string `raw`, anything else as indented JSON. In JSON no line starts with `%`, so
a rejection that an operation's result carries is noticed exactly when the text
is handed on as it is (`rejection_noticed_iff`).
-/

namespace VigorMcp

/-- The text of what an operation resolved to. -/
def formatInvokeResult : JsValue → JStr
  | .str s => s
  | .undefined => []
  | .null => []
  | .obj fields =>
    match fields.lookup (js "raw") with
    | some (.str raw) => raw
    | _ => stringifyIndented (.obj fields)
  | v => stringifyIndented v

/-! ## Lines -/

theorem splitOn_lf_lf (s : JStr) : Scan.splitOn [lf] (lf :: s) = [] :: Scan.splitOn [lf] s := by
  unfold Scan.splitOn
  rw [Scan.scan_hit (n := 0) (by simp) (by simp [Scan.wordAt])]
  rfl

theorem splitOn_lf_cons {u : UInt16} (h : u ≠ lf) (s : JStr) : ∃ line lines,
    Scan.splitOn [lf] s = line :: lines ∧ Scan.splitOn [lf] (u :: s) = (u :: line) :: lines := by
  unfold Scan.splitOn
  rw [Scan.scan_cons_text (by simp [Scan.wordAt, Ne.symm h])]
  exact ⟨_, _, rfl, rfl⟩

/-- The line does not start with `%` behind white space. -/
def NoMark (line : JStr) : Prop := ¬js "%" <+: line.dropWhile isSpace

theorem noMark_nil : NoMark [] := by unfold NoMark; decide

theorem noMark_lines {s : JStr} {fresh : Bool} (h : plainFrom fresh s = true) : ∃ line lines,
    Scan.splitOn [lf] s = line :: lines ∧ (fresh = true → NoMark line) ∧ ∀ l ∈ lines, NoMark l := by
  induction s generalizing fresh with
  | nil => exact ⟨[], [], rfl, fun _ => noMark_nil, nofun⟩
  | cons u s ih =>
    rw [plainFrom] at h
    split at h
    · next hu =>
      obtain ⟨line, lines, he, hline, hlines⟩ := ih h
      refine ⟨[], line :: lines, by rw [hu, splitOn_lf_lf, he], fun _ => noMark_nil, ?_⟩
      exact List.forall_mem_cons.mpr ⟨hline rfl, hlines⟩
    · next hu =>
      obtain ⟨line, lines, he, he'⟩ := splitOn_lf_cons hu s
      split at h
      · next hspace =>
        obtain ⟨_, _, he₂, hline, hlines⟩ := ih h
        obtain ⟨rfl, rfl⟩ := List.cons.inj (he.symm.trans he₂)
        refine ⟨_, _, he', fun _ => ?_, hlines⟩
        have hu : isSpace u = true := (Bool.and_eq_true_iff.mp hspace).2
        rw [NoMark, List.dropWhile_cons_of_pos hu]
        exact hline rfl
      · next hspace =>
        rw [Bool.and_eq_true] at h
        obtain ⟨_, _, he₂, _, hlines⟩ := ih h.2
        obtain ⟨rfl, rfl⟩ := List.cons.inj (he.symm.trans he₂)
        refine ⟨_, _, he', fun hf => ?_, hlines⟩
        subst hf
        rw [NoMark, List.dropWhile_cons_of_neg (by simpa using hspace)]
        rintro ⟨rest, hrest⟩
        have hu : u = 37 := by
          have := congrArg List.head? hrest
          simpa [js, utf16] using this.symm
        simp [hu] at h

theorem isFailureLine_of_noMark {line : JStr} (h : NoMark line) : isFailureLine line = false := by
  rw [← Bool.not_eq_true]
  intro hf
  rw [isFailureLine, Bool.and_eq_true] at hf
  exact h ((startsWith_iff.mp hf.1).trans (List.rdropWhile_prefix _ _))

theorem normalizeLines_of_noReturn {s : JStr} (h : cr ∉ s) : normalizeLines s = s := by
  have hno : ∀ w : JStr, cr ∈ w → ¬w <:+: s := fun w hw hi => h (hi.subset hw)
  rw [normalizeLines, Scan.replaceAll_eq_self (hno (js "\r\n") (by decide)),
    Scan.replaceAll_eq_self (hno (js "\r") (by decide))]

/-- Text whose lines are plain reports no failure. -/
theorem PlainLines.no_failure {s : JStr} (h : PlainLines s) : isRouterCliFailure s = false := by
  rw [isRouterCliFailure, normalizeLines_of_noReturn h.noReturn, show js "\n" = [lf] by decide]
  obtain ⟨line, lines, he, hline, hlines⟩ := noMark_lines (h.plain true)
  rw [he, List.any_eq_false]
  intro l hl
  rw [Bool.not_eq_true]
  exact isFailureLine_of_noMark ((List.mem_cons.mp hl).elim (fun h => h ▸ hline rfl) (hlines l))

/-! ## The reply of an operation -/

/-- The text of the reply is a string that the value hands on as it is. -/
def HandsOn (v : JsValue) : Prop :=
  (∃ s, v = .str s) ∨ ∃ fields raw, v = .obj fields ∧ fields.lookup (js "raw") = some (.str raw) ∧
    isRouterCliFailure raw = true

theorem failure_iff {v : JsValue} {t : JStr} (printed : numbersPrinted v = true)
    (carried : t ∈ strings v) (failure : isRouterCliFailure t = true) :
    isRouterCliFailure (formatInvokeResult v) = true ↔ HandsOn v := by
  have hquiet : isRouterCliFailure (stringifyIndented v) = false :=
    (stringifyIndented_plainLines printed).no_failure
  cases v with
  | str s =>
    obtain rfl : t = s := by simpa [strings] using carried
    exact iff_of_true failure (.inl ⟨t, rfl⟩)
  | obj fields =>
    have hhands : HandsOn (.obj fields) ↔
        ∃ raw, fields.lookup (js "raw") = some (.str raw) ∧ isRouterCliFailure raw = true := by
      simp [HandsOn]
    rw [hhands, formatInvokeResult]
    split
    · next raw hraw => simp [hraw]
    · next hraw =>
      rw [hquiet]
      refine iff_of_false nofun ?_
      rintro ⟨raw, hlookup, _⟩
      exact hraw raw hlookup
  | arr items =>
    rw [formatInvokeResult, hquiet]
    · simp [HandsOn]
    all_goals simp
  | _ => cases carried

variable {E : Env} {find : JStr → Option CommandDef} {call : WriteCall} {w : World} {raw : JStr}

/-- The call throws the router's rejection: nothing is committed, and no row says `executed`. -/
structure Rejects (raw : JStr) (q : Ledger) (result : Except Thrown WriteBody) : Prop where
  thrown : result = .error (errRejected raw)
  commit : q.commit.called = false
  audits : ∀ audit ∈ q.audits, audit.status ≠ .executed

/-- A call that is replied to ends by the reply: rejected, or with a body. -/
theorem exit_of_replied (hreplied : call.Replied (E.replying raw) find w) :
    (isRouterCliFailure raw = true ∧ Rejects raw
        (Ledger.of (call.exec (E.replying raw) find w).trace) (call.exec (E.replying raw) find w).result) ∨
      (isRouterCliFailure raw = false ∧
        ∃ body, (call.exec (E.replying raw) find w).result = .ok body) := by
  have hexit := exec_exit (E.replying raw) find call w
  obtain ⟨hcalled, hsettled⟩ := write_of_replied hreplied
  generalize (call.exec (E.replying raw) find w).result = result at hexit ⊢
  generalize Ledger.of (call.exec (E.replying raw) find w).trace = q at hexit hcalled hsettled ⊢
  cases hexit with
  | failed presents rejected rows =>
    obtain rfl := hsettled _ rfl
    refine .inl ⟨by simpa [replyAccepted] using rejected, rfl, rfl, fun audit ha => ?_⟩
    rw [List.mem_singleton.mp ha, rows.status]
    decide
  | executed presents accepted =>
    obtain rfl := hsettled _ rfl
    exact .inr ⟨by simpa [replyAccepted] using accepted, _, rfl⟩
  | committed presents accepted =>
    obtain rfl := hsettled _ rfl
    exact .inr ⟨by simpa [replyAccepted] using accepted, _, rfl⟩
  | _ => cases hcalled

/-- **A rejection inside a reply is noticed** exactly when its text is handed on as it is: then the
reply reports a failure, and the write call that gets it throws the rejection. -/
theorem rejection_noticed_iff {v : JsValue} {t : JStr} (printed : numbersPrinted v = true)
    (carried : t ∈ strings v) (failure : isRouterCliFailure t = true) :
    (isRouterCliFailure (formatInvokeResult v) = true ↔ HandsOn v) ∧
      ∀ (E : Env) (find : JStr → Option CommandDef) (call : WriteCall) (w : World),
        call.Replied (E.replying (formatInvokeResult v)) find w →
          (Rejects (formatInvokeResult v)
              (Ledger.of (call.exec (E.replying (formatInvokeResult v)) find w).trace)
              (call.exec (E.replying (formatInvokeResult v)) find w).result ↔
            HandsOn v) := by
  have hiff := failure_iff printed carried failure
  refine ⟨hiff, fun E find call w hreplied => ?_⟩
  rw [← hiff]
  rcases exit_of_replied hreplied with ⟨hfail, hrejects⟩ | ⟨hfail, body, hbody⟩
  · exact iff_of_true hrejects hfail
  · refine iff_of_false (fun hrejects => ?_) (by simp [hfail])
    have := hrejects.thrown.symm.trans hbody
    cases this

/-- `{ raw: '% Invalid command' }` is a rejection. -/
theorem rejection_noticed_raw : isRouterCliFailure (formatInvokeResult
    (.obj [(js "raw", .str (js "% Invalid command"))])) = true :=
  (rejection_noticed_iff (t := js "% Invalid command") (by decide) (by decide) (by decide +kernel)).1.mpr
    (.inr ⟨_, _, rfl, rfl, by decide +kernel⟩)

/-- **A rejection in another field passes for success.** -/
theorem rejection_missed :
    let v : JsValue := .obj [(js "output", .str (js "% Invalid command"))]
    js "% Invalid command" ∈ strings v ∧ isRouterCliFailure (js "% Invalid command") = true ∧
      isRouterCliFailure (formatInvokeResult v) = false := by
  decide +kernel

end VigorMcp
