import VigorMcp.Tools.ApproveCli
import VigorMcp.Tools.RedactionRoundTrip

/-!
# An honest approver

The approve tool refuses in many ways. It refuses no approver that answers
truthfully: whoever has the private key and types, at each prompt, the text of the
argument that the preview hides gets a signature over the payload of the pending
intent (`approve_signs`).
-/

namespace VigorMcp

namespace ApproveCli

variable {A : Approver} {args : Args} {secretArgs : List JStr}

/-! ## Typed values -/

theorem mem_inKeyOrder {m : OrderedMap JStr JStr} {e : JStr × JStr} :
    e ∈ (inKeyOrder m).entries ↔ e ∈ m.entries := by
  unfold inKeyOrder
  rw [List.mem_append, List.mem_insertionSort, List.mem_filter, List.mem_filter]
  cases (arrayIndex e.1).isSome <;> simp

/-- Each value is the text of the argument of its key. -/
def Own (args : Args) (secretArgs : List JStr) (values : OrderedMap JStr JStr) : Prop :=
  ∀ e ∈ values.entries, e.1 ∈ secretArgs ∧ stringOf (args.value e.1) = .ok e.2

/-- At the prompts from `n` on, the texts of these arguments are typed. -/
def Types (A : Approver) (args : Args) (fields : List JStr) (n : Nat) : Prop :=
  ∀ m field, fields[m]? = some field →
    ∃ text, A.answers (n + m) = some text ∧ stringOf (args.value field) = .ok text

theorem Types.cons {field : JStr} {fields : List JStr} {n : Nat}
    (h : Types A args (field :: fields) n) :
    (∃ text, A.answers n = some text ∧ stringOf (args.value field) = .ok text) ∧
      Types A args fields (n + 1) := by
  refine ⟨h 0 field rfl, fun m field' hm => ?_⟩
  have hnext := h (m + 1) field' hm
  rwa [show n + (m + 1) = n + 1 + m by omega] at hnext

/-- A typed value is kept, unless its field is `__proto__`, beside the ones before. -/
theorem mem_assign {values : OrderedMap JStr JStr} {field text : JStr} (hfield : field ≠ js "__proto__")
    {e : JStr × JStr} : e ∈ (assign values field text).entries ↔
      (e ∈ values.entries ∧ e.1 ≠ field) ∨ e = (field, text) := by
  rw [assign, if_neg hfield, mem_inKeyOrder, OrderedMap.mem_set]

/-- The prompts collect a true value for every field. -/
theorem askFields_true {fields : List JStr} {n : Nat} (values : OrderedMap JStr JStr)
    (types : Types A args fields n)
    (keys : ∀ field ∈ fields, field ∈ secretArgs ∧ field ≠ js "__proto__")
    (own : Own args secretArgs values) :
    ∃ values', askFields A fields n values = some values' ∧ Own args secretArgs values' ∧
      values.keys ⊆ values'.keys ∧ fields ⊆ values'.keys := by
  induction fields generalizing n values with
  | nil => exact ⟨values, rfl, own, fun _ h => h, List.nil_subset _⟩
  | cons field fields ih =>
    obtain ⟨⟨text, htext, hown⟩, types⟩ := types.cons
    rw [List.forall_mem_cons] at keys
    obtain ⟨⟨hsecret, hproto⟩, keys⟩ := keys
    have hassign := @mem_assign values field text hproto
    have hkeys : values.keys ⊆ (assign values field text).keys ∧
        field ∈ (assign values field text).keys := by
      refine ⟨fun k hk => ?_, List.mem_map.mpr ⟨_, hassign.mpr (.inr rfl), rfl⟩⟩
      obtain ⟨e, he, rfl⟩ := List.mem_map.mp hk
      by_cases hf : e.1 = field
      · exact List.mem_map.mpr ⟨_, hassign.mpr (.inr rfl), hf.symm⟩
      · exact List.mem_map.mpr ⟨e, hassign.mpr (.inl ⟨he, hf⟩), rfl⟩
    obtain ⟨values', hasked, hown', hkept, hall⟩ := ih (assign values field text) types keys
      fun e he => by
        rcases hassign.mp he with ⟨he, -⟩ | rfl
        · exact own e he
        · exact ⟨hsecret, hown⟩
    refine ⟨values', ?_, hown', fun k hk => hkept (hkeys.1 hk), ?_⟩
    · simp only [askFields, htext]
      exact hasked
    · exact List.cons_subset.mpr ⟨hkept hkeys.2, hall⟩

/-! ## The entry -/

/-- The entry of a pending intent is found by its id. -/
theorem requested_view {views : List PendingIntentView} {view : PendingIntentView}
    (file : A.pendingFile = some (PendingFile.pendingText views)) (hmem : view ∈ views)
    (nodup : (views.map PendingIntentView.confirmationId).Nodup) (hid : view.confirmationId ≠ []) :
    requested A (some view.confirmationId) = some (PendingFile.viewJson view) := by
  unfold requested
  dsimp only
  rw [if_neg hid, file, PendingFile.loadPending_pendingText, List.find?_map]
  cases hfind : views.find?
      ((fun entry => confirmationId entry = view.confirmationId) ∘ PendingFile.viewJson) with
  | none =>
    have hno := List.find?_eq_none.mp hfind view hmem
    exact absurd (decide_eq_true rfl) hno
  | some found =>
    have hsame : found.confirmationId = view.confirmationId := by
      have hsome := List.find?_some hfind
      exact of_decide_eq_true hsome
    rw [List.inj_on_of_nodup_map nodup (List.mem_of_find?_eq_some hfind) hmem hsame]
    rfl

theorem redactedFields_viewJson (view : PendingIntentView) :
    redactedFields (PendingFile.viewJson view) = view.redactedFields := by
  show (view.redactedFields.map JsValue.str).filterMap JsValue.string? = _
  rw [List.filterMap_map]
  exact List.filterMap_some

/-- The payload that a pending intent asks to be signed. -/
def payloadFor (view : PendingIntentView) : List UInt8 :=
  buildSignPayload view.confirmationId view.nonce view.commandDigest (.ofInt view.expiresAt)

/-- The expiry of an intent can be printed. -/
def Printable (view : PendingIntentView) : Prop :=
  -8640000000000000 ≤ view.expiresAt ∧ view.expiresAt ≤ 8640000000000000

theorem printable_viewJson {view : PendingIntentView} (h : Printable view) :
    printable (PendingFile.viewJson view) = true := by
  have hdate : validDate (expiresAt (PendingFile.viewJson view)) = true := by
    refine decide_eq_true ⟨?_, ?_⟩
    · exact_mod_cast h.1
    · exact_mod_cast h.2
  exact Bool.and_eq_true_iff.mpr ⟨rfl, hdate⟩

/-! ## What it signs -/

/-- An approver who holds the key and answers every prompt truthfully. -/
structure Truthful (A : Approver) (args : Args) (redactedFields : List JStr)
    (payload : List UInt8) (signature : JStr) : Prop where
  terminal : redactedFields ≠ [] → A.isTTY = true
  types : Types A args redactedFields 0
  signs : A.sign payload = some signature

/-- Keys that the tool can ask for. -/
def Askable (secretArgs : List JStr) : Prop := ∀ k ∈ secretArgs, SafeKey k ∧ k ≠ js "__proto__"

theorem redacted_fields_secret {command : JStr} {r : Redacted} (askable : Askable secretArgs)
    (redacted : redactCommand command args secretArgs = .ok r) :
    ∀ k ∈ r.fields, k ∈ secretArgs := by
  obtain ⟨done, T, _, _, hmem, hm⟩ := redactCommand_masked (fun k hk => (askable k hk).1) redacted
  intro k hk
  obtain ⟨s, hs, rfl⟩ := hm.keys k ((hm.fields k).mp hk)
  exact ((hmem s).mp hs).1

/-- The re-entered values restore the command. -/
theorem approveEntry_truthful {view : PendingIntentView} {command signature : JStr}
    (askable : Askable secretArgs)
    (redacted : redactCommand command args secretArgs =
      .ok ⟨view.commandPreview, view.redactedFields⟩)
    (digest : A.crypto.digestCommand command = view.commandDigest)
    (truthful : Truthful A args view.redactedFields (payloadFor view) signature) (date : Printable view) :
    ∃ values, approveEntry A (PendingFile.viewJson view) =
      .signed ⟨view.commandPreview, values, view.commandDigest, payloadFor view, signature⟩ := by
  have hsigned : ∀ values, signEntry A (PendingFile.viewJson view) values =
      .signed ⟨view.commandPreview, values, view.commandDigest, payloadFor view, signature⟩ :=
    fun values => signEntry_total (printable_viewJson date) truthful.signs
  by_cases hnone : view.redactedFields = []
  · refine ⟨.empty, ?_⟩
    rw [approveEntry_unchecked ((redactedFields_viewJson view).trans hnone)]
    exact hsigned .empty
  · have hsecret := redacted_fields_secret askable redacted
    obtain ⟨values, hasked, hown, -, hall⟩ := askFields_true .empty truthful.types
      (fun k hk => ⟨hsecret k hk, (askable k (hsecret k hk)).2⟩) (by rintro _ ⟨⟩)
    have hrestored := restoreCommand_redacted (fun k hk => (askable k hk).1) redacted
      (⟨fun k hk => OrderedMap.has_eq_true.mpr (hall hk), hown⟩ :
        TrueValues args secretArgs view.redactedFields values)
    refine ⟨values, ?_⟩
    unfold approveEntry
    rw [redactedFields_viewJson, if_pos (List.length_pos_iff.mpr hnone), truthful.terminal hnone,
      hasked]
    have hverified : verifyReentry A.crypto (reentryView (PendingFile.viewJson view)) values = true := by
      refine verifyReentry_iff.mpr ⟨fun k hk => ?_, ?_⟩
      · refine OrderedMap.has_eq_true.mpr (hall ?_)
        rw [← redactedFields_viewJson]
        exact hk
      · show A.crypto.digestCommand (restoreCommand view.commandPreview values) = view.commandDigest
        rw [hrestored, digest]
    simp only [hverified]
    exact hsigned values

/-- **An honest approver gets a signature**, for every pending intent whose preview was made of the
command that has its digest. -/
theorem approve_signs {views : List PendingIntentView} {view : PendingIntentView}
    {command signature : JStr} (file : A.pendingFile = some (PendingFile.pendingText views))
    (hmem : view ∈ views) (nodup : (views.map PendingIntentView.confirmationId).Nodup)
    (hid : view.confirmationId ≠ []) (askable : Askable secretArgs)
    (redacted : redactCommand command args secretArgs =
      .ok ⟨view.commandPreview, view.redactedFields⟩)
    (digest : A.crypto.digestCommand command = view.commandDigest)
    (truthful : Truthful A args view.redactedFields (payloadFor view) signature) (date : Printable view) :
    ∃ s, approve A (some view.confirmationId) = .signed s ∧ s.commandPreview = view.commandPreview ∧
      s.payload = payloadFor view ∧ s.signature = signature := by
  obtain ⟨values, hsigned⟩ := approveEntry_truthful askable redacted digest truthful date
  exact ⟨_, approve_signed.mpr ⟨_, requested_view file hmem nodup hid, hsigned⟩, rfl, rfl, rfl⟩

end ApproveCli

end VigorMcp
