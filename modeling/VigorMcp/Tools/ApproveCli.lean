import VigorMcp.Tools.PendingFile

/-!
# The approve tool

`tools/approve.mjs <confirmationId>` finds the entry in the pending file, asks
for the values of its redacted fields and signs its digest when the restored
preview has that digest. An entry without redacted fields is signed unchecked
(`approve_signs_shown_iff`). `Approver` holds what the tool reads from outside:
the file, the terminal and the private key.
-/

namespace VigorMcp

structure Approver where
  crypto : Crypto
  /-- The text of the pending file, when it can be read. -/
  pendingFile : Option JStr
  isTTY : Bool
  /-- What is typed at each prompt; `none` once the input has ended. -/
  answers : Nat → Option JStr
  /-- The signature of a payload; `none` without a usable private key. -/
  sign : List UInt8 → Option JStr

/-- A printed signature, and what is printed with it and signed. -/
structure Signed where
  commandPreview : JStr
  values : OrderedMap JStr JStr
  commandDigest : JStr
  payload : List UInt8
  signature : JStr

inductive ApproveOutcome where
  | noPending | listed | unknownId | noTerminal | inputEnded | mismatch | notSigned | notPrinted
  | signed (s : Signed)

namespace ApproveCli

/-! ## What the tool reads of an entry -/

def textField (key : JStr) (entry : JsValue) : JStr := (entry.field key).string?.getD []

def confirmationId (entry : JsValue) : JStr := textField (js "confirmationId") entry

def commandDigest (entry : JsValue) : JStr := textField (js "commandDigest") entry

def commandPreview (entry : JsValue) : JStr := textField (js "commandPreview") entry

def nonce (entry : JsValue) : JStr := textField (js "nonce") entry

def expiresAt (entry : JsValue) : JsNumber :=
  match entry.field (js "expiresAt") with
  | .num n => n
  | _ => .nonFinite (js "NaN")

def redactedFields (entry : JsValue) : List JStr :=
  match entry.field (js "redactedFields") with
  | .arr items => items.filterMap JsValue.string?
  | _ => []

/-- What `verifyReentry` reads of an entry; the times are not among it. -/
def reentryView (entry : JsValue) : PendingIntentView where
  confirmationId := confirmationId entry
  toolId := []
  commandDigest := commandDigest entry
  commandPreview := commandPreview entry
  redactedFields := redactedFields entry
  nonce := nonce entry
  createdAt := 0
  expiresAt := 0
  createdAt_safe := by decide
  expiresAt_safe := by decide

/-! ## The typed values -/

/-- The number of a key that is an array index. -/
def arrayIndex (key : JStr) : Option Nat :=
  let n := Json.digitsValue key
  if decimal n = key ∧ n < 2 ^ 32 - 1 then some n else none

/-- The order of an object's own keys: array indices by their number, then the other keys. -/
def inKeyOrder (m : OrderedMap JStr JStr) : OrderedMap JStr JStr where
  entries := (m.entries.filter fun e => (arrayIndex e.1).isSome).insertionSort
      (fun a b : JStr × JStr => (arrayIndex a.1).getD 0 ≤ (arrayIndex b.1).getD 0) ++
    m.entries.filter fun e => !(arrayIndex e.1).isSome
  nodup := by
    refine (List.Perm.nodup_iff (List.Perm.map _ ?_)).mpr m.nodup
    exact ((List.perm_insertionSort _ _).append_right _).trans (List.filter_append_perm _ _)

/-- `values[field] = value`; a string assigned to `__proto__` is dropped. -/
def assign (values : OrderedMap JStr JStr) (field value : JStr) : OrderedMap JStr JStr :=
  if field = js "__proto__" then values else inKeyOrder (values.set field value)

variable (A : Approver)

/-- The values typed for the fields, from the `n`-th prompt on. -/
def askFields : List JStr → Nat → OrderedMap JStr JStr → Option (OrderedMap JStr JStr)
  | [], _, values => some values
  | field :: fields, n, values => do
    let value ← A.answers n
    askFields fields (n + 1) (assign values field value)

/-! ## The tool -/

/-- `new Date(ms).toISOString()` has a text. -/
def validDate : JsNumber → Bool
  | .finite ms _ => decide (-8640000000000000 ≤ ms ∧ ms ≤ 8640000000000000)
  | .nonFinite _ => false

/-- What is signed of an entry. -/
def payloadOf (entry : JsValue) : List UInt8 :=
  buildSignPayload (confirmationId entry) (nonce entry) (commandDigest entry) (expiresAt entry)

/-- What is printed before the signature has a text. -/
def printable (entry : JsValue) : Bool :=
  (stringOf (entry.field (js "toolId"))).isOk && validDate (expiresAt entry)

def signEntry (entry : JsValue) (values : OrderedMap JStr JStr) : ApproveOutcome :=
  match A.sign (payloadOf entry) with
  | none => .notSigned
  | some signature =>
    if printable entry then
      .signed ⟨commandPreview entry, values, commandDigest entry, payloadOf entry, signature⟩
    else .notPrinted

def approveEntry (entry : JsValue) : ApproveOutcome :=
  if (redactedFields entry).length > 0 then
    if !A.isTTY then .noTerminal
    else match askFields A (redactedFields entry) 0 .empty with
      | none => .inputEnded
      | some values =>
        if !verifyReentry A.crypto (reentryView entry) values then .mismatch
        else signEntry A entry values
  else signEntry A entry .empty

/-- The entry that is asked for: a missing or empty id asks for the list. -/
def requested (id : Option JStr) : Option JsValue :=
  match id with
  | none => none
  | some id =>
    if id = [] then none
    else (PendingFile.loadPending A.pendingFile).find? fun entry => confirmationId entry = id

def approve (id : Option JStr) : ApproveOutcome :=
  if (PendingFile.loadPending A.pendingFile).length = 0 then .noPending
  else if id.getD [] = [] then .listed
  else match requested A id with
    | none => .unknownId
    | some entry => approveEntry A entry

/-! ## What is signed -/

/-- The digest that is signed is that of the preview with the typed values put back. -/
def Shown (s : Signed) : Prop :=
  A.crypto.digestCommand (restoreCommand s.commandPreview s.values) = s.commandDigest

variable {A} {entry : JsValue} {values : OrderedMap JStr JStr} {s : Signed}

theorem signEntry_signed (h : signEntry A entry values = .signed s) :
    s.commandPreview = commandPreview entry ∧ s.values = values ∧
      s.commandDigest = commandDigest entry ∧ s.payload = payloadOf entry := by
  unfold signEntry at h
  split at h
  · cases h
  · split at h
    · obtain rfl := ApproveOutcome.signed.inj h
      exact ⟨rfl, rfl, rfl, rfl⟩
    · cases h

/-- Where values are asked for, only a matching preview is signed. -/
theorem approveEntry_checked (hfields : redactedFields entry ≠ [])
    (h : approveEntry A entry = .signed s) : Shown A s := by
  unfold approveEntry at h
  rw [if_pos (List.length_pos_iff.mpr hfields)] at h
  split at h
  · cases h
  · split at h
    · cases h
    · next values _ =>
      split at h
      · cases h
      · next hverified =>
        obtain ⟨hpreview, hvalues, hdigest, -⟩ := signEntry_signed h
        simp only [verifyReentry, Bool.not_eq_true, Bool.not_eq_false'] at hverified
        split at hverified
        · cases hverified
        · unfold Shown
          rw [hpreview, hvalues, hdigest]
          exact beq_iff_eq.mp hverified

/-- Without fields to ask for, whatever can be signed and printed is signed. -/
theorem approveEntry_unchecked (hfields : redactedFields entry = []) :
    approveEntry A entry = signEntry A entry .empty := by
  unfold approveEntry
  rw [hfields]
  rfl

theorem approve_signed {id : Option JStr} : approve A id = .signed s ↔
    ∃ entry, requested A id = some entry ∧ approveEntry A entry = .signed s := by
  unfold approve
  split
  · next hpending =>
    have hnone : requested A id = none := by
      unfold requested
      rw [List.length_eq_zero_iff.mp hpending]
      cases id <;> simp
    simp [hnone]
  · split
    · next hid =>
      have hnone : requested A id = none := by
        cases id with
        | none => rfl
        | some id => exact if_pos hid
      simp [hnone]
    · cases hentry : requested A id <;> simp

/-- What can be signed and printed is. -/
theorem signEntry_total {signature : JStr} (hprint : printable entry = true)
    (hsign : A.sign (payloadOf entry) = some signature) : signEntry A entry values =
      .signed ⟨commandPreview entry, values, commandDigest entry, payloadOf entry, signature⟩ := by
  unfold signEntry
  rw [hsign]
  exact if_pos hprint

/-- **The approver signs what it shows** exactly when the entry asked for has redacted fields, or
its preview has its digest, or nothing can be signed or printed for it. -/
theorem approve_signs_shown_iff (A : Approver) (id : Option JStr) :
    (∀ s, approve A id = .signed s → Shown A s) ↔
      ∀ entry, requested A id = some entry → redactedFields entry ≠ [] ∨
        A.crypto.digestCommand (commandPreview entry) = commandDigest entry ∨
        ¬ (printable entry = true ∧ ∃ signature, A.sign (payloadOf entry) = some signature) := by
  constructor
  · intro hshown entry hentry
    by_cases hfields : redactedFields entry = []
    · by_cases hout :
          printable entry = true ∧ ∃ signature, A.sign (payloadOf entry) = some signature
      · obtain ⟨hprint, signature, hsign⟩ := hout
        have hsigned := (approveEntry_unchecked hfields).trans (signEntry_total hprint hsign)
        exact .inr (.inl (hshown _ (approve_signed.mpr ⟨entry, hentry, hsigned⟩)))
      · exact .inr (.inr hout)
    · exact .inl hfields
  · intro h s hs
    obtain ⟨entry, hentry, hsigned⟩ := approve_signed.mp hs
    by_cases hfields : redactedFields entry = []
    · rw [approveEntry_unchecked hfields] at hsigned
      obtain ⟨hpreview, hvalues, hdigest, -⟩ := signEntry_signed hsigned
      unfold Shown
      rw [hpreview, hvalues, hdigest]
      rcases h entry hentry with hne | hmatch | hout
      · exact absurd hfields hne
      · exact hmatch
      · refine absurd ?_ hout
        unfold signEntry at hsigned
        split at hsigned
        · cases hsigned
        · next signature hsign =>
          split at hsigned
          · next hprint => exact ⟨hprint, signature, hsign⟩
          · cases hsigned
    · exact approveEntry_checked hfields hsigned

/-! ## An entry without redacted fields -/

/-- A view whose digest is that of another command, without redacted fields. -/
def forgedView : PendingIntentView :=
  ⟨js "c1", js "sys_reboot", js "sys default", js "sys reboot", [], js "n1", 1, 2, by decide, by decide⟩

/-- An approver that can sign, with `forgedView` in its pending file. -/
def forgedApprover : Approver where
  crypto := ⟨byteUnits, fun _ _ _ => .ok true⟩
  pendingFile := some (PendingFile.pendingText [forgedView])
  isTTY := true
  answers _ := none
  sign payload := some (toBase64 payload)

/-- The preview shown is `sys reboot`; the digest signed is that of `sys default`. -/
theorem approve_signs_unchecked : ∃ s, approve forgedApprover (some (js "c1")) = .signed s ∧
    s.commandPreview = js "sys reboot" ∧ ¬ Shown forgedApprover s := by
  have hfile : PendingFile.loadPending forgedApprover.pendingFile =
      [PendingFile.viewJson forgedView] :=
    PendingFile.loadPending_pendingText [forgedView]
  have hentry : requested forgedApprover (some (js "c1")) =
      some (PendingFile.viewJson forgedView) := by
    unfold requested
    rw [hfile]
    rfl
  refine ⟨_, approve_signed.mpr ⟨_, hentry, rfl⟩, rfl, ?_⟩
  unfold Shown
  decide

end ApproveCli

end VigorMcp
