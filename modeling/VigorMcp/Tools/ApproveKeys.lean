import VigorMcp.Js.Buffer
import VigorMcp.Tools.ApproveCrypto

/-!
# Approval keys

How the server reads the approver's public key, and what `approve-keygen` prints
for it. The key formats are the platform's (`KeyFormats`); what is used of them
is that a key comes back from what it was exported to (`KeyFormats.Exports`).
-/

namespace VigorMcp

structure KeyFormats where
  /-- `createPublicKey(pem)`. -/
  fromPem : JStr → Except Thrown KeyObject
  /-- `createPublicKey({ key, format: 'der', type: 'spki' })`. -/
  fromDer : List UInt8 → Except Thrown KeyObject
  /-- `key.export({ type: 'spki', format: 'pem' })`. -/
  toPem : KeyObject → JStr
  /-- `key.export({ type: 'spki', format: 'der' })`. -/
  toDer : KeyObject → List UInt8

variable (F : KeyFormats)

def parsePublicKey (pemOrB64 : JStr) : Except Thrown KeyObject :=
  let trimmed := trim pemOrB64
  if includes trimmed (js "BEGIN PUBLIC KEY") then F.fromPem trimmed
  else F.fromDer (fromBase64 trimmed)

def parseApprovePublicKey (pemOrB64 : JStr) : Except Thrown KeyObject :=
  let refused : Thrown := .error none
    (js "VIGOR_APPROVE_PUBKEY must be an Ed25519 public key (SPKI PEM or base64 DER)")
  match parsePublicKey F pemOrB64 with
  | .ok key => if key.asymmetricKeyType ≠ js "ed25519" then .error refused else .ok key
  | .error _ => .error refused

/-- What `approve-keygen` prints for `VIGOR_APPROVE_PUBKEY`. -/
def publicKeyToConfigValue (publicKeyPem : JStr) : Except Thrown JStr := do
  let key ← F.fromPem publicKeyPem
  return toBase64 (F.toDer key)

/-- An exported key is read again. A PEM text ends in a line break, which its reader does not need. -/
structure KeyFormats.Exports (key : KeyObject) : Prop where
  pem : F.fromPem (F.toPem key) = .ok key
  trimmed : F.fromPem (trim (F.toPem key)) = .ok key
  named : includes (trim (F.toPem key)) (js "BEGIN PUBLIC KEY") = true
  der : F.fromDer (F.toDer key) = .ok key
  filled : F.toDer key ≠ []

variable {F} {key : KeyObject}

theorem parseApprovePublicKey_of_parse {text : JStr} (htype : key.asymmetricKeyType = js "ed25519")
    (h : parsePublicKey F text = .ok key) : parseApprovePublicKey F text = .ok key := by
  unfold parseApprovePublicKey
  simp only [h, htype, ne_eq, not_true_eq_false, if_false]

/-! ## What `approve-keygen` makes -/

theorem isSpace_base64Digit : ∀ k, isSpace (base64Digit k) = false := by decide

theorem isSpace_toBase64 {bytes : List UInt8} : ∀ u ∈ toBase64 bytes, isSpace u = false := by
  intro u hu
  rcases List.mem_append.mp hu with hu | hu
  · obtain ⟨k, -, rfl⟩ := List.mem_map.mp hu
    exact isSpace_base64Digit k
  · rw [(List.mem_replicate.mp hu).2]
    decide

/-- A text without white space is what `trim` leaves of it and white space around it. -/
theorem trim_around {before s after : JStr} (hbefore : ∀ u ∈ before, isSpace u = true)
    (hafter : ∀ u ∈ after, isSpace u = true) (hs : ∀ u ∈ s, isSpace u = false) :
    trim (before ++ (s ++ after)) = s := by
  cases s with
  | nil =>
    have hall : ∀ u ∈ before ++ after, isSpace u = true := fun u hu =>
      (List.mem_append.mp hu).elim (hbefore u) (hafter u)
    rw [List.nil_append, trim, List.dropWhile_eq_nil_iff.mpr hall, List.rdropWhile_nil]
  | cons u rest =>
    have hlast := List.getLast?_eq_some_getLast (List.cons_ne_nil u rest)
    exact trim_pad hbefore hafter rfl hlast (hs u (List.mem_cons_self ..)) (hs _ (List.getLast_mem _))

/-- No base64 text has a space, and `BEGIN PUBLIC KEY` has two. -/
theorem not_includes_begin {s : JStr} (hs : ∀ u ∈ s, isSpace u = false) :
    includes s (js "BEGIN PUBLIC KEY") = false := by
  refine Bool.eq_false_iff.mpr fun h => ?_
  have hspace := hs space ((includes_iff.mp h).subset (by decide))
  exact absurd hspace (by decide)

/-- A text that configures the server with a key: its PEM file, or the base64 text that
`approve-keygen` prints, with whatever white space around it. -/
inductive KeyFormats.Prints (F : KeyFormats) (key : KeyObject) : JStr → Prop
  | pem : Prints F key (F.toPem key)
  | value {value before after : JStr} (printed : publicKeyToConfigValue F (F.toPem key) = .ok value)
      (blank : ∀ u ∈ before ++ after, isSpace u = true) : Prints F key (before ++ (value ++ after))

theorem KeyFormats.Exports.value (exports : F.Exports key) :
    publicKeyToConfigValue F (F.toPem key) = .ok (toBase64 (F.toDer key)) := by
  rw [publicKeyToConfigValue, exports.pem]
  rfl

/-- **A generated key is read back.** -/
theorem KeyFormats.Prints.parsed {text : JStr} (h : F.Prints key text) (exports : F.Exports key)
    (htype : key.asymmetricKeyType = js "ed25519") : parseApprovePublicKey F text = .ok key := by
  refine parseApprovePublicKey_of_parse htype ?_
  cases h with
  | pem =>
    rw [parsePublicKey, if_pos exports.named]
    exact exports.trimmed
  | value printed blank =>
    rw [exports.value] at printed
    obtain rfl := Except.ok.inj printed
    rw [List.forall_mem_append] at blank
    rw [parsePublicKey, trim_around blank.1 blank.2 isSpace_toBase64,
      if_neg (by rw [not_includes_begin isSpace_toBase64]; decide), fromBase64_toBase64]
    exact exports.der

theorem KeyFormats.Prints.ne_nil {text : JStr} (h : F.Prints key text) (exports : F.Exports key) :
    text ≠ [] := by
  cases h with
  | pem =>
    intro hnil
    have hnamed := exports.named
    rw [hnil] at hnamed
    revert hnamed
    decide
  | value printed blank =>
    rw [exports.value] at printed
    obtain rfl := Except.ok.inj printed
    simp only [ne_eq, List.append_eq_nil_iff, not_and]
    intro _ hvalue
    have hbytes := congrArg fromBase64 hvalue
    rw [fromBase64_toBase64] at hbytes
    exact absurd hbytes exports.filled

end VigorMcp
