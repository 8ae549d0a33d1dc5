import VigorMcp.Js.Buffer

/-!
# Approval signatures

The digest of a command, the payload the approver signs and the check of a
signature over it. Text is digested and signed as its bytes in UTF-8. `Crypto`
stands for what is the platform's: SHA-256 and Ed25519 verification.
-/

namespace VigorMcp

structure KeyObject where
  asymmetricKeyType : JStr
  material : JStr
  deriving DecidableEq

structure Crypto where
  /-- `createHash('sha256').update(bytes).digest('hex')`. -/
  sha256hex : List UInt8 → JStr
  /-- `verify(null, payload, publicKey, signature)`. -/
  verify : (payload : List UInt8) → KeyObject → (signature : List UInt8) → Except Thrown Bool

variable (C : Crypto)

def Crypto.digestCommand (command : JStr) : JStr := C.sha256hex (utf8 command)

/-- The text of a sign payload. -/
def signPayloadText (confirmationId nonce commandDigest : JStr) (expiresAt : JsNumber) : JStr :=
  confirmationId ++ js "\n" ++ nonce ++ js "\n" ++ commandDigest ++ js "\n" ++ expiresAt.text

/-- Canonical bytes the human signs / MCP verifies. -/
def buildSignPayload (confirmationId nonce commandDigest : JStr) (expiresAt : JsNumber) :
    List UInt8 :=
  utf8 (signPayloadText confirmationId nonce commandDigest expiresAt)

def verifyApprovalSignature (publicKey : KeyObject) (signatureB64 : JStr)
    (confirmationId nonce commandDigest : JStr) (expiresAt : JsNumber) : Bool :=
  let payload := buildSignPayload confirmationId nonce commandDigest expiresAt
  let signature := fromBase64 signatureB64
  if signature.length = 0 then false
  else if publicKey.asymmetricKeyType ≠ js "ed25519" then false
  else match C.verify payload publicKey signature with
    | .ok ok => ok
    | .error _ => false

end VigorMcp
