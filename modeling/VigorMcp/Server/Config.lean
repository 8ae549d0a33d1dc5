import VigorMcp.Commands.Registry
import VigorMcp.Js.Number
import VigorMcp.Js.PosixPath
import VigorMcp.Tools.ApproveKeys

/-!
# Configuration

`loadConfig` reads the environment of the process into a `VigorConfig`, or throws.
It checks the flags, the fields by their schema, the approver's key and the host
key's fingerprint, in this order. What it takes from outside is a `Platform`: the
package's directory, the key formats and the text of the schema's issues.
-/

namespace VigorMcp

open PosixPath (isAbsolute dirname)

/-- The tools that a server shows its caller. -/
inductive ExposedTools where
  | all
  | list (ids : List JStr)
  deriving DecidableEq

structure VigorConfig where
  host : JStr
  port : Num
  username : JStr
  password : JStr
  logDb : JStr
  pendingFile : Option JStr
  /-- Write tools are not registered (monitoring only). -/
  readOnly : Bool
  /-- After a successful confirmed write, run `sys commit` to persist. -/
  autoCommit : Bool
  /-- The key that write approvals are verified with. -/
  approvePublicKey : Option KeyObject
  exposeTools : ExposedTools
  /-- These tool ids are never registered. -/
  disabledTools : List JStr
  /-- Max characters returned by a read tool before truncation (0 = no cap). -/
  toolOutputLimit : Num
  sshHostFingerprint : Option JStr
  /-- Explicit opt-out of host-key verification. -/
  sshInsecureSkipHostVerify : Bool

structure Platform where
  packageRoot : JStr
  keys : KeyFormats
  /-- The message of a schema's error, by the fields that have issues. -/
  issuesText : List JStr → JStr

abbrev ProcessEnv := JStr → Option JStr

/-! ## Flags and lists -/

def truthy : List JStr := [js "true", js "1", js "yes", js "on"]

def falsy : List JStr := [js "false", js "0", js "no", js "off"]

/-- Parse a boolean env flag. Unknown values throw (fail closed on misconfig). -/
def parseEnvBool (name : JStr) (v : Option JStr) (defaultValue : Bool) : Except Thrown Bool :=
  match v with
  | none => .ok defaultValue
  | some v =>
    if trim v = [] then .ok defaultValue
    else
      let n := toLowerCase (trim v)
      if n ∈ truthy then .ok true
      else if n ∈ falsy then .ok false
      else .error (.error none (js "Invalid boolean for " ++ name ++ js "=" ++ quote v ++
        js "; use true/false, 1/0, yes/no, or on/off"))

def comma : UInt16 := 44

/-- The texts between commas, without the blank ones. -/
def listOf (v : Option JStr) : List JStr :=
  (((v.getD []).splitOn comma).map trim).filter (· ≠ [])

def readCommands (commands : List CommandDef) : List CommandDef :=
  commands.filter fun cmd => cmd.kind = .read

/-- Resolve EXPOSE_TOOLS into a concrete id allowlist. -/
def resolveExposeTools (commands : List CommandDef) (raw : Option JStr) : ExposedTools :=
  let readable := .list ((readCommands commands).map CommandDef.id)
  match raw with
  | none => readable
  | some raw =>
    if trim raw = [] then readable
    else
      let v := toLowerCase (trim raw)
      if v = js "all" then .all
      else if v = js "readonly" then readable
      else .list (listOf (some raw))

/-! ## The schema -/

/-- The integer that a number is, if it is one. -/
def wholeNumber (x : Num) : Option Int :=
  match x.unpack with
  | .zero _ => some 0
  | .finite s m e _ =>
    if 0 ≤ e then some (s.apply (m * 2 ^ e.toNat))
    else if m % 2 ^ (-e).toNat = 0 then some (s.apply (m / 2 ^ (-e).toNat))
    else none
  | _ => none

/-- An integer between two bounds, or above one. -/
def isIntegerIn (lo : Int) (hi : Option Int) (x : Num) : Bool :=
  match wholeNumber x with
  | some n => decide (lo ≤ n) && hi.all fun hi => decide (n ≤ hi)
  | none => false

/-- What the schema is given. -/
structure RawConfig where
  host : Option JStr
  port : Option Num
  username : Option JStr
  password : Option JStr
  logDb : Option JStr
  pendingFile : Option JStr
  readOnly : Bool
  autoCommit : Bool
  approvePublicKey : Option JStr
  exposeTools : ExposedTools
  disabledTools : List JStr
  toolOutputLimit : Num
  sshHostFingerprint : Option JStr
  sshInsecureSkipHostVerify : Bool

/-- `z.string().min(1)`, where a field that is absent has a default or may be absent. -/
def isFilled (v : Option JStr) : Bool := v.all (· ≠ [])

/-- The fields of a configuration that the schema refuses. -/
def schemaIssues (raw : RawConfig) : List JStr :=
  ([(js "host", isFilled raw.host), (js "port", raw.port.all (isIntegerIn 1 (some 65535))),
    (js "username", isFilled raw.username), (js "password", raw.password.any (· ≠ [])),
    (js "logDb", isFilled raw.logDb), (js "pendingFile", isFilled raw.pendingFile),
    (js "approvePublicKey", isFilled raw.approvePublicKey),
    (js "toolOutputLimit", isIntegerIn 0 none raw.toolOutputLimit),
    (js "sshHostFingerprint", isFilled raw.sshHostFingerprint)].filter fun field => !field.2).map
    Prod.fst

/-! ## Loading -/

/-- The paths of a program: in the package's directory, unless they are absolute. -/
def resolveDataPath (P : Platform) (value : JStr) : JStr :=
  if value = js ":memory:" ∨ isAbsolute value = true then value
  else PosixPath.resolve P.packageRoot value

def defaultLogDb : JStr := js "data/vigor3912s.db"

/-- Where the pending confirmations are mirrored, by where the log is. -/
def pendingBeside (P : Platform) (logDb : JStr) : JStr :=
  PosixPath.join (dirname (resolveDataPath P logDb)) (js "pending-confirms.json")

def rawConfig (commands : List CommandDef) (env : ProcessEnv) : Except Thrown RawConfig := do
  let readOnly ← parseEnvBool (js "VIGOR_READ_ONLY") (env (js "VIGOR_READ_ONLY")) false
  let autoCommit ← parseEnvBool (js "VIGOR_AUTO_COMMIT") (env (js "VIGOR_AUTO_COMMIT")) true
  let skipVerify ← parseEnvBool (js "VIGOR_SSH_INSECURE_SKIP_VERIFY")
    (env (js "VIGOR_SSH_INSECURE_SKIP_VERIFY")) false
  return {
    host := env (js "VIGOR_HOST")
    port := (env (js "VIGOR_PORT")).map toNumber
    username := env (js "VIGOR_USER")
    password := env (js "VIGOR_PASSWORD")
    logDb := env (js "VIGOR_LOG_DB")
    pendingFile := env (js "VIGOR_PENDING_FILE")
    readOnly := readOnly
    autoCommit := autoCommit
    approvePublicKey := env (js "VIGOR_APPROVE_PUBKEY")
    exposeTools := resolveExposeTools commands (env (js "EXPOSE_TOOLS"))
    disabledTools := listOf (env (js "VIGOR_DISABLED_TOOLS"))
    toolOutputLimit := ((env (js "VIGOR_TOOL_OUTPUT_LIMIT")).map toNumber).getD (num 16000)
    sshHostFingerprint := env (js "VIGOR_SSH_HOST_FINGERPRINT")
    sshInsecureSkipHostVerify := skipVerify }

/-- What `loadConfig` returns for checked fields. -/
def configOf (P : Platform) (raw : RawConfig) (approvePublicKey : Option KeyObject) : VigorConfig :=
  let logDb := raw.logDb.getD defaultLogDb
  { host := raw.host.getD (js "192.168.1.1")
    port := raw.port.getD (num 22)
    username := raw.username.getD (js "admin")
    password := raw.password.getD []
    logDb := resolveDataPath P logDb
    pendingFile :=
      if logDb = js ":memory:" then none
      else some (resolveDataPath P (raw.pendingFile.getD (pendingBeside P logDb)))
    readOnly := raw.readOnly
    autoCommit := raw.autoCommit
    approvePublicKey := approvePublicKey
    exposeTools := raw.exposeTools
    disabledTools := raw.disabledTools
    toolOutputLimit := raw.toolOutputLimit
    sshHostFingerprint := raw.sshHostFingerprint
    sshInsecureSkipHostVerify := raw.sshInsecureSkipHostVerify }

/-- `loadConfig` from the schema on. -/
def checkConfig (P : Platform) (raw : RawConfig) : Except Thrown VigorConfig :=
  if schemaIssues raw ≠ [] then
    .error (.error none (js "Invalid VIGOR_* / EXPOSE_TOOLS environment config: " ++
      P.issuesText (schemaIssues raw)))
  else if !raw.readOnly && raw.approvePublicKey.isNone then
    .error (.error none (js ("Write mode requires VIGOR_APPROVE_PUBKEY (Ed25519 SPKI PEM or base64 DER). " ++
      "Generate a keypair with: node tools/approve-keygen.mjs")))
  else do
    let approvePublicKey ← raw.approvePublicKey.mapM (parseApprovePublicKey P.keys)
    if raw.sshHostFingerprint.isNone && !raw.sshInsecureSkipHostVerify then
      .error (.error none (js ("SSH host-key verification required: set VIGOR_SSH_HOST_FINGERPRINT (preferred) " ++
        "or explicitly VIGOR_SSH_INSECURE_SKIP_VERIFY=true for tests/simulated servers only")))
    else return configOf P raw approvePublicKey

def loadConfig (P : Platform) (commands : List CommandDef) (env : ProcessEnv) :
    Except Thrown VigorConfig := do
  checkConfig P (← rawConfig commands env)

end VigorMcp
