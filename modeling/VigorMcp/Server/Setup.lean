import VigorMcp.Server.Started

/-!
# Setting up approvals

The server and the approver's tools are set up by hand, with one environment: the
key that `approve-keygen` prints goes into `VIGOR_APPROVE_PUBKEY`, and `approve`
looks for the pending file where the server writes it. A server that starts keeps
starting, the same but for the key, when a generated key takes the place of the
one it had (`rotated_key_loads`).
-/

namespace VigorMcp

def approveKeyVariable : JStr := js "VIGOR_APPROVE_PUBKEY"

/-- The file that `approve` reads. -/
def approvePendingFile (P : Platform) (env : ProcessEnv) : JStr :=
  resolveDataPath P ((env (js "VIGOR_PENDING_FILE")).getD
    (pendingBeside P ((env (js "VIGOR_LOG_DB")).getD defaultLogDb)))

section

variable {P : Platform} {commands : List CommandDef} {env : ProcessEnv} {config : VigorConfig}
  {raw : RawConfig} {key : KeyObject} {text : JStr}

/-- The approver reads the file that the server writes, if the server writes one. -/
theorem approve_reads_mirror (loaded : loadConfig P commands env = .ok config) {file : JStr}
    (written : config.pendingFile = some file) : approvePendingFile P env = file := by
  obtain ⟨raw, hraw, hcheck⟩ := Except.bind_eq_ok.mp loaded
  obtain ⟨-, -, -, -, -, hlogDb, hpending⟩ := rawConfig_ok hraw
  obtain ⟨-, -, -, key, -, rfl⟩ := checkConfig_ok hcheck
  unfold configOf at written
  dsimp only at written
  split at written
  · cases written
  · rw [hlogDb, hpending] at written
    exact Option.some.inj written

/-- Only the key's field of what the schema is given is read from the key's variable. -/
theorem rawConfig_rotated (h : rawConfig commands env = .ok raw) :
    rawConfig commands (Function.update env approveKeyVariable (some text)) =
      .ok { raw with approvePublicKey := some text } := by
  have hother : ∀ name, name ≠ approveKeyVariable →
      Function.update env approveKeyVariable (some text) name = env name :=
    fun name hname => Function.update_of_ne hname _ _
  have hself : Function.update env approveKeyVariable (some text) (js "VIGOR_APPROVE_PUBKEY") =
      some text := Function.update_self ..
  unfold rawConfig at h ⊢
  obtain ⟨readOnly, hreadOnly, h⟩ := Except.bind_eq_ok.mp h
  obtain ⟨autoCommit, hautoCommit, h⟩ := Except.bind_eq_ok.mp h
  obtain ⟨skipVerify, hskip, h⟩ := Except.bind_eq_ok.mp h
  obtain rfl := Except.ok.inj h
  simp only [hself, hother _ (show js "VIGOR_READ_ONLY" ≠ approveKeyVariable by decide +kernel),
    hother _ (show js "VIGOR_AUTO_COMMIT" ≠ approveKeyVariable by decide +kernel),
    hother _ (show js "VIGOR_SSH_INSECURE_SKIP_VERIFY" ≠ approveKeyVariable by decide +kernel),
    hother _ (show js "VIGOR_HOST" ≠ approveKeyVariable by decide +kernel),
    hother _ (show js "VIGOR_PORT" ≠ approveKeyVariable by decide +kernel),
    hother _ (show js "VIGOR_USER" ≠ approveKeyVariable by decide +kernel),
    hother _ (show js "VIGOR_PASSWORD" ≠ approveKeyVariable by decide +kernel),
    hother _ (show js "VIGOR_LOG_DB" ≠ approveKeyVariable by decide +kernel),
    hother _ (show js "VIGOR_PENDING_FILE" ≠ approveKeyVariable by decide +kernel),
    hother _ (show js "EXPOSE_TOOLS" ≠ approveKeyVariable by decide +kernel),
    hother _ (show js "VIGOR_DISABLED_TOOLS" ≠ approveKeyVariable by decide +kernel),
    hother _ (show js "VIGOR_TOOL_OUTPUT_LIMIT" ≠ approveKeyVariable by decide +kernel),
    hother _ (show js "VIGOR_SSH_HOST_FINGERPRINT" ≠ approveKeyVariable by decide +kernel),
    hreadOnly, hautoCommit, hskip]
  rfl

theorem schemaIssues_rotated (filled : text ≠ []) (h : schemaIssues raw = []) :
    schemaIssues { raw with approvePublicKey := some text } = [] := by
  have htext : isFilled (some text) = true := decide_eq_true filled
  simp only [schemaIssues, List.map_eq_nil_iff, List.filter_eq_nil_iff, List.forall_mem_cons,
    Bool.not_eq_true, Bool.not_eq_false'] at h ⊢
  obtain ⟨host, port, username, password, logDb, pendingFile, -, rest⟩ := h
  exact ⟨host, port, username, password, logDb, pendingFile, htext, rest⟩

/-- The schema and the checks behind it take another key's text as well. -/
theorem checkConfig_rotated (filled : text ≠ []) (parsed : parseApprovePublicKey P.keys text = .ok key)
    (h : checkConfig P raw = .ok config) :
    checkConfig P { raw with approvePublicKey := some text } =
      .ok { config with approvePublicKey := some key } := by
  obtain ⟨hissues, -, hhost, _, -, rfl⟩ := checkConfig_ok h
  unfold checkConfig
  rw [if_neg (not_not.mpr (schemaIssues_rotated filled hissues))]
  have hhostKey : (raw.sshHostFingerprint.isNone && !raw.sshInsecureSkipHostVerify) = false := by
    cases hfp : raw.sshHostFingerprint <;> cases hskip : raw.sshInsecureSkipHostVerify <;> simp_all
  simp only [Option.isNone_some, Bool.and_false, Bool.false_eq_true, ↓reduceIte, Option.mapM_some,
    parsed, hhostKey]
  rfl

/-- **A generated key takes the place of any other.** Whatever the environment of a server that
starts, with the PEM file of a generated key, or the text that `approve-keygen` prints with white
space around it, in `VIGOR_APPROVE_PUBKEY` the server starts with that key and is otherwise configured
as before, and the approver still reads the file that it writes. -/
theorem rotated_key_loads (exports : P.keys.Exports key) (htype : key.asymmetricKeyType = js "ed25519")
    (prints : P.keys.Prints key text) (loaded : loadConfig P commands env = .ok config) :
    loadConfig P commands (Function.update env approveKeyVariable (some text)) =
        .ok { config with approvePublicKey := some key } ∧
      ∀ file ∈ config.pendingFile,
        approvePendingFile P (Function.update env approveKeyVariable (some text)) = file := by
  have hloaded : loadConfig P commands (Function.update env approveKeyVariable (some text)) =
      .ok { config with approvePublicKey := some key } := by
    obtain ⟨raw, hraw, hcheck⟩ := Except.bind_eq_ok.mp loaded
    unfold loadConfig
    rw [rawConfig_rotated hraw]
    exact checkConfig_rotated (prints.ne_nil exports) (prints.parsed exports htype) hcheck
  exact ⟨hloaded, fun file hfile => approve_reads_mirror hloaded hfile⟩

end

/-! ### The key of the user gate -/

def approveKeyPem : JStr :=
  js "-----BEGIN PUBLIC KEY-----\n" ++ approveKey.material ++ js "\n-----END PUBLIC KEY-----\n"

/-- A platform that knows the key's formats. -/
def keyedPlatform : Platform where
  packageRoot := userPlatform.packageRoot
  keys :=
    { fromPem := fun text => if trim text = trim approveKeyPem then .ok approveKey
        else .error (.error none (js "no PEM"))
      fromDer := userPlatform.keys.fromDer
      toPem := fun _ => approveKeyPem
      toDer := userPlatform.keys.toDer }
  issuesText := userPlatform.issuesText

theorem approveKey_exports : keyedPlatform.keys.Exports approveKey where
  pem := by simp only [keyedPlatform, ↓reduceIte]
  trimmed := by
    have htrimmed : trim (trim approveKeyPem) = trim approveKeyPem := by decide +kernel
    simp only [keyedPlatform, htrimmed, ↓reduceIte]
  named := by decide +kernel
  der := by
    have hmaterial : toBase64 (fromBase64 approveKey.material) = approveKey.material := by decide +kernel
    show Except.ok (KeyObject.mk (js "ed25519") (toBase64 (fromBase64 approveKey.material))) = _
    rw [hmaterial]
    rfl
  filled := by decide +kernel

/-- The printed text, in the place of the one that was there. -/
theorem rotated_key_loads_printed : ∃ (config : VigorConfig) (value : JStr),
    publicKeyToConfigValue keyedPlatform.keys approveKeyPem = .ok value ∧
    loadConfig keyedPlatform [userSetdefaultTool]
        (Function.update writeVariables approveKeyVariable (some (js " " ++ (value ++ js "\n")))) =
      .ok { config with approvePublicKey := some approveKey } := by
  have hloads : (loadConfig keyedPlatform [userSetdefaultTool] writeVariables).toOption.isSome =
      true := by
    decide +kernel
  cases hload : loadConfig keyedPlatform [userSetdefaultTool] writeVariables with
  | error e =>
    rw [hload] at hloads
    cases hloads
  | ok config =>
    have hprinted := approveKey_exports.value
    have hblank : ∀ u ∈ js " " ++ js "\n", isSpace u = true := by
      have hall : (js " " ++ js "\n").all isSpace = true := by decide +kernel
      exact List.all_eq_true.mp hall
    exact ⟨config, _, hprinted,
      (rotated_key_loads approveKey_exports rfl (.value hprinted hblank) hload).1⟩

end VigorMcp
