import VigorMcp.Commands.Build
import VigorMcp.Server.ApprovalSafety

/-!
# A started server

`buildServer` puts the server together by its configuration: the gate with the
approver's key, and the tools that are shown. Of its runs it holds that a write
reaches the router only if the operator turned three things on, and the approver
signed: `VIGOR_READ_ONLY` is off, `EXPOSE_TOOLS` names the tool or is `all`, and the
signature that the write's intent was consumed with verifies under the key in
`VIGOR_APPROVE_PUBKEY` (`write_needs_configuration`).
-/

namespace VigorMcp

open Prog

/-! ## Configurations -/

section

variable {P : Platform} {commands : List CommandDef} {env : ProcessEnv} {config : VigorConfig}
  {raw : RawConfig}

/-- What of a configuration the server's safety stands on. -/
structure Configured (P : Platform) (commands : List CommandDef) (env : ProcessEnv)
    (config : VigorConfig) : Prop where
  readOnly : parseEnvBool (js "VIGOR_READ_ONLY") (env (js "VIGOR_READ_ONLY")) false =
    .ok config.readOnly
  exposeTools : config.exposeTools = resolveExposeTools commands (env (js "EXPOSE_TOOLS"))
  disabledTools : config.disabledTools = listOf (env (js "VIGOR_DISABLED_TOOLS"))
  password : config.password ≠ []
  port : ∃ n, wholeNumber config.port = some n ∧ 1 ≤ n ∧ n ≤ 65535
  /-- A server that writes has a key. -/
  keyed : config.readOnly = false → config.approvePublicKey.isSome = true
  key : ∀ key, config.approvePublicKey = some key → ∃ text,
    env (js "VIGOR_APPROVE_PUBKEY") = some text ∧ parseApprovePublicKey P.keys text = .ok key
  /-- A server that knows no fingerprint was told to do without. -/
  hostKey : config.sshHostFingerprint = none → ∃ v,
    env (js "VIGOR_SSH_INSECURE_SKIP_VERIFY") = some v ∧ toLowerCase (trim v) ∈ truthy

theorem checkConfig_ok (h : checkConfig P raw = .ok config) : schemaIssues raw = [] ∧
    (raw.readOnly = true ∨ raw.approvePublicKey.isSome = true) ∧
    (raw.sshHostFingerprint.isSome = true ∨ raw.sshInsecureSkipHostVerify = true) ∧
    ∃ key, raw.approvePublicKey.mapM (parseApprovePublicKey P.keys) = .ok key ∧
      config = configOf P raw key := by
  unfold checkConfig at h
  split at h
  · cases h
  · next hissues =>
    split at h
    · cases h
    · next hkey =>
      obtain ⟨key, hparse, h⟩ := Except.bind_eq_ok.mp h
      split at h
      · cases h
      · next hhost =>
        refine ⟨not_not.mp hissues, ?_, ?_, key, hparse, (Except.ok.inj h).symm⟩
        · cases hro : raw.readOnly <;> cases hpub : raw.approvePublicKey <;> simp_all
        · cases hfp : raw.sshHostFingerprint <;> cases hskip : raw.sshInsecureSkipHostVerify <;> simp_all

theorem mapM_parse {text : Option JStr} {key : Option KeyObject}
    (h : text.mapM (parseApprovePublicKey P.keys) = .ok key) :
    key.isSome = text.isSome ∧ ∀ k, key = some k → ∃ t, text = some t ∧
      parseApprovePublicKey P.keys t = .ok k := by
  cases text with
  | none =>
    cases h
    exact ⟨rfl, fun _ h => by cases h⟩
  | some t =>
    obtain ⟨k, hk, h⟩ := Except.map_eq_ok.mp h
    subst h
    refine ⟨rfl, fun k' hk' => ?_⟩
    cases hk'
    exact ⟨t, rfl, hk⟩

/-- A flag that is off unless it is set is on only where its text says so. -/
theorem parseEnvBool_true {name : JStr} {v : Option JStr} (h : parseEnvBool name v false = .ok true) :
    ∃ text, v = some text ∧ toLowerCase (trim text) ∈ truthy := by
  unfold parseEnvBool at h
  cases v with
  | none => cases h
  | some text =>
    dsimp only at h
    split at h
    · cases h
    · split at h
      · next htrue => exact ⟨text, rfl, htrue⟩
      · split at h <;> cases h

theorem mem_schemaIssues_port (h : schemaIssues raw = []) :
    raw.port.all (isIntegerIn 1 (some 65535)) = true ∧ raw.password.any (· ≠ []) = true := by
  simp only [schemaIssues, List.map_eq_nil_iff, List.filter_eq_nil_iff, List.forall_mem_cons,
    Bool.not_eq_true, Bool.not_eq_false'] at h
  exact ⟨h.2.1, h.2.2.2.1⟩

theorem rawConfig_ok (h : rawConfig commands env = .ok raw) :
    parseEnvBool (js "VIGOR_READ_ONLY") (env (js "VIGOR_READ_ONLY")) false = .ok raw.readOnly ∧
    parseEnvBool (js "VIGOR_SSH_INSECURE_SKIP_VERIFY") (env (js "VIGOR_SSH_INSECURE_SKIP_VERIFY"))
      false = .ok raw.sshInsecureSkipHostVerify ∧
    raw.approvePublicKey = env (js "VIGOR_APPROVE_PUBKEY") ∧
    raw.exposeTools = resolveExposeTools commands (env (js "EXPOSE_TOOLS")) ∧
    raw.disabledTools = listOf (env (js "VIGOR_DISABLED_TOOLS")) ∧
    raw.logDb = env (js "VIGOR_LOG_DB") ∧ raw.pendingFile = env (js "VIGOR_PENDING_FILE") := by
  unfold rawConfig at h
  obtain ⟨readOnly, hreadOnly, h⟩ := Except.bind_eq_ok.mp h
  obtain ⟨autoCommit, -, h⟩ := Except.bind_eq_ok.mp h
  obtain ⟨skipVerify, hskip, h⟩ := Except.bind_eq_ok.mp h
  obtain rfl := Except.ok.inj h
  exact ⟨hreadOnly, hskip, rfl, rfl, rfl, rfl, rfl⟩

theorem isIntegerIn_iff {lo hi : Int} {x : Num} : isIntegerIn lo (some hi) x = true ↔
    ∃ n, wholeNumber x = some n ∧ lo ≤ n ∧ n ≤ hi := by
  unfold isIntegerIn
  cases wholeNumber x with
  | none => simp
  | some n => simp

/-- **Loading fails closed**: a configuration that is returned is one the server may run with. -/
theorem loadConfig_configured (h : loadConfig P commands env = .ok config) :
    Configured P commands env config := by
  obtain ⟨raw, hraw, h⟩ := Except.bind_eq_ok.mp h
  obtain ⟨hreadOnly, hskip, hkey, hexpose, hdisabled, -, -⟩ := rawConfig_ok hraw
  obtain ⟨hissues, hkeyed, hhost, key, hparse, rfl⟩ := checkConfig_ok h
  obtain ⟨hport, hpassword⟩ := mem_schemaIssues_port hissues
  obtain ⟨hsome, hkeys⟩ := mapM_parse hparse
  exact {
    readOnly := hreadOnly
    exposeTools := hexpose
    disabledTools := hdisabled
    password := by
      cases hp : raw.password with
      | none => simp [hp] at hpassword
      | some password => simpa [configOf, hp] using hpassword
    port := by
      have hnumber : ∃ n, wholeNumber (num 22) = some n ∧ 1 ≤ n ∧ n ≤ 65535 :=
        ⟨22, by decide +kernel, by decide, by decide⟩
      show ∃ n, wholeNumber (raw.port.getD (num 22)) = some n ∧ _
      cases hp : raw.port with
      | none => exact hnumber
      | some x =>
        rw [hp] at hport
        exact isIntegerIn_iff.mp hport
    keyed := fun hwrites => by
      rw [show (configOf P raw key).approvePublicKey = key from rfl, hsome]
      exact hkeyed.resolve_left (by rw [show raw.readOnly = false from hwrites]; decide)
    key := fun k hk => by
      rw [← hkey]
      exact hkeys k hk
    hostKey := fun hnone => by
      refine parseEnvBool_true (hskip.trans ?_)
      rw [hhost.resolve_left (by rw [show raw.sshHostFingerprint = none from hnone]; decide)] }

/-! ## Registered tools -/

variable {mcp : McpServer} {tools : List CommandDef} {cmd : CommandDef}

/-- What `registerAllTools` gets of a configuration. -/
def optionsOf (config : VigorConfig) : RegisterOptions :=
  ⟨config.readOnly, config.exposeTools, config.disabledTools⟩

/-- A tool is shown by name, with all others, or for having the id of a read tool. -/
theorem resolveExposeTools_shows {v : Option JStr}
    (h : ∀ ids, resolveExposeTools commands v = .list ids → cmd.id ∈ ids) :
    (∃ text, v = some text ∧ (toLowerCase (trim text) = js "all" ∨ cmd.id ∈ listOf v)) ∨
      ∃ read ∈ commands, read.kind = .read ∧ read.id = cmd.id := by
  have hread : cmd.id ∈ (readCommands commands).map CommandDef.id →
      ∃ read ∈ commands, read.kind = .read ∧ read.id = cmd.id := by
    intro hmem
    obtain ⟨read, hread, hid⟩ := List.mem_map.mp hmem
    obtain ⟨hmem, hkind⟩ := List.mem_filter.mp hread
    exact ⟨read, hmem, of_decide_eq_true hkind, hid⟩
  unfold resolveExposeTools at h
  cases v with
  | none => exact .inr (hread (h _ rfl))
  | some text =>
    by_cases hblank : trim text = []
    · simp only [hblank, if_true] at h
      exact .inr (hread (h _ rfl))
    · by_cases hall : toLowerCase (trim text) = js "all"
      · exact .inl ⟨text, rfl, .inl hall⟩
      · simp only [hblank, hall, if_false] at h
        split at h
        · exact .inr (hread (h _ rfl))
        · exact .inl ⟨text, rfl, .inr (h _ rfl)⟩

/-- **A write tool is registered only where the operator asked for it.** -/
theorem registered_write (taken : mcp.RefusesTaken) (configured : Configured P commands env config)
    (h : registerAllTools mcp (optionsOf config) commands = .ok tools) (hmem : cmd ∈ tools)
    (write : cmd.kind = .write) : config.readOnly = false ∧
      cmd.id ∉ listOf (env (js "VIGOR_DISABLED_TOOLS")) ∧ ∃ text, env (js "EXPOSE_TOOLS") = some text ∧
        (toLowerCase (trim text) = js "all" ∨ cmd.id ∈ listOf (some text)) := by
  have nodup := registerAllTools_nodup taken h
  obtain rfl := registerAllTools_eq h
  obtain ⟨hshown, hdisabled, hreadOnly⟩ := isToolEnabled_iff.mp (List.mem_filter.mp hmem).2
  refine ⟨?_, ?_, ?_⟩
  · refine Bool.eq_false_iff.mpr fun hro => ?_
    rw [hreadOnly hro] at write
    cases write
  · rw [← configured.disabledTools]
    exact hdisabled
  · have hshown' := hshown
    rw [show (optionsOf config).exposeTools = _ from configured.exposeTools] at hshown'
    rcases resolveExposeTools_shows hshown' with ⟨text, htext, hasked⟩ | ⟨read, hread, hkind, hid⟩
    · exact ⟨text, htext, htext ▸ hasked⟩
    · -- the read tool would be registered under the same id
      have henabled : isToolEnabled (optionsOf config) read = true :=
        isToolEnabled_iff.mpr ⟨hid ▸ hshown, hid ▸ hdisabled, fun _ => hkind⟩
      have heq := List.inj_on_of_nodup_map nodup (List.mem_filter.mpr ⟨hread, henabled⟩) hmem hid
      rw [heq, write] at hkind
      cases hkind

end

/-! ## The server -/

/-- What `buildServer` returns: the tools it registered, by its configuration. -/
structure Started where
  config : VigorConfig
  tools : List CommandDef

def buildServer (mcp : McpServer) (commands : List CommandDef) (config : VigorConfig) :
    Except Thrown Started := do
  return ⟨config, ← registerAllTools mcp (optionsOf config) commands⟩

namespace Started

variable (srv : Started)

/-- `new ConfirmGate(60000, 100, config.pendingFile, config.approvePublicKey)`. -/
def gate (outside : GateEnv) : GateEnv :=
  { outside with
    ttlMs := 60000
    ttlMs_safe := TimeValue.minute_safe
    maxPending := 100
    pendingFile := srv.config.pendingFile
    approvePublicKey := srv.config.approvePublicKey }

def env (outside : Env) : Env := { outside with gate := srv.gate outside.gate }

/-- A step of the started server: a caller calls a registered tool, or the server goes on. -/
inductive Step (outside : Env) (find : JStr → Option CommandDef) : Server → Server → Prop
  | callWrite {s : Server} {cmd : CommandDef} (args : Args) (signal : Option AbortSignal)
      (registered : cmd ∈ srv.tools) (write : cmd.kind = .write) :
      Step outside find s
        { s with writes := s.writes ++ [⟨⟨cmd, args, ⟨srv.config.autoCommit, signal⟩⟩, .waiting⟩] }
  | callRead {s : Server} {cmd : CommandDef} (args : Args) (registered : cmd ∈ srv.tools)
      (read : cmd.kind = .read) :
      Step outside find s { s with reads := s.reads ++ [readTool cmd args] }
  | goOn {s s' : Server} (h : VigorMcp.Step (srv.env outside) find s s')
      (writes : s'.writes.length = s.writes.length) (reads : s'.reads.length = s.reads.length) :
      Step outside find s s'

def Reaches (outside : Env) (find : JStr → Option CommandDef) (s : Server) : Prop :=
  Relation.ReflTransGen (srv.Step outside find) .new s

variable {srv : Started} {outside : Env} {find : JStr → Option CommandDef} {s s' : Server}

/-! ## Its runs are runs -/

/-- A step adds a call at most; the calls that were made stay what they were. -/
theorem step_calls {E : Env} (h : VigorMcp.Step E find s s')
    (same : s'.writes.length = s.writes.length) :
    s'.writes.map WriteTask.call = s.writes.map WriteTask.call := by
  have hset : ∀ {k : Nat} {call : WriteCall} {phase phase' : Phase},
      s.writes[k]? = some ⟨call, phase⟩ →
      (s.writes.set k ⟨call, phase'⟩).map WriteTask.call = s.writes.map WriteTask.call := by
    intro k call phase phase' hk
    obtain ⟨hlt, hget⟩ := List.getElem?_eq_some_iff.mp hk
    refine List.ext_getElem? fun j => ?_
    rw [List.getElem?_map, List.getElem?_map]
    rcases eq_or_ne k j with rfl | hne
    · rw [List.getElem?_set_self hlt, hk]
      rfl
    · rw [List.getElem?_set_ne hne]
  cases h with
  | submitWrite call => simp at same
  | startWrite waits turn => exact hset waits
  | askWrite runs => exact hset runs
  | endWrite runs => exact hset runs
  | submitRead cmd args => rfl
  | askRead runs => rfl
  | sign payload => rfl

/-- The tool of every write call is registered. -/
def Registered (srv : Started) (s : Server) : Prop :=
  ∀ call ∈ s.writes.map WriteTask.call, call.cmd ∈ srv.tools ∧ call.cmd.kind = .write

theorem Reaches.reaches (hr : srv.Reaches outside find s) :
    VigorMcp.Reaches (srv.env outside) find s ∧ Registered srv s := by
  induction hr with
  | refl => exact ⟨.refl, by rintro _ ⟨⟩⟩
  | tail _ hstep ih =>
    obtain ⟨hreach, hregistered⟩ := ih
    cases hstep with
    | callWrite args signal registered write =>
      refine ⟨hreach.tail (.submitWrite _), fun call hcall => ?_⟩
      rw [List.map_append] at hcall
      rcases List.mem_append.mp hcall with hcall | hcall
      · exact hregistered call hcall
      · obtain rfl := List.mem_singleton.mp hcall
        exact ⟨registered, write⟩
    | callRead args registered read => exact ⟨hreach.tail (.submitRead _ args), hregistered⟩
    | goOn h writes reads =>
      refine ⟨hreach.tail h, fun call hcall => ?_⟩
      rw [step_calls h writes] at hcall
      exact hregistered call hcall

end Started

/-! ## Approvals -/

section

variable {E : Env} {find : JStr → Option CommandDef} {s : Server}

/-- What the log says a call was answered is what the world answered. -/
theorem Reaches.answers (hr : Reaches E find s) {k : Nat} {call : WriteCall} {w : World}
    {e : Event toolCalls} (h : .write k call w e ∈ s.log) : e = answered E e.op w := by
  induction hr with
  | refl => cases h
  | tail _ hstep ih =>
    cases hstep with
    | submitWrite call => exact ih h
    | startWrite waits turn => exact ih h
    | askWrite runs =>
      rcases List.mem_append.mp h with h | h
      · exact ih h
      · cases List.mem_singleton.mp h
        rfl
    | endWrite runs => exact ih h
    | submitRead cmd args => exact ih h
    | askRead runs =>
      rcases List.mem_append.mp h with h | h
      · exact ih h
      · cases List.mem_singleton.mp h
    | sign payload =>
      rcases List.mem_append.mp h with h | h
      · exact ih h
      · cases List.mem_singleton.mp h

/-- Before `i`, the call consumed an intent for what it renders, with a signature under the key. -/
inductive ApprovedUnder (E : Env) (key : KeyObject) (log : List Entry) (i number : Nat)
    (call : WriteCall) : Prop
  | intro {j : Nat} {before : World} {confirmationId command signature : JStr} {intent : WriteIntent}
      (presented_at : log[j]? = some (.write number call before
        ⟨.consumeSigned confirmationId command signature, .ok ()⟩))
      (order : j < i) (renders : call.Renders command)
      (pending : before.gate.intents.get confirmationId = some intent)
      (digest : E.gate.crypto.digestCommand command = intent.commandDigest)
      (verified : verifyApprovalSignature E.gate.crypto key signature intent.confirmationId
        intent.nonce intent.commandDigest (.ofInt intent.expiresAt) = true)
      (configured : E.gate.approvePublicKey = some key) : ApprovedUnder E key log i number call

/-- A write that is handed over was approved under the configured key. -/
theorem Reaches.approvedUnder (hr : Reaches E find s) {i number : Nat} {site : Site}
    {call : WriteCall} {c : ClientCall} (hi : HandsOver s.log i site number call c) :
    ∃ key, ApprovedUnder E key s.log i number call := by
  have h := Reaches.sound hr
  obtain ⟨approved, -⟩ := h.maySend hi
  obtain ⟨_, before, hlog⟩ := hi
  obtain ⟨confirmationId, command, signature, hmem⟩ := approved_consumes approved
  obtain ⟨j, presented, hj, hpresented⟩ := h.earlier hlog hmem
  obtain ⟨_, _, renders, _⟩ := h.at hpresented
  have hanswer := Reaches.answers hr (List.mem_of_getElem? hpresented)
  have hok : (presented.gate.consumeSigned E.gate confirmationId command signature).1 = .ok () := by
    injection hanswer with _ hans
    exact hans.symm
  rcases ConfirmGate.consumeSigned_cases E.gate presented.gate confirmationId command signature with
    ⟨e, g', hno, -⟩ | ⟨g', intent, -, hcons⟩
  · rw [hno] at hok
    cases hok
  · obtain ⟨key, hkey, hverified⟩ := hcons.verified
    exact ⟨key, hpresented, hj, renders, hcons.pending, hcons.digest, hverified, hkey⟩

end

/-! ## Writes need a configuration -/

/-- What the operator set so that the tool may write, approved under the key. -/
structure Permits (P : Platform) (env : ProcessEnv) (id : JStr) (key : KeyObject) : Prop where
  writes : parseEnvBool (js "VIGOR_READ_ONLY") (env (js "VIGOR_READ_ONLY")) false = .ok false
  exposes : ∃ text, env (js "EXPOSE_TOOLS") = some text ∧
    (toLowerCase (trim text) = js "all" ∨ id ∈ listOf (some text))
  enabled : id ∉ listOf (env (js "VIGOR_DISABLED_TOOLS"))
  keyed : ∃ text, env (js "VIGOR_APPROVE_PUBKEY") = some text ∧
    parseApprovePublicKey P.keys text = .ok key

/-- **A write needs the operator and the approver.** Whatever the environment is, a server that
starts with it hands a write to the client only for a tool that the environment exposes by name or
with all others, with `VIGOR_READ_ONLY` off, and after it consumed an intent for what the call
renders with a signature that verifies under the key in `VIGOR_APPROVE_PUBKEY`. -/
theorem write_needs_configuration {mcp : McpServer} (taken : mcp.RefusesTaken) {P : Platform}
    {commands : List CommandDef} {env : ProcessEnv} {config : VigorConfig} {srv : Started}
    (loaded : loadConfig P commands env = .ok config)
    (built : buildServer mcp commands config = .ok srv) {outside : Env}
    {find : JStr → Option CommandDef} {s : Server} (hr : srv.Reaches outside find s)
    {i number : Nat} {site : Site} {call : WriteCall} {c : ClientCall}
    (hi : HandsOver s.log i site number call c) :
    ∃ key, Permits P env call.cmd.id key ∧ ApprovedUnder (srv.env outside) key s.log i number call := by
  have configured := loadConfig_configured loaded
  obtain ⟨tools, hregister, rfl⟩ := Except.map_eq_ok.mp built
  obtain ⟨hreach, hregistered⟩ := hr.reaches
  obtain ⟨key, happroved⟩ := Reaches.approvedUnder hreach hi
  obtain ⟨hmem, write⟩ : call.cmd ∈ tools ∧ call.cmd.kind = .write := by
    obtain ⟨_, before, hlog⟩ := hi
    obtain ⟨phase, hphase⟩ := (Reaches.sound hreach).numbered _ (List.mem_of_getElem? hlog)
    exact hregistered call (List.mem_map.mpr ⟨_, List.mem_of_getElem? hphase, rfl⟩)
  obtain ⟨hwrites, henabled, hexposes⟩ := registered_write taken configured hregister hmem write
  refine ⟨key, ⟨?_, hexposes, henabled, ?_⟩, happroved⟩
  · rw [configured.readOnly, hwrites]
  · obtain ⟨_, _, _, _, _, _, hkey⟩ := happroved
    exact configured.key key hkey

/-! ## A configured server -/

/-- A run of calls that a started server takes is one of its runs. -/
theorem Started.reaches_of {srv : Started} {outside : Env} {find : JStr → Option CommandDef} {s : Server}
    (hr : VigorMcp.Reaches (srv.env outside) find s)
    (calls : ∀ call ∈ s.writes.map WriteTask.call, call.cmd ∈ srv.tools ∧ call.cmd.kind = .write ∧
      call.opts.autoCommit = srv.config.autoCommit) (reads : s.reads = []) :
    srv.Reaches outside find s := by
  induction hr with
  | refl => exact .refl
  | @tail s s' _ hstep ih =>
    have goOn : s'.writes.length = s.writes.length → s'.reads = s.reads →
        srv.Reaches outside find s' := fun hwrites hreads => by
      refine (ih ?_ (hreads ▸ reads)).tail (.goOn hstep hwrites (by rw [hreads]))
      rw [← Started.step_calls hstep hwrites]
      exact calls
    cases hstep with
    | submitWrite call =>
      obtain ⟨cmd, args, autoCommit, signal⟩ := call
      rw [List.map_append, List.forall_mem_append] at calls
      obtain ⟨hregistered, hwrite, rfl⟩ := calls.2 _ (List.mem_singleton.mpr rfl)
      exact (ih calls.1 reads).tail (.callWrite args signal hregistered hwrite)
    | startWrite waits turn => exact goOn (by simp) rfl
    | askWrite runs => exact goOn (by simp) rfl
    | endWrite runs => exact goOn (by simp) rfl
    | submitRead cmd args => simp at reads
    | askRead runs =>
      rw [(List.set_eq_nil_iff _ _).mp reads] at runs
      cases runs
    | sign payload => exact goOn rfl rfl

/-- A platform whose keys are their DER bytes. -/
def userPlatform : Platform where
  packageRoot := js "/srv/vigor"
  keys :=
    { fromPem := fun _ => .error (.error none (js "no PEM"))
      fromDer := fun bytes => .ok ⟨js "ed25519", toBase64 bytes⟩
      toPem := fun _ => []
      toDer := fun key => fromBase64 key.material }
  issuesText := join (js ", ")

/-- A server that throws for the names it has. -/
def userMcp : McpServer where
  refuses taken name := if name ∈ taken then some (.error none (js "already registered")) else none

/-- An environment that exposes one write tool. -/
def writeVariables : ProcessEnv := fun name =>
  [(js "VIGOR_PASSWORD", js "secret"), (js "VIGOR_APPROVE_PUBKEY", approveKey.material),
    (js "EXPOSE_TOOLS", js "user_setdefault"),
    (js "VIGOR_SSH_INSECURE_SKIP_VERIFY", js "true")].lookup name

def userMirror : JStr := js "/srv/vigor/data/pending-confirms.json"

/-- `userEnv`, with a pending file. -/
def mirroredEnv : Env := { userEnv with gate := { userGate with pendingFile := some userMirror } }

theorem writeVariables_load : ∃ config,
    loadConfig userPlatform [userSetdefaultTool] writeVariables = .ok config ∧
    config.approvePublicKey = some approveKey ∧ config.pendingFile = some userMirror ∧
    config.autoCommit = true ∧ optionsOf config = ⟨false, .list [js "user_setdefault"], []⟩ := by
  have hload : (loadConfig userPlatform [userSetdefaultTool] writeVariables).toOption.any
      (fun config => config.approvePublicKey = some approveKey && config.pendingFile = some userMirror &&
        config.autoCommit && !config.readOnly && config.exposeTools = .list [js "user_setdefault"] &&
        config.disabledTools = []) = true := by
    decide +kernel
  cases h : loadConfig userPlatform [userSetdefaultTool] writeVariables with
  | error e =>
    rw [h] at hload
    cases hload
  | ok config =>
    rw [h] at hload
    simp only [Except.toOption, Option.any_some, Bool.and_eq_true, decide_eq_true_eq,
      Bool.not_eq_true'] at hload
    obtain ⟨⟨⟨⟨⟨hkey, hfile⟩, hcommit⟩, hreadOnly⟩, hexposed⟩, hdisabled⟩ := hload
    refine ⟨config, rfl, hkey, hfile, hcommit, ?_⟩
    unfold optionsOf
    rw [hreadOnly, hexposed, hdisabled]

theorem write_needs_configuration_setdefault : ∃ srv s i c,
    Started.Reaches srv userEnv noTools s ∧
    HandsOver s.log i .performWrite 1 setdefaultApproved c ∧
    ∃ key, Permits userPlatform writeVariables setdefaultApproved.cmd.id key ∧
      ApprovedUnder (srv.env userEnv) key s.log i 1 setdefaultApproved := by
  obtain ⟨config, hload, hkey, hfile, hcommit, hoptions⟩ := writeVariables_load
  have hbuild : buildServer userMcp [userSetdefaultTool] config =
      .ok ⟨config, [userSetdefaultTool]⟩ := by
    rw [buildServer, hoptions]
    rfl
  have henv : Started.env ⟨config, [userSetdefaultTool]⟩ userEnv = mirroredEnv := by
    unfold Started.env Started.gate
    rw [hkey, hfile]
    rfl
  have hreach : VigorMcp.Reaches mirroredEnv noTools
      (approvedRun mirroredEnv noTools setdefaultPreview setdefaultApproved
        signedSetdefault.payload) :=
    approvedRun_reaches
  rw [← henv] at hreach
  have hr := Started.reaches_of hreach (by
    rw [henv]
    rintro call hcall
    rcases List.mem_cons.mp hcall with rfl | hcall
    · exact ⟨List.mem_singleton.mpr rfl, rfl, hcommit.symm⟩
    · obtain rfl := List.mem_singleton.mp hcall
      exact ⟨List.mem_singleton.mpr rfl, rfl, hcommit.symm⟩) rfl
  have hands : handsWrite .performWrite ((setdefaultApproved.exec mirroredEnv noTools
      (setdefaultPreview.exec mirroredEnv noTools .new).world).trace.map Event.op) = true := by
    decide +kernel
  obtain ⟨i, c, hi⟩ := approvedRun_hands signedSetdefault.payload hands
  rw [← henv] at hi
  have taken : userMcp.RefusesTaken := fun taken name hmem => by simp [userMcp, hmem]
  exact ⟨_, _, i, c, hr, hi, write_needs_configuration taken hload hbuild hr hi⟩

end VigorMcp
