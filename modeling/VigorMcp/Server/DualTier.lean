import VigorMcp.Commands.Registry
import VigorMcp.Server.ApprovalSafety

/-!
# The dual tier

The tier stands with a tool, the approval with a command. A command that a dual
tool renders is executed with an acknowledgement in every run whose calls for
such commands are made through dual tools, or acknowledge on their own. That
every run is such a run depends on the registry: it must have no tool below the
dual tier that renders a dual command. The generated tool `user` renders what
`user_setdefault` renders, at the tier `confirm`.
-/

namespace VigorMcp

/-- Some registered write tool of the tier `dual` renders the command for arguments it accepts. -/
def DualCommand (tools : List CommandDef) (command : JStr) : Prop :=
  ∃ cmd ∈ writeCommands tools, cmd.confirm = some .dual ∧
    ∃ args, cmd.accepts args = true ∧ cmd.render args = .ok command

/-- What the call presents an approval for is not a dual command, or its tool is dual, or it
acknowledges. -/
def WriteCall.KeepsTier (tools : List CommandDef) (call : WriteCall) : Prop :=
  ¬call.Incomplete → ∀ command, call.Renders command → DualCommand tools command →
    call.cmd.confirm = some .dual ∨ call.acknowledge.isTrue = true

/-- Every dual command in the log was executed by a call that acknowledges. -/
def Acknowledged (tools : List CommandDef) (log : List Entry) : Prop :=
  ∀ i number call c command, HandsOver log i .performWrite number call c → call.Renders command →
    DualCommand tools command → call.acknowledge.isTrue = true

theorem tier_eq_dual {cmd : CommandDef} : cmd.tier = .dual ↔ cmd.confirm = some .dual := by
  unfold CommandDef.tier
  rcases cmd.confirm with _ | (_ | _ | _) <;> simp

/-- An executed write was complete, and acknowledged if its tool is dual. -/
theorem Sound.presented {E : Env} {s : Server} (h : Sound E s) {i number : Nat} {call : WriteCall}
    {c : ClientCall} (hi : HandsOver s.log i .performWrite number call c) :
    ¬call.Incomplete ∧ ¬call.NotAcknowledged := by
  have approved := (h.maySend hi).1
  obtain ⟨_, before, hlog⟩ := hi
  obtain ⟨_, _, _, hmem⟩ := approved_consumes approved
  obtain ⟨_, _, _, hpresented⟩ := h.earlier hlog hmem
  obtain ⟨_, _, _, complete, acknowledged⟩ := h.at hpresented
  exact ⟨complete, acknowledged⟩

/-- Dual commands are acknowledged in a run whose calls keep the tier. -/
theorem Reaches.acknowledged {tools : List CommandDef} {E : Env}
    {findCommand : JStr → Option CommandDef} {s : Server} (reaches : Reaches E findCommand s)
    (keeps : ∀ task ∈ s.writes, task.call.KeepsTier tools) : Acknowledged tools s.log := by
  intro i number call c command hi renders dual
  obtain ⟨complete, acknowledged⟩ := reaches.sound.presented hi
  obtain ⟨_, before, hlog⟩ := hi
  obtain ⟨phase, hcall⟩ := reaches.sound.numbered _ (List.mem_of_getElem? hlog)
  rcases keeps _ (List.mem_of_getElem? hcall) complete command renders dual with htier | hack
  · by_contra hmissing
    exact acknowledged ⟨tier_eq_dual.mpr htier, Bool.eq_false_iff.mpr hmissing⟩
  · exact hack

/-! ## Registries that keep the tier -/

/-- No write tool below the dual tier renders a dual command. -/
def TierClosed (tools : List CommandDef) : Prop :=
  ∀ cmd ∈ writeCommands tools, cmd.confirm ≠ some .dual → ∀ args prepared,
    prepareWrite cmd (ownArgs args) = .ok prepared → ¬DualCommand tools prepared.command

/-- The registered tools execute dual commands with an acknowledgement only, in every run with
fresh nonces, collision-free digests and unforgeable signatures. -/
def DualTierHolds (tools : List CommandDef) (findCommand : JStr → Option CommandDef) : Prop :=
  ∀ E s, Function.Injective E.gate.crypto.sha256hex → Function.Injective E.gate.nonces →
    Reaches E findCommand s → KeySigned E s.log →
    (∀ task ∈ s.writes, task.call.cmd ∈ writeCommands tools) → Acknowledged tools s.log

theorem TierClosed.keepsTier {tools : List CommandDef} (h : TierClosed tools) {call : WriteCall}
    (hcmd : call.cmd ∈ writeCommands tools) : call.KeepsTier tools := by
  rintro _ command ⟨p, hp, rfl⟩ dual
  left
  by_contra htier
  exact h call.cmd hcmd htier call.args p hp dual

/-! ### The arguments of an approval -/

/-- Approval fields that follow a tool's own arguments are dropped again. -/
theorem ownArgs_append {args args' : Args} {fields : List (JStr × JsValue)}
    (h : args'.entries = (ownArgs args).entries ++ fields) (hf : ∀ e ∈ fields, e.1 ∈ approvalFields) :
    ownArgs args' = ownArgs args := by
  have hown : (ownArgs args).entries.filter (fun e => decide (e.1 ∉ approvalFields)) =
      (ownArgs args).entries := by
    rw [ownArgs_entries, List.filter_filter]
    simp
  have hnew : fields.filter (fun e => decide (e.1 ∉ approvalFields)) = [] :=
    List.filter_eq_nil_iff.mpr fun e he => by simp [hf e he]
  apply OrderedMap.ext
  rw [ownArgs_entries args', h, List.filter_append, hown, hnew, List.append_nil]

/-! ### A tool below the dual tier

With any tool of the tier `confirm`, for any arguments that it prepares: a preview, the approver's
signature, and the approved call, which the router then gets. -/

/-- The payload of the first intent, when a digest is the bytes themselves. -/
def plainPayload (command : JStr) : List UInt8 :=
  buildSignPayload firstId firstNonce (byteUnits (utf8 command)) (.ofInt (noon + 60000))

/-- A server whose approver has signed for one command: the base64 text of the byte 1 is the
signature over the payload of its first intent. -/
def signingEnv (command : JStr) : Env :=
  { userEnv with
    gate := { userGate with
      crypto :=
        { sha256hex := byteUnits
          verify := fun payload key signature => .ok (key = approveKey && signature = [1] &&
            payload = plainPayload command) } } }

def plainPreview (cmd : CommandDef) (args : Args) : WriteCall := ⟨cmd, ownArgs args, ⟨false, none⟩⟩

def plainApproved (cmd : CommandDef) (args : Args) : WriteCall where
  cmd := cmd
  args := ((ownArgs args).set (js "confirmation_id") (.str firstId)).set (js "signature")
    (.str (js "AQ=="))
  opts := ⟨false, none⟩

section

variable (cmd : CommandDef) (args : Args)

theorem plainPreview_prepared :
    (plainPreview cmd args).prepared = prepareWrite cmd (ownArgs args) := by
  have hargs : ownArgs (plainPreview cmd args).args = ownArgs args :=
    ownArgs_append (List.append_nil _).symm (by simp)
  unfold WriteCall.prepared
  rw [hargs]
  rfl

theorem plainPreview_asks : (plainPreview cmd args).AsksPreview := by
  constructor
  · show ((ownArgs args).value (js "confirmation_id")).string? = none
    rw [Args.value, ownArgs_get args (by simp [approvalFields])]
    rfl
  · show ((ownArgs args).value (js "signature")).string? = none
    rw [Args.value, ownArgs_get args (by simp [approvalFields])]
    rfl

theorem signature_ne_confirmationId : js "signature" ≠ js "confirmation_id" := by decide +kernel

theorem plainApproved_entries : (plainApproved cmd args).args.entries = (ownArgs args).entries ++
    [(js "confirmation_id", .str firstId), (js "signature", .str (js "AQ=="))] := by
  have hcid : (ownArgs args).has (js "confirmation_id") = false := by
    have hget : (ownArgs args).get (js "confirmation_id") = none :=
      ownArgs_get args (by simp [approvalFields])
    simp [OrderedMap.has, hget]
  have hsig : ((ownArgs args).set (js "confirmation_id") (.str firstId)).has (js "signature") =
      false := by
    have hget : (ownArgs args).get (js "signature") = none :=
      ownArgs_get args (by simp [approvalFields])
    simp [OrderedMap.has, OrderedMap.get_set_of_ne signature_ne_confirmationId, hget]
  unfold plainApproved
  simp only
  rw [OrderedMap.entries_set_of_not_has hsig, OrderedMap.entries_set_of_not_has hcid,
    List.append_assoc]
  rfl

theorem plainApproved_prepared :
    (plainApproved cmd args).prepared = prepareWrite cmd (ownArgs args) := by
  have hargs : ownArgs (plainApproved cmd args).args = ownArgs args :=
    ownArgs_append (plainApproved_entries cmd args) (by simp [approvalFields])
  unfold WriteCall.prepared
  rw [hargs]
  rfl

theorem plainApproved_cid : (plainApproved cmd args).cid = some firstId := by
  unfold WriteCall.cid plainApproved Args.value
  simp only
  rw [OrderedMap.get_set_of_ne signature_ne_confirmationId.symm, OrderedMap.get_set_self]
  rfl

theorem plainApproved_sig : (plainApproved cmd args).sig = some (js "AQ==") := by
  unfold WriteCall.sig plainApproved Args.value
  simp only
  rw [OrderedMap.get_set_self]
  rfl

theorem plainApproved_acknowledge : (plainApproved cmd args).acknowledge = .undefined := by
  unfold WriteCall.acknowledge plainApproved Args.value
  simp only
  rw [OrderedMap.get_set_of_ne (by decide +kernel), OrderedMap.get_set_of_ne (by decide +kernel),
    ownArgs_get args (by simp [approvalFields])]
  rfl

end

section

variable {cmd : CommandDef} {args : Args} {p : PreparedWrite}

/-- The intent of the preview. -/
def signedIntent (cmd : CommandDef) (p : PreparedWrite) : WriteIntent where
  confirmationId := firstId
  toolId := cmd.id
  commandDigest := byteUnits (utf8 p.command)
  commandPreview := p.commandLog
  redactedFields := p.redactedFields
  nonce := firstNonce
  createdAt := noon
  expiresAt := noon + 60000
  createdAt_safe := noon_safe
  expiresAt_safe := expiry_safe
  used := false

theorem plainPreview_pending (find : JStr → Option CommandDef)
    (hp : prepareWrite cmd (ownArgs args) = .ok p) :
    ((plainPreview cmd args).exec (signingEnv p.command) find .new).world.gate.intents.get firstId =
      some (signedIntent cmd p) := by
  have hasks := plainPreview_asks cmd args
  have hpreview : ∀ started, ¬(((plainPreview cmd args).context p started).cid ≠ none ∨
      ((plainPreview cmd args).context p started).sig ≠ none) :=
    fun started => by simp [WriteCall.context, hasks.1, hasks.2]
  unfold WriteCall.exec
  rw [WriteCall.run_eq, plainPreview_prepared, hp]
  simp only [WriteCall.runPrepared, previewWrite, hpreview, if_false]
  rfl

theorem plainApproved_approved {turns : Nat} (hp : prepareWrite cmd (ownArgs args) = .ok p)
    (htier : cmd.confirm ≠ some .dual) : (plainApproved cmd args).Approved (signingEnv p.command).gate
      (signedIntent cmd p) turns where
  prepared := ⟨p, (plainApproved_prepared cmd args).trans hp, rfl⟩
  id := plainApproved_cid cmd args
  complete := by
    unfold WriteCall.Incomplete
    rw [plainApproved_cid, plainApproved_sig]
    decide +kernel
  acknowledged := fun h => htier (tier_eq_dual.mp h.1)
  live := rfl
  verified := by
    refine ⟨approveKey, rfl, ?_⟩
    rw [plainApproved_sig]
    have hbytes : fromBase64 (js "AQ==") = [1] := by decide
    have htype : approveKey.asymmetricKeyType = js "ed25519" := rfl
    simp only [Option.getD_some, verifyApprovalSignature, hbytes, htype, List.length_singleton]
    simp [signingEnv, signedIntent, plainPayload]

/-- The router gets to reply to the approved call. -/
theorem plainApproved_replied (find : JStr → Option CommandDef)
    (hp : prepareWrite cmd (ownArgs args) = .ok p) (htier : cmd.confirm ≠ some .dual) :
    ∃ reply : Except VigorCommandError JStr, (⟨.reply .performWrite, reply⟩ : Event toolCalls) ∈
      ((plainApproved cmd args).exec (signingEnv p.command) find
        ((plainPreview cmd args).exec (signingEnv p.command) find .new).world).trace := by
  have hw : ((plainPreview cmd args).exec (signingEnv p.command) find .new).world.gate.WellFormed :=
    (exec_reached _ .new).wellFormed
  have hpending := plainPreview_pending find hp
  generalize ((plainPreview cmd args).exec (signingEnv p.command) find .new).world = w at hw hpending ⊢
  have hinTime : (signingEnv p.command).gate.clock (w.gate.tick + 1) ≤ (signedIntent cmd p).expiresAt :=
    show noon ≤ noon + 60000 by decide
  obtain ⟨command, signature, hmem⟩ := @consumed_of_approved _ find _ _ _ hw hpending hinTime
    (plainApproved_approved hp htier)
  have happroved : .ok () ∈
      (Ledger.of ((plainApproved cmd args).exec (signingEnv p.command) find w).trace).approvals := by
    rw [of_approvals]
    exact List.mem_filterMap.mpr ⟨_, hmem, rfl⟩
  have hexit := exec_exit (signingEnv p.command) find (plainApproved cmd args) w
  have hsettled : ∃ reply, (Ledger.of ((plainApproved cmd args).exec (signingEnv p.command) find
      w).trace).write = .settled reply := by
    generalize ((plainApproved cmd args).exec (signingEnv p.command) find w).result = result at hexit
    generalize Ledger.of ((plainApproved cmd args).exec (signingEnv p.command) find w).trace = q
      at hexit happroved ⊢
    cases hexit with
    | cancelled presents signal => exact absurd rfl signal
    | failed => exact ⟨_, rfl⟩
    | executed => exact ⟨_, rfl⟩
    | committed => exact ⟨_, rfl⟩
    | _ => simp [Ledger.logged, Ledger.empty] at happroved
  obtain ⟨reply, hreply⟩ := hsettled
  rw [of_write] at hreply
  exact ⟨reply, (foldl_next_settled hreply).resolve_left (by simp)⟩

/-- The preview, its signature and the approved call. -/
def plainRun (find : JStr → Option CommandDef) (cmd : CommandDef) (args : Args) (p : PreparedWrite) :
    Server :=
  approvedRun (signingEnv p.command) find (plainPreview cmd args) (plainApproved cmd args)
    (plainPayload p.command)

theorem plainRun_keySigned (find : JStr → Option CommandDef) :
    KeySigned (signingEnv p.command) (plainRun find cmd args p).log := by
  refine approvedRun_keySigned (plainPreview_asks cmd args).1 (plainApproved_sig cmd args) ?_
  intro payload key hverify
  simp only [signingEnv, Except.ok.injEq, Bool.and_eq_true, decide_eq_true_eq] at hverify
  exact hverify.2

theorem plainRun_registered {tools : List CommandDef} (find : JStr → Option CommandDef)
    (hcmd : cmd ∈ writeCommands tools) :
    ∀ task ∈ (plainRun find cmd args p).writes, task.call.cmd ∈ writeCommands tools := by
  intro task htask
  rcases List.mem_cons.mp htask with rfl | htask
  · exact hcmd
  · rw [List.mem_singleton.mp htask]
    exact hcmd

/-- Where the tier holds, no tool below it renders a dual command. -/
theorem DualTierHolds.not_dual {tools : List CommandDef} {find : JStr → Option CommandDef}
    (h : DualTierHolds tools find) (hcmd : cmd ∈ writeCommands tools)
    (htier : cmd.confirm ≠ some .dual) (hp : prepareWrite cmd (ownArgs args) = .ok p) :
    ¬DualCommand tools p.command := by
  intro dual
  have reaches : Reaches (signingEnv p.command) find (plainRun find cmd args p) := approvedRun_reaches
  obtain ⟨reply, hreply⟩ := plainApproved_replied find hp htier
  obtain ⟨l, before, hl⟩ := approvedRun_mem hreply
  obtain ⟨i, c, _, hi⟩ := reaches.sound.replied hl
  have renders : (plainApproved cmd args).Renders p.command :=
    ⟨p, (plainApproved_prepared cmd args).trans hp, rfl⟩
  have hack := h _ _ byteUnits_injective (numbered_injective firstNonce) reaches
    (plainRun_keySigned find) (plainRun_registered find hcmd) i 1 _ c p.command hi renders dual
  rw [plainApproved_acknowledge] at hack
  cases hack

end

/-- **The dual tier** holds in every run whose calls keep it, and in every run of the registered
tools if and only if none below the dual tier renders a dual command. -/
theorem dual_tier (tools : List CommandDef) (findCommand : JStr → Option CommandDef) :
    (∀ E s, Reaches E findCommand s → (∀ task ∈ s.writes, task.call.KeepsTier tools) →
      Acknowledged tools s.log) ∧
    (DualTierHolds tools findCommand ↔ TierClosed tools) := by
  refine ⟨fun E s reaches keeps => reaches.acknowledged keeps, ?_, ?_⟩
  · intro h cmd hcmd htier args p hp
    exact h.not_dual hcmd htier hp
  · intro h E s _ _ reaches _ registered
    exact reaches.acknowledged fun task htask => h.keepsTier (registered task htask)

/-! ## The generated twin of `user_setdefault` -/

def userTools : List CommandDef := (allCommands userSdk []).toOption.getD []

theorem userTools_eq : allCommands userSdk [] = .ok userTools := by
  have hok : (allCommands userSdk []).isOk = true := by decide +kernel
  unfold userTools
  cases h : allCommands userSdk [] with
  | error e => rw [h] at hok; cases hok
  | ok tools => rfl

theorem findCommand_mem {commands : List CommandDef} {id : JStr} {cmd : CommandDef}
    (h : findCommand commands id = some cmd) : cmd ∈ commands :=
  List.mem_reverse.mp (List.mem_of_find?_eq_some h)

/-- The generated tool of `cli.user`. -/
def userTwin : CommandDef := (findCommand userTools (js "user")).get (by decide +kernel)

/-- The curated tool that pins `setdefault`. -/
def userPinned : CommandDef := (findCommand userTools (js "user_setdefault")).get (by decide +kernel)

theorem userTwin_mem : userTwin ∈ writeCommands userTools :=
  List.mem_filter.mpr ⟨findCommand_mem (Option.some_get _).symm, by decide +kernel⟩

theorem userPinned_dual : DualCommand userTools signedSetdefault.command := by
  refine ⟨userPinned, List.mem_filter.mpr ⟨findCommand_mem (Option.some_get _).symm, ?_⟩, ?_, .empty,
    ?_, ?_⟩ <;> decide +kernel

def pinnedPreview : WriteCall := { setdefaultPreview with cmd := userPinned }

def pinnedApproved : WriteCall := { setdefaultApproved with cmd := userPinned }

/-- A run through the dual tool. -/
theorem dual_tier_pinned :
    (∃ i c, HandsOver (setdefaultRun (findCommand userTools) pinnedPreview pinnedApproved).log i
      .performWrite 1 pinnedApproved c) ∧
    Acknowledged userTools (setdefaultRun (findCommand userTools) pinnedPreview pinnedApproved).log := by
  have hdual : userPinned.confirm = some .dual := by decide +kernel
  refine ⟨approvedRun_hands _ (by decide +kernel), ?_⟩
  refine (dual_tier userTools (findCommand userTools)).1 userEnv _ approvedRun_reaches ?_
  intro task htask _ command _ _
  rcases List.mem_cons.mp htask with rfl | htask
  · exact .inl hdual
  · rw [List.mem_singleton.mp htask]
    exact .inl hdual

def twinPreview : WriteCall := ⟨userTwin, textArgs [(js "action", js "setdefault")], ⟨true, none⟩⟩

def twinApproved : WriteCall where
  cmd := userTwin
  args := textArgs [(js "action", js "setdefault"), (js "confirmation_id", firstId),
    (js "signature", signedSetdefault.signature)]
  opts := ⟨true, none⟩

/-- `user` executes `user setdefault` without an acknowledgement. -/
theorem userTwin_sidesteps : ∃ tools s, allCommands userSdk [] = .ok tools ∧
    Reaches userEnv (findCommand tools) s ∧ (∀ task ∈ s.writes, task.call.cmd ∈ writeCommands tools) ∧
    ¬Acknowledged tools s.log := by
  refine ⟨userTools, setdefaultRun (findCommand userTools) twinPreview twinApproved, userTools_eq,
    approvedRun_reaches, ?_, fun hall => ?_⟩
  · intro task htask
    rcases List.mem_cons.mp htask with rfl | htask
    · exact userTwin_mem
    · rw [List.mem_singleton.mp htask]
      exact userTwin_mem
  · have hands : ∃ i c, HandsOver (setdefaultRun (findCommand userTools) twinPreview twinApproved).log i
        .performWrite 1 twinApproved c := approvedRun_hands _ (by decide +kernel)
    obtain ⟨i, c, hi⟩ := hands
    have hrender : twinApproved.prepared.map PreparedWrite.command = .ok signedSetdefault.command := by
      decide +kernel
    have hack := hall i 1 twinApproved c _ hi (Except.map_eq_ok.mp hrender) userPinned_dual
    have hmissing : twinApproved.acknowledge.isTrue = false := by decide +kernel
    rw [hmissing] at hack
    cases hack

end VigorMcp
