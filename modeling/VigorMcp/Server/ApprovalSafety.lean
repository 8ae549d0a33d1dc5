import VigorMcp.Commands.InjectionGuards
import VigorMcp.Commands.WriteFrame
import VigorMcp.Server.Runs

/-!
# Approval safety

Over every run of the server, a write that is handed to the client stands on an
intent of its own: a preview of a command with the same bytes created it, and the
call presented, in time, a signature over its payload. A commit follows a write
that the router took, once. What this rests on outside the program is named:
SHA-256 has no collisions, the nonces are fresh, and verification accepts only
what the approver signed (`KeySigned`). The digest is that of the bytes, so
commands that differ in lone surrogates pass for each other
(`approval_of_other_text`).
-/

namespace VigorMcp

/-! ## From the law to the log -/

section

variable {E : Env} {s : Server}

theorem Sound.at (h : Sound E s) {i number : Nat} {call : WriteCall} {before : World}
    {event : Event toolCalls} (hi : s.log[i]? = some (.write number call before event)) :
    call.Allows (ledgerOf number (s.log.take i)) event.op :=
  h.lawful i _ hi

theorem eventOf_eq_some {number : Nat} {e : Entry} {event : Event toolCalls}
    (h : e.eventOf number = some event) : ∃ call before, e = .write number call before event := by
  cases e with
  | write k call before event' =>
    simp only [Entry.eventOf] at h
    split at h
    · next hk =>
      subst hk
      exact ⟨call, before, by rw [Option.some.inj h]⟩
    · cases h
  | _ => cases h

/-- What a call's ledger knows stands in the log before, under the same call. -/
theorem Sound.earlier (h : Sound E s) {i number : Nat} {call : WriteCall} {before : World}
    {event event' : Event toolCalls} (hi : s.log[i]? = some (.write number call before event))
    (hmem : event' ∈ (s.log.take i).filterMap (Entry.eventOf number)) :
    ∃ j before', j < i ∧ s.log[j]? = some (.write number call before' event') := by
  obtain ⟨e, he, hev⟩ := List.mem_filterMap.mp hmem
  obtain ⟨call', before', rfl⟩ := eventOf_eq_some hev
  obtain ⟨j, hj, hlog⟩ := History.exists_of_mem_take he
  obtain ⟨_, h₁⟩ := h.numbered _ (List.mem_of_getElem? hi)
  obtain ⟨_, h₂⟩ := h.numbered _ (List.mem_of_getElem? hlog)
  obtain ⟨rfl, -⟩ := WriteTask.mk.inj (Option.some.inj (h₁.symm.trans h₂))
  exact ⟨j, before', hj, hlog⟩

theorem mem_eventsOf {log : List Entry} {i j number : Nat} {call : WriteCall} {before : World}
    {event : Event toolCalls} (hj : log[j]? = some (.write number call before event)) (hlt : j < i) :
    event ∈ (log.take i).filterMap (Entry.eventOf number) :=
  List.mem_filterMap.mpr ⟨_, History.mem_take_of_lt hj hlt, if_pos rfl⟩

end

/-! ## Handed-over writes -/

/-- The call of that number hands `c`, a write, to the client at `i`. -/
def HandsOver (log : List Entry) (i : Nat) (site : Site) (number : Nat) (call : WriteCall)
    (c : ClientCall) : Prop :=
  c.isWrite = true ∧ ∃ before, log[i]? = some (.write number call before ⟨.send site c, ()⟩)

section

variable {E : Env} {s : Server} {i i' number : Nat} {call call' : WriteCall} {c c' : ClientCall}

theorem Sound.maySend (h : Sound E s) {site : Site} (hi : HandsOver s.log i site number call c) :
    (ledgerOf number (s.log.take i)).Approved ∧
      call.MaySend (ledgerOf number (s.log.take i)) site c := by
  obtain ⟨_, before, hlog⟩ := hi
  exact h.at hlog

/-- Only `performWrite` and `runCommit` hand writes over. -/
theorem Sound.site (h : Sound E s) {site : Site} (hi : HandsOver s.log i site number call c) :
    site = .performWrite ∨ site = .runCommit := by
  have hm := (h.maySend hi).2
  cases site with
  | performWrite => exact .inl rfl
  | runCommit => exact .inr rfl
  | snapshot => exact absurd (hm.symm.trans hi.1) (by decide)
  | readTool => exact hm.elim

/-- A site that hands a write over has not done so before. -/
theorem Sound.idle (h : Sound E s) {site : Site} (hi : HandsOver s.log i site number call c) :
    (ledgerOf number (s.log.take i)).handover site = .idle := by
  have hm := (h.maySend hi).2
  rcases h.site hi with rfl | rfl
  · obtain ⟨_, hidle⟩ := hm hi.1
    exact hidle
  · obtain ⟨_, _, _, hidle⟩ := hm hi.1
    exact hidle

/-- A call hands over one write at most from each of its two sites. -/
theorem Sound.hands_once (h : Sound E s) {site : Site} (hi : HandsOver s.log i site number call c)
    (hi' : HandsOver s.log i' site number call' c') : i = i' := by
  have first : ∀ {i i' call call' c c'}, HandsOver s.log i site number call c →
      HandsOver s.log i' site number call' c' → ¬i < i' := by
    intro i i' call call' c c' hi hi' hlt
    have hidle := h.idle hi'
    rw [ledgerOf, of_handover (h.site hi')] at hidle
    obtain ⟨hw, before, hlog⟩ := hi
    have hcalled := @foldl_next_called site .idle _
      (.inr ⟨_, mem_eventsOf hlog hlt, .inr ⟨c, hw, rfl⟩⟩)
    rw [hidle] at hcalled
    cases hcalled
  have := first hi hi'
  have := first hi' hi
  omega

end

/-! ## The commit -/

/-- The commit at `i` follows a write of the same call that the router took. -/
inductive CommitFollows (log : List Entry) (i number : Nat) (call : WriteCall) (c : ClientCall) :
    Prop
  | intro {j l : Nat} {write : ClientCall} {before : World} {reply : Except VigorCommandError JStr}
      (commit : c = .runWriteCommand syscommit) (autoCommit : call.opts.autoCommit = true)
      (skipCommit : call.cmd.skipCommit.getD false = false)
      (written : HandsOver log j .performWrite number call write)
      (replied : log[l]? = some (.write number call before ⟨.reply .performWrite, reply⟩))
      (accepted : replyAccepted reply = true) (order : j < l ∧ l < i) :
      CommitFollows log i number call c

section

variable {E : Env} {s : Server} {i number : Nat} {call : WriteCall} {c : ClientCall}

/-- The router replies to a write that was handed over. -/
theorem Sound.replied (h : Sound E s) {before : World} {reply : Except VigorCommandError JStr}
    (hi : s.log[i]? = some (.write number call before ⟨.reply .performWrite, reply⟩)) :
    ∃ j write, j < i ∧ HandsOver s.log j .performWrite number call write := by
  have hhanded : (ledgerOf number (s.log.take i)).write = .handed := h.at hi
  rw [ledgerOf, of_write] at hhanded
  obtain ⟨write, hwrite, hsend⟩ := (foldl_next_handed hhanded).resolve_left (by simp)
  obtain ⟨j, before', hj, hsent⟩ := h.earlier hi hsend
  exact ⟨j, write, hj, hwrite, before', hsent⟩

theorem Sound.commit_follows (h : Sound E s) (hi : HandsOver s.log i .runCommit number call c) :
    CommitFollows s.log i number call c := by
  obtain ⟨commit, commits, accepted, _⟩ := (h.maySend hi).2 hi.1
  obtain ⟨_, before, hlog⟩ := hi
  simp only [WriteCall.commits, Bool.and_eq_true, Bool.not_eq_true'] at commits
  cases hw : (ledgerOf number (s.log.take i)).write with
  | idle => rw [hw] at accepted; cases accepted
  | handed => rw [hw] at accepted; cases accepted
  | settled reply =>
    rw [hw] at accepted
    rw [ledgerOf, of_write] at hw
    have hreply := (foldl_next_settled hw).resolve_left (by simp)
    obtain ⟨l, before', hl, hreplied⟩ := h.earlier hlog hreply
    obtain ⟨j, write, hj, written⟩ := h.replied hreplied
    exact ⟨commit, commits.1, commits.2, written, hreplied, accepted, hj, hl⟩

end

/-! ## The approval -/

/-- The write handed over at `i` stands on the intent created at `a`: a preview of a command with the
bytes of the one the call renders created it, and the call presented a signature over its payload in
time. -/
inductive ApprovedThrough (E : Env) (log : List Entry) (i a : Nat) : Prop
  | intro {j number previewer n : Nat} {call preview : WriteCall} {c : ClientCall}
      {previewed presented : World} {command previewedCommand toolId commandPreview signature : JStr}
      {redactedFields : List JStr} {created : CreateIntentResult} {intent : WriteIntent}
      {key : KeyObject}
      (written : HandsOver log i .performWrite number call c) (hands : call.Hands c)
      (renders : call.Renders command)
      (created_at : log[a]? = some (.write previewer preview previewed
        ⟨.create toolId previewedCommand commandPreview redactedFields, .ok created⟩))
      (asks : preview.AsksPreview) (previews : preview.Renders previewedCommand)
      (same_bytes : utf8 previewedCommand = utf8 command)
      (same_text : toWellFormed previewedCommand = toWellFormed command)
      (presented_at : log[j]? = some (.write number call presented
        ⟨.consumeSigned created.confirmationId command signature, .ok ()⟩))
      (pending : presented.gate.intents.get created.confirmationId = some intent)
      (own : ConfirmGate.resultOf intent = created)
      (configured : E.gate.approvePublicKey = some key)
      (verified : verifyApprovalSignature E.gate.crypto key signature created.confirmationId
        created.nonce created.commandDigest (.ofInt created.expiresAt) = true)
      (signed : .signed (buildSignPayload created.confirmationId created.nonce created.commandDigest
        (.ofInt created.expiresAt)) ∈ log.take j)
      (reading : presented.gate.tick ≤ n ∧ n < (answer E (.consumeSigned created.confirmationId
        command signature) presented).2.gate.tick)
      (inTime : E.gate.clock n ≤ created.expiresAt) (order : a < j ∧ j < i) :
      ApprovedThrough E log i a

/-- Verification accepts only what the approver has signed. -/
def KeySigned (E : Env) (log : List Entry) : Prop :=
  ∀ i number call before confirmationId command signature answer key payload,
    log[i]? = some (.write number call before
      ⟨.consumeSigned confirmationId command signature, answer⟩) →
    E.gate.approvePublicKey = some key →
    E.gate.crypto.verify payload key (fromBase64 signature) = .ok true →
    .signed payload ∈ log.take i

theorem verify_of_verified {C : Crypto} {key : KeyObject} {signature confirmationId nonce digest : JStr}
    {expiresAt : JsNumber} (h : verifyApprovalSignature C key signature confirmationId nonce digest
      expiresAt = true) : C.verify (buildSignPayload confirmationId nonce digest expiresAt) key
        (fromBase64 signature) = .ok true := by
  simp only [verifyApprovalSignature] at h
  split at h
  · cases h
  · split at h
    · cases h
    · split at h
      · next ok hok => rw [hok, h]
      · cases h

theorem issued_eq_some {e : Entry} {created : CreateIntentResult} (h : e.issued = some created) :
    ∃ number call before toolId command commandPreview redactedFields,
      e = .write number call before
        ⟨.create toolId command commandPreview redactedFields, .ok created⟩ := by
  unfold Entry.issued at h
  split at h
  · cases h
    exact ⟨_, _, _, _, _, _, _, rfl⟩
  · cases h

section

variable {E : Env} {s : Server}

theorem approved_consumes {q : List (Event toolCalls)} (h : (Ledger.of q).Approved) :
    ∃ confirmationId command signature,
      ⟨.consumeSigned confirmationId command signature, .ok ()⟩ ∈ q := by
  unfold Ledger.Approved at h
  rw [of_approvals] at h
  obtain ⟨⟨o, a⟩, he, ha⟩ := List.mem_filterMap.mp h
  cases o with
  | consumeSigned confirmationId command signature =>
    cases ha
    exact ⟨_, _, _, he⟩
  | _ => cases ha

/-- Every write that `performWrite` hands over has its approval. -/
theorem Sound.approvedThrough (h : Sound E s) (hg : GateSound E s)
    (collisionFree : Function.Injective E.gate.crypto.sha256hex) (keySigned : KeySigned E s.log)
    {i number : Nat} {call : WriteCall} {c : ClientCall}
    (hi : HandsOver s.log i .performWrite number call c) : ∃ a, ApprovedThrough E s.log i a := by
  obtain ⟨approved, may⟩ := h.maySend hi
  obtain ⟨hands, _⟩ := may hi.1
  obtain ⟨_, before, hlog⟩ := id hi
  obtain ⟨confirmationId, command, signature, hmem⟩ := approved_consumes approved
  obtain ⟨j, presented, hj, hpresented⟩ := h.earlier hlog hmem
  obtain ⟨_, _, renders, _⟩ := h.at hpresented
  obtain ⟨intent, hcons, hid, hissued, _⟩ := hg.lawful _ _ hpresented
  obtain ⟨e, he, hcreated⟩ := List.mem_filterMap.mp hissued
  obtain ⟨previewer, preview, previewed, toolId, command', commandPreview, redactedFields, rfl⟩ :=
    issued_eq_some hcreated
  obtain ⟨a, ha, hpreviewed⟩ := History.exists_of_mem_take he
  obtain ⟨asks, _, previews⟩ := h.at hpreviewed
  have hdigest := hg.lawful _ _ hpreviewed
  -- the digest the approval was checked against is the previewed command's
  have hsame : utf8 command' = utf8 command := collisionFree (hdigest.symm.trans hcons.digest.symm)
  subst hid
  obtain ⟨key, hkey, hverified⟩ := hcons.verified
  obtain ⟨n, hn, hn', hclock⟩ := hcons.inTime
  exact ⟨a, ⟨hi, hands, renders, hpreviewed, asks, previews, hsame, utf8_eq_iff.mp hsame,
    hpresented, hcons.pending, rfl, hkey,
    hverified, keySigned _ _ _ _ _ _ _ _ _ _ hpresented hkey (verify_of_verified hverified),
    ⟨hn, hn'⟩, hclock, ha, hj⟩⟩

theorem Entry.GateLaw.spends_once {prior : List Entry} {e : Entry} (h : e.GateLaw E prior)
    {nonce : JStr} (he : nonce ∈ e.spent) : ∀ e' ∈ prior, nonce ∉ e'.spent := by
  unfold Entry.spent Entry.consumed at he
  split at he
  · obtain ⟨intent, hcons, _, _, hspent⟩ := h
    rw [hcons.pending] at he
    cases he
    exact fun e' he' hn => hspent (List.mem_filterMap.mpr ⟨e', he', hn⟩)
  · cases he

/-- No intent approves two writes. -/
theorem Sound.approves_once (h : Sound E s) (hg : GateSound E s) {i i' a : Nat}
    (hi : ApprovedThrough E s.log i a)
    (hi' : ApprovedThrough E s.log i' a) : i = i' := by
  obtain @⟨j, number, previewer, n, call, preview, c, previewed, presented, command,
    previewedCommand, toolId, commandPreview, signature, redactedFields, created, intent, key, written,
    hands, renders, created_at, asks, previews, -, -, presented_at, pending, own, -, -, -, -, -, -⟩ := hi
  obtain @⟨j', number', previewer', n', call', preview', c', previewed', presented', command',
    previewedCommand', toolId', commandPreview', signature', redactedFields', created', intent', key',
    written', hands', renders', created_at', asks', previews', -, -, presented_at', pending', own',
    -, -, -, -, -, -⟩ := hi'
  have hcreated := created_at.symm.trans created_at'
  cases hcreated
  have hnonce : intent.nonce = intent'.nonce :=
    congrArg CreateIntentResult.nonce (own.trans own'.symm)
  -- both approvals spent the one nonce, so they are one entry, of one call
  have once : History.Justified (fun prior e => ∀ nonce ∈ e.spent, ∀ e' ∈ prior, nonce ∉ e'.spent)
      s.log := fun k e he nonce hn => (hg.lawful k e he).spends_once hn
  have hj : j = j' := History.index_unique (b := intent.nonce) once presented_at presented_at'
    (by simp [Entry.spent, Entry.consumed, pending])
    (by simp [Entry.spent, Entry.consumed, pending', hnonce])
  subst hj
  have hsame := presented_at.symm.trans presented_at'
  cases hsame
  exact h.hands_once written written'

end

/-- What holds of every log: each write has an approval of its own, and each commit its write. -/
structure ApprovalSafe (E : Env) (log : List Entry) : Prop where
  approved : ∃ intent : Nat → Nat,
    (∀ i number call c, HandsOver log i .performWrite number call c →
      ApprovedThrough E log i (intent i)) ∧
    ∀ i number call c i' number' call' c', HandsOver log i .performWrite number call c →
      HandsOver log i' .performWrite number' call' c' → intent i = intent i' → i = i'
  committed : ∀ i number call c, HandsOver log i .runCommit number call c →
    CommitFollows log i number call c
  committed_once : ∀ i i' number call call' c c', HandsOver log i .runCommit number call c →
    HandsOver log i' .runCommit number call' c' → i = i'
  /-- No write reaches the client otherwise. -/
  only : ∀ i site number call c, HandsOver log i site number call c →
    site = .performWrite ∨ site = .runCommit
  reads : ∀ (i number : Nat) (before : World) (site : Site) (c : ClientCall),
    log[i]? = some (Entry.read number before ⟨.send site c, ()⟩) → c.isWrite = false

/-- **Approval safety of the whole write path**, over every run from the empty gate. -/
theorem approval_safety (E : Env) (findCommand : JStr → Option CommandDef)
    (collisionFree : Function.Injective E.gate.crypto.sha256hex)
    (fresh : Function.Injective E.gate.nonces) {s : Server} (reaches : Reaches E findCommand s)
    (keySigned : KeySigned E s.log) : ApprovalSafe E s.log := by
  have h := reaches.sound
  have hg := reaches.gateSound fresh
  constructor
  · have hexists : ∀ i, ∃ a, (∃ number call c, HandsOver s.log i .performWrite number call c) →
        ApprovedThrough E s.log i a := by
      intro i
      by_cases hi : ∃ number call c, HandsOver s.log i .performWrite number call c
      · obtain ⟨number, call, c, hi⟩ := hi
        obtain ⟨a, ha⟩ := h.approvedThrough hg collisionFree keySigned hi
        exact ⟨a, fun _ => ha⟩
      · exact ⟨0, fun hw => absurd hw hi⟩
    choose intent hintent using hexists
    refine ⟨intent, fun i number call c hi => hintent i ⟨number, call, c, hi⟩, ?_⟩
    intro i number call c i' number' call' c' hi hi' heq
    have ha := hintent i ⟨number, call, c, hi⟩
    have ha' := hintent i' ⟨number', call', c', hi'⟩
    rw [← heq] at ha'
    exact h.approves_once hg ha ha'
  · exact fun i number call c hi => h.commit_follows hi
  · exact fun i i' number call call' c c' hi hi' => h.hands_once hi hi'
  · exact fun i site number call c hi => h.site hi
  · intro i number before site c hi
    have hlawful : ¬IsWriteWork (.send site c) := h.lawful i _ hi
    simp only [IsWriteWork, not_or] at hlawful
    simpa using hlawful.2

/-! ### A preview, its signature and its approval -/

/-- A preview, the approver's signature over the payload, and the approved call. -/
def approvedRun (E : Env) (find : JStr → Option CommandDef) (preview approved : WriteCall)
    (payload : List UInt8) : Server :=
  Server.serve E find
    { Server.new.serve E find preview with
      log := (Server.new.serve E find preview).log ++ [.signed payload] } approved

section

variable {E : Env} {find : JStr → Option CommandDef} {preview approved : WriteCall}
  {payload : List UInt8}

theorem approvedRun_reaches : Reaches E find (approvedRun E find preview approved payload) := by
  have hpreview : Reaches E find (Server.new.serve E find preview) :=
    Reaches.serve .refl (fun _ h => by cases h) preview
  refine Reaches.serve (hpreview.tail (.sign _)) (fun task h => ?_) approved
  rw [List.mem_singleton.mp h]
  exact ⟨_, rfl⟩

/-- What the approved call does stands in the log. -/
theorem approvedRun_mem {event : Event toolCalls}
    (h : event ∈ (approved.exec E find (preview.exec E find .new).world).trace) :
    ∃ (i : Nat) (before : World), (approvedRun E find preview approved payload).log[i]? =
      some (.write 1 approved before event) := by
  rw [WriteCall.exec, ← entriesOf_events E 1 approved] at h
  obtain ⟨e, he, hev⟩ := List.mem_filterMap.mp h
  obtain ⟨before, event', rfl⟩ := mem_entriesOf he
  have hevent : event' = event := Option.some.inj hev
  obtain ⟨i, hi⟩ := List.mem_iff_getElem?.mp
    (List.mem_append_right (Server.new.serve E find preview).log
      (List.mem_append_right [.signed payload] he))
  rw [hevent, ← List.append_assoc] at hi
  exact ⟨i, before, hi⟩

/-- The one signature that the run presents is over the payload signed in it. -/
theorem approvedRun_keySigned {signature : JStr} (hpreview : preview.cid = none)
    (happroved : approved.sig = some signature)
    (verifies : ∀ payload' key, E.gate.crypto.verify payload' key (fromBase64 signature) = .ok true →
      payload' = payload) :
    KeySigned E (approvedRun E find preview approved payload).log := by
  intro i number call before confirmationId command signature' answer key payload' hi _ hverify
  have hreaches : Reaches E find (approvedRun E find preview approved payload) := approvedRun_reaches
  obtain ⟨hcid, hsig, _⟩ := hreaches.sound.at hi
  have hlog : (approvedRun E find preview approved payload).log =
      (Server.new.serve E find preview).log ++ .signed payload ::
        entriesOf E 1 approved (approved.run find E.gate.ttlMs) (preview.exec E find .new).world :=
    List.append_assoc ..
  rw [hlog] at hi ⊢
  rcases History.getElem?_append_cons hi with hmem | hmem | ⟨hmem, hsigned⟩
  · -- the preview presents no approval
    obtain ⟨_, _, he⟩ := mem_entriesOf hmem
    cases he
    rw [hpreview] at hcid
    cases hcid
  · cases hmem
  · obtain ⟨_, _, he⟩ := mem_entriesOf hmem
    cases he
    rw [happroved] at hsig
    cases hsig
    rw [verifies _ _ hverify]
    exact hsigned

end

/-- The payload of the first intent, when its command is this one. -/
def SignedCommand.payload (s : SignedCommand) : List UInt8 :=
  buildSignPayload firstId firstNonce s.digest (.ofInt (noon + 60000))

/-- Each of the signatures verifies one payload. -/
theorem userCrypto_verifies {signed : SignedCommand} (hmem : signed ∈ signedCommands)
    (payload : List UInt8) (key : KeyObject)
    (h : userCrypto.verify payload key (fromBase64 signed.signature) = .ok true) :
    payload = signed.payload := by
  have hdigest : ∀ s ∈ signedCommands, ∀ t ∈ signedCommands,
      fromBase64 s.signature = fromBase64 t.signature → t.digest = s.digest := by
    decide +kernel
  simp only [userCrypto, Except.ok.injEq, Bool.and_eq_true, List.any_eq_true, decide_eq_true_eq] at h
  obtain ⟨-, other, hother, hpayload, hsame⟩ := h
  rw [hpayload, SignedCommand.payload, hdigest signed hmem other hother hsame]

def setdefaultRun (find : JStr → Option CommandDef) (preview approved : WriteCall) : Server :=
  approvedRun userEnv find preview approved signedSetdefault.payload

theorem userGate_collisionFree : Function.Injective userGate.crypto.sha256hex :=
  (Equiv.injective _).comp ((Equiv.injective _).comp ((Equiv.injective _).comp byteUnits_injective))

/-- Some of the calls hands a write to the client from the site. -/
def handsWrite (site : Site) (ops : List ToolOp) : Bool :=
  ops.any fun o => match o with
    | .send site' c => site' = site && c.isWrite
    | _ => false

theorem approvedRun_hands {E : Env} {find : JStr → Option CommandDef} {preview approved : WriteCall}
    (payload : List UInt8) {site : Site} (h : handsWrite site ((approved.exec E find
      (preview.exec E find .new).world).trace.map Event.op) = true) :
    ∃ i c, HandsOver (approvedRun E find preview approved payload).log i site 1 approved c := by
  obtain ⟨o, ho, htest⟩ := List.any_eq_true.mp h
  obtain ⟨⟨o', a⟩, he, rfl⟩ := List.mem_map.mp ho
  cases o' with
  | send site' c =>
    simp only [Bool.and_eq_true, decide_eq_true_eq] at htest
    obtain ⟨rfl, hc⟩ := htest
    obtain ⟨i, before, hi⟩ := approvedRun_mem he
    exact ⟨i, c, hc, before, hi⟩
  | _ => cases htest

/-- In a run with a write and a commit, both are safe. -/
theorem approval_safety_setdefault :
    (∃ i c, HandsOver (setdefaultRun noTools setdefaultPreview setdefaultApproved).log i .performWrite
      1 setdefaultApproved c) ∧
    (∃ i c, HandsOver (setdefaultRun noTools setdefaultPreview setdefaultApproved).log i .runCommit 1
      setdefaultApproved c) ∧
    ApprovalSafe userEnv (setdefaultRun noTools setdefaultPreview setdefaultApproved).log := by
  have hands : ∀ site ∈ [Site.performWrite, .runCommit], handsWrite site
      ((setdefaultApproved.exec userEnv noTools
        (setdefaultPreview.exec userEnv noTools .new).world).trace.map Event.op) = true := by
    decide +kernel
  refine ⟨approvedRun_hands _ (hands _ (by simp)), approvedRun_hands _ (hands _ (by simp)), ?_⟩
  exact approval_safety userEnv noTools userGate_collisionFree (numbered_injective firstNonce)
    approvedRun_reaches
    (approvedRun_keySigned (by decide +kernel) (by decide +kernel)
      (userCrypto_verifies (by simp [signedCommands])))

/-! ### A write approved as another text -/

/-- The command that a preview in the log was for. -/
def Entry.previewed : Entry → Option JStr
  | .write _ _ _ event => match event.op with
    | .create _ command _ _ => some command
    | _ => none
  | _ => none

def tr069Tool : CommandDef := { swmTr069 with confirm := some .confirm }

def tr069Preview : WriteCall where
  cmd := tr069Tool
  args := ⟨[(js "args", .arr [.str [0xD800]])], by decide⟩
  opts := ⟨true, none⟩

/-- The approved call has another lone surrogate. -/
def tr069Approved : WriteCall where
  cmd := tr069Tool
  args := ⟨[(js "args", .arr [.str [0xD801]]), (js "confirmation_id", .str firstId),
    (js "signature", .str signedTr069.signature)], by decide⟩
  opts := ⟨true, none⟩

/-- `swm tr069` with U+D801 is written, where the one preview was with U+D800. -/
theorem approval_of_other_text : ∃ E find s, Function.Injective E.gate.crypto.sha256hex ∧
    Function.Injective E.gate.nonces ∧ Reaches E find s ∧ KeySigned E s.log ∧
    ∃ i call c command, HandsOver s.log i .performWrite 1 call c ∧ call.Renders command ∧
      ∀ e ∈ s.log, e.previewed ≠ some command := by
  have hpreviewed : (approvedRun userEnv noTools tr069Preview tr069Approved
      signedTr069.payload).log.filterMap Entry.previewed = [signedTr069.command] := by
    decide +kernel
  have hrender : tr069Approved.prepared.map PreparedWrite.command =
      .ok (js "swm tr069 " ++ [0xD801]) := by
    decide +kernel
  obtain ⟨i, c, hi⟩ : ∃ i c, HandsOver (approvedRun userEnv noTools tr069Preview tr069Approved
      signedTr069.payload).log i .performWrite 1 tr069Approved c :=
    approvedRun_hands _ (by decide +kernel)
  refine ⟨userEnv, noTools, _, userGate_collisionFree, numbered_injective firstNonce,
    approvedRun_reaches, approvedRun_keySigned (by decide +kernel) (by decide +kernel)
      (userCrypto_verifies (by simp [signedCommands])), i, _, c, _, hi, Except.map_eq_ok.mp hrender, ?_⟩
  intro e he hcommand
  have hmem := List.mem_filterMap.mpr ⟨e, he, hcommand⟩
  rw [hpreviewed, List.mem_singleton] at hmem
  exact absurd hmem (by decide)

end VigorMcp
