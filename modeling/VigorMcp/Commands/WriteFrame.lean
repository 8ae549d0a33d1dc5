import VigorMcp.Commands.Footprint
import VigorMcp.Commands.WriteAudit

/-!
# Write calls that stop before the router

A write call that returns a preview, or is denied before its approval is
consumed, is `Stopped`. It asks the router nothing and leaves the gate as it
was, but for time passing and the one intent of a preview; so an approval that
it presented in vain can still be consumed.
-/

namespace VigorMcp

open Prog

/-- Neither a created intent nor a consumed one. -/
def Quiet (e : Event toolCalls) : Prop :=
  (∀ created, createAnswer e ≠ some (.ok created)) ∧ approvalAnswer e ≠ some (.ok ())

/-- Calls that neither create nor consume let only time pass at the gate. -/
theorem answer_later {E : Env} (o : ToolOp) (w : World) (h : Quiet (answered E o w)) :
    ConfirmGate.Later E.gate w.gate (answer E o w).2.gate := by
  cases o with
  | now => exact ConfirmGate.ticked_later _
  | create toolId command commandPreview redactedFields =>
    rcases ConfirmGate.create_cases E.gate w.gate toolId command commandPreview redactedFields with
      ⟨_, e, he⟩ | ⟨_, i, _, hi⟩
    · show ConfirmGate.Later _ _ (w.gate.create E.gate _ _ _ _).2
      rw [he]
      exact ConfirmGate.prune_later _
    · refine absurd ?_ (h.1 (ConfirmGate.resultOf i))
      show some (w.gate.create E.gate _ _ _ _).1 = _
      rw [hi]
  | consumeSigned confirmationId command signature =>
    rcases ConfirmGate.consumeSigned_cases E.gate w.gate confirmationId command signature with
      ⟨e, g', he, hl⟩ | ⟨g', intent, hi, _⟩
    · show ConfirmGate.Later _ _ (w.gate.consumeSigned E.gate _ _ _).2
      rw [he]
      exact hl
    · refine absurd ?_ h.2
      show some (w.gate.consumeSigned E.gate _ _ _).1 = _
      rw [hi]
  | reply site => cases site <;> exact .refl _
  | _ => exact .refl _

theorem exec_later {E : Env} {α : Type} {p : Handling α} {w : World}
    (h : ∀ e ∈ (p.exec (answer E) w).trace, Quiet e) :
    ConfirmGate.Later E.gate w.gate (p.exec (answer E) w).world.gate :=
  (exec_steps p w).keeps (R := fun w w' => ConfirmGate.Later E.gate w.gate w'.gate)
    (fun w => .refl w.gate) (fun _ _ _ => ConfirmGate.Later.trans) answer_later h

/-- What a stopped call does to the gate: time passes, before and after the intent it adds, if any. -/
inductive Frame (E : GateEnv) (g : ConfirmGate) : Option WriteIntent → ConfirmGate → Prop where
  | same {g' : ConfirmGate} (later : ConfirmGate.Later E g g') : Frame E g none g'
  | added {g₁ g' : ConfirmGate} {i : WriteIntent} (before : ConfirmGate.Later E g g₁)
      (fresh : i.confirmationId ∉ g₁.takenIds) (after : ConfirmGate.Later E (g₁.withIntent E i) g') :
      Frame E g (some i) g'

namespace Frame

variable {E : GateEnv} {g g' : ConfirmGate} {added : Option WriteIntent}

theorem tick (h : Frame E g added g') : g.tick ≤ g'.tick := by
  cases h with
  | same later => exact later.tick
  | added before _ after =>
    have := before.tick
    have : _ + 1 ≤ _ := after.tick
    omega

/-- An intent that has not expired by any reading of the clock is still pending. -/
theorem keeps (h : Frame E g added g') {id : JStr} {i : WriteIntent}
    (pending : g.intents.get id = some i)
    (live : ∀ n, g.tick ≤ n → n < g'.tick → E.clock n ≤ i.expiresAt) :
    g'.intents.get id = some i := by
  have hmem := OrderedMap.get_eq_some.mp pending
  -- nothing of this id is gone at a gate only time away
  have stays : ∀ {a b : ConfirmGate}, ConfirmGate.Later E a b → g.tick ≤ a.tick → b.tick ≤ g'.tick →
      (id, i) ∈ a.intents.entries → (id, i) ∈ b.intents.entries := by
    intro a b hl ha hb hab
    by_contra hn
    obtain ⟨n, h1, h2, h3⟩ := hl.expired _ hab hn
    have := live n (by omega) (by omega)
    simp only at h3
    omega
  rw [OrderedMap.get_eq_some]
  cases h with
  | same later => exact stays later (Nat.le_refl _) (Nat.le_refl _) hmem
  | @added g₁ _ j before fresh after =>
    have hb := before.tick
    have ha : g₁.tick + 1 ≤ g'.tick := after.tick
    have h₁ := stays before (Nat.le_refl _) (by omega) hmem
    have hne : id ≠ j.confirmationId := fun he =>
      fresh (List.mem_append_left _ (he ▸ List.mem_map_of_mem (f := Prod.fst) h₁))
    refine stays after (show g.tick ≤ g₁.tick + 1 by omega) (Nat.le_refl _) ?_
    exact OrderedMap.mem_set.mpr (.inl ⟨h₁, hne⟩)

end Frame

/-! ## Calls that present an approval -/

/-- `verifyApproval` from the reading of the signal on. -/
def consumeApproval (ctx : WriteContext) (aborted : Bool) : Handling Unit :=
  tryCatch
    (do
      if aborted then throw errCancelled
      throwConfirm (← ask (.consumeSigned (ctx.cid.getD []) ctx.command (ctx.sig.getD []))))
    fun error => do
      let code := if ← signalAborted ctx.signal then js "cancelled"
        else (errCode error).getD (js "denied")
      logDenied ctx (auditDenyStatus code) code (errMsg error)
      throw error

def runPresented (findCommand : JStr → Option CommandDef) (ctx : WriteContext) (aborted : Bool) :
    Handling WriteBody := do
  consumeApproval ctx aborted
  let performed ← performWrite findCommand ctx
  ask .turn
  recordWrite ctx performed

variable {E : Env} {find : JStr → Option CommandDef} {call : WriteCall} {w : World}
  {p : PreparedWrite}

theorem runPrepared_presented (ttlMs started : Int) (hc : ¬call.Incomplete)
    (hn : ¬call.NotAcknowledged) :
    call.runPrepared find ttlMs started (.ok p) =
      signalAborted call.opts.signal >>= runPresented find (call.context p started) := by
  have hpreview : previewWrite ttlMs (call.context p started) = pure none := by
    refine if_pos ?_
    by_contra h
    push Not at h
    exact hc (WriteCall.AsksPreview.incomplete h)
  have hverify : verifyApproval (call.context p started) =
      signalAborted call.opts.signal >>= consumeApproval (call.context p started) := by
    refine (if_neg hc).trans ((if_neg hn).trans ?_)
    obtain ⟨cmd, args, autoCommit, signal⟩ := call
    cases signal with
    | none => rfl
    | some signal =>
      exact congrArg (Prog.ask _) (funext fun aborted => by cases aborted <;> rfl)
  simp only [WriteCall.runPrepared, hpreview, hverify]
  cases call.opts.signal <;> rfl

/-- The run of a call that presents an approval, from the reading of the signal on. -/
def WriteCall.presented (call : WriteCall) (E : Env) (find : JStr → Option CommandDef)
    (p : PreparedWrite) (w : World) : Outcome toolCalls Thrown WriteBody World :=
  (runPresented find (call.context p (E.gate.clock w.gate.tick))
    (call.opts.signal.any (isAborted · w.turns))).exec (answer E) (answer E .now w).2

theorem exec_presented (E : Env) (find : JStr → Option CommandDef) (w : World)
    (hp : call.prepared = .ok p) (hc : ¬call.Incomplete) (hn : ¬call.NotAcknowledged) :
    ∃ pre, (∀ e ∈ pre, e.op.isLook = true) ∧
      call.exec E find w = ⟨(call.presented E find p w).result,
        pre ++ (call.presented E find p w).trace, (call.presented E find p w).world⟩ := by
  unfold WriteCall.exec WriteCall.presented
  rw [WriteCall.run_eq, hp]
  simp only [runPrepared_presented _ _ hc hn]
  cases call.opts.signal with
  | none => exact ⟨[answered E .now w], by simp [ToolOp.isLook, answered], rfl⟩
  | some signal =>
    exact ⟨[answered E .now w, answered E (.aborted signal) w],
      by simp [ToolOp.isLook, answered], rfl⟩

theorem approvalAnswer_of_isLook {e : Event toolCalls} (h : e.op.isLook = true) :
    approvalAnswer e = none := by
  obtain ⟨o, a⟩ := e
  cases o with
  | consumeSigned _ _ _ => cases h
  | _ => rfl

/-- A call whose signal is aborted consumes nothing. -/
theorem aborted_obeys (started : Int) :
    Obeys call.monitor (fun (q : Ledger) (_ : Except Thrown WriteBody) => q.approvals = [])
      Ledger.empty (runPresented find (call.context p started) true) := by
  have hconsume : Obeys call.monitor
      (fun (q : Ledger) (r : Except Thrown Unit) => q.approvals = [] ∧ ∃ e, r = .error e)
      Ledger.empty (consumeApproval (call.context p started) true) :=
    Obeys.tryCatch (M := call.monitor) (signalAborted_obeys fun b _ =>
      logDenied_obeys fun request audit _ => ⟨rfl, _, rfl⟩)
  refine Obeys.seq hconsume ?_ fun q e h => h.1
  rintro q a ⟨_, e, he⟩
  cases he

/-! ## Stopped calls -/

/-- A call that returns a preview, or is denied before its approval is consumed. -/
inductive WriteCall.Stopped (E : Env) (find : JStr → Option CommandDef) (call : WriteCall)
    (w : World) : Prop where
  | previewed {body : WriteBody} (result : (call.exec E find w).result = .ok body)
      (preview : body.isPreview = true)
  | unprepared {error : Thrown} (failed : call.prepared = .error error)
  | incomplete (missing : call.Incomplete)
  | notAcknowledged (missing : call.NotAcknowledged)
  | aborted {signal : AbortSignal} (given : call.opts.signal = some signal)
      (aborted : isAborted signal w.turns = true)
  | refused {confirmationId command signature : JStr} {e : ConfirmError}
      (refused : ⟨.consumeSigned confirmationId command signature, .error e⟩ ∈
        (call.exec E find w).trace)

/-- A call that an intent would approve: the same command, and a signature over its payload. -/
structure WriteCall.Approved (E : GateEnv) (call : WriteCall) (intent : WriteIntent) (turns : Nat) :
    Prop where
  prepared : ∃ p, call.prepared = .ok p ∧ E.crypto.digestCommand p.command = intent.commandDigest
  id : call.cid = some intent.confirmationId
  complete : ¬call.Incomplete
  acknowledged : ¬call.NotAcknowledged
  live : call.opts.signal.any (isAborted · turns) = false
  verified : ∃ key, E.approvePublicKey = some key ∧
    verifyApprovalSignature E.crypto key (call.sig.getD []) intent.confirmationId intent.nonce
      intent.commandDigest (.ofInt intent.expiresAt) = true

/-- A call that got past its approval presented one, had it accepted, and returns no preview. -/
theorem WriteExit.contacts {q : Ledger} {result : Except Thrown WriteBody}
    (h : WriteExit call q result) :
    (q.contacted = false ∧ .ok () ∉ q.approvals ∧
      ((∃ created p, q.creates = [.ok created] ∧ call.prepared = .ok p ∧ call.AsksPreview) ∨
        ∀ created, .ok created ∉ q.creates) ∧
      (q.Created ↔ ∃ body, result = .ok body ∧ body.isPreview = true)) ∨
    (call.Presents ∧ q.approvals = [.ok ()] ∧ ∀ body, result = .ok body → body.isPreview = false) := by
  cases h with
  | preview prepared asks body_preview rows =>
    obtain ⟨p, hp⟩ := prepared
    left
    refine ⟨rfl, List.not_mem_nil, .inl ⟨_, p, rfl, hp, asks⟩, ⟨fun _ => ⟨_, rfl, body_preview⟩, ?_⟩⟩
    exact fun _ => ⟨_, List.mem_singleton.mpr rfl⟩
  | cancelled presents signal contacted rows => exact .inr ⟨presents, rfl, fun _ h => by cases h⟩
  | failed presents rejected rows message => exact .inr ⟨presents, rfl, fun _ h => by cases h⟩
  | executed presents accepted commits body_done rows =>
    exact .inr ⟨presents, rfl, fun _ h => by cases h; exact body_done⟩
  | committed presents accepted commits commit_row body_done rows =>
    exact .inr ⟨presents, rfl, fun _ h => by cases h; exact body_done⟩
  | _ => left; simp [Ledger.logged, Ledger.empty, Ledger.Created]

theorem WriteCall.Stopped.not_admitted (h : call.Stopped E find w)
    (presents : call.Presents) (approvals : (Ledger.of (call.exec E find w).trace).approvals = [.ok ()])
    (hresult : ∀ body, (call.exec E find w).result = .ok body → body.isPreview = false) : False := by
  rw [of_approvals] at approvals
  cases h with
  | previewed result preview => rw [hresult _ result] at preview; cases preview
  | unprepared failed =>
    obtain ⟨p, hp⟩ := presents.prepared
    rw [hp] at failed
    cases failed
  | incomplete missing => exact presents.complete missing
  | notAcknowledged missing => exact presents.acknowledged missing
  | aborted given aborted =>
    obtain ⟨p, hp⟩ := presents.prepared
    obtain ⟨pre, hpre, ht⟩ := exec_presented E find w hp presents.complete presents.acknowledged
    have hany : call.opts.signal.any (isAborted · w.turns) = true := by rw [given]; exact aborted
    have hnone : (Ledger.of (call.presented E find p w).trace).approvals = [] := by
      unfold WriteCall.presented
      rw [hany]
      exact ((aborted_obeys (E.gate.clock w.gate.tick)).exec (answer E .now w).2).2
    rw [of_approvals] at hnone
    rw [ht, List.filterMap_append, hnone, List.filterMap_eq_nil_iff.mpr fun e he =>
      approvalAnswer_of_isLook (hpre e he)] at approvals
    cases approvals
  | refused refused =>
    have hmem := List.mem_filterMap.mpr ⟨_, refused, show approvalAnswer _ = some _ from rfl⟩
    rw [approvals] at hmem
    simp at hmem

theorem quiet_of_answers {t : List (Event toolCalls)}
    (hc : ∀ created, .ok created ∉ t.filterMap createAnswer)
    (ha : .ok () ∉ t.filterMap approvalAnswer) : ∀ e ∈ t, Quiet e := fun e he =>
  ⟨fun created h => hc created (List.mem_filterMap.mpr ⟨e, he, h⟩),
    fun h => ha (List.mem_filterMap.mpr ⟨e, he, h⟩)⟩

/-- The gate after a preview: the new intent, and nothing else but time. -/
theorem frame_of_created {created : CreateIntentResult} (hp : call.prepared = .ok p)
    (hasks : call.AsksPreview)
    (hc : (call.exec E find w).trace.filterMap createAnswer = [.ok created])
    (ha : .ok () ∉ (call.exec E find w).trace.filterMap approvalAnswer) :
    ∃ i, ConfirmGate.resultOf i = created ∧
      Frame E.gate w.gate (some i) (call.exec E find w).world.gate := by
  obtain ⟨rest, _, rfl, hexec⟩ := exec_preview E find w hp hasks
  rw [hexec] at hc ha ⊢
  obtain ⟨hcreated, hrest⟩ := List.cons.inj hc
  have hlater := exec_later (quiet_of_answers (t := (rest.exec (answer E) _).trace)
    (fun created h => by rw [hrest] at h; cases h) ha)
  rcases ConfirmGate.create_cases E.gate w.gate.ticked call.cmd.id p.command p.commandLog
    p.redactedFields with ⟨_, e, he⟩ | ⟨_, i, hi, hok⟩
  · have : (w.gate.ticked.create E.gate call.cmd.id p.command p.commandLog p.redactedFields).1 =
      .ok created := hcreated
    rw [he] at this
    cases this
  · have hanswer : (w.gate.ticked.create E.gate call.cmd.id p.command p.commandLog
      p.redactedFields).1 = .ok created := hcreated
    have hgate : (answer E (.create call.cmd.id p.command p.commandLog p.redactedFields)
        (answer E .now w).2).2.gate = (((w.gate.ticked.prune E.gate).withIntent E.gate i).persist
          E.gate) := congrArg Prod.snd hok
    rw [hok] at hanswer
    rw [hgate] at hlater
    refine ⟨i, Except.ok.inj hanswer, .added
      ((ConfirmGate.ticked_later _).trans (ConfirmGate.prune_later _)) ?_
      ((ConfirmGate.persist_later _).trans hlater)⟩
    rw [hi]
    exact ConfirmGate.idDraw_not_mem

/-- The gate after a call whose approval, if any, was not accepted: what it adds is the intent it
created. -/
theorem frame_of_exit (happrovals : .ok () ∉ (call.exec E find w).trace.filterMap approvalAnswer)
    (hcreates : (∃ created p, (call.exec E find w).trace.filterMap createAnswer = [.ok created] ∧
      call.prepared = .ok p ∧ call.AsksPreview) ∨
      ∀ created, .ok created ∉ (call.exec E find w).trace.filterMap createAnswer) :
    ∃ added, Frame E.gate w.gate added (call.exec E find w).world.gate ∧
      (added.isSome = true ↔ (Ledger.of (call.exec E find w).trace).Created) ∧
      ∀ i ∈ added, ∃ e ∈ (call.exec E find w).trace,
        createAnswer e = some (.ok (ConfirmGate.resultOf i)) := by
  rw [Ledger.Created, of_creates]
  rcases hcreates with ⟨created, p, hc, hp, hasks⟩ | hnone
  · obtain ⟨i, hi, hf⟩ := frame_of_created hp hasks hc happrovals
    refine ⟨some i, hf, by simp [hc], ?_⟩
    rintro _ ⟨⟩
    rw [hi]
    exact List.mem_filterMap.mp (hc ▸ List.mem_singleton.mpr rfl)
  · refine ⟨none, .same (exec_later (quiet_of_answers hnone happrovals)), ?_, by simp⟩
    simp only [Option.isSome_none, Bool.false_eq_true, false_iff, not_exists]
    exact hnone

/-- A call that a pending intent approves consumes it. -/
theorem consumed_of_approved {intent : WriteIntent} (hw : w.gate.WellFormed)
    (pending : w.gate.intents.get intent.confirmationId = some intent)
    (inTime : E.gate.clock (w.gate.tick + 1) ≤ intent.expiresAt)
    (h : call.Approved E.gate intent w.turns) :
    ∃ command signature, (⟨.consumeSigned intent.confirmationId command signature, .ok ()⟩ :
      Event toolCalls) ∈ (call.exec E find w).trace := by
  obtain ⟨p, hp, digest⟩ := h.prepared
  obtain ⟨key, hkey, verified⟩ := h.verified
  obtain ⟨pre, _, ht⟩ := exec_presented E find w hp h.complete h.acknowledged
  have hok : (w.gate.ticked.consumeSigned E.gate intent.confirmationId p.command
      (call.sig.getD [])).1 = .ok () :=
    ConfirmGate.consumeSigned_ok (hw.later (ConfirmGate.ticked_later (E := E.gate) _)) hkey pending
      inTime digest verified
  refine ⟨p.command, call.sig.getD [], ?_⟩
  rw [ht, ← hok]
  refine List.mem_append_right _ ?_
  unfold WriteCall.presented
  rw [h.live]
  have hid : call.cid.getD [] = intent.confirmationId := by rw [h.id]; rfl
  rw [← hid]
  exact List.mem_cons_self

/-- **A write call that stops before the router changes nothing**: the client is not called, and
the gate keeps its pending and its used confirmations, but for what expires and the one intent of a
preview. So an intent that is pending before such a call can be consumed after it, in time, by a
call that it approves. -/
theorem stopped_changes_nothing (E : Env) (find : JStr → Option CommandDef) (call : WriteCall)
    (w : World) (h : call.Stopped E find w) :
    (∀ e ∈ (call.exec E find w).trace, ∀ site c, e.op ≠ .send site c) ∧
    (∃ added, Frame E.gate w.gate added (call.exec E find w).world.gate ∧
      (added.isSome = true ↔ ∃ body, (call.exec E find w).result = .ok body ∧ body.isPreview = true) ∧
      ∀ i ∈ added, ∃ e ∈ (call.exec E find w).trace,
        createAnswer e = some (.ok (ConfirmGate.resultOf i))) ∧
    ∀ (intent : WriteIntent) (call' : WriteCall), w.Reached E →
      w.gate.intents.get intent.confirmationId = some intent →
      (∀ n, w.gate.tick ≤ n → n ≤ (call.exec E find w).world.gate.tick + 1 →
        E.gate.clock n ≤ intent.expiresAt) →
      call'.Approved E.gate intent (call.exec E find w).world.turns →
      ∃ command signature, (⟨.consumeSigned intent.confirmationId command signature, .ok ()⟩ :
        Event toolCalls) ∈ (call'.exec E find (call.exec E find w).world).trace := by
  rcases (exec_exit E find call w).contacts with
    ⟨hcontact, happrovals, hcreates, hpreview⟩ | ⟨presents, approvals, hresult⟩
  · rw [of_approvals] at happrovals
    rw [of_creates] at hcreates
    obtain ⟨added, hf, hsome, hadded⟩ := frame_of_exit happrovals hcreates
    refine ⟨?_, ⟨added, hf, hsome.trans hpreview, hadded⟩, ?_⟩
    · intro e he site c ho
      have hsent : (Ledger.of (call.exec E find w).trace).contacted = true :=
        foldl_next_contacted (.inr ⟨e, he, site, c, ho⟩)
      rw [hcontact] at hsent
      cases hsent
    · intro intent call' hw pending live happroved
      have htick := hf.tick
      exact consumed_of_approved (exec_reached _ hw).wellFormed
        (hf.keeps pending fun n h1 h2 => live n h1 (by omega)) (live _ (by omega) (by omega))
        happroved
  · exact (h.not_admitted presents approvals hresult).elim

/-! ### An approval presented without its acknowledgement -/

def userSetdefaultTool : CommandDef :=
  userTool (js "user_setdefault") (userAction (js "setdefault") []) .dual none

/-- A call of `user_setdefault`. -/
def setdefaultCall (args : Args) : WriteCall := ⟨userSetdefaultTool, args, ⟨true, none⟩⟩

def setdefaultPreview : WriteCall := setdefaultCall (textArgs [])

def setdefaultUnacknowledged : WriteCall := setdefaultCall
  (textArgs [(js "confirmation_id", firstId), (js "signature", signedSetdefault.signature)])

def setdefaultApproved : WriteCall :=
  setdefaultCall (setdefaultUnacknowledged.args.set (js "acknowledge") (.bool true))

/-- The world after the preview. -/
def setdefaultPending : World := (setdefaultPreview.exec userEnv noTools .new).world

def setdefaultIntent : WriteIntent where
  confirmationId := firstId
  toolId := js "user_setdefault"
  commandDigest := signedSetdefault.digest
  commandPreview := signedSetdefault.command
  redactedFields := []
  nonce := firstNonce
  createdAt := noon
  expiresAt := noon + 60000
  createdAt_safe := noon_safe
  expiresAt_safe := expiry_safe
  used := false

theorem digest_of_map {call : WriteCall} {C : Crypto} {digest : JStr}
    (h : (call.prepared.map fun p => C.digestCommand p.command) = .ok digest) :
    ∃ p, call.prepared = .ok p ∧ C.digestCommand p.command = digest :=
  Except.map_eq_ok.mp h

theorem setdefaultApproved_approved : setdefaultApproved.Approved userGate setdefaultIntent
    (setdefaultUnacknowledged.exec userEnv noTools setdefaultPending).world.turns where
  prepared := digest_of_map (by decide +kernel)
  id := by decide +kernel
  complete := by decide +kernel
  acknowledged := by decide +kernel
  live := by decide +kernel
  verified := ⟨approveKey, rfl, by decide +kernel⟩

theorem setdefaultUnacknowledged_changes_nothing :
    setdefaultUnacknowledged.Stopped userEnv noTools setdefaultPending ∧
    ∃ command signature, (⟨.consumeSigned firstId command signature, .ok ()⟩ : Event toolCalls) ∈
      (setdefaultApproved.exec userEnv noTools
        (setdefaultUnacknowledged.exec userEnv noTools setdefaultPending).world).trace := by
  have stopped : setdefaultUnacknowledged.Stopped userEnv noTools setdefaultPending :=
    .notAcknowledged (by decide +kernel)
  obtain ⟨_, _, consumable⟩ := stopped_changes_nothing userEnv noTools setdefaultUnacknowledged
    setdefaultPending stopped
  refine ⟨stopped, consumable setdefaultIntent setdefaultApproved (exec_reached _ .new)
    (by decide +kernel) (fun n _ _ => ?_) setdefaultApproved_approved⟩
  show noon ≤ noon + 60000
  decide

end VigorMcp
