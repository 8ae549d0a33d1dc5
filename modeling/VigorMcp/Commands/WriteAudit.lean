import VigorMcp.Commands.Registry
import VigorMcp.Commands.WriteLedger
import VigorMcp.Tools.GateRuns

/-!
# The audit trail of a write call

`Audited` says what one write call should leave in the log: one audit row and one
request row under the tool's id, one row more for a commit, and a status that
agrees with what the call did. `audited_iff` says exactly when it holds.
-/

namespace VigorMcp

open Prog

def Handover.failed (h : Handover) : Bool := h.called && !h.accepted

/-- What `success` says next to a status. -/
def WriteStatus.expectedSuccess : WriteStatus → Option Bool
  | .executed => some true
  | .failed => some false
  | _ => none

/-- The intent that was created, if any. -/
def Ledger.Created (q : Ledger) : Prop := ∃ created, .ok created ∈ q.creates

/-- The audit row says what happened. -/
structure Agrees (q : Ledger) (audit : WriteAuditEntry) : Prop where
  preview : audit.status = .preview ↔ q.Created
  executed : audit.status = .executed ↔ q.write.accepted = true ∧ q.commit.failed = false
  failed : audit.status = .failed ↔
    q.write.failed = true ∨ (q.write.accepted = true ∧ q.commit.failed = true)
  denied : audit.status.denies = true ↔ q.write.called = false ∧ ¬q.Created
  success : audit.success = audit.status.expectedSuccess

/-- One audit row, one request row of the tool, and one of the commit if there was one. -/
structure Audited (toolId : JStr) (q : Ledger) : Prop where
  audits : ∃ audit, q.audits = [audit] ∧ audit.toolId = toolId ∧ Agrees q audit
  requests : ∃ request commitRows, q.requests = commitRows ++ [request] ∧ request.toolId = toolId ∧
    commitRows.map LogEntry.toolId = if q.commit.called then [js "sys_commit"] else []

/-- The call leaves a trail: its preparation fails, or it asks for a preview that the gate has room
for, or it gives both approval fields. -/
def WriteCall.LeavesTrail (call : WriteCall) (E : Env) (w : World) : Prop :=
  (∃ error, call.prepared = .error error) ∨
    (call.AsksPreview ∧ (w.gate.ticked.prune E.gate).intents.size < E.gate.maxPending) ∨
    ¬call.Incomplete

theorem WriteCall.AsksPreview.incomplete {call : WriteCall} (h : call.AsksPreview) :
    call.Incomplete := by
  left
  rw [h.1]
  rfl

/-! ## Previews -/

variable {E : Env} {find : JStr → Option CommandDef} {call : WriteCall} {w : World}
  {p : PreparedWrite}

/-- The first two calls of a call that asks for a preview: the clock, and the gate for an intent. -/
theorem exec_preview (E : Env) (find : JStr → Option CommandDef) (w : World)
    (hp : call.prepared = .ok p) (hasks : call.AsksPreview) :
    ∃ (rest : Handling WriteBody) (create : ToolOp),
      create = .create call.cmd.id p.command p.commandLog p.redactedFields ∧
      call.exec E find w =
        ((rest.exec (answer E) (answer E create (answer E .now w).2).2).prepend
          (answered E create (answer E .now w).2)).prepend (answered E .now w) := by
  have hpreview : ∀ started,
      ¬((call.context p started).cid ≠ none ∨ (call.context p started).sig ≠ none) :=
    fun started => by simp [WriteCall.context, hasks.1, hasks.2]
  unfold WriteCall.exec
  rw [WriteCall.run_eq, hp]
  simp only [WriteCall.runPrepared, previewWrite, hpreview, if_false]
  exact ⟨_, _, rfl, rfl⟩

/-- A call that asks for a preview gets its intent if and only if the pruned gate has room. -/
theorem created_iff_room (hp : call.prepared = .ok p) (hasks : call.AsksPreview)
    {r : Except ConfirmError CreateIntentResult}
    (h : (Ledger.of (call.exec E find w).trace).creates = [r]) :
    (∃ created, r = .ok created) ↔
      (w.gate.ticked.prune E.gate).intents.size < E.gate.maxPending := by
  obtain ⟨rest, _, rfl, ht⟩ := exec_preview E find w hp hasks
  have hr : (w.gate.ticked.create E.gate call.cmd.id p.command p.commandLog p.redactedFields).1 = r := by
    rw [of_creates, ht] at h
    exact (List.cons.inj h).1
  rcases ConfirmGate.create_cases E.gate w.gate.ticked call.cmd.id p.command p.commandLog
    p.redactedFields with ⟨hfull, e, he⟩ | ⟨hroom, i, _, hi⟩
  · rw [he] at hr
    constructor
    · rintro ⟨created, rfl⟩
      cases hr
    · omega
  · rw [hi] at hr
    exact ⟨fun _ => hroom, fun _ => ⟨_, hr.symm⟩⟩

/-! ## The exits, one by one -/

theorem not_audited_of_silent {toolId : JStr} {q : Ledger} (h : q.audits = []) :
    ¬Audited toolId q := by
  rintro ⟨⟨audit, ha, _⟩, _⟩
  rw [h] at ha
  cases ha

/-- One audit row and one request row after what needs no row of its own. -/
theorem audited_logged {q : Ledger} {request : LogEntry} {audit : WriteAuditEntry}
    {status : WriteStatus} {success : Option Bool} (rows : call.Rows request audit status success)
    (silent : q.audits = [])
    (commits : q.requests.map LogEntry.toolId = if q.commit.called then [js "sys_commit"] else [])
    (agrees : Agrees (q.logged request audit) audit) :
    Audited call.cmd.id (q.logged request audit) := by
  refine ⟨⟨audit, ?_, rows.audited, agrees⟩, ⟨request, q.requests, rfl, rows.own, commits⟩⟩
  show q.audits ++ [audit] = [audit]
  rw [silent, List.nil_append]

/-- A denied call: nothing was created and the write was never called. -/
theorem audited_denied {q : Ledger} {request : LogEntry} {audit : WriteAuditEntry}
    {status : WriteStatus} (rows : call.Rows request audit status none)
    (denies : status.denies = true) (silent : q.audits = []) (none_requested : q.requests = [])
    (creates : ¬q.Created) (write : q.write = .idle) (commit : q.commit = .idle) :
    Audited call.cmd.id (q.logged request audit) := by
  refine audited_logged rows silent (by rw [none_requested, commit]; rfl) ?_
  have hq : ¬(q.logged request audit).Created := creates
  have hw : (q.logged request audit).write = .idle := write
  have hp : status ≠ .preview ∧ status ≠ .executed ∧ status ≠ .failed := by
    refine ⟨?_, ?_, ?_⟩ <;> (rintro rfl; cases denies)
  have hsuccess : status.expectedSuccess = none := by cases status <;> first | rfl | cases denies
  constructor <;> rw [rows.status]
  · simp [hp, hq]
  · simp [hp, hw, Handover.accepted]
  · simp [hp, hw, Handover.accepted, Handover.failed, Handover.called]
  · simp [denies, hq, hw, Handover.called]
  · rw [rows.success, hsuccess]

/-- Every way to end, but for a refused intent and a missing approval field, leaves its trail. -/
theorem WriteExit.audited {q : Ledger} {result : Except Thrown WriteBody}
    (h : WriteExit call q result) :
    (q.audits = [] ∧ (∃ p, call.prepared = .ok p) ∧ call.Incomplete ∧
        (call.AsksPreview → ∃ e, q.creates = [.error e])) ∨
      (Audited call.cmd.id q ∧ ((∃ error, call.prepared = .error error) ∨
        ((∃ p, call.prepared = .ok p) ∧ call.AsksPreview ∧ ∃ created, q.creates = [.ok created]) ∨
          ¬call.Incomplete)) := by
  have empty_created : ¬Ledger.empty.Created := by simp [Ledger.Created, Ledger.empty]
  cases h with
  | unprepared failed rows =>
    exact .inr ⟨audited_denied rows rfl rfl rfl empty_created rfl rfl, .inl ⟨_, failed⟩⟩
  | full prepared asks => exact .inl ⟨rfl, prepared, asks.incomplete, fun _ => ⟨_, rfl⟩⟩
  | @preview created _ _ _ prepared asks body_preview rows =>
    refine .inr ⟨audited_logged rows rfl rfl ?_, .inr (.inl ⟨prepared, asks, created, rfl⟩)⟩
    constructor <;> rw [rows.status] <;>
      simp [rows.success, Ledger.Created, Ledger.logged, Ledger.empty, Handover.accepted,
        Handover.failed, Handover.called, WriteStatus.denies, WriteStatus.expectedSuccess]
  | incomplete prepared asks incomplete => exact .inl ⟨rfl, prepared, incomplete, fun h => absurd h asks⟩
  | notAcknowledged prepared complete missing rows =>
    exact .inr ⟨audited_denied rows rfl rfl rfl empty_created rfl rfl, .inr (.inr complete)⟩
  | aborted presents signal denies rows =>
    exact .inr ⟨audited_denied rows denies rfl rfl empty_created rfl rfl,
      .inr (.inr presents.complete)⟩
  | refused presents denies rows =>
    exact .inr ⟨audited_denied rows denies rfl rfl empty_created rfl rfl,
      .inr (.inr presents.complete)⟩
  | cancelled presents signal contacted rows =>
    exact .inr ⟨audited_denied rows rfl rfl rfl empty_created rfl rfl,
      .inr (.inr presents.complete)⟩
  | failed presents rejected rows message =>
    refine .inr ⟨audited_logged rows rfl rfl ?_, .inr (.inr presents.complete)⟩
    constructor <;> rw [rows.status] <;>
      simp [rows.success, rejected, Ledger.Created, Ledger.logged, Ledger.admitted, Ledger.empty,
        Handover.accepted, Handover.failed, Handover.called, WriteStatus.denies,
        WriteStatus.expectedSuccess]
  | executed presents accepted commits body_done rows =>
    refine .inr ⟨audited_logged rows rfl rfl ?_, .inr (.inr presents.complete)⟩
    constructor <;> rw [rows.status] <;>
      simp [rows.success, accepted, Ledger.Created, Ledger.logged, Ledger.admitted, Ledger.empty,
        Handover.accepted, Handover.failed, Handover.called, WriteStatus.denies,
        WriteStatus.expectedSuccess]
  | @committed _ commitReply _ commitRow _ _ presents accepted commits commit_row body_done rows =>
    refine .inr ⟨audited_logged rows rfl ?_ ?_, .inr (.inr presents.complete)⟩
    · show [commitRow.toolId] = _
      rw [commit_row]
      rfl
    · constructor <;> rw [rows.status] <;> cases hr : replyAccepted commitReply <;>
        simp [rows.success, hr, accepted, Ledger.Created, Ledger.logged, Ledger.admitted,
          Ledger.empty, Handover.accepted, Handover.failed, Handover.called, WriteStatus.denies,
          WriteStatus.expectedSuccess]

/-- **A write call leaves a faithful audit trail if and only if it is one of those that leave one.**
What is missing: the refusal of a preview by a full gate, and the refusal of a call that gives only
one approval field, or an empty one, are thrown without a row. -/
theorem audited_iff (E : Env) (find : JStr → Option CommandDef) (call : WriteCall) (w : World) :
    Audited call.cmd.id (Ledger.of (call.exec E find w).trace) ↔ call.LeavesTrail E w := by
  rcases (exec_exit E find call w).audited with ⟨silent, ⟨p, hp⟩, hi, hfull⟩ | ⟨h, htrail⟩
  · refine iff_of_false (not_audited_of_silent silent) ?_
    rintro (⟨error, he⟩ | ⟨hasks, hroom⟩ | hc)
    · rw [hp] at he
      cases he
    · obtain ⟨e, he⟩ := hfull hasks
      obtain ⟨created, hcreated⟩ := (created_iff_room hp hasks he).mpr hroom
      cases hcreated
    · exact hc hi
  · refine iff_of_true h ?_
    rcases htrail with failed | ⟨⟨p, hp⟩, hasks, created, hcreated⟩ | hc
    · exact .inl failed
    · exact .inr (.inl ⟨hasks, (created_iff_room hp hasks hcreated).mp ⟨created, rfl⟩⟩)
    · exact .inr (.inr hc)

/-! ## A concrete server -/

/-- The tools of `cli.user`, a router that accepts every write, and a clock that stands still. -/
def userEnv : Env where
  gate := userGate
  readReply _ := .ok []
  writeReply _ := .ok (js "OK")
  commitReply _ := .ok (js "OK")
  timing _ := none
  rowId n := some n

/-- A tool of `cli.user` with its policy. -/
def userTool (id : JStr) (opts : SdkCommandOptions) (tier : ConfirmTier)
    (secretArgs : Option (List JStr)) : CommandDef :=
  { sdkTool cliUser userSchema id opts with
    confirm := some tier
    secretArgs := secretArgs }

def userSetTool : CommandDef :=
  userTool (js "user_set") (userAction (js "set") [(js "param", noControl 255)]) .confirm
    (some [js "param"])

def noTools : JStr → Option CommandDef := fun _ => none

def textArgs (fields : List (JStr × JStr)) (h : (fields.map Prod.fst).Nodup := by decide +kernel) :
    Args :=
  ⟨fields.map fun e => (e.1, .str e.2), by simpa [Function.comp_def] using h⟩

/-- A call with a confirmation id and no signature throws without a row. -/
def confirmationIdOnly : WriteCall where
  cmd := userSetTool
  args := textArgs [(js "param", js "-o"), (js "confirmation_id", firstId)]
  opts := ⟨true, none⟩

theorem confirmationIdOnly_not_audited :
    ¬Audited confirmationIdOnly.cmd.id
      (Ledger.of (confirmationIdOnly.exec userEnv noTools World.new).trace) := by
  refine not_audited_of_silent ?_
  decide +kernel

end VigorMcp
