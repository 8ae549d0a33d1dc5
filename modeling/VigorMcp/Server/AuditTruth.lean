import VigorMcp.Commands.WriteCancellation
import VigorMcp.Server.HonestApproval

/-!
# What a write call reports

A write call tells three parties how it went: the audit table, the request table
and whoever called the tool. `Observed` is what the call has learnt of the router
so far, in the order it learnt it: the snapshot it read before it sent its write,
the reply to the write, the snapshot it read after that, the reply to the commit.
Every row and every result is made of what was observed and of nothing else, in
every run (`reports_are_true`), and the snapshots are read on either side of the
write.
-/

namespace VigorMcp

open Prog

/-! ## What a call observes -/

structure Observed where
  /-- The reply to the snapshot, while the write was not sent. -/
  before : Option JStr
  sent : Bool
  reply : Option (Except VigorCommandError JStr)
  /-- The reply to the snapshot, once the write was sent. -/
  after : Option JStr
  committing : Bool
  commit : Option (Except VigorCommandError JStr)

namespace Observed

def start : Observed := ⟨none, false, none, none, false, none⟩

def looked (o : Observed) (output : Option JStr) : Observed :=
  if o.sent then { o with after := output } else { o with before := output }

def next (o : Observed) (e : Event toolCalls) : Observed :=
  match e with
  | ⟨.send .performWrite c, _⟩ => { o with sent := o.sent || c.isWrite }
  | ⟨.send .runCommit c, _⟩ => { o with committing := o.committing || c.isWrite }
  | ⟨.reply .performWrite, r⟩ => { o with reply := some r }
  | ⟨.reply .runCommit, r⟩ => { o with commit := some r }
  | ⟨.reply .snapshot, r⟩ => o.looked r.toOption
  | _ => o

/-- The router took the write. -/
def accepted (o : Observed) : Bool := o.reply.any replyAccepted

def commitStatus (o : Observed) : CommitStatus :=
  match o.commit with
  | none => .skipped
  | some reply => if replyAccepted reply then .ok else .failed

/-- The write was taken, and so was the commit if there was one. -/
def success (o : Observed) : Bool := o.accepted && decide (o.commitStatus ≠ .failed)

end Observed

/-- What a call has observed by the log. -/
def observed (number : Nat) (log : List Entry) : Observed :=
  (log.filterMap (Entry.eventOf number)).foldl Observed.next .start

/-! ## Reports -/

section

variable (find : JStr → Option CommandDef) (call : WriteCall) (o : Observed)

/-- The audit row says what was observed. -/
structure Tells (audit : WriteAuditEntry) : Prop where
  before : audit.beforeSnapshot = if canPersistSnapshots find call.cmd then o.before else none
  after : audit.afterSnapshot = if canPersistSnapshots find call.cmd then o.after else none
  commit : audit.commitStatus = if o.accepted then some o.commitStatus else none
  success : audit.success = o.reply.map fun _ => o.success
  executed : audit.status = .executed ↔ audit.success = some true
  failed : audit.status = .failed ↔ audit.success = some false
  error : ∀ reply, o.reply = some reply → replyAccepted reply = false →
    audit.errorCode = errCode (replyError reply) ∧ audit.errorMsg = some (errMsg (replyError reply))
  done : o.success = true → audit.errorCode = none ∧ audit.errorMsg = none
  uncommitted : o.accepted = true → o.commitStatus = .failed →
    audit.errorCode = some (js "commit_failed") ∧
      audit.errorMsg = some (js "sys commit failed after write")

/-- The output in a request row is the reply that was taken, of a tool without secrets. -/
def RowTells (request : LogEntry) : Prop :=
  ∀ output, request.output = some output →
    call.cmd.secrets.length = 0 ∧ o.reply = some (.ok output) ∧ o.accepted = true

/-- The result of a call that is not a preview says what was observed. -/
def BodyTells : WriteBody → Prop
  | .needsConfirmation .. => o = .start
  | .finished status _ before after output commit =>
    before = o.before ∧ after = o.after ∧ o.reply = some (.ok output) ∧ o.accepted = true ∧
      (status = .done ↔ o.success = true) ∧ commit = o.commitStatus

/-- Snapshots are read before the write is sent, and between its acceptance and the commit. -/
def Brackets : Prop := o.sent = false ∨ o.accepted = true ∧ o.committing = false

end

/-- Follows what a call observes, and lets it report nothing else. -/
def reporting (find : JStr → Option CommandDef) : Watcher where
  monitor call :=
    { State := Observed
      allow := fun o op => match op with
        | .send .snapshot c => c.isWrite = false ∧ Brackets o
        | .request request => RowTells call o request
        | .writeAudit audit => Tells find call o audit
        | _ => True
      next := Observed.next }
  start _ := .start
  ends _ o r := ∀ body, r = .ok body → BodyTells o body

/-- What the watcher looks at. -/
def IsReport : ToolOp → Prop
  | .send _ _ => True
  | .reply _ => True
  | .request _ => True
  | .writeAudit _ => True
  | _ => False

section

variable {find : JStr → Option CommandDef} {call : WriteCall} {α β : Type} {o : Observed}
  {p : PreparedWrite} {started : Int}

/-- A part of a call, from what was observed before it to what holds after it. -/
abbrev Reports (find : JStr → Option CommandDef) (call : WriteCall)
    (post : Observed → Except Thrown α → Prop) (o : Observed) (p : Handling α) : Prop :=
  Obeys ((reporting find).monitor call) post o p

theorem quiet_reports {p : Handling α} (hp : Avoids IsReport p) (o : Observed) :
    Reports find call (fun o' _ => o' = o) o p := by
  refine hp.obeys (M := (reporting find).monitor call) (fun q op hop => ?_) o
  cases op with
  | send site c => exact absurd trivial hop
  | reply site => exact absurd trivial hop
  | request entry => exact absurd trivial hop
  | writeAudit entry => exact absurd trivial hop
  | _ => exact ⟨trivial, fun _ => rfl⟩

/-- A part that reports nothing, then the rest. -/
theorem reports_quiet {p : Handling α} {f : α → Handling β} {post : Observed → Except Thrown β → Prop}
    (hp : Avoids IsReport p) (hf : ∀ a, Reports find call post o (f a))
    (herror : ∀ e, post o (.error e)) : Reports find call post o (p >>= f) := by
  refine Obeys.seq (quiet_reports hp o) ?_ ?_
  · rintro o' a rfl
    exact hf a
  · rintro o' e rfl
    exact herror e

/-- One call that reports nothing, then the rest. -/
theorem reports_ask {op : ToolOp} {f : toolCalls.Ans op → Handling α}
    {post : Observed → Except Thrown α → Prop} (hop : op.isLook = true)
    (hf : ∀ a, Reports find call post o (f a)) : Reports find call post o (VigorMcp.ask op >>= f) := by
  cases op <;> first | exact ⟨trivial, hf⟩ | cases hop

theorem Tells.linked {audit : WriteAuditEntry} (h : Tells find call o audit) (id : Option Nat) :
    Tells find call o { audit with requestId := id } :=
  ⟨h.before, h.after, h.commit, h.success, h.executed, h.failed, h.error, h.done, h.uncommitted⟩

theorem logWriteOutcome_reports {request : LogEntry} {audit : WriteAuditEntry} (link : Bool)
    (row : RowTells call o request) (tells : Tells find call o audit) :
    Reports find call (fun o' r => o' = o ∧ r = .ok ()) o (logWriteOutcome request audit link) :=
  ⟨row, fun _ => ⟨tells.linked _, fun _ => ⟨rfl, rfl⟩⟩⟩

theorem timingOf_avoids_report : Avoids IsReport timingOf :=
  .ask id fun timing => by cases timing <;> trivial

theorem signalAborted_avoids_report (signal : Option AbortSignal) :
    Avoids IsReport (signalAborted signal) := by
  cases signal with
  | none => trivial
  | some signal => exact .op id

theorem throwIfCancelled_avoids_report (signal : Option AbortSignal) :
    Avoids IsReport (throwIfCancelled signal) :=
  (signalAborted_avoids_report signal).bind fun aborted => by cases aborted <;> trivial

/-! ## Before the router is asked -/

/-- An audit of a call that has no reply. -/
theorem tells_unanswered {audit : WriteAuditEntry} (reply : o.reply = none)
    (before : audit.beforeSnapshot = if canPersistSnapshots find call.cmd then o.before else none)
    (after : o.after = none) (no_after : audit.afterSnapshot = none) (commit : audit.commitStatus = none)
    (success : audit.success = none) (executed : audit.status ≠ .executed)
    (failed : audit.status ≠ .failed) : Tells find call o audit where
  before := before
  after := by rw [no_after, after, ite_self]
  commit := by simp [commit, Observed.accepted, reply]
  success := by simp [success, reply]
  executed := by simp [executed, success]
  failed := by simp [failed, success]
  error := by simp [reply]
  done := by simp [Observed.success, Observed.accepted, reply]
  uncommitted := by simp [Observed.accepted, reply]

theorem rowTells_of_none {request : LogEntry} (h : request.output = none) : RowTells call o request := by
  intro output houtput
  rw [h] at houtput
  cases houtput

theorem denies_ne {status : WriteStatus} (h : status.denies = true) :
    status ≠ .executed ∧ status ≠ .failed := by
  cases status <;> first | exact ⟨by decide, by decide⟩ | cases h

/-- The rows of a call that was denied before it read anything. -/
theorem tells_denied {audit : WriteAuditEntry} (before : audit.beforeSnapshot = none)
    (after : audit.afterSnapshot = none) (commit : audit.commitStatus = none)
    (success : audit.success = none) (status : audit.status.denies = true ∨ audit.status = .preview) :
    Tells find call .start audit := by
  have hstatus : audit.status ≠ .executed ∧ audit.status ≠ .failed := by
    rcases status with h | h
    · exact denies_ne h
    · rw [h]
      exact ⟨nofun, nofun⟩
  exact tells_unanswered rfl (before.trans (ite_self _).symm) rfl after commit success hstatus.1 hstatus.2

theorem recordPreparationFailure_reports (argsLog : JStr) (error : Thrown) :
    Reports find call (fun _ _ => True) .start
      (recordPreparationFailure call.cmd argsLog started error) :=
  reports_ask rfl fun _ => (logWriteOutcome_reports false (rowTells_of_none rfl)
    (tells_denied rfl rfl rfl rfl (.inl rfl))).mono fun _ _ _ => trivial

theorem logDenied_reports {ctx : WriteContext} {status : WriteStatus} (h : status.denies = true)
    (code message : JStr) : Reports find call (fun o' r => o' = .start ∧ r = .ok ()) .start
      (logDenied ctx status code message) :=
  reports_ask rfl fun _ => logWriteOutcome_reports false (rowTells_of_none rfl)
    (tells_denied rfl rfl rfl rfl (.inl h))

theorem previewWrite_reports (ttlMs : Int) (ctx : WriteContext) :
    Reports find call (fun o' r => o' = .start ∧ ∀ body, r = .ok (some body) → BodyTells .start body)
      .start (previewWrite ttlMs ctx) := by
  unfold previewWrite
  split
  · exact ⟨rfl, nofun⟩
  · refine ⟨trivial, fun r => ?_⟩
    cases r with
    | error e => exact ⟨rfl, nofun⟩
    | ok created =>
      refine reports_ask rfl fun _ => reports_ask rfl fun _ => Obeys.seq (logWriteOutcome_reports false
        (rowTells_of_none rfl) (tells_denied rfl rfl rfl rfl (.inr rfl))) ?_ ?_
      · rintro o' a ⟨rfl, -⟩
        refine ⟨rfl, fun body hbody => ?_⟩
        cases hbody
        rfl
      · rintro o' e ⟨-, ⟨⟩⟩

/-- What `verifyApproval` does with an error. -/
theorem deny_reports (ctx : WriteContext) (error : Thrown) :
    Reports find call (fun o' r => r = .ok () → o' = .start) .start (do
      let code := if ← signalAborted ctx.signal then js "cancelled"
        else (errCode error).getD (js "denied")
      logDenied ctx (auditDenyStatus code) code (errMsg error)
      throw error : Handling Unit) := by
  refine reports_quiet (signalAborted_avoids_report _) (fun aborted => ?_) fun _ h => by cases h
  refine Obeys.seq (logDenied_reports (auditDenyStatus_denies _) _ _) ?_ ?_
  · exact fun _ _ _ h => by cases h
  · exact fun _ _ _ h => by cases h

theorem verifyApproval_reports (ctx : WriteContext) :
    Reports find call (fun o' r => r = .ok () → o' = .start) .start (verifyApproval ctx) := by
  unfold verifyApproval
  split
  · exact fun h => by cases h
  · split
    · refine Obeys.seq (logDenied_reports rfl _ _) ?_ ?_
      · exact fun _ _ _ h => by cases h
      · exact fun _ _ _ h => by cases h
    · refine Obeys.tryCatch (reports_quiet (throwIfCancelled_avoids_report _)
        (fun _ => ⟨trivial, fun r => ?_⟩) fun e => deny_reports ctx e)
      cases r with
      | ok u => exact fun _ => rfl
      | error e => exact deny_reports ctx (.confirm e)

/-! ## Around the write -/

/-- What was observed by a snapshot, once it has returned. -/
def Snapped (o o' : Observed) (r : Except Thrown (Option JStr)) : Prop :=
  ∃ output, r = .ok output ∧ o' = o.looked output

theorem looked_none (o : Observed) (fresh : (if o.sent then o.after else o.before) = none) :
    o.looked none = o := by
  unfold Observed.looked
  obtain ⟨before, sent, reply, after, committing, commit⟩ := o
  cases sent <;> simp only [Bool.false_eq_true, ↓reduceIte] at fresh ⊢ <;> rw [fresh]

theorem snapshot_reports (brackets : Brackets o) (fresh : (if o.sent then o.after else o.before) = none)
    (snapshotRead : Option JStr) :
    Reports find call (Snapped o) o (snapshot find snapshotRead) := by
  rw [snapshot_eq]
  cases hc : snapshotCall find snapshotRead with
  | none => exact ⟨none, rfl, (looked_none o fresh).symm⟩
  | some c =>
    refine Obeys.tryCatch ⟨⟨snapshotCall_isWrite hc, brackets⟩, fun _ => ⟨trivial, fun r => ?_⟩⟩
    cases r with
    | ok raw => exact ⟨some raw, rfl, rfl⟩
    | error e => exact ⟨none, rfl, rfl⟩

/-- How `writeReply` ends: with a reply that was taken, cancelled before the write, or with what is
thrown for a reply that was not taken. -/
inductive Answered (o o' : Observed) : Except Thrown JStr → Prop
  | taken {raw : JStr} (h : o' = { o with sent := true, reply := some (.ok raw) })
      (accepted : isRouterCliFailure raw = false) : Answered o o' (.ok raw)
  | cancelled (h : o' = o) : Answered o o' (.error errCancelled)
  | refused {reply : Except VigorCommandError JStr}
      (h : o' = { o with sent := true, reply := some reply }) (rejected : replyAccepted reply = false) :
      Answered o o' (.error (replyError reply))

theorem throwIfCancelled_reports (signal : Option AbortSignal) (o : Observed) :
    Reports find call (fun o' r => o' = o ∧ (r = .ok () ∨ r = .error errCancelled)) o
      (throwIfCancelled signal) := by
  cases signal with
  | none => exact ⟨rfl, .inl rfl⟩
  | some signal =>
    refine ⟨trivial, fun aborted => ?_⟩
    cases aborted with
    | false => exact ⟨rfl, .inl rfl⟩
    | true => exact ⟨rfl, .inr rfl⟩

theorem await_reports {site : Site} {c : ClientCall} {post : Observed → Except Thrown JStr → Prop}
    (hsend : ((reporting find).monitor call).allow o (.send site c))
    (h : ∀ r, post ((o.next ⟨.send site c, ()⟩).next ⟨.reply site, r⟩) (r.mapError .vigor)) :
    Reports find call post o (await site c) :=
  Obeys.ask hsend fun _ => Obeys.ask trivial fun r => by cases r <;> exact h _

theorem writeReply_reports (ctx : WriteContext) (o : Observed) (unsent : o.sent = false) :
    Reports find call (Answered o) o (writeReply ctx) := by
  have hcall : ctx.call.isWrite = true := by
    unfold WriteContext.call
    split <;> rfl
  refine Obeys.seq (throwIfCancelled_reports _ o) ?_ ?_
  · rintro o' u ⟨rfl, -⟩
    have hnext : ∀ r, ((o'.next ⟨.send .performWrite (.authorizeWrite ctx.command), ()⟩).next
        ⟨.send .performWrite ctx.call, ()⟩).next ⟨.reply .performWrite, r⟩ =
          { o' with sent := true, reply := some r } := fun r => by
      simp [Observed.next, hcall]
    refine Obeys.ask trivial fun _ => Obeys.bind (await_reports trivial fun r => ?_)
    cases r with
    | error e =>
      have hrejected : replyAccepted (.error e) = false := rfl
      exact .refused (hnext _) hrejected
    | ok raw =>
      simp only [Except.mapError]
      split
      · next h =>
        have hrejected : replyAccepted (.ok raw) = false := by simp [replyAccepted, h]
        exact .refused (hnext _) hrejected
      · next h => exact .taken (hnext _) (by simpa using h)
  · rintro o' e ⟨rfl, h | h⟩
    · cases h
    · cases h
      exact .cancelled rfl

theorem logWriteFailure_reports {ctx : WriteContext} {before : Option JStr} {persistSnapshots : Bool}
    {error : Thrown} (tells : ∀ audit : WriteAuditEntry,
      audit.status = (if errCode error = some (js "cancelled") then .denied else .failed) →
      audit.success = (if errCode error = some (js "cancelled") then none else some false) →
      audit.beforeSnapshot = (if persistSnapshots then before else none) → audit.afterSnapshot = none →
      audit.commitStatus = none → audit.errorCode = errCode error →
      audit.errorMsg = some (errMsg error) → Tells find call o audit) :
    Reports find call (fun _ _ => True) o (logWriteFailure ctx before persistSnapshots error) := by
  refine reports_ask rfl fun ended =>
    reports_quiet timingOf_avoids_report (fun timing => ?_) fun _ => trivial
  refine (logWriteOutcome_reports false (rowTells_of_none rfl) (tells _ ?_ ?_ rfl rfl rfl rfl rfl)).mono
    fun _ _ _ => trivial
  · by_cases h : errCode error = some (js "cancelled") <;> simp [auditRow, h]
  · by_cases h : errCode error = some (js "cancelled") <;> simp [auditRow, h]

/-- A call that has read its first snapshot. -/
def readBefore (before : Option JStr) : Observed := { Observed.start with before := before }

/-- A call whose write was taken. -/
def taken (before : Option JStr) (raw : JStr) : Observed :=
  { readBefore before with sent := true, reply := some (.ok raw) }

theorem replyError_not_cancelled {reply : Except VigorCommandError JStr}
    (h : replyAccepted reply = false) : errCode (replyError reply) ≠ some (js "cancelled") := by
  have hcode : ∀ code : VigorErrorCode, code.text ≠ js "cancelled" := fun code => by
    cases code <;> decide +kernel
  cases reply with
  | ok raw => exact fun h => absurd (Option.some.inj h) (by decide +kernel)
  | error e => exact fun h => hcode _ (Option.some.inj h)

theorem handOver_reports (before : Option JStr) :
    Reports find call
      (fun o' r => ∀ raw, r = .ok raw → isRouterCliFailure raw = false ∧ o' = taken before raw)
      (readBefore before)
      (handOver (call.context p started) before (canPersistSnapshots find call.cmd)) := by
  refine Obeys.tryCatch ((writeReply_reports _ _ rfl).mono ?_)
  rintro o' r (⟨h, accepted⟩ | h | ⟨h, rejected⟩)
  · intro raw hraw
    cases hraw
    exact ⟨accepted, h⟩
  · refine Obeys.seq (logWriteFailure_reports ?_) ?_ ?_
    · intro audit status success hbefore after commit code message
      subst h
      rw [if_pos (show errCode errCancelled = some (js "cancelled") from rfl)] at status success
      exact tells_unanswered rfl hbefore rfl after commit success (by rw [status]; decide)
        (by rw [status]; decide)
    · exact fun _ _ _ raw hraw => by cases hraw
    · exact fun _ _ _ raw hraw => by cases hraw
  · refine Obeys.seq (logWriteFailure_reports ?_) ?_ ?_
    · intro audit status success hbefore after commit code message
      subst h
      rw [if_neg (replyError_not_cancelled rejected)] at status success
      constructor
      case before => exact hbefore
      case after => exact after.trans (ite_self _).symm
      case commit => simp [commit, Observed.accepted, rejected]
      case success => simp [success, Observed.success, Observed.accepted, rejected]
      case executed => simp [status, success]
      case failed => simp [status, success]
      case error =>
        intro reply hreply _
        obtain rfl := Option.some.inj hreply
        exact ⟨code, message⟩
      case done => simp [Observed.success, Observed.accepted, rejected]
      case uncommitted => simp [Observed.accepted, rejected]
    · exact fun _ _ _ raw hraw => by cases hraw
    · exact fun _ _ _ raw hraw => by cases hraw

/-- A commit settles, and what it returns is how. -/
def Committed (o o' : Observed) (r : Except Thrown CommitStatus) : Prop :=
  ∃ committing commit, o' = { o with committing := committing, commit := commit } ∧
    r = .ok o'.commitStatus

theorem runCommit_reports (o : Observed) : Reports find call (Committed o) o runCommit := by
  have row : ∀ {o' : Observed} (entry : Int → LogEntry) (status : CommitStatus),
      (∀ ended, (entry ended).output = none) → Committed o o' (.ok status) →
      Reports find call (Committed o) o' (do
        let ended ← now
        let _ ← ask (.request (entry ended))
        return status : Handling CommitStatus) := fun entry status hentry h =>
    reports_ask rfl fun ended => ⟨rowTells_of_none (hentry ended), fun _ => h⟩
  have hnext : ∀ r, ((o.next ⟨.send .runCommit (.authorizeWrite syscommit), ()⟩).next
      ⟨.send .runCommit (.runWriteCommand syscommit), ()⟩).next ⟨.reply .runCommit, r⟩ =
        { o with committing := true, commit := some r } := fun r => by
    simp [Observed.next, ClientCall.isWrite]
  refine reports_ask rfl fun started => Obeys.tryCatch (Obeys.ask trivial fun _ => ?_)
  refine Obeys.bind (await_reports trivial fun r => ?_)
  have hcommitted : Committed o { o with committing := true, commit := some r }
      (.ok (if replyAccepted r then .ok else .failed)) := ⟨true, some r, rfl, rfl⟩
  rw [← hnext r] at hcommitted
  cases r with
  | error e => exact row _ _ (fun _ => rfl) hcommitted
  | ok raw =>
    simp only [Except.mapError]
    split
    · next hfail =>
      simp only [replyAccepted, hfail, Bool.not_true] at hcommitted
      exact row _ _ (fun _ => rfl) hcommitted
    · next hfail =>
      simp only [replyAccepted, hfail] at hcommitted
      exact row _ _ (fun _ => rfl) hcommitted

theorem commitAfter_reports (ctx : WriteContext) (o : Observed) (skips : o.commit = none) :
    Reports find call
      (fun o' r => Committed o o' r ∧ (ctx.autoCommit = false → o'.commitStatus = .skipped)) o
      (commitAfter ctx) := by
  unfold commitAfter
  split
  · next hcommits =>
    have hauto : ctx.autoCommit = true := by
      unfold WriteContext.commits at hcommits
      exact (Bool.and_eq_true_iff.mp hcommits).1
    refine Obeys.seq (runCommit_reports o) (fun o' status h => reports_ask rfl fun _ => ⟨h, ?_⟩) ?_
    · simp [hauto]
    · rintro o' e ⟨_, _, _, ⟨⟩⟩
  · have hskipped : o.commitStatus = .skipped := by simp [Observed.commitStatus, skips]
    exact ⟨⟨o.committing, o.commit, rfl, congrArg _ hskipped.symm⟩, fun _ => hskipped⟩

/-- What a performed write returns is what was observed. -/
structure Performed (find : JStr → Option CommandDef) (call : WriteCall) (o : Observed)
    (result : PerformedWrite) : Prop where
  before : result.before = o.before
  after : result.after = o.after
  persist : result.persistSnapshots = canPersistSnapshots find call.cmd
  reply : o.reply = some (.ok result.raw)
  accepted : o.accepted = true
  commit : result.commitStatus = o.commitStatus
  skipped : call.opts.autoCommit = false → o.commitStatus = .skipped

theorem performWrite_reports :
    Reports find call (fun o' r => ∀ result, r = .ok result → Performed find call o' result) .start
      (performWrite find (call.context p started)) := by
  refine Obeys.seq (snapshot_reports (.inl rfl) rfl _) ?_ ?_
  · rintro o₁ before ⟨_, hbefore, rfl⟩
    obtain rfl := Except.ok.inj hbefore
    refine reports_ask rfl fun _ => Obeys.seq (handOver_reports before) ?_ fun _ _ _ _ h => by cases h
    intro o₂ raw hraw
    obtain ⟨hfail, rfl⟩ := hraw raw rfl
    have haccepted : (taken before raw).accepted = true := by
      simp [Observed.accepted, taken, replyAccepted, hfail]
    refine reports_quiet timingOf_avoids_report (fun timing => ?_) fun _ _ h => by cases h
    refine Obeys.seq (snapshot_reports (.inr ⟨haccepted, rfl⟩) rfl _) ?_ ?_
    · rintro o₃ after ⟨_, hafter, rfl⟩
      obtain rfl := Except.ok.inj hafter
      refine reports_ask rfl fun _ => Obeys.seq (commitAfter_reports _ _ rfl) ?_ ?_
      · rintro o₄ status ⟨⟨committing, commit, rfl, hstatus⟩, hskipped⟩ result hresult
        obtain rfl := Except.ok.inj hresult
        exact ⟨rfl, rfl, rfl, rfl, haccepted, Except.ok.inj hstatus, hskipped⟩
      · exact fun _ _ _ _ h => by cases h
    · exact fun _ _ _ _ h => by cases h
  · exact fun _ _ _ _ h => by cases h

theorem recordWrite_reports {result : PerformedWrite} (h : Performed find call o result) :
    Reports find call (fun o' r => ∀ body, r = .ok body → BodyTells o' body) o
      (recordWrite (call.context p started) result) := by
  have hsuccess : o.success = decide (result.commitStatus ≠ .failed) := by
    rw [Observed.success, h.accepted, ← h.commit, Bool.true_and]
  refine reports_ask rfl fun ended => Obeys.seq (logWriteOutcome_reports true ?_ ?_) ?_ ?_
  · intro output houtput
    have houtput : (if call.cmd.secrets.length = 0 then some result.raw else none) = some output := houtput
    by_cases hsecrets : call.cmd.secrets.length = 0
    · rw [if_pos hsecrets] at houtput
      obtain rfl := Option.some.inj houtput
      exact ⟨hsecrets, h.reply, h.accepted⟩
    · rw [if_neg hsecrets] at houtput
      cases houtput
  · constructor
    case before => rw [← h.persist, ← h.before]
    case after => rw [← h.persist, ← h.after]
    case commit =>
      rw [h.accepted, ← h.commit]
      rfl
    case success =>
      rw [h.reply, hsuccess]
      rfl
    case executed => cases hstatus : result.commitStatus <;> simp [auditRow]
    case failed => cases hstatus : result.commitStatus <;> simp [auditRow]
    case error =>
      intro reply hreply hrejected
      have haccepted := h.accepted
      rw [Observed.accepted, hreply, Option.any_some, hrejected] at haccepted
      cases haccepted
    case done =>
      intro hdone
      have hok : decide (result.commitStatus ≠ .failed) = true := hsuccess.symm.trans hdone
      exact ⟨if_pos hok, if_pos hok⟩
    case uncommitted =>
      intro _ hcommit
      have hfailed : ¬decide (result.commitStatus ≠ .failed) = true := by simp [h.commit, hcommit]
      exact ⟨if_neg hfailed, if_neg hfailed⟩
  · rintro o' u ⟨rfl, -⟩
    split
    · next hdone =>
      intro body hbody
      obtain rfl := Except.ok.inj hbody
      refine ⟨h.before, h.after, h.reply, h.accepted, iff_of_true rfl (hsuccess.trans hdone), ?_⟩
      show (if call.opts.autoCommit then result.commitStatus else .skipped) = o'.commitStatus
      cases hauto : call.opts.autoCommit with
      | true => exact h.commit
      | false => exact (h.skipped hauto).symm
    · next hdone =>
      intro body hbody
      obtain rfl := Except.ok.inj hbody
      have hfailed : o'.success = false := hsuccess.trans (Bool.eq_false_iff.mpr hdone)
      exact ⟨h.before, h.after, h.reply, h.accepted, by simp [hfailed], h.commit⟩
  · rintro o' e ⟨-, h⟩
    cases h

end

/-- **Every write call reports what it observed.** -/
theorem run_reports (find : JStr → Option CommandDef) (ttlMs : Int) (call : WriteCall) :
    Obeys ((reporting find).monitor call) ((reporting find).ends call) ((reporting find).start call)
      (call.run find ttlMs) := by
  rw [WriteCall.run_eq]
  refine reports_ask rfl fun started => ?_
  show Reports find call _ .start (call.runPrepared find ttlMs started call.prepared)
  cases call.prepared with
  | error error =>
    refine Obeys.seq (recordPreparationFailure_reports _ error) ?_ ?_
    · exact fun _ _ _ _ h => by cases h
    · exact fun _ _ _ _ h => by cases h
  | ok p =>
    refine Obeys.seq (previewWrite_reports ttlMs _) ?_ fun _ _ _ _ h => by cases h
    rintro o preview ⟨rfl, hpreview⟩
    cases preview with
    | some body =>
      intro body' hbody
      obtain rfl := Except.ok.inj hbody
      exact hpreview _ rfl
    | none =>
      refine Obeys.seq (verifyApproval_reports _) ?_ fun _ _ _ _ h => by cases h
      intro o u hverified
      obtain rfl := hverified rfl
      refine Obeys.seq performWrite_reports ?_ fun _ _ _ _ h => by cases h
      exact fun o result hresult => reports_ask rfl fun _ => recordWrite_reports (hresult result rfl)

/-! ## In every run -/

section

variable {E : Env} {find : JStr → Option CommandDef} {s : Server}

/-- **What a write call reports is what it observed**, in every run: its audit row and its request row
when it submits them, and its result. The snapshots of a row were read before the write was sent, and
between its acceptance and the commit. -/
theorem reports_are_true (hr : Reaches E find s) :
    (∀ j number call before audit u,
      s.log[j]? = some (.write number call before ⟨.writeAudit audit, u⟩) →
        Tells find call (observed number (s.log.take j)) audit) ∧
    (∀ j number call before request id,
      s.log[j]? = some (.write number call before ⟨.request request, id⟩) →
        RowTells call (observed number (s.log.take j)) request) ∧
    (∀ j number call before c u,
      s.log[j]? = some (.write number call before ⟨.send .snapshot c, u⟩) →
        c.isWrite = false ∧ Brackets (observed number (s.log.take j))) ∧
    ∀ number call body, s.writes[number]? = some ⟨call, .settled (.ok body)⟩ →
      BodyTells (observed number s.log) body := by
  have hallowed := @Watcher.allowed_at (reporting find) E find s hr (run_reports find _)
  refine ⟨fun j number call before audit u hj => hallowed hj, fun j number call before request id hj =>
    hallowed hj, fun j number call before c u hj => hallowed hj, fun number call body hsettled => ?_⟩
  have hsaw := (reporting find).saw hr (run_reports find _) number
  rw [hsettled] at hsaw
  exact hsaw.2 body rfl

end

/-! ### A write between two snapshots -/

/-- A router whose status changes with every read. -/
def countingEnv : Env := { userEnv with readReply := fun n => .ok (decimal n) }

def snapshotRun : Server :=
  approvedRun countingEnv statusOnly setdefaultPreview setdefaultSnapshot signedSetdefault.payload

def isAudit (success : Option Bool) (o : ToolOp) : Bool :=
  match o with
  | .writeAudit audit => audit.success = success
  | _ => false

/-- The audit row of an executed write has the status before it and the status after it. -/
theorem reports_are_true_snapshots : ∃ j before audit,
    snapshotRun.log[j]? = some (.write 1 setdefaultSnapshot before ⟨.writeAudit audit, ()⟩) ∧
      audit.success = some true ∧ Tells statusOnly setdefaultSnapshot
        (observed 1 (snapshotRun.log.take j)) audit ∧
      audit.beforeSnapshot = (observed 1 (snapshotRun.log.take j)).before := by
  have hany : (setdefaultSnapshot.exec countingEnv statusOnly (setdefaultPreview.exec countingEnv
      statusOnly .new).world).trace.any (fun e => isAudit (some true) e.op) = true := by
    decide +kernel
  obtain ⟨⟨o, a⟩, hmem, haudit⟩ := List.any_eq_true.mp hany
  cases o with
  | writeAudit audit =>
    obtain ⟨j, before, hj⟩ := approvedRun_mem hmem
    have htells := (reports_are_true approvedRun_reaches).1 j _ _ before audit a hj
    have hpersists : canPersistSnapshots statusOnly setdefaultSnapshot.cmd = true := by decide +kernel
    refine ⟨j, before, audit, hj, of_decide_eq_true haudit, htells, ?_⟩
    rw [htells.before, hpersists]
    rfl
  | _ => cases haudit

end VigorMcp
