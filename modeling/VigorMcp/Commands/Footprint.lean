import VigorMcp.Commands.WriteExecutor

/-!
# What the parts of the executor call

Each part of the executor avoids every kind `S` of calls that has none of its own
calls: most of them only look around (`ToolOp.isLook`) and submit rows, each of
which is under the tool's id and a command that its lemma names.
-/

namespace VigorMcp

open Prog

/-- The clock, the signal, the timing and turns. -/
def ToolOp.isLook : ToolOp → Bool
  | .now => true
  | .aborted _ => true
  | .turn => true
  | .timing => true
  | _ => false

/-- `S` has no look, and no row whose tool id and command are in `rows`. -/
structure Spares (S : ToolOp → Prop) (rows : JStr → JStr → Prop) : Prop where
  look : ∀ o, o.isLook = true → ¬S o
  request : ∀ entry : LogEntry, rows entry.toolId entry.command → ¬S (.request entry)
  writeAudit : ∀ entry : WriteAuditEntry, rows entry.toolId entry.command →
    ¬S (.writeAudit entry)

variable {S : ToolOp → Prop} {rows : JStr → JStr → Prop}

theorem logWriteOutcome_avoids (hS : Spares S rows) {request : LogEntry} {audit : WriteAuditEntry}
    (hrequest : rows request.toolId request.command) (haudit : rows audit.toolId audit.command)
    (link : Bool) : Avoids S (logWriteOutcome request audit link) :=
  .ask (hS.request _ hrequest) fun _ => .op (hS.writeAudit _ haudit)

theorem timingOf_avoids (hS : Spares S rows) : Avoids S timingOf :=
  .ask (hS.look _ rfl) fun timing => by cases timing <;> trivial

theorem signalAborted_avoids (hS : Spares S rows) (signal : Option AbortSignal) :
    Avoids S (signalAborted signal) := by
  cases signal with
  | none => trivial
  | some signal => exact .op (hS.look _ rfl)

theorem throwIfCancelled_avoids (hS : Spares S rows) (signal : Option AbortSignal) :
    Avoids S (throwIfCancelled signal) :=
  (signalAborted_avoids hS signal).bind fun b => by cases b <;> trivial

theorem await_avoids {site : Site} {c : ClientCall} (hsend : ¬S (.send site c))
    (hreply : ¬S (.reply site)) : Avoids S (await site c) :=
  .ask hsend fun _ => .ask hreply fun r => by cases r <;> trivial

/-- The call a snapshot makes, if it makes one. -/
def snapshotCall (find : JStr → Option CommandDef) (snapshotRead : Option JStr) :
    Option ClientCall :=
  if snapshotRead.getD [] = [] then none
  else match snapshotRead.bind find with
    | none => none
    | some cmd =>
      if cmd.kind ≠ .read then none
      else match cmd.sdk with
        | some sdk =>
          (resolveSdkInput sdk .empty).toOption.map fun input => .runOperation sdk.manifestId input
        | none => (cmd.render .empty).toOption.map fun command => .runCommand command

/-- A snapshot is its call, with `null` for whatever goes wrong. -/
theorem snapshot_eq (find : JStr → Option CommandDef) (snapshotRead : Option JStr) :
    snapshot find snapshotRead = (snapshotCall find snapshotRead).elim (return none) fun c =>
      tryCatch (do
        let raw ← await .snapshot c
        return some raw) fun _ => return none := by
  unfold snapshot snapshotCall
  split
  · rfl
  · cases snapshotRead.bind find with
    | none => rfl
    | some cmd =>
      dsimp only
      split
      · rfl
      · cases cmd.sdk with
        | some sdk =>
          dsimp only
          cases resolveSdkInput sdk .empty <;> rfl
        | none =>
          dsimp only
          cases cmd.render .empty <;> rfl

theorem snapshotCall_isWrite {find : JStr → Option CommandDef} {snapshotRead : Option JStr}
    {c : ClientCall} (h : snapshotCall find snapshotRead = some c) : c.isWrite = false := by
  unfold snapshotCall at h
  split at h
  · cases h
  · split at h
    · cases h
    · split at h
      · cases h
      · split at h
        · obtain ⟨input, -, rfl⟩ := Option.map_eq_some_iff.mp h
          rfl
        · obtain ⟨command, -, rfl⟩ := Option.map_eq_some_iff.mp h
          rfl

theorem snapshot_avoids (hsend : ∀ c, c.isWrite = false → ¬S (.send .snapshot c))
    (hreply : ¬S (.reply .snapshot)) (find : JStr → Option CommandDef)
    (snapshotRead : Option JStr) : Avoids S (snapshot find snapshotRead) := by
  rw [snapshot_eq]
  cases hc : snapshotCall find snapshotRead with
  | none => trivial
  | some c =>
    have hread := hsend c (snapshotCall_isWrite hc)
    exact .tryCatch ((await_avoids hread hreply).bind fun _ => trivial) fun _ => trivial

theorem commitAfter_avoids (hS : Spares S rows) (hrow : rows (js "sys_commit") syscommit)
    (hsend : ∀ c, ¬S (.send .runCommit c)) (hreply : ¬S (.reply .runCommit)) (ctx : WriteContext) :
    Avoids S (commitAfter ctx) := by
  have hend : ∀ (entry : Int → LogEntry) (status : CommitStatus),
      (∀ ended, rows (entry ended).toolId (entry ended).command) → Avoids S (do
      let ended ← now
      let _ ← ask (.request (entry ended))
      return status : Handling CommitStatus) := fun entry status hentry =>
    .ask (hS.look _ rfl) fun _ => .ask (hS.request _ (hentry _)) fun _ => trivial
  have hcommit : Avoids S runCommit := by
    refine .ask (hS.look _ rfl) fun started =>
      .tryCatch (.ask (hsend _) fun _ => ?_) fun e => hend _ _ fun _ => hrow
    refine (await_avoids (hsend _) hreply).bind fun raw => ?_
    split
    · trivial
    · exact hend _ _ fun _ => hrow
  unfold commitAfter
  split
  · exact hcommit.bind fun _ => .ask (hS.look _ rfl) fun _ => trivial
  · trivial

theorem logDenied_avoids (hS : Spares S rows) {ctx : WriteContext}
    (hrow : rows ctx.cmd.id ctx.commandLog) (status : WriteStatus) (code message : JStr) :
    Avoids S (logDenied ctx status code message) :=
  .ask (hS.look _ rfl) fun _ => logWriteOutcome_avoids hS hrow hrow _

theorem logWriteFailure_avoids (hS : Spares S rows) {ctx : WriteContext}
    (hrow : rows ctx.cmd.id ctx.commandLog) (before : Option JStr) (persistSnapshots : Bool)
    (error : Thrown) : Avoids S (logWriteFailure ctx before persistSnapshots error) :=
  .ask (hS.look _ rfl) fun _ => (timingOf_avoids hS).bind fun _ =>
    logWriteOutcome_avoids hS hrow hrow _

theorem recordPreparationFailure_avoids (hS : Spares S rows) {cmd : CommandDef}
    (hrow : rows cmd.id cmd.id) (argsLog : JStr) (started : Int) (error : Thrown) :
    Avoids S (recordPreparationFailure cmd argsLog started error) :=
  .ask (hS.look _ rfl) fun _ => logWriteOutcome_avoids hS hrow hrow _

theorem previewWrite_avoids (hS : Spares S rows) (hcreate : ∀ id c p f, ¬S (.create id c p f))
    (ttlMs : Int) {ctx : WriteContext} (hrow : rows ctx.cmd.id ctx.commandLog) :
    Avoids S (previewWrite ttlMs ctx) := by
  unfold previewWrite
  split
  · trivial
  · refine .ask (hcreate _ _ _ _) fun r => ?_
    cases r with
    | error e => trivial
    | ok created => exact .ask (hS.look _ rfl) fun _ => .ask (hS.look _ rfl) fun _ =>
        (logWriteOutcome_avoids hS hrow hrow _).bind fun _ => trivial

theorem verifyApproval_avoids (hS : Spares S rows) (hconsume : ∀ id c s, ¬S (.consumeSigned id c s))
    {ctx : WriteContext} (hrow : rows ctx.cmd.id ctx.commandLog) : Avoids S (verifyApproval ctx) := by
  unfold verifyApproval
  split
  · trivial
  · split
    · exact (logDenied_avoids hS hrow _ _ _).bind fun _ => trivial
    · refine .tryCatch ((throwIfCancelled_avoids hS _).bind fun _ =>
        .ask (hconsume _ _ _) fun r => ?_) fun e => ?_
      · cases r <;> trivial
      · exact (signalAborted_avoids hS _).bind fun _ =>
          (logDenied_avoids hS hrow _ _ _).bind fun _ => trivial

theorem handOver_avoids (hS : Spares S rows) {ctx : WriteContext}
    (hrow : rows ctx.cmd.id ctx.commandLog) (hsend : ∀ c, ¬S (.send .performWrite c))
    (hreply : ¬S (.reply .performWrite)) (before : Option JStr) (persistSnapshots : Bool) :
    Avoids S (handOver ctx before persistSnapshots) := by
  refine .tryCatch ((throwIfCancelled_avoids hS _).bind fun _ => .ask (hsend _) fun _ => ?_)
    fun e => (logWriteFailure_avoids hS hrow _ _ _).bind fun _ => trivial
  refine (await_avoids (hsend _) hreply).bind fun raw => ?_
  split <;> trivial

theorem performWrite_avoids (hS : Spares S rows) {ctx : WriteContext}
    (hrow : rows ctx.cmd.id ctx.commandLog) (hcommit : rows (js "sys_commit") syscommit)
    (hsend : ∀ site c, ¬S (.send site c)) (hreply : ∀ site, ¬S (.reply site))
    (find : JStr → Option CommandDef) : Avoids S (performWrite find ctx) := by
  have hsnapshot := snapshot_avoids (fun c _ => hsend .snapshot c) (hreply .snapshot) find
    ctx.cmd.snapshotRead
  refine hsnapshot.bind fun before => .ask (hS.look _ rfl) fun _ => ?_
  refine (handOver_avoids hS hrow (hsend _) (hreply _) _ _).bind fun raw => ?_
  refine (timingOf_avoids hS).bind fun timing => hsnapshot.bind fun after => ?_
  exact .ask (hS.look _ rfl) fun _ =>
    (commitAfter_avoids hS hcommit (hsend _) (hreply _) _).bind fun _ => trivial

theorem recordWrite_avoids (hS : Spares S rows) {ctx : WriteContext}
    (hrow : rows ctx.cmd.id ctx.commandLog) (result : PerformedWrite) :
    Avoids S (recordWrite ctx result) := by
  refine .ask (hS.look _ rfl) fun ended => (logWriteOutcome_avoids hS hrow hrow _).bind fun _ => ?_
  split <;> trivial

end VigorMcp
