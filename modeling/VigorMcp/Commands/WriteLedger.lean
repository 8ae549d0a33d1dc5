import VigorMcp.Commands.WriteExecutor

/-!
# The ledger of a write call

A `Ledger` is what one write call has done so far: what the gate answered it, how
far its write and its commit got with the client, and the rows it submitted. A
call's monitor keeps the ledger and says what the call may do next; `WriteExit`
lists how a call can end, each end with its ledger. `executeWriteLocked_obeys`
says that the executor keeps to both, whatever it is answered.
-/

namespace VigorMcp

open Prog

/-- One write call: the tool, its arguments, and what the server runs it with. -/
structure WriteCall where
  cmd : CommandDef
  args : Args
  opts : ExecuteWriteOptions

namespace WriteCall

variable (call : WriteCall)

def cid : Option JStr := (call.args.value (js "confirmation_id")).string?

def sig : Option JStr := (call.args.value (js "signature")).string?

def acknowledge : JsValue := call.args.value (js "acknowledge")

def prepared : Except Thrown PreparedWrite := prepareWrite call.cmd (ownArgs call.args)

/-- An approval field is missing or empty. -/
def Incomplete : Prop := call.cid.getD [] = [] ∨ call.sig.getD [] = []

instance : Decidable call.Incomplete := inferInstanceAs (Decidable (_ ∨ _))

/-- Neither approval field is given: the call asks for a preview. -/
def AsksPreview : Prop := call.cid = none ∧ call.sig = none

instance : Decidable call.AsksPreview := inferInstanceAs (Decidable (_ ∧ _))

/-- The tier asks for an acknowledgement that the call lacks. -/
def NotAcknowledged : Prop := call.cmd.tier = .dual ∧ call.acknowledge.isTrue = false

instance : Decidable call.NotAcknowledged := inferInstanceAs (Decidable (_ ∧ _))

def commits : Bool := call.opts.autoCommit && !call.cmd.skipCommit.getD false

/-- The call renders `command`. -/
def Renders (command : JStr) : Prop :=
  ∃ prepared, call.prepared = .ok prepared ∧ prepared.command = command

def context (prepared : PreparedWrite) (started : Int) : WriteContext where
  toPreparedWrite := prepared
  toExecuteWriteOptions := call.opts
  cmd := call.cmd
  started := started
  argsLog := redactArgs (ownArgs call.args) call.cmd.secrets
  cid := call.cid
  sig := call.sig
  acknowledge := call.acknowledge

/-- `c` hands what the call rendered to the client. -/
def Hands (c : ClientCall) : Prop :=
  ∃ prepared started, call.prepared = .ok prepared ∧ c = (call.context prepared started).call

def run (findCommand : JStr → Option CommandDef) (ttlMs : Int) : Handling WriteBody :=
  executeWriteLocked findCommand ttlMs call.cmd call.args call.opts

/-- The executor from the preparation on. -/
def runPrepared (findCommand : JStr → Option CommandDef) (ttlMs started : Int) :
    Except Thrown PreparedWrite → Handling WriteBody
  | .error error => do
    recordPreparationFailure call.cmd (redactArgs (ownArgs call.args) call.cmd.secrets) started error
    throw error
  | .ok p => do
    match ← previewWrite ttlMs (call.context p started) with
    | some preview => return preview
    | none =>
      verifyApproval (call.context p started)
      let performed ← performWrite findCommand (call.context p started)
      ask .turn
      recordWrite (call.context p started) performed

theorem run_eq (findCommand : JStr → Option CommandDef) (ttlMs : Int) :
    call.run findCommand ttlMs =
      now >>= fun started => call.runPrepared findCommand ttlMs started call.prepared := by
  unfold run executeWriteLocked prepared
  congr

end WriteCall

/-! ## The ledger -/

/-- How far a call to the client got. -/
inductive Handover where
  | idle | handed
  | settled (reply : Except VigorCommandError JStr)

/-- The router took the command. -/
def replyAccepted : Except VigorCommandError JStr → Bool
  | .ok raw => !isRouterCliFailure raw
  | .error _ => false

/-- What is thrown for a reply that is not accepted. -/
def replyError : Except VigorCommandError JStr → Thrown
  | .ok raw => errRejected raw
  | .error e => .vigor e

def Handover.accepted : Handover → Bool
  | .settled reply => replyAccepted reply
  | _ => false

def Handover.called : Handover → Bool
  | .idle => false
  | _ => true

structure Ledger where
  creates : List (Except ConfirmError CreateIntentResult)
  approvals : List (Except ConfirmError Unit)
  /-- Whether the client was called at all. -/
  contacted : Bool
  write : Handover
  commit : Handover
  requests : List LogEntry
  audits : List WriteAuditEntry

namespace Ledger

def empty : Ledger := ⟨[], [], false, .idle, .idle, [], []⟩

variable (q : Ledger)

def Approved : Prop := .ok () ∈ q.approvals

def logged (request : LogEntry) (audit : WriteAuditEntry) : Ledger :=
  { q with requests := q.requests ++ [request], audits := q.audits ++ [audit] }

def next : Event toolCalls → Ledger
  | ⟨.create _ _ _ _, r⟩ => { q with creates := q.creates.concat r }
  | ⟨.consumeSigned _ _ _, r⟩ => { q with approvals := q.approvals.concat r }
  | ⟨.send .performWrite c, _⟩ =>
    { q with contacted := true, write := if c.isWrite then .handed else q.write }
  | ⟨.send .runCommit c, _⟩ =>
    { q with contacted := true, commit := if c.isWrite then .handed else q.commit }
  | ⟨.send _ _, _⟩ => { q with contacted := true }
  | ⟨.reply .performWrite, r⟩ => { q with write := .settled r }
  | ⟨.reply .runCommit, r⟩ => { q with commit := .settled r }
  | ⟨.request entry, _⟩ => { q with requests := q.requests ++ [entry] }
  | ⟨.writeAudit entry, _⟩ => { q with audits := q.audits ++ [entry] }
  | _ => q

end Ledger

namespace WriteCall

variable (call : WriteCall)

/-- What a call may send to the client: nothing before its approval, its write once, and one
commit after a write that was accepted. -/
def MaySend (q : Ledger) : Site → ClientCall → Prop
  | .readTool, _ => False
  | .snapshot, c => c.isWrite = false
  | .performWrite, c => c.isWrite = true → call.Hands c ∧ q.write = .idle
  | .runCommit, c => c.isWrite = true →
    c = .runWriteCommand syscommit ∧ call.commits = true ∧ q.write.accepted = true ∧ q.commit = .idle

def Allows (q : Ledger) : ToolOp → Prop
  | .create toolId command _ _ => call.AsksPreview ∧ toolId = call.cmd.id ∧ call.Renders command
  | .consumeSigned cid command sig =>
    call.cid = some cid ∧ call.sig = some sig ∧ call.Renders command ∧ ¬call.Incomplete ∧
      ¬call.NotAcknowledged
  | .send site c => q.Approved ∧ call.MaySend q site c
  | .reply .performWrite => q.write = .handed
  | .reply .runCommit => q.commit = .handed
  | _ => True

def monitor : Monitor toolCalls where
  State := Ledger
  allow := call.Allows
  next := Ledger.next

end WriteCall

/-! ## How a call ends -/

/-- The statuses of a denied write. -/
def WriteStatus.denies : WriteStatus → Bool
  | .expired => true
  | .mismatch => true
  | .denied => true
  | _ => false

theorem auditDenyStatus_denies (code : JStr) : (auditDenyStatus code).denies = true := by
  unfold auditDenyStatus
  split
  · rfl
  · split <;> rfl

/-- The two rows a call submits under its tool's id. -/
structure WriteCall.Rows (call : WriteCall) (request : LogEntry) (audit : WriteAuditEntry)
    (status : WriteStatus) (success : Option Bool) : Prop where
  own : request.toolId = call.cmd.id
  audited : audit.toolId = call.cmd.id
  status : audit.status = status
  success : audit.success = success

/-- The call has rendered its command and presents an approval that its tier lets pass. -/
structure WriteCall.Presents (call : WriteCall) : Prop where
  prepared : ∃ prepared, call.prepared = .ok prepared
  complete : ¬call.Incomplete
  acknowledged : ¬call.NotAcknowledged

/-- The ledger of a call whose approval was accepted, up to its write. -/
def Ledger.admitted (contacted : Bool) : Ledger :=
  { Ledger.empty with approvals := [.ok ()], contacted := contacted }

/-- How a write call can end: what it returns or throws, with its ledger. -/
inductive WriteExit (call : WriteCall) : Ledger → Except Thrown WriteBody → Prop
  | unprepared {error : Thrown} {request : LogEntry} {audit : WriteAuditEntry}
      (failed : call.prepared = .error error) (rows : call.Rows request audit .denied none) :
      WriteExit call (Ledger.empty.logged request audit) (.error error)
  | full {e : ConfirmError} (prepared : ∃ prepared, call.prepared = .ok prepared)
      (asks : call.AsksPreview) :
      WriteExit call { Ledger.empty with creates := [.error e] } (.error (.confirm e))
  | preview {created : CreateIntentResult} {body : WriteBody} {request : LogEntry}
      {audit : WriteAuditEntry} (prepared : ∃ prepared, call.prepared = .ok prepared)
      (asks : call.AsksPreview) (body_preview : body.isPreview = true)
      (rows : call.Rows request audit .preview none) :
      WriteExit call ({ Ledger.empty with creates := [.ok created] }.logged request audit) (.ok body)
  | incomplete (prepared : ∃ prepared, call.prepared = .ok prepared) (asks : ¬call.AsksPreview)
      (incomplete : call.Incomplete) : WriteExit call Ledger.empty (.error (.confirm errNoApproval))
  | notAcknowledged {request : LogEntry} {audit : WriteAuditEntry}
      (prepared : ∃ prepared, call.prepared = .ok prepared) (complete : ¬call.Incomplete)
      (missing : call.NotAcknowledged) (rows : call.Rows request audit .denied none) :
      WriteExit call (Ledger.empty.logged request audit) (.error (.error none errNotAcknowledged))
  | aborted {request : LogEntry} {audit : WriteAuditEntry} (presents : call.Presents)
      (signal : call.opts.signal ≠ none) {status : WriteStatus} (denies : status.denies = true)
      (rows : call.Rows request audit status none) :
      WriteExit call (Ledger.empty.logged request audit) (.error errCancelled)
  | refused {e : ConfirmError} {request : LogEntry} {audit : WriteAuditEntry}
      (presents : call.Presents) {status : WriteStatus} (denies : status.denies = true)
      (rows : call.Rows request audit status none) :
      WriteExit call ({ Ledger.empty with approvals := [.error e] }.logged request audit)
        (.error (.confirm e))
  | cancelled {request : LogEntry} {audit : WriteAuditEntry} (presents : call.Presents)
      (signal : call.opts.signal ≠ none) (contacted : Bool) (rows : call.Rows request audit .denied none) :
      WriteExit call ((Ledger.admitted contacted).logged request audit) (.error errCancelled)
  | failed {reply : Except VigorCommandError JStr} {request : LogEntry} {audit : WriteAuditEntry}
      (presents : call.Presents) (rejected : replyAccepted reply = false)
      (rows : call.Rows request audit .failed (some false))
      (message : audit.errorMsg = some (errMsg (replyError reply))) :
      WriteExit call ({ Ledger.admitted true with write := .settled reply }.logged request audit)
        (.error (replyError reply))
  | executed {reply : Except VigorCommandError JStr} {body : WriteBody} {request : LogEntry}
      {audit : WriteAuditEntry} (presents : call.Presents) (accepted : replyAccepted reply = true)
      (commits : call.commits = false) (body_done : body.isPreview = false)
      (rows : call.Rows request audit .executed (some true)) :
      WriteExit call ({ Ledger.admitted true with write := .settled reply }.logged request audit)
        (.ok body)
  | committed {reply commitReply : Except VigorCommandError JStr} {body : WriteBody}
      {commitRow request : LogEntry} {audit : WriteAuditEntry} (presents : call.Presents)
      (accepted : replyAccepted reply = true) (commits : call.commits = true)
      (commit_row : commitRow.toolId = js "sys_commit") (body_done : body.isPreview = false)
      (rows : call.Rows request audit
        (if replyAccepted commitReply then .executed else .failed) (some (replyAccepted commitReply))) :
      WriteExit call
        ({ Ledger.admitted true with
            write := .settled reply
            commit := .settled commitReply
            requests := [commitRow] }.logged request audit)
        (.ok body)

/-! ## What each part of the executor does to the ledger -/

section

variable {call : WriteCall} {α : Type} {q : Ledger} {post : Ledger → Except Thrown α → Prop}

theorem ask_obeys {o : ToolOp} {f : toolCalls.Ans o → Handling α} (ho : call.Allows q o)
    (h : ∀ a, Obeys call.monitor post (q.next ⟨o, a⟩) (f a)) :
    Obeys call.monitor post q (ask o >>= f) := Obeys.ask (M := call.monitor) ho h

theorem now_obeys {f : Int → Handling α} (h : ∀ t, Obeys call.monitor post q (f t)) :
    Obeys call.monitor post q (now >>= f) := ask_obeys trivial h

theorem timingOf_obeys {f : LogTiming → Handling α} (h : ∀ t, Obeys call.monitor post q (f t)) :
    Obeys call.monitor post q (timingOf >>= f) :=
  ask_obeys trivial fun timing => by cases timing <;> exact h _

theorem logWriteOutcome_obeys {request : LogEntry} {audit : WriteAuditEntry} {link : Bool}
    {post : Ledger → Except Thrown Unit → Prop}
    (h : ∀ id, post (q.logged request { audit with requestId := id }) (.ok ())) :
    Obeys call.monitor post q (logWriteOutcome request audit link) :=
  ask_obeys trivial fun _ => Obeys.op (M := call.monitor) trivial fun _ => h _

theorem signalAborted_obeys {f : Bool → Handling α}
    (h : ∀ b, (b = true → call.opts.signal ≠ none) → Obeys call.monitor post q (f b)) :
    Obeys call.monitor post q (signalAborted call.opts.signal >>= f) := by
  unfold signalAborted
  cases hs : call.opts.signal with
  | none => exact h false (by simp)
  | some signal => exact ask_obeys trivial fun b => h b (by simp [hs])

theorem throwIfCancelled_obeys {post : Ledger → Except Thrown Unit → Prop}
    (h : post q (.ok ())) (h' : call.opts.signal ≠ none → post q (.error errCancelled)) :
    Obeys call.monitor post q (throwIfCancelled call.opts.signal) := by
  refine signalAborted_obeys fun b hb => ?_
  split
  · next hbt => exact Obeys.throw (M := call.monitor) (h' (hb hbt))
  · exact Obeys.pure (M := call.monitor) h

theorem await_obeys {site : Site} {c : ClientCall} {post : Ledger → Except Thrown JStr → Prop}
    (ho : call.Allows q (.send site c)) (hr : call.Allows (q.next ⟨.send site c, ()⟩) (.reply site))
    (h : ∀ r : Except VigorCommandError JStr,
      post ((q.next ⟨.send site c, ()⟩).next ⟨.reply site, r⟩) (r.mapError .vigor)) :
    Obeys call.monitor post q (await site c) := by
  refine ask_obeys ho fun _ => ask_obeys hr fun r => ?_
  have hr := h r
  cases r with
  | ok raw => exact Obeys.pure (M := call.monitor) hr
  | error e => exact Obeys.throw (M := call.monitor) hr

end

section

variable {call : WriteCall} {q : Ledger}

/-- A snapshot throws nothing and at most contacts the client. -/
theorem snapshot_obeys {findCommand : JStr → Option CommandDef} {snapshotRead : Option JStr}
    {post : Ledger → Except Thrown (Option JStr) → Prop} (approved : q.Approved)
    (h : ∀ c r, post { q with contacted := q.contacted || c } (.ok r)) :
    Obeys call.monitor post q (snapshot findCommand snapshotRead) := by
  have hnone : post q (.ok none) := by simpa using h false none
  have hread : ∀ c : ClientCall, c.isWrite = false →
      Obeys call.monitor post q
        (tryCatch (await .snapshot c >>= pure ∘ some) fun _ => pure none) := by
    intro c hc
    refine Obeys.tryCatch (M := call.monitor) (Obeys.bind (await_obeys ⟨approved, hc⟩ trivial fun r => ?_))
    have hr := h true
    simp only [Bool.or_true] at hr
    cases r <;> exact hr _
  unfold snapshot
  split
  · exact hnone
  · cases snapshotRead.bind findCommand with
    | none => exact hnone
    | some cmd =>
      simp only
      split
      · exact hnone
      · cases cmd.sdk with
        | some sdk =>
          simp only
          cases resolveSdkInput sdk .empty with
          | ok input => exact hread (.runOperation sdk.manifestId input) rfl
          | error e => exact hnone
        | none =>
          simp only
          cases cmd.render .empty with
          | ok command => exact hread (.runCommand command) rfl
          | error e => exact hnone

/-- A commit throws nothing, submits its row, and reports whether the router took it. -/
theorem runCommit_obeys {post : Ledger → Except Thrown CommitStatus → Prop} (approved : q.Approved)
    (commits : call.commits = true) (accepted : q.write.accepted = true) (idle : q.commit = .idle)
    (h : ∀ (r : Except VigorCommandError JStr) (row : LogEntry), row.toolId = js "sys_commit" →
      post { q with contacted := true, commit := .settled r, requests := q.requests ++ [row] }
        (.ok (if replyAccepted r then .ok else .failed))) :
    Obeys call.monitor post q runCommit := by
  refine now_obeys fun started => Obeys.tryCatch (M := call.monitor) ?_
  refine ask_obeys ⟨approved, by simp [WriteCall.MaySend, ClientCall.isWrite]⟩ fun _ => ?_
  refine Obeys.bind (await_obeys ⟨approved, fun _ => ⟨rfl, commits, accepted, idle⟩⟩ rfl
    fun r => ?_)
  have hr := h r
  cases r with
  | error e =>
    exact now_obeys fun ended => ask_obeys trivial fun _ => hr _ rfl
  | ok raw =>
    simp only [Except.mapError]
    split
    · next hfail =>
      simp only [replyAccepted, hfail, Bool.not_true] at hr
      exact now_obeys fun ended => ask_obeys trivial fun _ => hr _ rfl
    · next hfail =>
      simp only [replyAccepted, hfail] at hr
      exact now_obeys fun ended => ask_obeys trivial fun _ => hr _ rfl

end

/-! ## The executor, part by part -/

section

variable {call : WriteCall} {p : PreparedWrite} {started : Int}

/-- A preview, a refused intent, or nothing at all when an approval field is given. -/
theorem previewWrite_obeys (ttlMs : Int) (hp : call.prepared = .ok p) :
    Obeys call.monitor
      (fun q r => match r with
        | .ok (some body) => WriteExit call q (.ok body)
        | .ok none => q = Ledger.empty ∧ ¬call.AsksPreview
        | .error e => WriteExit call q (.error e))
      Ledger.empty (previewWrite ttlMs (call.context p started)) := by
  unfold previewWrite
  split
  · next h =>
    refine ⟨rfl, fun hasks => ?_⟩
    rcases h with h | h
    · exact h hasks.1
    · exact h hasks.2
  · next h =>
    push Not at h
    have hasks : call.AsksPreview := h
    refine ask_obeys ⟨hasks, rfl, p, hp, rfl⟩ fun r => ?_
    cases r with
    | error e => exact .full ⟨p, hp⟩ hasks
    | ok created =>
      refine now_obeys fun ended => now_obeys fun responded =>
        Obeys.bind (logWriteOutcome_obeys fun id => ?_)
      exact .preview ⟨p, hp⟩ hasks rfl ⟨rfl, rfl, rfl, rfl⟩

/-- The rows of a denial, then its error. -/
theorem logDenied_obeys {α : Type} {q : Ledger} {post : Ledger → Except Thrown α → Prop}
    {status : WriteStatus} {code message : JStr} {error : Thrown}
    (h : ∀ request audit, call.Rows request audit status none →
      post (q.logged request audit) (.error error)) :
    Obeys call.monitor post q (do
      logDenied (call.context p started) status code message
      throw error) := by
  exact Obeys.bind (now_obeys fun ended => logWriteOutcome_obeys fun id => h _ _ ⟨rfl, rfl, rfl, rfl⟩)

/-- An approval is accepted only when it is complete, acknowledged and consumed by the gate. -/
theorem verifyApproval_obeys (hp : call.prepared = .ok p) (hasks : ¬call.AsksPreview) :
    Obeys call.monitor
      (fun q r => match r with
        | .ok () => q = Ledger.admitted false ∧ call.Presents
        | .error e => WriteExit call q (.error e))
      Ledger.empty (verifyApproval (call.context p started)) := by
  unfold verifyApproval
  split
  · next h => exact .incomplete ⟨p, hp⟩ hasks h
  · next hc =>
    split
    · next h => exact logDenied_obeys fun request audit rows => .notAcknowledged ⟨p, hp⟩ hc h rows
    · next ha =>
      have presents : call.Presents := ⟨⟨p, hp⟩, hc, ha⟩
      have hcid : call.cid ≠ none := fun h => presents.complete (.inl (by rw [h]; rfl))
      have hsig : call.sig ≠ none := fun h => presents.complete (.inr (by rw [h]; rfl))
      have handler : ∀ {q : Ledger} {e : Thrown}, (∀ {status request audit},
          status.denies = true → call.Rows request audit status none →
            WriteExit call (q.logged request audit) (.error e)) →
          Obeys call.monitor
            (fun q r => match r with
              | .ok () => q = Ledger.admitted false ∧ call.Presents
              | .error e => WriteExit call q (.error e)) q (do
            let code := if ← signalAborted call.opts.signal then js "cancelled"
              else (errCode e).getD (js "denied")
            logDenied (call.context p started) (auditDenyStatus code) code (errMsg e)
            throw e) := fun hexit => signalAborted_obeys fun b _ => by
        cases b <;> exact logDenied_obeys fun request audit rows =>
          hexit (auditDenyStatus_denies _) rows
      refine Obeys.tryCatch (M := call.monitor) (Obeys.bind (throwIfCancelled_obeys ?_ ?_))
      · refine ask_obeys ⟨?_, ?_, ⟨p, hp, rfl⟩, hc, ha⟩ fun r => ?_
        · exact (Option.getD_of_ne_none hcid []).symm
        · exact (Option.getD_of_ne_none hsig []).symm
        · cases r with
          | ok u => exact ⟨rfl, presents⟩
          | error e => exact handler fun hd rows => .refused presents hd rows
      · exact fun hs => handler fun hd rows => .aborted presents hs hd rows

/-- The rows of a write that was cancelled, refused by the client or rejected by the router. -/
theorem logWriteFailure_obeys {α : Type} {q : Ledger} {post : Ledger → Except Thrown α → Prop}
    {before : Option JStr} {persistSnapshots : Bool} {error : Thrown}
    (h : ∀ request audit,
      call.Rows request audit (if errCode error = some (js "cancelled") then .denied else .failed)
        (if errCode error = some (js "cancelled") then none else some false) →
      audit.errorMsg = some (errMsg error) → post (q.logged request audit) (.error error)) :
    Obeys call.monitor post q (do
      logWriteFailure (call.context p started) before persistSnapshots error
      throw error) := by
  refine Obeys.bind (now_obeys fun ended => timingOf_obeys fun timing => ?_)
  exact logWriteOutcome_obeys fun id =>
    h _ _ ⟨rfl, rfl, by simp [auditRow], by simp [auditRow]⟩ rfl

/-- The client's errors are never a cancellation. -/
theorem errCode_vigor_ne_cancelled (e : VigorCommandError) :
    errCode (.vigor e) ≠ some (js "cancelled") := by
  obtain ⟨code, message⟩ := e
  cases code <;> simp only [errCode, VigorErrorCode.text] <;> decide +kernel

/-- A write that the router took, with its commit. -/
inductive PerformedLedger (call : WriteCall) : Ledger → CommitStatus → Prop
  | skipped {reply : Except VigorCommandError JStr} (accepted : replyAccepted reply = true)
      (commits : call.commits = false) :
      PerformedLedger call { Ledger.admitted true with write := .settled reply } .skipped
  | committed {reply commitReply : Except VigorCommandError JStr} {commitRow : LogEntry}
      (accepted : replyAccepted reply = true) (commits : call.commits = true)
      (commit_row : commitRow.toolId = js "sys_commit") :
      PerformedLedger call
        { Ledger.admitted true with
          write := .settled reply
          commit := .settled commitReply
          requests := [commitRow] }
        (if replyAccepted commitReply then .ok else .failed)

theorem commitAfter_obeys {reply : Except VigorCommandError JStr}
    (accepted : replyAccepted reply = true) :
    Obeys call.monitor
      (fun q r => ∃ status, r = .ok status ∧ PerformedLedger call q status)
      { Ledger.admitted true with write := .settled reply } (commitAfter (call.context p started)) := by
  unfold commitAfter
  split
  · next hc =>
    refine Obeys.bind (runCommit_obeys (List.mem_singleton.mpr rfl) hc accepted rfl ?_)
    exact fun r row hrow => ask_obeys trivial fun _ => ⟨_, rfl, .committed accepted hc hrow⟩
  · next hc => exact ⟨_, rfl, .skipped accepted (Bool.eq_false_iff.mpr hc)⟩

/-- The write is handed over at most once; the router's rejection counts as a failure. -/
theorem handOver_obeys {before : Option JStr} {persistSnapshots : Bool} (contacted : Bool)
    (hp : call.prepared = .ok p) (presents : call.Presents) :
    Obeys call.monitor
      (fun q r => match r with
        | .ok raw => replyAccepted (.ok raw) = true ∧
          q = { Ledger.admitted true with write := .settled (.ok raw) }
        | .error e => WriteExit call q (.error e))
      (Ledger.admitted contacted) (handOver (call.context p started) before persistSnapshots) := by
  have approved : ∀ c, (Ledger.admitted c).Approved := fun c => List.mem_singleton.mpr rfl
  refine Obeys.tryCatch (M := call.monitor) (Obeys.bind (throwIfCancelled_obeys ?_ ?_))
  · refine ask_obeys ⟨approved _, by simp [WriteCall.MaySend, ClientCall.isWrite]⟩ fun _ => ?_
    have hw : (call.context p started).call.isWrite = true := by
      unfold WriteContext.call
      cases (call.context p started).cmd.sdk <;> rfl
    refine Obeys.bind (await_obeys ⟨approved _, fun _ => ⟨⟨p, started, hp, rfl⟩, rfl⟩⟩ ?_ fun r => ?_)
    · exact if_pos hw
    cases r with
    | error e =>
      refine logWriteFailure_obeys fun request audit rows message => ?_
      rw [if_neg (errCode_vigor_ne_cancelled e), if_neg (errCode_vigor_ne_cancelled e)] at rows
      have hrejected : replyAccepted (.error e) = false := rfl
      exact .failed presents hrejected rows message
    | ok raw =>
      simp only [Except.mapError]
      split
      · next hfail =>
        have hne : errCode (errRejected raw) ≠ some (js "cancelled") := by
          simp only [errCode, errRejected]
          decide +kernel
        refine logWriteFailure_obeys fun request audit rows message => ?_
        rw [if_neg hne, if_neg hne] at rows
        have hrejected : replyAccepted (.ok raw) = false := by simp [replyAccepted, hfail]
        exact .failed presents hrejected rows message
      · next hfail => exact ⟨by simp [replyAccepted, hfail], rfl⟩
  · exact fun hs => logWriteFailure_obeys fun request audit rows _ =>
      .cancelled presents hs contacted rows

/-- Snapshot, write, snapshot, commit: only a write that the router took is committed. -/
theorem performWrite_obeys (findCommand : JStr → Option CommandDef) (hp : call.prepared = .ok p)
    (presents : call.Presents) :
    Obeys call.monitor
      (fun q r => match r with
        | .ok performed => PerformedLedger call q performed.commitStatus
        | .error e => WriteExit call q (.error e))
      (Ledger.admitted false) (performWrite findCommand (call.context p started)) := by
  refine Obeys.bind (snapshot_obeys (List.mem_singleton.mpr rfl) fun contacted before => ?_)
  refine ask_obeys trivial fun _ => Obeys.seq (handOver_obeys contacted hp presents)
    ?_ fun q e h => h
  rintro q raw ⟨accepted, rfl⟩
  refine timingOf_obeys fun timing => ?_
  refine Obeys.bind (snapshot_obeys (List.mem_singleton.mpr rfl) fun c after => ?_)
  refine ask_obeys trivial fun _ => Obeys.seq (commitAfter_obeys accepted) ?_ ?_
  · rintro q status ⟨_, hs, h⟩
    cases hs
    exact h
  · rintro q e ⟨_, hs, _⟩
    cases hs

/-- A write that the router took is recorded as executed, unless its commit failed. -/
theorem recordWrite_obeys {q : Ledger} {performed : PerformedWrite} (presents : call.Presents)
    (h : PerformedLedger call q performed.commitStatus) :
    Obeys call.monitor (WriteExit call) q (recordWrite (call.context p started) performed) := by
  unfold recordWrite
  refine now_obeys fun ended => ?_
  generalize performed.commitStatus = status at h ⊢
  cases h with
  | skipped accepted commits =>
    exact Obeys.bind (logWriteOutcome_obeys fun id =>
      .executed presents accepted commits rfl ⟨rfl, rfl, rfl, rfl⟩)
  | @committed _ commitReply _ accepted commits commit_row =>
    refine Obeys.bind (logWriteOutcome_obeys fun id => ?_)
    cases hr : replyAccepted commitReply <;>
      exact @WriteExit.committed call _ commitReply _ _ _ _ presents accepted commits commit_row rfl
        ⟨rfl, rfl, by simp [hr, auditRow], by simp [hr, auditRow]⟩

/-- **Every write call keeps its ledger by the rules and ends in one of the listed ways.** -/
theorem executeWriteLocked_obeys (findCommand : JStr → Option CommandDef) (ttlMs : Int)
    (call : WriteCall) :
    Obeys call.monitor (WriteExit call) Ledger.empty (call.run findCommand ttlMs) := by
  rw [WriteCall.run_eq]
  refine now_obeys fun started => ?_
  cases hp : call.prepared with
  | error error =>
    refine Obeys.bind (now_obeys fun ended => logWriteOutcome_obeys fun id => ?_)
    exact .unprepared hp ⟨rfl, rfl, rfl, rfl⟩
  | ok p =>
    refine Obeys.seq (previewWrite_obeys ttlMs hp) ?_ fun q e h => h
    rintro q (preview | preview) h
    · obtain ⟨rfl, hasks⟩ := h
      refine Obeys.seq (verifyApproval_obeys hp hasks) ?_ fun q e h => h
      rintro q ⟨⟩ ⟨rfl, presents⟩
      refine Obeys.seq (performWrite_obeys findCommand hp presents) ?_ fun q e h => h
      intro q performed h
      exact ask_obeys trivial fun _ => recordWrite_obeys presents h
    · exact h

end

/-! ## Runs of a call -/

/-- What a record of calls did. -/
def Ledger.of (trace : List (Event toolCalls)) : Ledger := trace.foldl Ledger.next Ledger.empty

def createAnswer : Event toolCalls → Option (Except ConfirmError CreateIntentResult)
  | ⟨.create _ _ _ _, r⟩ => some r
  | _ => none

def approvalAnswer : Event toolCalls → Option (Except ConfirmError Unit)
  | ⟨.consumeSigned _ _ _, r⟩ => some r
  | _ => none

/-- A list that each call extends by what `answer` reads off it. -/
theorem foldl_next_list {β : Type} {f : Ledger → List β} {answer : Event toolCalls → Option β}
    (step : ∀ q e, f (q.next e) = f q ++ (answer e).toList) (q : Ledger)
    (t : List (Event toolCalls)) :
    f (t.foldl Ledger.next q) = f q ++ t.filterMap answer := by
  induction t generalizing q with
  | nil => exact (List.append_nil _).symm
  | cons e t ih =>
    rw [List.foldl_cons, ih, step, List.append_assoc, List.filterMap_cons]
    cases answer e <;> rfl

theorem of_creates (t : List (Event toolCalls)) :
    (Ledger.of t).creates = t.filterMap createAnswer := by
  apply foldl_next_list (f := Ledger.creates)
  rintro q ⟨o, a⟩
  cases o with
  | create _ _ _ _ => exact List.concat_eq_append ..
  | send site c => cases site <;> exact (List.append_nil _).symm
  | reply site => cases site <;> exact (List.append_nil _).symm
  | _ => exact (List.append_nil _).symm

theorem of_approvals (t : List (Event toolCalls)) :
    (Ledger.of t).approvals = t.filterMap approvalAnswer := by
  apply foldl_next_list (f := Ledger.approvals)
  rintro q ⟨o, a⟩
  cases o with
  | consumeSigned _ _ _ => exact List.concat_eq_append ..
  | send site c => cases site <;> exact (List.append_nil _).symm
  | reply site => cases site <;> exact (List.append_nil _).symm
  | _ => exact (List.append_nil _).symm

/-! ### The handovers -/

/-- What one call does to the handover of a site. -/
def Handover.next (site : Site) (h : Handover) : Event toolCalls → Handover
  | ⟨.send s c, _⟩ => if s = site ∧ c.isWrite = true then .handed else h
  | ⟨.reply s, r⟩ => if s = site then .settled r else h
  | _ => h

/-- The handover of a site: the write's, or the commit's. -/
def Ledger.handover (q : Ledger) : Site → Handover
  | .runCommit => q.commit
  | _ => q.write

theorem of_handover {site : Site} (hs : site = .performWrite ∨ site = .runCommit)
    (t : List (Event toolCalls)) :
    (Ledger.of t).handover site = t.foldl (Handover.next site) .idle := by
  have hempty : Ledger.empty.handover site = .idle := by cases site <;> rfl
  unfold Ledger.of
  rw [← hempty]
  refine (List.foldl_hom (fun q => Ledger.handover q site) ?_).symm
  rintro q ⟨o, a⟩
  rcases hs with rfl | rfl
  · cases o with
    | send site c => cases site <;> simp [Ledger.next, Handover.next, Ledger.handover]
    | reply site => cases site <;> simp [Ledger.next, Handover.next, Ledger.handover]
    | _ => rfl
  · cases o with
    | send site c => cases site <;> simp [Ledger.next, Handover.next, Ledger.handover]
    | reply site => cases site <;> simp [Ledger.next, Handover.next, Ledger.handover]
    | _ => rfl

theorem of_write (t : List (Event toolCalls)) :
    (Ledger.of t).write = t.foldl (Handover.next .performWrite) .idle := of_handover (.inl rfl) t

section

variable {site : Site} {h : Handover} {t : List (Event toolCalls)}

/-- A write that was sent or replied to is not idle again. -/
theorem foldl_next_called (hc : h.called = true ∨ ∃ e ∈ t, e.op = .reply site ∨
    ∃ c, c.isWrite = true ∧ e.op = .send site c) : (t.foldl (Handover.next site) h).called = true := by
  induction t generalizing h with
  | nil => simpa using hc
  | cons e t ih =>
    rw [List.foldl_cons]
    apply ih
    obtain ⟨o, a⟩ := e
    rcases hc with hc | ⟨e, he, ho⟩
    · left
      cases o with
      | send s c =>
        simp only [Handover.next]
        split
        · rfl
        · exact hc
      | reply s =>
        simp only [Handover.next]
        split
        · rfl
        · exact hc
      | _ => exact hc
    · rcases List.mem_cons.mp he with rfl | he
      · left
        rcases ho with ho | ⟨c, hw, ho⟩
        · obtain rfl : o = .reply site := ho
          simp [Handover.next, Handover.called]
        · obtain rfl : o = .send site c := ho
          simp [Handover.next, Handover.called, hw]
      · exact .inr ⟨e, he, ho⟩

/-- A settled write was replied to with what it settled with. -/
theorem foldl_next_settled {r : Except VigorCommandError JStr}
    (hr : t.foldl (Handover.next site) h = .settled r) :
    h = .settled r ∨ ⟨.reply site, r⟩ ∈ t := by
  induction t generalizing h with
  | nil => exact .inl hr
  | cons e t ih =>
    rcases ih hr with hq | hm
    · obtain ⟨o, a⟩ := e
      cases o with
      | send s c =>
        simp only [Handover.next] at hq
        split at hq
        · cases hq
        · exact .inl hq
      | reply s =>
        simp only [Handover.next] at hq
        split at hq
        · next hs =>
          subst hs
          cases hq
          exact .inr List.mem_cons_self
        · exact .inl hq
      | _ => exact .inl hq
    · exact .inr (List.mem_cons_of_mem _ hm)

/-- A write under way was sent. -/
theorem foldl_next_handed (hh : t.foldl (Handover.next site) h = .handed) :
    h = .handed ∨ ∃ c, c.isWrite = true ∧ ⟨.send site c, ()⟩ ∈ t := by
  induction t generalizing h with
  | nil => exact .inl hh
  | cons e t ih =>
    rcases ih hh with hq | ⟨c, hw, hm⟩
    · obtain ⟨o, a⟩ := e
      cases o with
      | send s c =>
        simp only [Handover.next] at hq
        split at hq
        · next hs =>
          obtain ⟨rfl, hw⟩ := hs
          exact .inr ⟨c, hw, List.mem_cons_self⟩
        · exact .inl hq
      | reply s =>
        simp only [Handover.next] at hq
        split at hq
        · cases hq
        · exact .inl hq
      | _ => exact .inl hq
    · exact .inr ⟨c, hw, List.mem_cons_of_mem _ hm⟩

end

/-- A call that contacted the client says so in its ledger. -/
theorem foldl_next_contacted {q : Ledger} {t : List (Event toolCalls)}
    (h : q.contacted = true ∨ ∃ e ∈ t, ∃ site c, e.op = .send site c) :
    (t.foldl Ledger.next q).contacted = true := by
  induction t generalizing q with
  | nil => simpa using h
  | cons e t ih =>
    rw [List.foldl_cons]
    apply ih
    obtain ⟨o, a⟩ := e
    rcases h with h | ⟨e, he, site, c, ho⟩
    · left
      cases o with
      | send site c => cases site <;> rfl
      | reply site => cases site <;> exact h
      | _ => exact h
    · rcases List.mem_cons.mp he with rfl | he
      · left
        obtain rfl : o = .send site c := ho
        cases site <;> rfl
      · exact .inr ⟨e, he, site, c, ho⟩

/-- The run of a call that has the gate to itself. -/
def WriteCall.exec (call : WriteCall) (E : Env) (findCommand : JStr → Option CommandDef)
    (w : World) : Outcome toolCalls Thrown WriteBody World :=
  (call.run findCommand E.gate.ttlMs).exec (answer E) w

theorem exec_exit (E : Env) (findCommand : JStr → Option CommandDef) (call : WriteCall) (w : World) :
    WriteExit call (Ledger.of (call.exec E findCommand w).trace) (call.exec E findCommand w).result :=
  ((executeWriteLocked_obeys findCommand E.gate.ttlMs call).exec w).2

end VigorMcp
