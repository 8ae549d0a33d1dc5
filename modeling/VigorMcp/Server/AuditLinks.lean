import VigorMcp.Commands.WriteLedger
import VigorMcp.Db.Migrations
import VigorMcp.Server.ApprovalSafety

/-!
# Audit rows and their requests

A write audit may name the request it belongs to by the id of its row. The store
may refuse any insert, several handlers log side by side, and nothing in the
schema makes the id refer to a row. Still every id in `write_audit` is the id of
a row in `requests`, of a write of the same tool with the same command
(`audit_links_hold`): a monitor follows what the store answered to each call, and
`Recorded` is a run's log as the store takes it down.
-/

namespace VigorMcp

open Prog

/-! ## Monitors over runs -/

section

variable {M : Monitor toolCalls} {q₀ : M.State} {E : Env} {findCommand : JStr → Option CommandDef}
  {s s' : Server}

/-- What a monitor has seen of a call allows the rest of it. -/
def Watched (M : Monitor toolCalls) (q₀ : M.State) (log : List Entry) (k : Nat) :
    Option WriteTask → Prop
  | some ⟨_, .running rest⟩ => M.Accepts q₀ (log.filterMap (Entry.eventOf k)) ∧
      Obeys M (fun _ _ => True) (M.after q₀ (log.filterMap (Entry.eventOf k))) rest
  | _ => M.Accepts q₀ (log.filterMap (Entry.eventOf k))

theorem Watched.accepts {log : List Entry} {k : Nat} {task : Option WriteTask}
    (h : Watched M q₀ log k task) : M.Accepts q₀ (log.filterMap (Entry.eventOf k)) := by
  rcases task with _ | ⟨_, _ | _ | _⟩
  · exact h
  · exact h
  · exact h.1
  · exact h

theorem Watched.frame {log : List Entry} {k : Nat} {task : Option WriteTask} {e : Entry}
    (h : Watched M q₀ log k task) (he : e.eventOf k = none) : Watched M q₀ (log ++ [e]) k task := by
  have hevents : (log ++ [e]).filterMap (Entry.eventOf k) = log.filterMap (Entry.eventOf k) := by
    simp [List.filterMap_append, he]
  rcases task with _ | ⟨_, _ | _ | _⟩ <;> simpa only [Watched, hevents] using h

/-- One call's phase changes, and the monitor has seen the same of the others. -/
theorem watched_set {log : List Entry} {writes : List WriteTask} {k : Nat} {task task' : WriteTask}
    (hk : writes[k]? = some task) (h : ∀ j, j ≠ k → Watched M q₀ log j writes[j]?)
    (hnew : Watched M q₀ log k (some task')) (j : Nat) :
    Watched M q₀ log j (writes.set k task')[j]? := by
  have hlt : k < writes.length := (List.getElem?_eq_some_iff.mp hk).1
  rcases eq_or_ne j k with rfl | hne
  · rw [List.getElem?_set_self hlt]
    exact hnew
  · rw [List.getElem?_set_ne hne.symm]
    exact h j hne

theorem watched_concat {log : List Entry} {writes : List WriteTask} {call : WriteCall}
    (h : ∀ k, Watched M q₀ log k writes[k]?) (k : Nat) :
    Watched M q₀ log k (writes ++ [⟨call, .waiting⟩])[k]? := by
  rcases Nat.lt_or_ge k writes.length with hlt | hge
  · rw [List.getElem?_append_left hlt]
    exact h k
  · have haccepts := (h k).accepts
    rw [List.getElem?_append_right hge]
    cases hk : ([⟨call, .waiting⟩] : List WriteTask)[k - writes.length]? with
    | none => exact haccepts
    | some task =>
      obtain rfl := List.mem_singleton.mp (List.mem_of_getElem? hk)
      exact haccepts

theorem step_watched (hstep : Step E findCommand s s') (hs : Sound E s)
    (obeys : ∀ call : WriteCall, Obeys M (fun _ _ => True) q₀ (call.run findCommand E.gate.ttlMs))
    (h : ∀ k, Watched M q₀ s.log k s.writes[k]?) (k : Nat) : Watched M q₀ s'.log k s'.writes[k]? := by
  cases hstep with
  | submitWrite call => exact watched_concat h k
  | @startWrite k' call waits turn =>
    refine watched_set waits (fun j _ => h j) ?_ k
    have hidle := hs.tasks k'
    rw [waits] at hidle
    show M.Accepts q₀ _ ∧ _
    rw [show s.log.filterMap (Entry.eventOf k') = [] from hidle]
    exact ⟨trivial, obeys call⟩
  | @askWrite k' call o next runs =>
    have hothers : ∀ j, j ≠ k' →
        Entry.eventOf j (.write k' call s.world (answered E o s.world)) = none :=
      fun j hj => if_neg (Ne.symm hj)
    refine watched_set runs (fun j hj => (h j).frame (hothers j hj)) ?_ k
    have hrun := h k'
    rw [runs] at hrun
    obtain ⟨haccepts, hallow, hnext⟩ := hrun
    have hevents : (s.log ++ [Entry.write k' call s.world (answered E o s.world)]).filterMap
        (Entry.eventOf k') = s.log.filterMap (Entry.eventOf k') ++ [answered E o s.world] := by
      rw [List.filterMap_append]
      simp [Entry.eventOf]
    show M.Accepts q₀ _ ∧ _
    rw [hevents, Monitor.after_concat]
    exact ⟨haccepts.concat hallow, hnext _⟩
  | @endWrite k' call result runs =>
    refine watched_set runs (fun j _ => h j) ?_ k
    have hrun := h k'
    rw [runs] at hrun
    exact hrun.1
  | submitRead cmd args => exact h k
  | askRead runs => exact (h k).frame rfl
  | sign payload => exact (h k).frame rfl

/-- **What a monitor allows every write call**, it has allowed in every run. -/
theorem Reaches.accepts (hr : Reaches E findCommand s)
    (obeys : ∀ call : WriteCall, Obeys M (fun _ _ => True) q₀ (call.run findCommand E.gate.ttlMs))
    (k : Nat) : M.Accepts q₀ (s.log.filterMap (Entry.eventOf k)) := by
  have hall : ∀ k, Watched M q₀ s.log k s.writes[k]? := by
    induction hr with
    | refl => exact fun _ => trivial
    | tail hreach hstep ih => exact step_watched hstep (Reaches.sound hreach) obeys ih
  exact (hall k).accepts

end

/-! ## The monitor of links -/

/-- The rows the store gave a call: their ids and entries. -/
abbrev Rows := List (Nat × LogEntry)

/-- An audit names a request of the call's own, with the audit's tool and command. -/
def LinksTo (rows : Rows) (audit : WriteAuditEntry) : Prop :=
  ∀ id, audit.requestId = some id → ∃ request, (id, request) ∈ rows ∧
    request.toolId = audit.toolId ∧ request.command = audit.command ∧ request.kind = .write

def linkMonitor : Monitor toolCalls where
  State := Rows
  allow rows o :=
    match o with
    | .writeAudit audit => LinksTo rows audit
    | _ => True
  next rows e :=
    match e with
    | ⟨.request request, some id⟩ => rows ++ [(id, request)]
    | _ => rows

/-- A part of the executor that keeps to it, whatever rows there are. -/
def Links {α : Type} (p : Handling α) : Prop := ∀ rows, Obeys linkMonitor (fun _ _ => True) rows p

variable {α β : Type}

theorem Links.pure (a : α) : Links (pure a : Handling α) := fun _ => trivial

theorem Links.throw (e : Thrown) : Links (throw e : Handling α) := fun _ => trivial

theorem Links.bind {p : Handling α} {f : α → Handling β} (hp : Links p) (hf : ∀ a, Links (f a)) :
    Links (p >>= f) := fun rows =>
  Obeys.seq (hp rows) (fun rows a _ => hf a rows) fun _ _ _ => trivial

theorem Links.tryCatch {p : Handling α} {f : Thrown → Handling α} (hp : Links p)
    (hf : ∀ e, Links (f e)) : Links (tryCatch p f) := fun rows =>
  Obeys.tryCatch ((hp rows).mono fun rows r _ => by
    cases r with
    | ok a => trivial
    | error e => exact hf e rows)

theorem Links.ask {o : ToolOp} {f : toolCalls.Ans o → Handling α}
    (ho : ∀ audit, o ≠ .writeAudit audit) (hf : ∀ a, Links (f a)) : Links (Prog.op o >>= f) := by
  refine fun rows => ⟨?_, fun a => hf a _⟩
  cases o with
  | writeAudit audit => exact absurd rfl (ho audit)
  | _ => trivial

/-- **The executor's two rows** are linked or not, and of one tool and command either way. -/
theorem logWriteOutcome_links {request : LogEntry} {audit : WriteAuditEntry} (link : Bool)
    (tool : request.toolId = audit.toolId) (command : request.command = audit.command)
    (kind : request.kind = .write) : Links (logWriteOutcome request audit link) := by
  refine fun rows => ⟨trivial, fun requestId => ⟨fun id hid => ?_, fun _ => trivial⟩⟩
  cases link with
  | false => cases hid
  | true =>
    have hid : requestId = some id := hid
    subst hid
    exact ⟨request, List.mem_append_right _ (List.mem_singleton.mpr rfl), tool, command, kind⟩

/-! ## The executor keeps to it -/

theorem now_links {f : Int → Handling α} (hf : ∀ t, Links (f t)) : Links (now >>= f) :=
  .ask (fun _ h => by cases h) hf

theorem turn_links {f : Unit → Handling α} (hf : ∀ u, Links (f u)) : Links (VigorMcp.ask .turn >>= f) :=
  .ask (fun _ h => by cases h) hf

theorem timingOf_links : Links timingOf :=
  .ask (fun _ h => by cases h) fun timing => by cases timing <;> exact .pure _

theorem signalAborted_links (signal : Option AbortSignal) : Links (signalAborted signal) := by
  cases signal with
  | none => exact .pure _
  | some signal => exact fun _ => ⟨trivial, fun _ => trivial⟩

theorem throwIfCancelled_links (signal : Option AbortSignal) : Links (throwIfCancelled signal) :=
  (signalAborted_links signal).bind fun aborted => by
    cases aborted with
    | false => exact .pure _
    | true => exact .throw _

theorem throwConfirm_links (r : Except ConfirmError α) : Links (throwConfirm r) := by
  cases r with
  | ok a => exact .pure a
  | error e => exact .throw _

theorem await_links (site : Site) (c : ClientCall) : Links (await site c) :=
  .ask (fun _ h => by cases h) fun _ => .ask (fun _ h => by cases h) fun r => by
    cases r with
    | ok raw => exact .pure raw
    | error e => exact .throw _

theorem snapshot_links (find : JStr → Option CommandDef) (snapshotRead : Option JStr) :
    Links (snapshot find snapshotRead) := by
  rw [snapshot_eq]
  cases snapshotCall find snapshotRead with
  | none => exact .pure _
  | some c => exact .tryCatch ((await_links _ c).bind fun _ => .pure _) fun _ => .pure _

theorem runCommit_links : Links runCommit := by
  refine now_links fun started => .tryCatch (.ask (fun _ h => by cases h) fun _ => ?_) fun e => ?_
  · refine (await_links _ _).bind fun raw => ?_
    split
    · exact .throw _
    · exact now_links fun _ => .ask (fun _ h => by cases h) fun _ => .pure _
  · exact now_links fun _ => .ask (fun _ h => by cases h) fun _ => .pure _

theorem commitAfter_links (ctx : WriteContext) : Links (commitAfter ctx) := by
  unfold commitAfter
  split
  · exact runCommit_links.bind fun _ => turn_links fun _ => .pure _
  · exact .pure _

theorem recordPreparationFailure_links (cmd : CommandDef) (argsLog : JStr) (started : Int)
    (error : Thrown) : Links (recordPreparationFailure cmd argsLog started error) :=
  now_links fun _ => logWriteOutcome_links false rfl rfl rfl

theorem previewWrite_links (ttlMs : Int) (ctx : WriteContext) : Links (previewWrite ttlMs ctx) := by
  unfold previewWrite
  split
  · exact .pure _
  · refine .ask (fun _ h => by cases h) fun r => (throwConfirm_links r).bind fun created => ?_
    exact now_links fun _ => now_links fun _ =>
      (logWriteOutcome_links false rfl rfl rfl).bind fun _ => .pure _

theorem logDenied_links (ctx : WriteContext) (status : WriteStatus) (code message : JStr) :
    Links (logDenied ctx status code message) :=
  now_links fun _ => logWriteOutcome_links false rfl rfl rfl

theorem verifyApproval_links (ctx : WriteContext) : Links (verifyApproval ctx) := by
  unfold verifyApproval
  split
  · exact .throw _
  · split
    · exact (logDenied_links _ _ _ _).bind fun _ => .throw _
    · refine .tryCatch ?_ fun error => ?_
      · exact (throwIfCancelled_links _).bind fun _ =>
          .ask (fun _ h => by cases h) fun r => throwConfirm_links r
      · exact (signalAborted_links _).bind fun _ => (logDenied_links _ _ _ _).bind fun _ => .throw _

theorem logWriteFailure_links (ctx : WriteContext) (before : Option JStr) (persistSnapshots : Bool)
    (error : Thrown) : Links (logWriteFailure ctx before persistSnapshots error) :=
  now_links fun _ => timingOf_links.bind fun _ => logWriteOutcome_links false rfl rfl rfl

theorem handOver_links (ctx : WriteContext) (before : Option JStr) (persistSnapshots : Bool) :
    Links (handOver ctx before persistSnapshots) := by
  refine .tryCatch ?_ fun error => (logWriteFailure_links _ _ _ _).bind fun _ => .throw _
  refine (throwIfCancelled_links _).bind fun _ => .ask (fun _ h => by cases h) fun _ => ?_
  refine (await_links _ _).bind fun raw => ?_
  split
  · exact .throw _
  · exact .pure _

theorem performWrite_links (find : JStr → Option CommandDef) (ctx : WriteContext) :
    Links (performWrite find ctx) := by
  refine (snapshot_links find _).bind fun before => turn_links fun _ => ?_
  refine (handOver_links ctx _ _).bind fun raw => timingOf_links.bind fun timing => ?_
  refine (snapshot_links find _).bind fun after => turn_links fun _ => ?_
  exact (commitAfter_links ctx).bind fun _ => .pure _

theorem recordWrite_links (ctx : WriteContext) (result : PerformedWrite) :
    Links (recordWrite ctx result) := by
  refine now_links fun ended => (logWriteOutcome_links true rfl rfl rfl).bind fun _ => ?_
  split
  · exact .pure _
  · exact .pure _

/-- **Every write call links its audit to a request of its own.** -/
theorem run_links (find : JStr → Option CommandDef) (ttlMs : Int) (call : WriteCall) :
    Links (call.run find ttlMs) := by
  rw [WriteCall.run_eq]
  refine now_links fun started => ?_
  cases call.prepared with
  | error error => exact (recordPreparationFailure_links _ _ _ _).bind fun _ => .throw _
  | ok p =>
    refine (previewWrite_links ttlMs _).bind fun preview => ?_
    cases preview with
    | some preview => exact .pure _
    | none =>
      refine (verifyApproval_links _).bind fun _ => (performWrite_links find _).bind fun performed => ?_
      exact turn_links fun _ => recordWrite_links _ _

/-! ## Reads log no audit -/

def IsAudit (o : ToolOp) : Prop := ∃ audit, o = .writeAudit audit

/-- A read tool's row, then what it returns or throws. -/
theorem readLog_avoids {f : Int → LogTiming → LogEntry} {end_ : Handling β} (h : Avoids IsAudit end_) :
    Avoids IsAudit (do
      let ended ← now
      let timing ← timingOf
      let _ ← ask (.request (f ended timing))
      end_) := by
  refine .ask (by rintro ⟨_, ⟨⟩⟩) fun ended => Avoids.bind ?_ fun timing => ?_
  · exact .ask (by rintro ⟨_, ⟨⟩⟩) fun timing => by cases timing <;> trivial
  · exact .ask (by rintro ⟨_, ⟨⟩⟩) fun _ => h

theorem readTool_audits (cmd : CommandDef) (args : Args) : Avoids IsAudit (readTool cmd args) := by
  refine .ask (by rintro ⟨_, ⟨⟩⟩) fun started => .tryCatch ?_ fun e => readLog_avoids trivial
  refine .ofExcept_bind fun command _ => .ofExcept_bind fun c _ => ?_
  refine (await_avoids (by rintro ⟨_, ⟨⟩⟩) (by rintro ⟨_, ⟨⟩⟩)).bind fun raw => ?_
  exact readLog_avoids (.ofExcept _)

/-- What every read tool avoids, no read of a run does. -/
theorem Reaches.reads_avoid {E : Env} {find : JStr → Option CommandDef} {s : Server}
    {S : ToolOp → Prop} (hr : Reaches E find s) (avoids : ∀ cmd args, Avoids S (readTool cmd args)) :
    (∀ rest ∈ s.reads, Avoids S rest) ∧
      ∀ k before (e : Event toolCalls), .read k before e ∈ s.log → ¬S e.op := by
  induction hr with
  | refl => exact ⟨(by rintro _ ⟨⟩), by rintro _ _ _ ⟨⟩⟩
  | tail _ hstep ih =>
    have hlog : ∀ {log : List Entry} {x : Entry},
        (∀ k before (e : Event toolCalls), .read k before e ∈ log → ¬S e.op) →
        (∀ k before (e : Event toolCalls), x = .read k before e → ¬S e.op) →
        ∀ k before (e : Event toolCalls), .read k before e ∈ log ++ [x] → ¬S e.op := by
      intro log x hall hx k before e he
      rcases List.mem_append.mp he with he | he
      · exact hall k before e he
      · exact hx k before e (List.mem_singleton.mp he).symm
    cases hstep with
    | submitWrite call => exact ih
    | startWrite waits turn => exact ih
    | askWrite runs => exact ⟨ih.1, hlog ih.2 fun _ _ _ h => by cases h⟩
    | endWrite runs => exact ih
    | submitRead cmd args =>
      refine ⟨fun rest hrest => ?_, ih.2⟩
      rcases List.mem_append.mp hrest with hrest | hrest
      · exact ih.1 rest hrest
      · obtain rfl := List.mem_singleton.mp hrest
        exact avoids cmd args
    | askRead runs =>
      obtain ⟨hno, hnext⟩ := ih.1 _ (List.mem_of_getElem? runs)
      refine ⟨fun rest hrest => ?_, hlog ih.2 fun k before e h => ?_⟩
      · rcases List.mem_or_eq_of_mem_set hrest with hrest | rfl
        · exact ih.1 rest hrest
        · exact hnext _
      · cases h
        exact hno
    | sign payload => exact ⟨ih.1, hlog ih.2 fun _ _ _ h => by cases h⟩

/-! ## The store beside a run -/

/-- The call in an entry. -/
def Entry.event : Entry → Option (Event toolCalls)
  | write _ _ _ e => some e
  | read _ _ e => some e
  | signed _ => none

namespace LogStore

variable {E : Env} {find : JStr → Option CommandDef} {s : Server} {store store' : LogStore}
  {db : Database} {log : List Entry}

/-- What an entry of a run does to the store; `none` where the store answers something else. -/
def record (store : LogStore) (fails : Bool) (now : IsoTime) (e : Entry) : Option LogStore :=
  match e.event with
  | some ⟨.request entry, id⟩ =>
    let r := store.request fails now entry
    if r.1 = id then some r.2 else none
  | some ⟨.writeAudit entry, _⟩ => some (store.logWriteAudit fails now entry)
  | _ => some store

/-- The store after a run with that log. Any insert may fail, and the server may close the store at
any time. -/
inductive Recorded (store : LogStore) : List Entry → LogStore → Prop
  | nil : Recorded store [] store
  | entry {log : List Entry} {store' store'' : LogStore} {e : Entry} (fails : Bool) (now : IsoTime)
      (h : Recorded store log store') (he : store'.record fails now e = some store'') :
      Recorded store (log ++ [e]) store''
  | close {log : List Entry} {store' : LogStore} (h : Recorded store log store') :
      Recorded store log store'.close

/-- The row of a request, by its columns that an audit repeats. -/
def IsRequest (r : Row JStr SqlValue) (toolId command : Option SqlValue) : Prop :=
  r.cell (js "tool_id") = toolId ∧ r.cell (js "command") = command ∧
    r.cell (js "kind") = some (.text (js "write"))

/-- Every id in `write_audit` is the id of a row in `requests`: of a write of the same tool, with
the same command. -/
def AuditsLinked (db : Database) : Prop :=
  ∀ audit ∈ db.rows writeAudit, ∀ id, audit.cell (js "request_id") = some id →
    ∃ r ∈ db.rows requests, id = .integer r.key ∧
      IsRequest r (audit.cell (js "tool_id")) (audit.cell (js "command"))

theorem request_cells (ts : IsoTime) (e : LogEntry) (kind : e.kind = .write) (key : Nat) :
    IsRequest ⟨key, Tables.cellOf (requestValues ts e)⟩ (some (.text e.toolId))
      (some (.text e.command)) := by
  have hkind : some (SqlValue.text (js "write")) = some (.text (kindText e.kind)) := by
    rw [kind]
    rfl
  exact ⟨rfl, rfl, by rw [hkind]; rfl⟩

theorem audit_request_id (ts : IsoTime) (e : WriteAuditEntry) :
    Tables.cellOf (auditValues ts e) (js "request_id") = e.requestId.map fun (id : Nat) => .integer id := by
  rfl

/-- What one insert does. -/
theorem insert_cases (store : LogStore) (fails : Bool) {table : JStr}
    {values : List (JStr × Option SqlValue)} :
    store.insert fails table values = (none, store) ∨
    ∃ key db, store.db.insert table values = some (key, db) ∧
      store.insert fails table values = (some key, { store with db := db }) := by
  unfold insert
  split
  · exact .inl rfl
  · cases h : store.db.insert table values with
    | none => exact .inl rfl
    | some r => exact .inr ⟨r.1, r.2, rfl, rfl⟩

theorem requests_ne_writeAudit : requests ≠ writeAudit := by decide

/-- A request leaves the audits, and adds a row under the id it answers. -/
theorem rows_request (store : LogStore) (fails : Bool) (now : IsoTime) (e : LogEntry) :
    (store.request fails now e).2.db.rows writeAudit = store.db.rows writeAudit ∧
    store.db.rows requests ⊆ (store.request fails now e).2.db.rows requests ∧
    ∀ id, (store.request fails now e).1 = some id → e.kind = .write →
      ∃ r ∈ (store.request fails now e).2.db.rows requests, r.key = id ∧
        IsRequest r (some (.text e.toolId)) (some (.text e.command)) := by
  unfold request logRequest
  rcases insert_cases store fails with hsame | ⟨key, db, hdb, hinsert⟩
  · rw [hsame]
    exact ⟨rfl, fun _ h => h, fun _ h => by cases h⟩
  · rw [hinsert]
    dsimp only
    rw [Tables.rows_insert hdb, Tables.rows_insert hdb, if_neg requests_ne_writeAudit.symm, if_pos rfl]
    refine ⟨rfl, List.subset_append_left _ _, fun id hid kind => ?_⟩
    obtain rfl := Option.some.inj hid
    refine ⟨_, List.mem_append_right _ (List.mem_singleton.mpr rfl), rfl, ?_⟩
    exact request_cells now { e with
      respondedAt := some (e.respondedAt.getD now)
      requestedAt := some (e.requestedAt.getD now) } kind key

/-- An audit leaves the requests, and adds a row at most. -/
theorem rows_logWriteAudit (store : LogStore) (fails : Bool) (ts : IsoTime) (e : WriteAuditEntry) :
    (store.logWriteAudit fails ts e).db.rows requests = store.db.rows requests ∧
    ∀ r ∈ (store.logWriteAudit fails ts e).db.rows writeAudit, r ∈ store.db.rows writeAudit ∨
      r.cell = Tables.cellOf (auditValues ts e) := by
  unfold logWriteAudit
  rcases insert_cases store fails with hsame | ⟨key, db, hdb, hinsert⟩
  · rw [hsame]
    exact ⟨rfl, fun _ h => .inl h⟩
  · rw [hinsert]
    dsimp only
    rw [Tables.rows_insert hdb, Tables.rows_insert hdb, if_neg requests_ne_writeAudit, if_pos rfl]
    refine ⟨rfl, fun r hr => ?_⟩
    rcases List.mem_append.mp hr with hr | hr
    · exact .inl hr
    · obtain rfl := List.mem_singleton.mp hr
      exact .inr rfl

/-! ## Links over a run -/

/-- What the store holds after a log: linked audits, and each write's request under the id that the
log has for it. -/
structure Follows (log : List Entry) (db : Database) : Prop where
  linked : AuditsLinked db
  requested : ∀ e ∈ log, ∀ entry id, e.event = some ⟨.request entry, some id⟩ → entry.kind = .write →
    ∃ r ∈ db.rows requests, r.key = id ∧ IsRequest r (some (.text entry.toolId)) (some (.text entry.command))

/-- An entry that may follow a log: an audit in it names a request of the log. -/
def MayFollow (log : List Entry) (e : Entry) : Prop :=
  ∀ audit a, e.event = some ⟨.writeAudit audit, a⟩ → ∀ id, audit.requestId = some id →
    ∃ prior ∈ log, ∃ request, prior.event = some ⟨.request request, some id⟩ ∧
      request.toolId = audit.toolId ∧ request.command = audit.command ∧ request.kind = .write

/-- The rows that the monitor has after a record. -/
def rowsAfter (rows : Rows) (events : List (Event toolCalls)) : Rows := linkMonitor.after rows events

/-- They are requests of the record. -/
theorem mem_rowsAfter {events : List (Event toolCalls)} {id : Nat} {request : LogEntry} {rows : Rows}
    (h : (id, request) ∈ rowsAfter rows events) :
    (id, request) ∈ rows ∨ ⟨.request request, some id⟩ ∈ events := by
  induction events generalizing rows with
  | nil => exact .inl h
  | cons e rest ih =>
    rcases ih h with hmem | hmem
    · match e, hmem with
      | ⟨.request request', some id'⟩, hmem =>
        rcases List.mem_append.mp hmem with hmem | hmem
        · exact .inl hmem
        · cases List.mem_singleton.mp hmem
          exact .inr (List.mem_cons_self ..)
      | ⟨.request _, none⟩, hmem => exact .inl hmem
      | ⟨.now, _⟩, hmem | ⟨.aborted _, _⟩, hmem | ⟨.create _ _ _ _, _⟩, hmem
      | ⟨.consumeSigned _ _ _, _⟩, hmem | ⟨.send _ _, _⟩, hmem | ⟨.reply _, _⟩, hmem
      | ⟨.turn, _⟩, hmem | ⟨.timing, _⟩, hmem | ⟨.writeAudit _, _⟩, hmem => exact .inl hmem
    · exact .inr (List.mem_cons_of_mem _ hmem)

theorem event_of_eventOf {k : Nat} {e : Entry} {event : Event toolCalls} (h : e.eventOf k = some event) :
    e.event = some event := by
  cases e with
  | write number call before e =>
    by_cases hk : number = k
    · exact (if_pos hk).symm.trans h
    · cases (if_neg hk).symm.trans h
  | read _ _ _ => cases h
  | signed _ => cases h

/-- **In every run**, an audit names a request that came before it. -/
theorem Reaches.mayFollow (hr : Reaches E find s) {e : Entry} {rest : List Entry}
    (hlog : s.log = log ++ e :: rest) : MayFollow log e := by
  intro audit a he id hid
  cases e with
  | signed _ => cases he
  | read k before e =>
    cases he
    refine absurd ⟨audit, rfl⟩ ((hr.reads_avoid readTool_audits).2 k before ⟨.writeAudit audit, a⟩ ?_)
    rw [hlog]
    exact List.mem_append_right _ (List.mem_cons_self ..)
  | write k call before e =>
    cases he
    have haccepts := hr.accepts (fun call => run_links find E.gate.ttlMs call []) k
    have hevent : Entry.eventOf k (.write k call before ⟨.writeAudit audit, a⟩) =
        some ⟨.writeAudit audit, a⟩ := if_pos rfl
    rw [hlog, List.filterMap_append, List.filterMap_cons_some hevent] at haccepts
    obtain ⟨request, hmem, htool, hcommand, hkind⟩ := haccepts.allows id hid
    rcases mem_rowsAfter hmem with hmem | hmem
    · exact absurd hmem List.not_mem_nil
    · obtain ⟨prior, hprior, hevent : Entry.eventOf k prior = _⟩ := List.mem_filterMap.mp hmem
      exact ⟨prior, hprior, request, event_of_eventOf hevent, htool, hcommand, hkind⟩

/-- An entry that only the store is not concerned with. -/
theorem Follows.same {e : Entry} (h : Follows log db)
    (he : ∀ entry id, e.event ≠ some ⟨.request entry, some id⟩) : Follows (log ++ [e]) db where
  linked := h.linked
  requested e' he' entry id hevent hkind := by
    rcases List.mem_append.mp he' with he' | he'
    · exact h.requested e' he' entry id hevent hkind
    · obtain rfl := List.mem_singleton.mp he'
      exact absurd hevent (he entry id)

/-- A request keeps the links, and has its row. -/
theorem Follows.request {e : Entry} {fails : Bool} {now : IsoTime} {entry : LogEntry}
    (h : Follows log store'.db) (he : e.event = some ⟨.request entry, (store'.request fails now entry).1⟩) :
    Follows (log ++ [e]) (store'.request fails now entry).2.db := by
  obtain ⟨haudits, hrequests, hnew⟩ := rows_request store' fails now entry
  refine ⟨fun audit haudit id hid => ?_, fun e' he' entry' id hevent kind => ?_⟩
  · rw [haudits] at haudit
    obtain ⟨r, hr, hkey, hcells⟩ := h.linked audit haudit id hid
    exact ⟨r, hrequests hr, hkey, hcells⟩
  · rcases List.mem_append.mp he' with he' | he'
    · obtain ⟨r, hr, hkey, hcells⟩ := h.requested e' he' entry' id hevent kind
      exact ⟨r, hrequests hr, hkey, hcells⟩
    · obtain rfl := List.mem_singleton.mp he'
      rw [he] at hevent
      injection hevent with hevent
      injection hevent with hop hans
      cases hop
      exact hnew id hans kind

/-- An audit keeps the links where its request is in the log. -/
theorem Follows.audit {e : Entry} {fails : Bool} {now : IsoTime} {audit : WriteAuditEntry} {a : Unit}
    (h : Follows log store'.db) (hmay : MayFollow log e) (he : e.event = some ⟨.writeAudit audit, a⟩) :
    Follows (log ++ [e]) (store'.logWriteAudit fails now audit).db := by
  obtain ⟨hrequests, haudits⟩ := rows_logWriteAudit store' fails now audit
  have hsame : Follows (log ++ [e]) store'.db := h.same fun _ _ hevent => by
    rw [he] at hevent
    cases hevent
  refine ⟨fun r hr id hid => ?_, by rw [hrequests]; exact hsame.requested⟩
  rw [hrequests]
  rcases haudits r hr with hold | hcell
  · exact h.linked r hold id hid
  · rw [hcell] at hid ⊢
    rw [audit_request_id] at hid
    obtain ⟨n, hrequest, rfl⟩ := Option.map_eq_some_iff.mp hid
    obtain ⟨prior, hprior, request, hevent, htool, hcommand, hkind⟩ := hmay audit a he n hrequest
    obtain ⟨row, hrow, rfl, hcells⟩ := h.requested prior hprior request n hevent hkind
    rw [htool, hcommand] at hcells
    exact ⟨row, hrow, rfl, hcells⟩

theorem Follows.record {e : Entry} {fails : Bool} {now : IsoTime} {store'' : LogStore}
    (h : Follows log store'.db) (hmay : MayFollow log e)
    (he : store'.record fails now e = some store'') : Follows (log ++ [e]) store''.db := by
  unfold LogStore.record at he
  split at he
  · next entry id hevent =>
    dsimp only at he
    split at he
    · next hid =>
      obtain rfl := Option.some.inj he
      exact h.request (hid ▸ hevent)
    · cases he
  · next audit a hevent =>
    obtain rfl := Option.some.inj he
    exact h.audit hmay hevent
  · next hrequest haudit =>
    obtain rfl := Option.some.inj he
    exact h.same fun entry id hevent => hrequest entry (some id) hevent

theorem Recorded.follows (linked : AuditsLinked store.db) (h : Recorded store log store')
    (hr : Reaches E find s) {rest : List Entry} (hlog : s.log = log ++ rest) :
    Follows log store'.db := by
  induction h generalizing rest with
  | nil => exact ⟨linked, by rintro _ ⟨⟩⟩
  | entry fails now h he ih =>
    rw [List.append_assoc] at hlog
    exact (ih hlog).record (Reaches.mayFollow hr hlog) he
  | close h ih => exact ih hlog

/-! ## Links over the life of a database -/

/-- Opening a store adds no row and changes none. -/
theorem opened_rows {faults : Nat → Bool} {table : JStr} :
    (opened faults db).2.rows table = db.rows table := by
  have setup_rows : ∀ o w, (setup faults o w).2.db.rows table = w.db.rows table := by
    intro o w
    unfold setup
    dsimp only
    split
    · rfl
    · split
      · split
        · next hrun => exact Tables.rows_run hrun
        · rfl
      · rfl
      · rfl
  exact (exec_steps (h := setup faults) openStore ⟨db, 0⟩).keeps
    (R := fun w w' : SetupWorld => w'.db.rows table = w.db.rows table) (fun _ => rfl)
    (fun _ _ _ h h' => h'.trans h) (fun o w (_ : True) => setup_rows o w) fun _ _ => trivial

/-- The databases that servers leave, each after the other: a server opens the file, whatever fails
on the way, and ends anywhere in its run. -/
inductive Lived (before : Database) : Database → Prop
  | before : Lived before before
  | session {db : Database} {E : Env} {find : JStr → Option CommandDef} {s : Server}
      {faults : Nat → Bool} {store : LogStore} (h : Lived before db) (run : Reaches E find s)
      (recorded : Recorded ⟨(opened faults db).2, (opened faults db).1⟩ s.log store) :
      Lived before store.db

/-- **Audits stay linked.** However many servers log to a database one after another, and whatever
inserts fail, an id in `write_audit` is the id of a request: of a write of the same tool, with the
same command. -/
theorem audit_links_hold {before : Database} (linked : AuditsLinked before) (h : Lived before db) :
    AuditsLinked db := by
  induction h with
  | before => exact linked
  | @session db E find s faults store _ run recorded ih =>
    have hopened : AuditsLinked (opened faults db).2 := by
      unfold AuditsLinked
      rw [opened_rows, opened_rows]
      exact ih
    exact (recorded.follows hopened run (List.append_nil s.log).symm).linked

/-- A store that refuses nothing, beside a run. -/
def recordAll (store : LogStore) (now : IsoTime) (log : List Entry) : Option LogStore :=
  log.foldlM (fun store e => store.record false now e) store

theorem recorded_recordAll {now : IsoTime} (h : store.recordAll now log = some store') :
    Recorded store log store' := by
  induction log using List.reverseRecOn generalizing store' with
  | nil =>
    obtain rfl := Option.some.inj h
    exact .nil
  | append_singleton log e ih =>
    unfold recordAll at h
    rw [List.foldlM_append] at h
    obtain ⟨before, hbefore, h⟩ := Option.bind_eq_some_iff.mp h
    obtain ⟨after, hafter, h⟩ := Option.bind_eq_some_iff.mp h
    obtain rfl := Option.some.inj h
    exact (ih hbefore).entry false now hafter

/-- The rows of a new log get the ids 1, 2, … -/
def loggedEnv : Env := { userEnv with rowId := fun n => some (n + 1) }

/-- A new log after a preview and the write it was for. -/
def setdefaultLogged : Option LogStore :=
  LogStore.recordAll ⟨(opened noFaults .empty).2, (opened noFaults .empty).1⟩ (iso noon)
    (approvedRun loggedEnv noTools setdefaultPreview setdefaultApproved signedSetdefault.payload).log

theorem audit_links_hold_setdefault : ∃ db, AuditsLinked db ∧
    (db.rows writeAudit).map (fun r => r.cell (js "request_id")) = [none, some (.integer 3)] := by
  have hids : setdefaultLogged.map (fun store =>
      (store.db.rows writeAudit).map fun r => r.cell (js "request_id")) =
      some [none, some (.integer 3)] := by
    decide +kernel
  obtain ⟨store, hstore, hrows⟩ := Option.map_eq_some_iff.mp hids
  refine ⟨store.db, ?_, hrows⟩
  have new : AuditsLinked .empty := by rintro _ ⟨⟩
  exact audit_links_hold new
    (.session .before approvedRun_reaches (recorded_recordAll hstore))

end LogStore

end VigorMcp
