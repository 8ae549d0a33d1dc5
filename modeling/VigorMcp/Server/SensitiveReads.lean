import VigorMcp.Commands.WriteSecrets
import VigorMcp.Server.Moves

/-!
# Sensitive output and the log

Two runs of the server under one schedule and one environment, but for the text
that the router answers to sensitive reads: calls of read tools that are flagged
`sensitiveOutput` and have no formatter, and snapshots by such tools. Both runs
submit the same rows (`sensitive_output_unlogged`).
-/

namespace VigorMcp

open Prog

/-! ## Alike answers -/

/-- The reply to a read. -/
def IsReadReply : ToolOp → Prop
  | .reply .readTool => True
  | .reply .snapshot => True
  | _ => False

/-- Equal replies; of a sensitive read, two that both have a text. -/
def RepliesAlike (sensitive : Bool) (r r' : Except VigorCommandError JStr) : Prop :=
  r = r' ∨ (sensitive = true ∧ ∃ raw raw', r = .ok raw ∧ r' = .ok raw')

/-- Equal answers, but for the replies to sensitive reads. -/
def AnswersAlike (sensitive : Bool) : (o : ToolOp) → toolCalls.Ans o → toolCalls.Ans o → Prop
  | .reply .readTool, r, r' => RepliesAlike sensitive r r'
  | .reply .snapshot, r, r' => RepliesAlike sensitive r r'
  | _, a, a' => a = a'

theorem RepliesAlike.eq {r r' : Except VigorCommandError JStr} (h : RepliesAlike false r r') :
    r = r' := by
  rcases h with h | ⟨h, -⟩
  · exact h
  · cases h

theorem AnswersAlike.eq (o : ToolOp) (a a' : toolCalls.Ans o) (h : AnswersAlike false o a a') :
    a = a' := by
  cases o with
  | reply site =>
    cases site with
    | readTool => exact RepliesAlike.eq h
    | snapshot => exact RepliesAlike.eq h
    | _ => exact h
  | _ => exact h

theorem AnswersAlike.eq_of_not {sensitive : Bool} (o : ToolOp) (a a' : toolCalls.Ans o)
    (ho : ¬IsReadReply o) (h : AnswersAlike sensitive o a a') : a = a' := by
  cases o with
  | reply site =>
    cases site with
    | readTool => exact absurd trivial ho
    | snapshot => exact absurd trivial ho
    | _ => exact h
  | _ => exact h

theorem isReadReply_spares : Spares IsReadReply fun _ _ => True where
  look o ho := by
    cases o with
    | reply site => cases ho
    | _ => exact id
  request _ _ := id
  writeAudit _ _ := id

/-! ## Handlers of sensitive reads -/

section

variable {sensitive : Bool}

theorem alike_twin {α : Type} {p : Handling α} (h : Avoids IsReadReply p) :
    Twin (AnswersAlike sensitive) Eq Eq p p := .self AnswersAlike.eq_of_not h

theorem tryCatch_alike {α : Type} {ok : α → α → Prop} {p p' : Handling α}
    {f f' : Thrown → Handling α} (hp : Twin (AnswersAlike sensitive) ok Eq p p')
    (hf : ∀ e, Twin (AnswersAlike sensitive) ok Eq (f e) (f' e)) :
    Twin (AnswersAlike sensitive) ok Eq (tryCatch p f) (tryCatch p' f') := by
  refine .tryCatch hp ?_
  rintro e _ rfl
  exact hf e

/-- An awaited read ends alike: with texts, or with one error. -/
theorem await_alike (site : Site) (h : IsReadReply (.reply site)) (c : ClientCall) :
    Twin (AnswersAlike sensitive) (fun _ _ => True) Eq (await site c) (await site c) := by
  refine .ask fun _ _ _ => .ask fun r r' hr => ?_
  have halike : RepliesAlike sensitive r r' := by
    cases site with
    | readTool => exact hr
    | snapshot => exact hr
    | _ => cases h
  rcases halike with rfl | ⟨-, raw, raw', rfl, rfl⟩
  · cases r with
    | ok raw => exact .ret trivial
    | error e => exact .raise rfl
  · exact .ret trivial

theorem snapshot_alike (find : JStr → Option CommandDef) (snapshotRead : Option JStr) :
    Twin (AnswersAlike sensitive) (fun _ _ => True) Eq (snapshot find snapshotRead)
      (snapshot find snapshotRead) := by
  rw [snapshot_eq]
  cases snapshotCall find snapshotRead with
  | none => exact .ret trivial
  | some c =>
    exact tryCatch_alike ((await_alike .snapshot trivial c).bind fun _ _ _ => .ret trivial)
      fun _ => .ret trivial

/-- A read tool that shows the router's output as it is and keeps it out of the log. -/
def CommandDef.keepsOutput (cmd : CommandDef) : Bool :=
  cmd.sensitiveOutput.getD false && cmd.format.isNone

theorem readTool_alike (cmd : CommandDef) (args : Args) :
    Twin (AnswersAlike cmd.keepsOutput) (fun _ _ => True) Eq (readTool cmd args)
      (readTool cmd args) := by
  cases hkeeps : cmd.keepsOutput with
  | false => exact (Twin.refl AnswersAlike.eq _).mono fun _ _ _ => trivial
  | true =>
    obtain ⟨hsensitive, hformat⟩ := Bool.and_eq_true_iff.mp hkeeps
    have hshown : ∀ raw, formatOutput cmd args raw = .ok (.str raw) := by
      intro raw
      unfold formatOutput
      rw [Option.isNone_iff_eq_none.mp hformat]
    have hempty : ∀ raw, (if cmd.sensitiveOutput.getD false then none else some raw : Option JStr) =
        none := fun raw => if_pos hsensitive
    refine .bind (alike_twin (.op id)) ?_
    rintro started _ rfl
    refine tryCatch_alike ?_ fun e => ?_
    · refine .bind (alike_twin (.ofExcept _)) ?_
      rintro command _ rfl
      refine .bind (alike_twin (.ofExcept _)) ?_
      rintro c _ rfl
      refine .bind (await_alike .readTool trivial c) fun raw raw' _ => ?_
      refine .bind (alike_twin (.op id)) ?_
      rintro ended _ rfl
      refine .bind (alike_twin (timingOf_avoids isReadReply_spares)) ?_
      rintro timing _ rfl
      rw [hempty raw, hempty raw', hshown, hshown]
      exact .bind (alike_twin (.op id)) fun _ _ _ => .ret trivial
    · refine .bind (alike_twin (.op id)) ?_
      rintro ended _ rfl
      refine .bind (alike_twin (timingOf_avoids isReadReply_spares)) ?_
      rintro timing _ rfl
      exact .bind (alike_twin (.op id)) fun _ _ _ => .raise rfl

/-! ## Writes with a sensitive snapshot -/

/-- Without persistence the rows of a failure do not depend on the snapshot. -/
theorem handOver_alike (ctx : WriteContext) (before before' : Option JStr) :
    Twin (AnswersAlike sensitive) Eq Eq (handOver ctx before false) (handOver ctx before' false) := by
  have hsame : handOver ctx before' false = handOver ctx before false := rfl
  rw [hsame]
  exact alike_twin (handOver_avoids isReadReply_spares trivial (fun _ => id) id _ _)

theorem recordWrite_alike (ctx : WriteContext) {result : PerformedWrite}
    (hpersist : result.persistSnapshots = false) (before after : Option JStr) :
    Twin (AnswersAlike sensitive) (fun _ _ => True) Eq (recordWrite ctx result)
      (recordWrite ctx { result with before := before, after := after }) := by
  unfold recordWrite
  simp only [hpersist, Bool.false_eq_true, ↓reduceIte]
  refine .bind (alike_twin (.op id)) ?_
  rintro ended _ rfl
  refine .bind (alike_twin (logWriteOutcome_avoids isReadReply_spares trivial trivial _))
    fun _ _ _ => ?_
  split
  · exact .ret trivial
  · exact .ret trivial

theorem performWrite_alike {find : JStr → Option CommandDef} {ctx : WriteContext}
    (hpersist : canPersistSnapshots find ctx.cmd = false) :
    Twin (AnswersAlike sensitive)
      (fun a a' => a.persistSnapshots = false ∧ a' = { a with before := a'.before, after := a'.after })
      Eq (performWrite find ctx) (performWrite find ctx) := by
  unfold performWrite
  rw [hpersist]
  refine .bind (snapshot_alike find _) fun before before' _ => ?_
  refine .bind (alike_twin (.op id)) fun _ _ _ => ?_
  refine .bind (handOver_alike ctx before before') ?_
  rintro raw _ rfl
  refine .bind (alike_twin (timingOf_avoids isReadReply_spares)) ?_
  rintro timing _ rfl
  refine .bind (snapshot_alike find _) fun after after' _ => ?_
  refine .bind (alike_twin (.op id)) fun _ _ _ => ?_
  refine .bind (alike_twin (commitAfter_avoids isReadReply_spares trivial (fun _ => id) id _)) ?_
  rintro status _ rfl
  exact .ret ⟨rfl, rfl⟩

/-- A write call runs alike for any texts that its sensitive snapshots are given. -/
theorem run_alike (find : JStr → Option CommandDef) (ttlMs : Int) (call : WriteCall) :
    Twin (AnswersAlike !canPersistSnapshots find call.cmd) (fun _ _ => True) Eq
      (call.run find ttlMs) (call.run find ttlMs) := by
  cases hpersist : canPersistSnapshots find call.cmd with
  | true => exact (Twin.refl AnswersAlike.eq _).mono fun _ _ _ => trivial
  | false =>
    rw [WriteCall.run_eq]
    refine .bind (alike_twin (.op id)) ?_
    rintro started _ rfl
    cases call.prepared with
    | error error =>
      exact .bind (alike_twin (recordPreparationFailure_avoids isReadReply_spares trivial _ _ _))
        fun _ _ _ => .raise rfl
    | ok p =>
      refine .bind (alike_twin (previewWrite_avoids isReadReply_spares (fun _ _ _ _ => id) _
        trivial)) ?_
      rintro (_ | preview) _ rfl
      · refine .bind (alike_twin (verifyApproval_avoids isReadReply_spares (fun _ _ _ => id)
          trivial)) fun _ _ _ => ?_
        refine .bind (performWrite_alike hpersist) ?_
        rintro performed performed' ⟨hnone, hsame⟩
        refine .bind (alike_twin (.op id)) fun _ _ _ => ?_
        rw [hsame]
        exact recordWrite_alike _ hnone _ _
      · exact .ret trivial

end

/-! ## Two runs side by side -/

/-- What an entry called on the rest of the server. -/
def Entry.op : Entry → Option ToolOp
  | write _ _ _ e => some e.op
  | read _ _ e => some e.op
  | signed _ => none

/-- The rows of a log, in the order they were submitted. -/
def submittedRows (log : List Entry) : List LogEntry × List WriteAuditEntry :=
  (log.filterMap fun e => e.op.bind requestOf, log.filterMap fun e => e.op.bind auditOf)

/-- Phases of one call in two runs. -/
inductive PhasesAlike (sensitive : Bool) : Phase → Phase → Prop
  | waiting : PhasesAlike sensitive .waiting .waiting
  | running {rest rest' : Handling WriteBody}
      (twin : Twin (AnswersAlike sensitive) (fun _ _ => True) Eq rest rest') :
      PhasesAlike sensitive (.running rest) (.running rest')
  | settled {result result' : Except Thrown WriteBody} :
      PhasesAlike sensitive (.settled result) (.settled result')

/-- A write call in two runs. -/
structure TwinTask (find : JStr → Option CommandDef) where
  call : WriteCall
  phase : Phase
  phase' : Phase
  alike : PhasesAlike (!canPersistSnapshots find call.cmd) phase phase'

/-- A read call in two runs. -/
structure TwinRead where
  cmd : CommandDef
  rest : Handling JsValue
  rest' : Handling JsValue
  twin : Twin (AnswersAlike cmd.keepsOutput) (fun _ _ => True) Eq rest rest'

/-- A server in two runs: one world, calls that are as far as each other, and logs of the same
calls. -/
structure TwinServer (find : JStr → Option CommandDef) where
  world : World
  writes : List (TwinTask find)
  reads : List TwinRead
  log : List Entry
  log' : List Entry
  same : log'.map Entry.op = log.map Entry.op

namespace TwinServer

variable {E : Env} {find : JStr → Option CommandDef} {replies : Nat → Except VigorCommandError JStr}

def new (find : JStr → Option CommandDef) : TwinServer find := ⟨.new, [], [], [], [], rfl⟩

def left (T : TwinServer find) : Server where
  world := T.world
  writes := T.writes.map fun t => ⟨t.call, t.phase⟩
  reads := T.reads.map TwinRead.rest
  log := T.log

def right (T : TwinServer find) : Server where
  world := T.world
  writes := T.writes.map fun t => ⟨t.call, t.phase'⟩
  reads := T.reads.map TwinRead.rest'
  log := T.log'

theorem submittedRows_eq (T : TwinServer find) :
    submittedRows T.right.log = submittedRows T.left.log := by
  have hrows : ∀ {β : Type} (f : ToolOp → Option β),
      T.log'.filterMap (fun e => e.op.bind f) = T.log.filterMap fun e => e.op.bind f := by
    intro β f
    have hmap : ∀ log : List Entry, log.filterMap (fun e => e.op.bind f) =
        (log.map Entry.op).filterMap fun o => o.bind f := fun log => by
      rw [List.filterMap_map]
      rfl
    rw [hmap, hmap, T.same]
  exact Prod.ext (hrows requestOf) (hrows auditOf)

end TwinServer

/-! ## Environments that differ in sensitive replies -/

/-- The environment with other replies to reads. -/
def Env.withReplies (E : Env) (replies : Nat → Except VigorCommandError JStr) : Env :=
  { E with readReply := replies }

/-- The tools of the read calls that a schedule submits, in order. -/
def submittedReads (moves : List Move) : List CommandDef :=
  moves.filterMap fun m => match m with
    | .submitRead cmd _ => some cmd
    | _ => none

theorem submittedReads_append (moves moves' : List Move) :
    submittedReads (moves ++ moves') = submittedReads moves ++ submittedReads moves' :=
  List.filterMap_append

/-- The replies agree on what the entry reads, but for the text of a sensitive read. -/
def Entry.Agrees (find : JStr → Option CommandDef) (reads : List CommandDef)
    (replies replies' : Nat → Except VigorCommandError JStr) : Entry → Prop
  | write _ call before e => IsReadReply e.op →
    RepliesAlike (!canPersistSnapshots find call.cmd) (replies before.reads) (replies' before.reads)
  | read k before e => IsReadReply e.op → ∀ cmd, reads[k]? = some cmd →
    RepliesAlike cmd.keepsOutput (replies before.reads) (replies' before.reads)
  | signed _ => True

theorem Entry.Agrees.mono {find : JStr → Option CommandDef} {reads reads' : List CommandDef}
    {replies replies' : Nat → Except VigorCommandError JStr} {e : Entry}
    (h : e.Agrees find reads' replies replies')
    (hreads : ∀ (k : Nat) (cmd : CommandDef), reads[k]? = some cmd → reads'[k]? = some cmd) :
    e.Agrees find reads replies replies' := by
  cases e with
  | read k before e => exact fun ho cmd hk => h ho cmd (hreads k cmd hk)
  | _ => exact h

theorem answer_alike (E : Env) (replies : Nat → Except VigorCommandError JStr) {sensitive : Bool}
    (o : ToolOp) {w : World}
    (h : IsReadReply o → RepliesAlike sensitive (E.readReply w.reads) (replies w.reads)) :
    AnswersAlike sensitive o (answer E o w).1 (answer (E.withReplies replies) o w).1 ∧
      (answer (E.withReplies replies) o w).2 = (answer E o w).2 := by
  cases o with
  | reply site =>
    cases site with
    | readTool => exact ⟨h trivial, rfl⟩
    | snapshot => exact ⟨h trivial, rfl⟩
    | _ => exact ⟨rfl, rfl⟩
  | _ => exact ⟨rfl, rfl⟩

namespace TwinServer

variable {E : Env} {find : JStr → Option CommandDef} {replies : Nat → Except VigorCommandError JStr}

theorem write_of_left {T : TwinServer find} {k : Nat} {call : WriteCall} {phase : Phase}
    (h : T.left.writes[k]? = some ⟨call, phase⟩) :
    ∃ phase' alike, T.writes[k]? = some ⟨call, phase, phase', alike⟩ := by
  have hmap : (T.writes.map fun t => (⟨t.call, t.phase⟩ : WriteTask))[k]? = some ⟨call, phase⟩ := h
  rw [List.getElem?_map] at hmap
  obtain ⟨t, ht, heq⟩ := Option.map_eq_some_iff.mp hmap
  obtain ⟨rfl, rfl⟩ := WriteTask.mk.inj heq
  exact ⟨t.phase', t.alike, ht⟩

theorem write_right {T : TwinServer find} {k : Nat} {t : TwinTask find} (h : T.writes[k]? = some t) :
    T.right.writes[k]? = some ⟨t.call, t.phase'⟩ := by
  show (T.writes.map fun t => (⟨t.call, t.phase'⟩ : WriteTask))[k]? = _
  rw [List.getElem?_map, h]
  rfl

/-- What a settled call is in the other run. -/
theorem settled_right {T : TwinServer find} {k : Nat}
    (h : ∀ j task, j < k → T.left.writes[j]? = some task → ∃ result, task.phase = .settled result) :
    ∀ j task, j < k → T.right.writes[j]? = some task → ∃ result, task.phase = .settled result := by
  intro j task hj hget
  have hmap : (T.writes.map fun t => (⟨t.call, t.phase'⟩ : WriteTask))[j]? = some task := hget
  rw [List.getElem?_map] at hmap
  obtain ⟨⟨call, phase, phase', alike⟩, ht, rfl⟩ := Option.map_eq_some_iff.mp hmap
  have hleft : T.left.writes[j]? = some ⟨call, phase⟩ := by
    show (T.writes.map fun t => (⟨t.call, t.phase⟩ : WriteTask))[j]? = _
    rw [List.getElem?_map, ht]
    rfl
  obtain ⟨result, rfl⟩ := h j _ hj hleft
  cases alike with
  | settled => exact ⟨_, rfl⟩

theorem set_of_getElem? {α : Type} {l : List α} {k : Nat} {a : α} (h : l[k]? = some a) :
    l.set k a = l := by
  obtain ⟨hlt, rfl⟩ := List.getElem?_eq_some_iff.mp h
  exact List.set_getElem_self hlt

/-- A move only adds to the log. -/
theorem move_log {m : Move} {s s' : Server} (h : s.move E find m = some s') {e : Entry}
    (he : e ∈ s.log) : e ∈ s'.log := by
  cases Server.step_iff_move.mpr ⟨m, h⟩ with
  | askWrite _ => exact List.mem_append_left _ he
  | askRead _ => exact List.mem_append_left _ he
  | sign _ => exact List.mem_append_left _ he
  | _ => exact he

theorem ofExcept_right {sensitive : Bool} {result : Except Thrown WriteBody}
    {rest' : Handling WriteBody}
    (twin : Twin (AnswersAlike sensitive) (fun _ _ => True) Eq (Prog.ofExcept result) rest') :
    ∃ result', rest' = Prog.ofExcept result' := by
  cases result with
  | ok body =>
    cases twin with
    | @ret _ body' _ => exact ⟨.ok body', rfl⟩
  | error e =>
    cases twin with
    | @raise _ e' _ => exact ⟨.error e', rfl⟩

/-- The right run follows a move of the left one. -/
def Follows (E : Env) (replies : Nat → Except VigorCommandError JStr) (T : TwinServer find)
    (m : Move) (s : Server) : Prop :=
  ∃ T' : TwinServer find, T'.left = s ∧
    T.right.move (E.withReplies replies) find m = some T'.right ∧
    T'.reads.map TwinRead.cmd = T.reads.map TwinRead.cmd ++ submittedReads [m]

theorem follows_startWrite (T : TwinServer find) {k : Nat} {s : Server}
    (hmove : T.left.move E find (.startWrite k) = some s) :
    T.Follows E replies (.startWrite k) s := by
  obtain ⟨call, hk, hsettled, rfl⟩ := Server.move_startWrite.mp hmove
  obtain ⟨phase', alike, ht⟩ := write_of_left hk
  cases alike
  refine ⟨{ T with writes := T.writes.set k ⟨call, _, _,
    .running (run_alike find E.gate.ttlMs call)⟩ }, ?_, ?_, ?_⟩
  · simp [left, List.map_set]
  · refine Server.move_startWrite.mpr ⟨call, write_right ht, settled_right hsettled, ?_⟩
    simp [right, List.map_set, Env.withReplies]
  · simp [submittedReads]

theorem follows_askWrite (T : TwinServer find) {k : Nat} {s : Server}
    (hmove : T.left.move E find (.askWrite k) = some s)
    (hagree : ∀ e ∈ s.log, e.Agrees find (T.reads.map TwinRead.cmd) E.readReply replies) :
    T.Follows E replies (.askWrite k) s := by
  obtain ⟨call, o, next, hk, rfl⟩ := Server.move_askWrite.mp hmove
  obtain ⟨phase', alike, ht⟩ := write_of_left hk
  cases alike with
  | running twin =>
    cases twin with
    | @ask _ _ next' h =>
      have hentry := hagree (.write k call T.world (answered E o T.world)) (by simp [left])
      obtain ⟨ha, hw⟩ := answer_alike E replies o hentry
      refine ⟨{ T with
        world := (answer E o T.world).2
        writes := T.writes.set k ⟨call, _, _, .running (h _ _ ha)⟩
        log := T.log ++ [.write k call T.world (answered E o T.world)]
        log' := T.log' ++ [.write k call T.world (answered (E.withReplies replies) o T.world)]
        same := by simp [T.same, Entry.op, answered] }, ?_, ?_, ?_⟩
      · simp [left, List.map_set]
      · refine Server.move_askWrite.mpr ⟨call, o, next', write_right ht, ?_⟩
        simp [right, List.map_set, hw]
      · simp [submittedReads]

theorem follows_endWrite (T : TwinServer find) {k : Nat} {s : Server}
    (hmove : T.left.move E find (.endWrite k) = some s) :
    T.Follows E replies (.endWrite k) s := by
  obtain ⟨call, result, hk, rfl⟩ := Server.move_endWrite.mp hmove
  obtain ⟨phase', alike, ht⟩ := write_of_left hk
  cases alike with
  | running twin =>
    obtain ⟨result', rfl⟩ := ofExcept_right twin
    refine ⟨{ T with writes := T.writes.set k ⟨call, .settled result, .settled result',
      .settled⟩ }, ?_, ?_, ?_⟩
    · simp [left, List.map_set]
    · refine Server.move_endWrite.mpr ⟨call, result', write_right ht, ?_⟩
      simp [right, List.map_set]
    · simp [submittedReads]

theorem follows_askRead (T : TwinServer find) {k : Nat} {s : Server}
    (hmove : T.left.move E find (.askRead k) = some s)
    (hagree : ∀ e ∈ s.log, e.Agrees find (T.reads.map TwinRead.cmd) E.readReply replies) :
    T.Follows E replies (.askRead k) s := by
  obtain ⟨o, next, hk, rfl⟩ := Server.move_askRead.mp hmove
  have hmap : (T.reads.map TwinRead.rest)[k]? = some (.ask o next) := hk
  rw [List.getElem?_map] at hmap
  obtain ⟨⟨cmd, rest, rest', twin⟩, ht, rfl⟩ := Option.map_eq_some_iff.mp hmap
  cases twin with
  | @ask _ _ next' h =>
    have hentry := hagree (.read k T.world (answered E o T.world)) (by simp [left])
    obtain ⟨ha, hw⟩ := answer_alike E replies o fun ho => hentry ho cmd (by simp [ht])
    refine ⟨{ T with
      world := (answer E o T.world).2
      reads := T.reads.set k ⟨cmd, _, _, h _ _ ha⟩
      log := T.log ++ [.read k T.world (answered E o T.world)]
      log' := T.log' ++ [.read k T.world (answered (E.withReplies replies) o T.world)]
      same := by simp [T.same, Entry.op, answered] }, ?_, ?_, ?_⟩
    · simp [left, List.map_set]
    · have hright : T.right.reads[k]? = some (.ask o next') := by
        show (T.reads.map TwinRead.rest')[k]? = _
        rw [List.getElem?_map, ht]
        rfl
      refine Server.move_askRead.mpr ⟨o, next', hright, ?_⟩
      simp [right, List.map_set, hw]
    · have hcmd : (T.reads.map TwinRead.cmd)[k]? = some cmd := by simp [ht]
      simp [submittedReads, List.map_set, set_of_getElem? hcmd]

/-- **One move of both runs.** -/
theorem step (T : TwinServer find) {m : Move} {s : Server} (hmove : T.left.move E find m = some s)
    (hagree : ∀ e ∈ s.log, e.Agrees find (T.reads.map TwinRead.cmd) E.readReply replies) :
    T.Follows E replies m s := by
  cases m with
  | submitWrite call =>
    cases hmove
    refine ⟨{ T with writes := T.writes ++ [⟨call, .waiting, .waiting, .waiting⟩] }, ?_, ?_, ?_⟩
    · simp [left]
    · simp [right, Server.move]
    · simp [submittedReads]
  | startWrite k => exact T.follows_startWrite hmove
  | askWrite k => exact T.follows_askWrite hmove hagree
  | endWrite k => exact T.follows_endWrite hmove
  | submitRead cmd args =>
    cases hmove
    refine ⟨{ T with reads := T.reads ++ [⟨cmd, _, _, readTool_alike cmd args⟩] }, ?_, ?_, ?_⟩
    · simp [left]
    · simp [right, Server.move]
    · simp [submittedReads]
  | askRead k => exact T.follows_askRead hmove hagree
  | sign payload =>
    cases hmove
    refine ⟨{ T with
      log := T.log ++ [.signed payload]
      log' := T.log' ++ [.signed payload]
      same := by simp [T.same] }, ?_, ?_, ?_⟩
    · simp [left]
    · simp [right, Server.move]
    · simp [submittedReads]

/-- **A schedule of both runs.** -/
theorem run {moves : List Move} {s : Server} (hrun : Server.new.run E find moves = some s)
    (hagree : ∀ e ∈ s.log, e.Agrees find (submittedReads moves) E.readReply replies) :
    ∃ T : TwinServer find, T.left = s ∧
      Server.new.run (E.withReplies replies) find moves = some T.right ∧
      T.reads.map TwinRead.cmd = submittedReads moves := by
  induction moves using List.reverseRecOn generalizing s with
  | nil =>
    cases hrun
    exact ⟨TwinServer.new find, rfl, rfl, rfl⟩
  | append_singleton moves m ih =>
    rw [Server.run_concat] at hrun
    obtain ⟨s₁, hs₁, hmove⟩ := Option.bind_eq_some_iff.mp hrun
    have hprior : ∀ e ∈ s.log, e.Agrees find (submittedReads moves) E.readReply replies := by
      intro e he
      refine (hagree e he).mono fun k cmd hk => ?_
      rw [submittedReads_append,
        List.getElem?_append_left (List.getElem?_eq_some_iff.mp hk).1]
      exact hk
    obtain ⟨T, rfl, hright, htools⟩ := ih hs₁ fun e he => hprior e (move_log hmove he)
    rw [← htools] at hprior
    obtain ⟨T', rfl, hmove', htools'⟩ := T.step hmove hprior
    refine ⟨T', rfl, ?_, ?_⟩
    · rw [Server.run_concat, hright]
      exact hmove'
    · rw [htools', htools]
      exact (submittedReads_append _ _).symm

end TwinServer

/-- **Sensitive output stays out of the log.** Take any schedule of the server, and other replies to
its reads that agree on all but the text of the sensitive ones. The schedule can be run with those
too, and submits the same request and audit rows. -/
theorem sensitive_output_unlogged (E : Env) (find : JStr → Option CommandDef) (moves : List Move)
    (s : Server) (replies : Nat → Except VigorCommandError JStr)
    (hrun : Server.new.run E find moves = some s)
    (hagree : ∀ e ∈ s.log, e.Agrees find (submittedReads moves) E.readReply replies) :
    ∃ s', Server.new.run (E.withReplies replies) find moves = some s' ∧
      submittedRows s'.log = submittedRows s.log := by
  obtain ⟨T, rfl, hright, -⟩ := TwinServer.run hrun hagree
  exact ⟨T.right, hright, T.submittedRows_eq⟩

/-! ### A call of `radius_show` -/

def radiusShowTool : CommandDef where
  id := js "radius_show"
  kind := .read
  render := fun _ => .ok (js "radius show")
  accepts := fun args => args.size = 0
  confirm := none
  affectsNetwork := none
  snapshotRead := none
  secretArgs := none
  sensitiveOutput := some true
  timeoutMs := none
  skipCommit := none
  sdk := none

/-- The call comes in and makes its six calls. -/
def radiusShowMoves : List Move :=
  .submitRead radiusShowTool .empty :: List.replicate 6 (.askRead 0)

def Entry.isRead : Entry → Bool
  | read _ _ _ => true
  | _ => false

theorem radiusShow_unlogged : ∃ s s' : Server,
    Server.new.run userEnv noTools radiusShowMoves = some s ∧
    Server.new.run (userEnv.withReplies fun _ => .ok (js "radius secret abc")) noTools
      radiusShowMoves = some s' ∧ (submittedRows s.log).1.length = 1 ∧
    submittedRows s'.log = submittedRows s.log := by
  obtain ⟨s, hrun, hread, hlog⟩ : ∃ s, Server.new.run userEnv noTools radiusShowMoves = some s ∧
      s.log.all Entry.isRead = true ∧ (submittedRows s.log).1.length = 1 := ⟨_, rfl, rfl, rfl⟩
  have hagree : ∀ e ∈ s.log, e.Agrees noTools (submittedReads radiusShowMoves) userEnv.readReply
      fun _ => .ok (js "radius secret abc") := by
    intro e he
    have hread := List.all_eq_true.mp hread e he
    cases e with
    | read k before e =>
      intro _ cmd hk
      obtain rfl := List.mem_singleton.mp (List.mem_of_getElem? hk)
      exact .inr ⟨rfl, _, _, rfl, rfl⟩
    | _ => cases hread
  obtain ⟨s', hrun', hrows⟩ := sensitive_output_unlogged userEnv noTools radiusShowMoves s _ hrun
    hagree
  exact ⟨s, s', hrun, hrun', hlog, hrows⟩

end VigorMcp
