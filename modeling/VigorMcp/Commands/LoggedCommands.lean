import VigorMcp.Commands.ReadTool
import VigorMcp.Commands.WriteAudit
import VigorMcp.Tools.RedactionRoundTrip

/-!
# The commands in the log

`ToolCall` is a call of either kind of tool. A row of a call should name its
command by the tool's id or by its redacted preview (`CommandDef.Loggable`);
`logged_commands_iff` says exactly which calls log no other.
-/

namespace VigorMcp

open Prog

/-- A call of a read tool or of a write tool. -/
inductive ToolCall where
  | read (cmd : CommandDef) (args : Args)
  | write (call : WriteCall)

namespace ToolCall

def cmd : ToolCall → CommandDef
  | read cmd _ => cmd
  | write call => call.cmd

/-- The arguments that the command is rendered with. -/
def args : ToolCall → Args
  | read _ args => args
  | write call => ownArgs call.args

def trace (E : Env) (find : JStr → Option CommandDef) (w : World) :
    ToolCall → List (Event toolCalls)
  | read cmd args => ((readTool cmd args).exec (answer E) w).trace
  | write call => (call.exec E find w).trace

end ToolCall

/-- The tool id and the command of a row. -/
def commandColumn : ToolOp → Option (JStr × JStr)
  | .request entry => some (entry.toolId, entry.command)
  | .writeAudit entry => some (entry.toolId, entry.command)
  | _ => none

/-- What a tool may log as its command: its id, or the rendered command with its secrets replaced. -/
inductive CommandDef.Loggable (cmd : CommandDef) (args : Args) : JStr → Prop where
  | id : cmd.Loggable args cmd.id
  | preview {command : JStr} {r : Redacted} (rendered : cmd.render args = .ok command)
      (redacted : redactCommand command args cmd.secrets = .ok r) : cmd.Loggable args r.preview

/-- A text with placeholders, none of whose parts between them holds a secret. -/
def CommandDef.Hides (cmd : CommandDef) (args : Args) (column : JStr) : Prop :=
  ∃ T : Template UInt16, column = T.fill placeholder ∧
    ∀ k ∈ cmd.secrets, ∀ v, SecretValue args k v → ∀ t ∈ T.texts, ¬ v <:+: t

theorem CommandDef.Loggable.hides {cmd : CommandDef} {args : Args} {column : JStr}
    (h : cmd.Loggable args column) (hkeys : ∀ k ∈ cmd.secrets, SafeKey k) :
    column = cmd.id ∨ cmd.Hides args column := by
  cases h with
  | id => exact .inl rfl
  | preview rendered redacted =>
    obtain ⟨done, T, hs, hc, hmem, hm⟩ := redactCommand_masked hkeys redacted
    refine .inr ⟨T, by rw [hm.preview, funext placeholder_eq], fun k hk v hv t ht => ?_⟩
    exact hm.hidden ⟨k, v⟩ ((hmem _).mpr ⟨hk, hv⟩) t ht

/-- The row of a call: the tool's own, with a command it may log; a write has its commit's too. -/
def ToolCall.Clean : ToolCall → JStr × JStr → Prop
  | read cmd args, row => row.1 = cmd.id ∧ cmd.Loggable args row.2
  | write call, row => row = (js "sys_commit", syscommit) ∨
    (row.1 = call.cmd.id ∧ call.cmd.Loggable (ownArgs call.args) row.2)

/-- A read tool logs the rendered command as it is: it should have nothing to replace. -/
def ToolCall.NothingToHide : ToolCall → Prop
  | read cmd args => ∀ command, cmd.render args = .ok command → command = cmd.id ∨
    ∃ r, redactCommand command args cmd.secrets = .ok r ∧ r.preview = command
  | write _ => True

/-! ## Rows of other commands -/

/-- A row whose tool id and command are not in `rows`. -/
def LogsOther (rows : JStr → JStr → Prop) (o : ToolOp) : Prop :=
  ∃ row, commandColumn o = some row ∧ ¬rows row.1 row.2

theorem logsOther_spares (rows : JStr → JStr → Prop) : Spares (LogsOther rows) rows where
  look o ho := by
    rintro ⟨row, hrow, -⟩
    cases o with
    | request entry => cases ho
    | writeAudit entry => cases ho
    | _ => cases hrow
  request entry h := by
    rintro ⟨row, hrow, hnot⟩
    obtain rfl := Option.some.inj hrow
    exact hnot h
  writeAudit entry h := by
    rintro ⟨row, hrow, hnot⟩
    obtain rfl := Option.some.inj hrow
    exact hnot h

theorem not_logsOther {rows : JStr → JStr → Prop} {o : ToolOp} (h : commandColumn o = none) :
    ¬LogsOther rows o := by
  rintro ⟨row, hrow, -⟩
  rw [h] at hrow
  cases hrow

/-- What avoids other commands logs rows in `rows` alone. -/
theorem rows_of_avoids {α : Type} {rows : JStr → JStr → Prop} {p : Handling α} {E : Env} {w : World}
    (hp : Avoids (LogsOther rows) p) {row : JStr × JStr}
    (h : row ∈ (p.exec (answer E) w).trace.filterMap fun e => commandColumn e.op) :
    rows row.1 row.2 := by
  obtain ⟨e, he, hrow⟩ := List.mem_filterMap.mp h
  by_contra hnot
  exact hp.exec w e he ⟨row, hrow, hnot⟩

/-- A write call logs its tool's id, its preview, and the commit. -/
theorem WriteCall.run_avoids {S : ToolOp → Prop} {rows : JStr → JStr → Prop} (hS : Spares S rows)
    {call : WriteCall} (hid : rows call.cmd.id call.cmd.id)
    (hpreview : ∀ p, call.prepared = .ok p → rows call.cmd.id p.commandLog)
    (hcommit : rows (js "sys_commit") syscommit) (hcreate : ∀ id c p f, ¬S (.create id c p f))
    (hconsume : ∀ id c s, ¬S (.consumeSigned id c s)) (hsend : ∀ site c, ¬S (.send site c))
    (hreply : ∀ site, ¬S (.reply site)) (find : JStr → Option CommandDef) (ttlMs : Int) :
    Avoids S (call.run find ttlMs) := by
  rw [WriteCall.run_eq]
  refine .ask (hS.look _ rfl) fun started => ?_
  cases hp : call.prepared with
  | error e => exact (recordPreparationFailure_avoids hS hid _ _ _).bind fun _ => trivial
  | ok p =>
    have hrow : rows (call.context p started).cmd.id (call.context p started).commandLog :=
      hpreview p hp
    refine (previewWrite_avoids hS hcreate ttlMs hrow).bind fun preview => ?_
    cases preview with
    | some body => trivial
    | none =>
      refine (verifyApproval_avoids hS hconsume hrow).bind fun _ => ?_
      refine (performWrite_avoids hS hrow hcommit hsend hreply find).bind fun performed => ?_
      exact .ask (hS.look _ rfl) fun _ => recordWrite_avoids hS hrow performed

variable {cmd : CommandDef} {args : Args} {call : WriteCall} {E : Env}
  {find : JStr → Option CommandDef} {w : World}

theorem prepared_loggable {p : PreparedWrite} (h : call.prepared = .ok p) :
    call.cmd.Loggable (ownArgs call.args) p.commandLog := by
  obtain ⟨rendered, redacted, -⟩ := prepareWrite_eq_ok.mp h
  exact .preview rendered redacted

/-! ## The row of a read tool -/

/-- A watcher for one row. -/
def rowSeen (row : JStr × JStr) : Monitor toolCalls where
  State := Prop
  allow _ _ := True
  next seen e := seen ∨ commandColumn e.op = some row

theorem rowSeen_after {row : JStr × JStr} {seen : Prop} {t : List (Event toolCalls)}
    (h : (rowSeen row).after seen t) : seen ∨ row ∈ t.filterMap fun e => commandColumn e.op := by
  induction t generalizing seen with
  | nil => exact .inl h
  | cons e t ih =>
    rcases ih h with (h | h) | h
    · exact .inl h
    · exact .inr (List.mem_filterMap.mpr ⟨e, List.mem_cons_self, h⟩)
    · obtain ⟨e', he', h⟩ := List.mem_filterMap.mp h
      exact .inr (List.mem_filterMap.mpr ⟨e', List.mem_cons_of_mem _ he', h⟩)

/-- A part that reads the clock and the timing and submits the row. -/
theorem row_obeys {α : Type} {row : JStr × JStr} {seen : Prop} {rest : Handling α}
    {post : Prop → Except Thrown α → Prop} {entry : Int → LogTiming → LogEntry}
    (hrest : ∀ seen, seen → Obeys (rowSeen row) post seen rest)
    (hentry : ∀ ended timing, ((entry ended timing).toolId, (entry ended timing).command) = row) :
    Obeys (rowSeen row) post seen (do
      let ended ← now
      let timing ← timingOf
      let _ ← ask (.request (entry ended timing))
      rest) := by
  have hrow : ∀ (seen : Prop) (ended : Int) (timing : LogTiming),
      Obeys (rowSeen row) post seen (do
        let _ ← ask (.request (entry ended timing))
        rest) := fun seen ended timing =>
    ⟨trivial, fun _ => hrest _ (.inr (congrArg some (hentry ended timing)))⟩
  refine ⟨trivial, fun ended => ⟨trivial, fun timing => ?_⟩⟩
  cases timing with
  | none => exact hrow _ _ _
  | some timing => exact hrow _ _ _

/-- Every run of a read tool logs its column. -/
theorem readTool_obeys (cmd : CommandDef) (args : Args) :
    Obeys (rowSeen (cmd.id, readColumn cmd args))
      (fun (seen : Prop) (_ : Except Thrown JsValue) => seen) False (readTool cmd args) := by
  refine ⟨trivial, fun started => Obeys.tryCatch ?_⟩
  have herror : ∀ (seen : Prop) (e : Thrown), Obeys (rowSeen (cmd.id, readColumn cmd args))
      (fun (seen : Prop) (_ : Except Thrown JsValue) => seen) seen (do
        let ended ← now
        let timing ← timingOf
        let _ ← ask (.request { readRow cmd args (readColumn cmd args) .error started ended timing with
          errorCode := errCode e
          errorMsg := some (errMsg e) })
        throw e) := fun seen e => row_obeys (fun _ h => h) fun _ _ => rfl
  refine Obeys.ofExcept_bind (fun command hr => ?_) fun e _ => herror _ e
  have hcolumn : command = readColumn cmd args := by
    unfold readColumn
    rw [hr]
  refine Obeys.ofExcept_bind (fun c _ => ⟨trivial, fun _ => ⟨trivial, fun r => ?_⟩⟩) fun e _ =>
    herror _ e
  cases r with
  | error e => exact herror _ _
  | ok raw =>
    refine row_obeys (fun seen h => ?_) fun _ _ => congrArg (Prod.mk cmd.id) hcolumn
    cases formatOutput cmd args raw with
    | ok _ => exact h
    | error e => exact herror _ e

/-! ## The rows of a call -/

/-- **A call logs no command but its tool's id, its redacted preview and that of its commit if and
only if** it is a write, or a read whose rendered command has nothing to hide: a read tool logs that
command as it is. What a tool may log holds no secret between its placeholders. -/
theorem logged_commands_iff (E : Env) (find : JStr → Option CommandDef) (tool : ToolCall) (w : World) :
    ((∀ row ∈ (tool.trace E find w).filterMap fun e => commandColumn e.op, tool.Clean row) ↔
      tool.NothingToHide) ∧
    ((∀ k ∈ tool.cmd.secrets, SafeKey k) → ∀ column, tool.cmd.Loggable tool.args column →
      column = tool.cmd.id ∨ tool.cmd.Hides tool.args column) := by
  refine ⟨?_, fun hkeys column h => h.hides hkeys⟩
  cases tool with
  | write call =>
    refine iff_of_true (fun row hrow => ?_) trivial
    have hother : ∀ {o : ToolOp}, commandColumn o = none → ¬LogsOther (fun toolId command =>
        (ToolCall.write call).Clean (toolId, command)) o := not_logsOther
    exact rows_of_avoids (WriteCall.run_avoids (logsOther_spares _) (.inr ⟨rfl, .id⟩)
      (fun p hp => .inr ⟨rfl, prepared_loggable hp⟩) (.inl rfl) (fun _ _ _ _ => hother rfl)
      (fun _ _ _ => hother rfl) (fun _ _ => hother rfl) (fun _ => hother rfl) find E.gate.ttlMs) hrow
  | read cmd args =>
    constructor
    · intro hclean command hr
      have hcolumn : readColumn cmd args = command := by
        unfold readColumn
        rw [hr]
      have hrun := ((readTool_obeys cmd args).exec (h := answer E) w).2
      have hrow := (rowSeen_after hrun).resolve_left id
      rw [hcolumn] at hrow
      obtain ⟨-, hloggable⟩ := hclean _ hrow
      generalize hlogged : (cmd.id, command).2 = logged at hloggable
      cases hloggable with
      | id => exact .inl hlogged
      | preview rendered redacted =>
        obtain rfl := Except.ok.inj (rendered.symm.trans hr)
        exact .inr ⟨_, redacted, hlogged.symm⟩
    · intro hnothing row hrow
      have hother : ∀ {o : ToolOp}, commandColumn o = none → ¬LogsOther (fun toolId command =>
          (ToolCall.read cmd args).Clean (toolId, command)) o := not_logsOther
      refine rows_of_avoids (readTool_avoids (logsOther_spares _) ⟨rfl, ?_⟩
        (fun _ _ => hother rfl) (hother rfl)) hrow
      show cmd.Loggable args (readColumn cmd args)
      unfold readColumn
      cases hr : cmd.render args with
      | error e => exact .id
      | ok command =>
        rcases hnothing command hr with rfl | ⟨r, redacted, rfl⟩
        · exact .id
        · exact .preview hr redacted

/-! ### A tool with a secret argument -/

def userSetArgs : Args := textArgs [(js "param", js "-o")] (List.nodup_singleton _)

theorem logged_commands_user_set :
    (∀ row ∈ ((ToolCall.write ⟨userSetTool, userSetArgs, ⟨true, none⟩⟩).trace userEnv noTools
      .new).filterMap fun e => commandColumn e.op,
      (ToolCall.write ⟨userSetTool, userSetArgs, ⟨true, none⟩⟩).Clean row) ∧
    userSetTool.Hides userSetArgs (js "user set <redacted:param>") := by
  obtain ⟨hclean, hhides⟩ := logged_commands_iff userEnv noTools
    (.write ⟨userSetTool, userSetArgs, ⟨true, none⟩⟩) .new
  refine ⟨hclean.mpr trivial, ?_⟩
  have hloggable : userSetTool.Loggable (ownArgs userSetArgs) (js "user set <redacted:param>") :=
    @CommandDef.Loggable.preview _ _ (js "user set -o")
      ⟨js "user set <redacted:param>", [js "param"]⟩ (by decide +kernel) (by decide +kernel)
  exact (hhides (by decide +kernel) _ hloggable).resolve_left (by decide +kernel)

/-- The same tool, as a read. -/
def userReadTool : CommandDef := { userSetTool with kind := .read }

theorem userReadTool_logs_secret :
    ¬∀ row ∈ ((ToolCall.read userReadTool userSetArgs).trace userEnv noTools .new).filterMap
      fun e => commandColumn e.op, (ToolCall.read userReadTool userSetArgs).Clean row := by
  intro hclean
  have hrow : (js "user_set", js "user set -o") ∈ ((ToolCall.read userReadTool userSetArgs).trace
      userEnv noTools .new).filterMap fun e => commandColumn e.op := by decide +kernel
  obtain ⟨-, hloggable⟩ := hclean _ hrow
  have hrender : userReadTool.render userSetArgs = .ok (js "user set -o") := by decide +kernel
  have hpreview : (redactCommand (js "user set -o") userSetArgs userReadTool.secrets).map
      Redacted.preview = .ok (js "user set <redacted:param>") := by decide +kernel
  have hid : js "user set -o" ≠ userReadTool.id := by decide +kernel
  have hne : js "user set -o" ≠ js "user set <redacted:param>" := by decide +kernel
  generalize js "user set -o" = logged at *
  cases hloggable with
  | id => exact hid rfl
  | preview rendered redacted =>
    obtain rfl := Except.ok.inj (rendered.symm.trans hrender)
    have hredacted := congrArg (Except.map Redacted.preview) redacted
    exact hne (Except.ok.inj (hredacted.symm.trans hpreview))

end VigorMcp
