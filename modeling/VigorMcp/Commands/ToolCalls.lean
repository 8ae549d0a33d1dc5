import VigorMcp.Commands.CommandDef
import VigorMcp.Lib.Interaction
import VigorMcp.Tools.ConfirmGate

/-!
# What a tool call asks of the server

The interface between a tool handler and the rest of the server: the clock, the
abort signal, the gate, the router client and the log store. A call to the
client is issued (`send`) and later settles (`reply`), which takes a turn of the
event loop; so does every other `await` (`turn`). `Env` answers everything that
comes from outside, `World` is what the calls share, and `answer` is the handler.
-/

namespace VigorMcp

inductive ClientCall where
  | runCommand (command : JStr)
  | runOperation (manifestId : JStr) (input : JsValue)
  | authorizeWrite (command : JStr)
  | runWriteCommand (command : JStr)
  | runWriteOperation (manifestId : JStr) (input : JsValue)

/-- `runWriteCommand` or `runWriteOperation`. -/
def ClientCall.isWrite : ClientCall → Bool
  | .runWriteCommand _ => true
  | .runWriteOperation _ _ => true
  | _ => false

/-- The function a client call is made from. -/
inductive Site where
  | readTool | snapshot | performWrite | runCommit
  deriving DecidableEq

/-- A signal by the turn of the event loop from which it is aborted, if it ever is. -/
structure AbortSignal where
  abortedFrom : Option Nat

inductive ToolOp where
  | now
  | aborted (signal : AbortSignal)
  | create (toolId command commandPreview : JStr) (redactedFields : List JStr)
  | consumeSigned (confirmationId command signature : JStr)
  | send (site : Site) (call : ClientCall)
  | reply (site : Site)
  | turn
  | timing
  | request (entry : LogEntry)
  | writeAudit (entry : WriteAuditEntry)

@[reducible] def toolCalls : Interface where
  Op := ToolOp
  Ans
    | .now => Int
    | .aborted _ => Bool
    | .create _ _ _ _ => Except ConfirmError CreateIntentResult
    | .consumeSigned _ _ _ => Except ConfirmError Unit
    | .send _ _ => Unit
    | .reply _ => Except VigorCommandError JStr
    | .turn => Unit
    | .timing => Option CommandTiming
    | .request _ => Option Nat
    | .writeAudit _ => Unit

/-- A tool handler, or part of one. -/
abbrev Handling (α : Type) := Prog toolCalls Thrown α

def ask (o : ToolOp) : Handling (toolCalls.Ans o) := Prog.op (I := toolCalls) o

def now : Handling Int := ask .now

def throwConfirm {α : Type} : Except ConfirmError α → Handling α
  | .ok a => pure a
  | .error e => throw (.confirm e)

def throwVigor {α : Type} : Except VigorCommandError α → Handling α
  | .ok a => pure a
  | .error e => throw (.vigor e)

/-- `await client.…(…)`. -/
def await (site : Site) (call : ClientCall) : Handling JStr := do
  ask (.send site call)
  let r ← ask (.reply site)
  throwVigor r

/-! ## The world a call runs in -/

/-- What comes from outside: the gate's environment, what the client's calls settle with, the
client's timing and the row ids of the log store, each by how many were read before. -/
structure Env where
  gate : GateEnv
  readReply : Nat → Except VigorCommandError JStr
  writeReply : Nat → Except VigorCommandError JStr
  commitReply : Nat → Except VigorCommandError JStr
  timing : Nat → Option CommandTiming
  rowId : Nat → Option Nat

structure World where
  gate : ConfirmGate
  turns : Nat
  reads : Nat
  writes : Nat
  commits : Nat
  timings : Nat
  rows : Nat

def World.new : World := ⟨.new, 0, 0, 0, 0, 0, 0⟩

def isAborted (signal : AbortSignal) (turns : Nat) : Bool :=
  match signal.abortedFrom with
  | some n => n ≤ turns
  | none => false

def answer (E : Env) : Prog.Handler toolCalls World
  | .now, w => (E.gate.clock w.gate.tick, { w with gate := w.gate.ticked })
  | .aborted signal, w => (isAborted signal w.turns, w)
  | .create toolId command commandPreview redactedFields, w =>
    let r := w.gate.create E.gate toolId command commandPreview redactedFields
    (r.1, { w with gate := r.2 })
  | .consumeSigned confirmationId command signature, w =>
    let r := w.gate.consumeSigned E.gate confirmationId command signature
    (r.1, { w with gate := r.2 })
  | .send _ _, w => ((), w)
  | .reply .performWrite, w =>
    (E.writeReply w.writes, { w with writes := w.writes + 1, turns := w.turns + 1 })
  | .reply .runCommit, w =>
    (E.commitReply w.commits, { w with commits := w.commits + 1, turns := w.turns + 1 })
  | .reply _, w => (E.readReply w.reads, { w with reads := w.reads + 1, turns := w.turns + 1 })
  | .turn, w => ((), { w with turns := w.turns + 1 })
  | .timing, w => (E.timing w.timings, { w with timings := w.timings + 1 })
  | .request _, w => (E.rowId w.rows, { w with rows := w.rows + 1 })
  | .writeAudit _, w => ((), w)

/-- A call with its answer. -/
def answered (E : Env) (o : ToolOp) (w : World) : Event toolCalls := ⟨o, (answer E o w).1⟩

/-- The worlds that any sequence of calls leads to. -/
inductive World.Reached (E : Env) : World → Prop where
  | new : World.Reached E .new
  | answer {w : World} (o : ToolOp) (h : World.Reached E w) : World.Reached E (answer E o w).2

theorem answer_wellFormed {E : Env} {w : World} (o : ToolOp) (h : w.gate.WellFormed) :
    (answer E o w).2.gate.WellFormed := by
  cases o with
  | now => exact h.later (ConfirmGate.ticked_later (E := E.gate) _)
  | create _ _ _ _ => exact ConfirmGate.create_wellFormed h _ _ _ _
  | consumeSigned _ _ _ => exact ConfirmGate.consumeSigned_wellFormed h _ _ _
  | reply site => cases site <;> exact h
  | _ => exact h

theorem World.Reached.wellFormed {E : Env} {w : World} (h : w.Reached E) : w.gate.WellFormed := by
  induction h with
  | new => exact ConfirmGate.new_wellFormed
  | answer o _ ih => exact answer_wellFormed o ih

theorem exec_reached {E : Env} {α : Type} (p : Handling α) {w : World} (h : w.Reached E) :
    (p.exec (answer E) w).world.Reached E :=
  (Prog.exec_steps p w).keeps (R := fun w w' => w.Reached E → w'.Reached E) (fun _ h => h)
    (fun _ _ _ h h' hw => h' (h hw)) (fun o _ (_ : True) hw => .answer o hw) (fun _ _ => trivial) h

end VigorMcp
