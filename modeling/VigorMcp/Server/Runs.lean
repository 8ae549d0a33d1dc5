import Mathlib.Logic.Relation
import VigorMcp.Commands.ReadTool
import VigorMcp.Commands.WriteLedger
import VigorMcp.Lib.History
import VigorMcp.Tools.IntentAccounts

/-!
# Runs of the server

The server takes write calls, read calls and the approver's signatures in any
order. Write calls run one after another, each from when all earlier ones have
settled, as the gate's `runExclusive` chains them; read calls run beside them.
A step lets one handler make its next call to the rest of the server, and the
log keeps every such call with the world it was made in.
-/

namespace VigorMcp

open Prog

/-- Where a write call is: behind earlier ones, in its turn, or over. -/
inductive Phase where
  | waiting
  | running (rest : Handling WriteBody)
  | settled (result : Except Thrown WriteBody)

structure WriteTask where
  call : WriteCall
  phase : Phase

/-- What happened: a write or read call, by its number, called on the rest of the server, or the
approver signed a payload. -/
inductive Entry where
  | write (number : Nat) (call : WriteCall) (before : World) (event : Event toolCalls)
  | read (number : Nat) (before : World) (event : Event toolCalls)
  | signed (payload : List UInt8)

structure Server where
  world : World
  writes : List WriteTask
  reads : List (Handling JsValue)
  log : List Entry

def Server.new : Server := ⟨.new, [], [], []⟩

/-- One step of a server with the environment `E`, whose tools `findCommand` finds. -/
inductive Step (E : Env) (findCommand : JStr → Option CommandDef) : Server → Server → Prop
  /-- `executeWrite`: the call joins the chain. -/
  | submitWrite {s : Server} (call : WriteCall) :
      Step E findCommand s { s with writes := s.writes ++ [⟨call, .waiting⟩] }
  /-- `runExclusive`: a call starts when all before it have settled. -/
  | startWrite {s : Server} {k : Nat} {call : WriteCall} (waits : s.writes[k]? = some ⟨call, .waiting⟩)
      (turn : ∀ j task, j < k → s.writes[j]? = some task → ∃ result, task.phase = .settled result) :
      Step E findCommand s
        { s with writes := s.writes.set k ⟨call, .running (call.run findCommand E.gate.ttlMs)⟩ }
  | askWrite {s : Server} {k : Nat} {call : WriteCall} {o : ToolOp}
      {next : toolCalls.Ans o → Handling WriteBody}
      (runs : s.writes[k]? = some ⟨call, .running (.ask o next)⟩) :
      Step E findCommand s
        { s with
          world := (answer E o s.world).2
          writes := s.writes.set k ⟨call, .running (next (answer E o s.world).1)⟩
          log := s.log ++ [.write k call s.world (answered E o s.world)] }
  | endWrite {s : Server} {k : Nat} {call : WriteCall} {result : Except Thrown WriteBody}
      (runs : s.writes[k]? = some ⟨call, .running (Prog.ofExcept result)⟩) :
      Step E findCommand s { s with writes := s.writes.set k ⟨call, .settled result⟩ }
  | submitRead {s : Server} (cmd : CommandDef) (args : Args) :
      Step E findCommand s { s with reads := s.reads ++ [readTool cmd args] }
  | askRead {s : Server} {k : Nat} {o : ToolOp} {next : toolCalls.Ans o → Handling JsValue}
      (runs : s.reads[k]? = some (.ask o next)) :
      Step E findCommand s
        { s with
          world := (answer E o s.world).2
          reads := s.reads.set k (next (answer E o s.world).1)
          log := s.log ++ [.read k s.world (answered E o s.world)] }
  | sign {s : Server} (payload : List UInt8) :
      Step E findCommand s { s with log := s.log ++ [.signed payload] }

/-- The servers that a run from the empty gate reaches. -/
def Reaches (E : Env) (findCommand : JStr → Option CommandDef) (s : Server) : Prop :=
  Relation.ReflTransGen (Step E findCommand) .new s

/-! ## Reading the log -/

namespace Entry

/-- What the entry's write call called, if it is the call of that number. -/
def eventOf (number : Nat) : Entry → Option (Event toolCalls)
  | write k _ _ e => if k = number then some e else none
  | _ => none

/-- The intent the entry created. -/
def issued : Entry → Option CreateIntentResult
  | write _ _ _ ⟨.create _ _ _ _, .ok created⟩ => some created
  | _ => none

/-- The intent the entry consumed. -/
def consumed : Entry → Option WriteIntent
  | write _ _ before ⟨.consumeSigned confirmationId _ _, .ok ()⟩ =>
    before.gate.intents.get confirmationId
  | _ => none

def spent (e : Entry) : Option JStr := e.consumed.map WriteIntent.nonce

end Entry

/-- The ledger of a call by its entries. -/
def ledgerOf (number : Nat) (log : List Entry) : Ledger :=
  Ledger.of (log.filterMap (Entry.eventOf number))

theorem ledgerOf_concat (number : Nat) (log : List Entry) (e : Entry) :
    ledgerOf number (log ++ [e]) = match e.eventOf number with
      | some event => (ledgerOf number log).next event
      | none => ledgerOf number log := by
  unfold ledgerOf Ledger.of
  rw [List.filterMap_append, List.foldl_append]
  cases h : e.eventOf number with
  | none => simp [h]
  | some event => simp [h]

/-! ## The laws of the log -/

/-- What a handler may call, given the log before: a write call keeps its ledger by the rules, and
a read tool does nothing of a write. -/
def Entry.Lawful (prior : List Entry) : Entry → Prop
  | write number call _ event => call.Allows (ledgerOf number prior) event.op
  | read _ _ event => ¬IsWriteWork event.op
  | signed _ => True

/-- What the gate can have answered, given the log before: the digest of the command it was given,
and an acceptance for an intent that the log issued and had not spent. -/
def Entry.GateLaw (E : Env) (prior : List Entry) : Entry → Prop
  | write _ _ _ ⟨.create _ command _ _, .ok created⟩ =>
    created.commandDigest = E.gate.crypto.digestCommand command
  | write _ _ before ⟨.consumeSigned confirmationId command signature, .ok ()⟩ => ∃ intent,
    ConfirmGate.Consumed E.gate before.gate
      (before.gate.consumeSigned E.gate confirmationId command signature).2 confirmationId command
      signature intent ∧
    intent.confirmationId = confirmationId ∧
    ConfirmGate.resultOf intent ∈ prior.filterMap Entry.issued ∧
    intent.nonce ∉ prior.filterMap Entry.spent
  | _ => True

/-! ## What every step keeps -/

/-- What a call has done by the log: nothing before it starts, what its monitor allows while it
runs, and one of the listed exits once it is over. -/
def TaskSound (log : List Entry) (k : Nat) : Option WriteTask → Prop
  | none => log.filterMap (Entry.eventOf k) = []
  | some ⟨_, .waiting⟩ => log.filterMap (Entry.eventOf k) = []
  | some ⟨call, .running rest⟩ => Obeys call.monitor (WriteExit call) (ledgerOf k log) rest
  | some ⟨call, .settled result⟩ => WriteExit call (ledgerOf k log) result

/-- The entry's number stands for its call. -/
def Entry.Numbered (writes : List WriteTask) : Entry → Prop
  | write k call _ _ => ∃ phase, writes[k]? = some ⟨call, phase⟩
  | _ => True

structure Sound (E : Env) (s : Server) : Prop where
  reached : s.world.Reached E
  lawful : History.Justified Entry.Lawful s.log
  tasks : ∀ k, TaskSound s.log k s.writes[k]?
  numbered : ∀ e ∈ s.log, e.Numbered s.writes
  avoids : ∀ rest ∈ s.reads, Avoids IsWriteWork rest

theorem new_sound (E : Env) : Sound E .new where
  reached := .new
  lawful := .nil _
  tasks _ := rfl
  numbered _ h := by cases h
  avoids _ h := by cases h

/-- Another handler's entry is not a call's own. -/
theorem TaskSound.frame {log : List Entry} {k : Nat} {task : Option WriteTask} {e : Entry}
    (h : TaskSound log k task) (he : e.eventOf k = none) : TaskSound (log ++ [e]) k task := by
  have hevents : (log ++ [e]).filterMap (Entry.eventOf k) = log.filterMap (Entry.eventOf k) := by
    simp [List.filterMap_append, he]
  have hledger : ledgerOf k (log ++ [e]) = ledgerOf k log := by
    unfold ledgerOf
    rw [hevents]
  rcases task with _ | ⟨call, phase⟩
  · exact hevents.trans h
  · cases phase with
    | waiting => exact hevents.trans h
    | running rest =>
      simp only [TaskSound, hledger]
      exact h
    | settled result =>
      simp only [TaskSound, hledger]
      exact h

/-- One call's phase changes, and the others stay as they are. -/
theorem tasks_set {log : List Entry} {writes : List WriteTask} {k : Nat} {task task' : WriteTask}
    (hk : writes[k]? = some task) (h : ∀ j, j ≠ k → TaskSound log j writes[j]?)
    (hnew : TaskSound log k (some task')) (j : Nat) : TaskSound log j (writes.set k task')[j]? := by
  have hlt : k < writes.length := (List.getElem?_eq_some_iff.mp hk).1
  rcases eq_or_ne j k with rfl | hne
  · rw [List.getElem?_set_self hlt]
    exact hnew
  · rw [List.getElem?_set_ne hne.symm]
    exact h j hne

theorem tasks_concat {log : List Entry} {writes : List WriteTask} {call : WriteCall}
    (h : ∀ k, TaskSound log k writes[k]?) (k : Nat) :
    TaskSound log k (writes ++ [⟨call, .waiting⟩])[k]? := by
  have hk := h k
  rcases Nat.lt_trichotomy k writes.length with hlt | rfl | hlt
  · rw [List.getElem?_append_left hlt]
    exact hk
  · rw [List.getElem?_eq_none (Nat.le_refl _)] at hk
    rw [List.getElem?_concat_length]
    exact hk
  · rw [List.getElem?_eq_none (Nat.le_of_lt hlt)] at hk
    rw [List.getElem?_eq_none (by simp; omega)]
    exact hk

/-- A number keeps its call when a call's phase changes. -/
theorem Entry.Numbered.set {writes : List WriteTask} {k : Nat} {call : WriteCall} {phase : Phase}
    {e : Entry} (hk : ∃ phase, writes[k]? = some ⟨call, phase⟩) (h : e.Numbered writes) :
    e.Numbered (writes.set k ⟨call, phase⟩) := by
  cases e with
  | write j call' _ _ =>
    obtain ⟨phase₁, hk⟩ := hk
    obtain ⟨phase₂, h⟩ := h
    have hlt : k < writes.length := (List.getElem?_eq_some_iff.mp hk).1
    rcases eq_or_ne j k with rfl | hne
    · obtain ⟨rfl, rfl⟩ := WriteTask.mk.inj (Option.some.inj (hk.symm.trans h))
      exact ⟨phase, List.getElem?_set_self hlt⟩
    · exact ⟨phase₂, by rw [List.getElem?_set_ne hne.symm, h]⟩
  | _ => trivial

theorem Entry.Numbered.concat {writes : List WriteTask} {task : WriteTask} {e : Entry}
    (h : e.Numbered writes) : e.Numbered (writes ++ [task]) := by
  cases e with
  | write k call _ _ =>
    obtain ⟨phase, hk⟩ := h
    have hlt : k < writes.length := (List.getElem?_eq_some_iff.mp hk).1
    exact ⟨phase, by rw [List.getElem?_append_left hlt, hk]⟩
  | _ => trivial

section

variable {E : Env} {findCommand : JStr → Option CommandDef} {s s' : Server}

/-- A call that starts has its whole run before it. -/
theorem Sound.starts (h : Sound E s) {k : Nat} {call : WriteCall}
    (waits : s.writes[k]? = some ⟨call, .waiting⟩) :
    TaskSound s.log k (some ⟨call, .running (call.run findCommand E.gate.ttlMs)⟩) := by
  have hidle := h.tasks k
  rw [waits] at hidle
  have hledger : ledgerOf k s.log = Ledger.empty := by
    unfold ledgerOf
    rw [show s.log.filterMap (Entry.eventOf k) = [] from hidle]
    rfl
  show Obeys call.monitor (WriteExit call) (ledgerOf k s.log) _
  rw [hledger]
  exact executeWriteLocked_obeys findCommand E.gate.ttlMs call

theorem Sound.obeys (h : Sound E s) {k : Nat} {call : WriteCall} {rest : Handling WriteBody}
    (runs : s.writes[k]? = some ⟨call, .running rest⟩) :
    Obeys call.monitor (WriteExit call) (ledgerOf k s.log) rest := by
  have hrun := h.tasks k
  rw [runs] at hrun
  exact hrun

/-- **What one step keeps.** -/
theorem step_sound (hstep : Step E findCommand s s') (h : Sound E s) : Sound E s' := by
  cases hstep with
  | submitWrite call =>
    exact { h with
      tasks := tasks_concat h.tasks
      numbered := fun e he => (h.numbered e he).concat }
  | startWrite waits turn =>
    exact { h with
      tasks := tasks_set waits (fun j _ => h.tasks j) (h.starts waits)
      numbered := fun e he => (h.numbered e he).set ⟨_, waits⟩ }
  | @askWrite k call o next runs =>
    have hrun := h.obeys runs
    have hnext : TaskSound (s.log ++ [.write k call s.world (answered E o s.world)]) k
        (some ⟨call, .running (next (answer E o s.world).1)⟩) := by
      simp only [TaskSound, ledgerOf_concat, Entry.eventOf, ↓reduceIte]
      exact hrun.2 _
    exact
      { reached := .answer o h.reached
        lawful := h.lawful.concat hrun.1
        tasks := tasks_set runs (fun j hj => (h.tasks j).frame (if_neg (Ne.symm hj))) hnext
        numbered := List.forall_mem_append.mpr ⟨fun e he => (h.numbered e he).set ⟨_, runs⟩,
          List.forall_mem_singleton.mpr (Entry.Numbered.set ⟨_, runs⟩ ⟨_, runs⟩)⟩
        avoids := h.avoids }
  | @endWrite k call result runs =>
    have hend := h.obeys runs
    refine { h with
      tasks := tasks_set runs (fun j _ => h.tasks j) ?_
      numbered := fun e he => (h.numbered e he).set ⟨_, runs⟩ }
    cases result <;> exact hend
  | submitRead cmd args =>
    exact { h with
      avoids := List.forall_mem_append.mpr ⟨h.avoids,
        List.forall_mem_singleton.mpr (readTool_writeWork cmd args)⟩ }
  | @askRead k o next runs =>
    have hrun : Avoids IsWriteWork (.ask o next : Handling JsValue) :=
      h.avoids _ (List.mem_of_getElem? runs)
    have hrest : ∀ rest ∈ s.reads.set k (next (answer E o s.world).1), Avoids IsWriteWork rest := by
      intro rest hmem
      rcases List.mem_or_eq_of_mem_set hmem with hmem | rfl
      · exact h.avoids rest hmem
      · exact hrun.2 _
    exact
      { reached := .answer o h.reached
        lawful := h.lawful.concat hrun.1
        tasks := fun j => (h.tasks j).frame rfl
        numbered := List.forall_mem_append.mpr ⟨h.numbered, List.forall_mem_singleton.mpr trivial⟩
        avoids := hrest }
  | sign payload =>
    exact
      { reached := h.reached
        lawful := h.lawful.concat trivial
        tasks := fun j => (h.tasks j).frame rfl
        numbered := List.forall_mem_append.mpr ⟨h.numbered, List.forall_mem_singleton.mpr trivial⟩
        avoids := h.avoids }

/-- **What a whole run keeps.** -/
theorem Reaches.sound (h : Reaches E findCommand s) : Sound E s := by
  induction h with
  | refl => exact new_sound E
  | tail _ hstep ih => exact step_sound hstep ih

/-! ## The gate's account -/

/-- The gate's intents are those the log issued and has not spent. -/
abbrev GateAccount (E : Env) (log : List Entry) (g : ConfirmGate) : Prop :=
  ConfirmGate.Accounted E.gate (log.filterMap Entry.issued) (log.filterMap Entry.spent) g

structure GateSound (E : Env) (s : Server) : Prop where
  account : GateAccount E s.log s.world.gate
  lawful : History.Justified (Entry.GateLaw E) s.log

theorem GateAccount.concat {log : List Entry} {e : Entry} {g : ConfirmGate}
    (h : ConfirmGate.Accounted E.gate (log.filterMap Entry.issued ++ e.issued.toList)
      (log.filterMap Entry.spent ++ e.spent.toList) g) : GateAccount E (log ++ [e]) g := by
  have hcons : ∀ {β : Type} (f : Entry → Option β), [e].filterMap f = (f e).toList := by
    intro β f
    cases hf : f e <;> simp [hf]
  unfold GateAccount
  rw [List.filterMap_append, List.filterMap_append, hcons, hcons]
  exact h

/-- An entry that neither issues nor spends an intent. -/
theorem GateAccount.quiet {log : List Entry} {e : Entry} {g : ConfirmGate} (hi : e.issued = none)
    (hs : e.spent = none) (h : GateAccount E log g) : GateAccount E (log ++ [e]) g := by
  refine GateAccount.concat ?_
  rw [hi, hs]
  simpa using h

/-- The gate's account after a write call's entry. -/
theorem write_account (fresh : Function.Injective E.gate.nonces)
    (h : GateAccount E s.log s.world.gate) (k : Nat) (call : WriteCall) (o : ToolOp) :
    GateAccount E (s.log ++ [.write k call s.world (answered E o s.world)])
      (answer E o s.world).2.gate := by
  cases o with
  | now => exact .quiet rfl rfl (h.later (ConfirmGate.ticked_later _))
  | create toolId command preview fields =>
    refine GateAccount.concat ?_
    have hc := ConfirmGate.create_accounted fresh h toolId command preview fields
    simp only [answered, answer]
    cases hr : (s.world.gate.create E.gate toolId command preview fields).1 with
    | error e =>
      rw [hr] at hc
      simpa [Entry.issued, Entry.spent, Entry.consumed, Except.toOption] using hc
    | ok created =>
      rw [hr] at hc
      simpa [Entry.issued, Entry.spent, Entry.consumed, Except.toOption] using hc
  | consumeSigned confirmationId command signature =>
    refine GateAccount.concat ?_
    have hc := ConfirmGate.consumeSigned_accounted h confirmationId command signature
    simp only [answered, answer]
    cases hr : (s.world.gate.consumeSigned E.gate confirmationId command signature).1 with
    | error e =>
      rw [hr] at hc
      simpa [Entry.issued, Entry.spent, Entry.consumed] using hc
    | ok u =>
      rw [hr] at hc
      simpa [Entry.issued, Entry.spent, Entry.consumed] using hc
  | reply site => cases site <;> exact .quiet rfl rfl h
  | _ => exact .quiet rfl rfl h

/-- What the gate answers is lawful. -/
theorem answer_gateLaw (hr : s.world.Reached E) (h : GateAccount E s.log s.world.gate) (k : Nat)
    (call : WriteCall) (o : ToolOp) :
    Entry.GateLaw E s.log (.write k call s.world (answered E o s.world)) := by
  cases o with
  | create toolId command preview fields =>
    simp only [answer, answered]
    rcases ConfirmGate.create_cases E.gate s.world.gate toolId command preview fields with
      ⟨_, e, hc⟩ | ⟨_, i, rfl, hc⟩
    · rw [hc]
      trivial
    · rw [hc]
      rfl
  | consumeSigned confirmationId command signature =>
    simp only [answer, answered]
    rcases ConfirmGate.consumeSigned_cases E.gate s.world.gate confirmationId command signature with
      ⟨e, g', hc, _⟩ | ⟨g', intent, hc, hcons⟩
    · rw [hc]
      trivial
    · have hmem := OrderedMap.get_eq_some.mp hcons.pending
      have hlaw : ∃ intent, ConfirmGate.Consumed E.gate s.world.gate
          (s.world.gate.consumeSigned E.gate confirmationId command signature).2 confirmationId command
          signature intent ∧ intent.confirmationId = confirmationId ∧
          ConfirmGate.resultOf intent ∈ s.log.filterMap Entry.issued ∧
          intent.nonce ∉ s.log.filterMap Entry.spent := by
        rw [hc]
        exact ⟨intent, hcons, hr.wellFormed.ids _ hmem, h.issued _ hmem, h.pending _ hmem⟩
      rw [hc]
      exact hlaw
  | _ => trivial

/-- A read tool leaves the gate's account alone. -/
theorem read_account {o : ToolOp} (ho : ¬IsWriteWork o) (k : Nat)
    (h : GateAccount E s.log s.world.gate) :
    GateAccount E (s.log ++ [.read k s.world (answered E o s.world)]) (answer E o s.world).2.gate := by
  refine .quiet rfl rfl ?_
  cases o with
  | create _ _ _ _ => exact absurd trivial ho
  | consumeSigned _ _ _ => exact absurd trivial ho
  | now => exact h.later (ConfirmGate.ticked_later _)
  | reply site => cases site <;> exact h
  | _ => exact h

/-- One step keeps the account, and what the gate answers in it is lawful. -/
theorem step_gateSound (fresh : Function.Injective E.gate.nonces) (hstep : Step E findCommand s s')
    (hs : Sound E s) (h : GateSound E s) : GateSound E s' := by
  cases hstep with
  | submitWrite _ => exact ⟨h.account, h.lawful⟩
  | startWrite _ _ => exact ⟨h.account, h.lawful⟩
  | @askWrite k call o _ _ =>
    exact ⟨write_account fresh h.account k call o,
      h.lawful.concat (answer_gateLaw hs.reached h.account k call o)⟩
  | endWrite _ => exact ⟨h.account, h.lawful⟩
  | submitRead _ _ => exact ⟨h.account, h.lawful⟩
  | @askRead k o next runs =>
    have hrun : Avoids IsWriteWork (.ask o next : Handling JsValue) :=
      hs.avoids _ (List.mem_of_getElem? runs)
    exact ⟨read_account hrun.1 k h.account, h.lawful.concat trivial⟩
  | sign _ => exact ⟨.quiet rfl rfl h.account, h.lawful.concat trivial⟩

theorem Reaches.gateSound (fresh : Function.Injective E.gate.nonces) (h : Reaches E findCommand s) :
    GateSound E s := by
  induction h with
  | refl => exact ⟨ConfirmGate.new_accounted, .nil _⟩
  | tail hreach hstep ih => exact step_gateSound fresh hstep (Reaches.sound hreach) ih

end

/-! ## One write at a time -/

/-- Of two write calls, the earlier one is over or the later one has not started. -/
def Exclusive (s : Server) : Prop :=
  ∀ (j k : Nat) (task task' : WriteTask), j < k → s.writes[j]? = some task → s.writes[k]? = some task' →
    (∃ result, task.phase = .settled result) ∨ task'.phase = .waiting

section

variable {E : Env} {findCommand : JStr → Option CommandDef} {s s' : Server}

/-- A running call goes on, or ends. -/
theorem Exclusive.set (h : Exclusive s) {k : Nat} {call : WriteCall} {rest : Handling WriteBody}
    {phase : Phase} (runs : s.writes[k]? = some ⟨call, .running rest⟩) {w : World} {log : List Entry} :
    Exclusive ⟨w, s.writes.set k ⟨call, phase⟩, s.reads, log⟩ := by
  have hlt : k < s.writes.length := (List.getElem?_eq_some_iff.mp runs).1
  intro i j task task' hij hi hj
  simp only at hi hj
  rcases eq_or_ne i k with rfl | hik
  · right
    rw [List.getElem?_set_ne (by omega)] at hj
    rcases h i j _ task' hij runs hj with ⟨_, hs⟩ | hw
    · cases hs
    · exact hw
  · rw [List.getElem?_set_ne hik.symm] at hi
    rcases eq_or_ne j k with rfl | hjk
    · left
      rcases h i j task _ hij hi runs with hs | hw
      · exact hs
      · cases hw
    · rw [List.getElem?_set_ne hjk.symm] at hj
      exact h i j task task' hij hi hj

theorem step_exclusive (hstep : Step E findCommand s s') (h : Exclusive s) : Exclusive s' := by
  cases hstep with
  | submitWrite call =>
    intro i j task task' hij hi hj
    simp only at hi hj
    rcases Nat.lt_or_ge j s.writes.length with hlt | hge
    · rw [List.getElem?_append_left (by omega)] at hi
      rw [List.getElem?_append_left hlt] at hj
      exact h i j task task' hij hi hj
    · right
      rw [List.getElem?_append_right hge] at hj
      rw [List.mem_singleton.mp (List.mem_of_getElem? hj)]
  | @startWrite k call waits turn =>
    have hlt : k < s.writes.length := (List.getElem?_eq_some_iff.mp waits).1
    intro i j task task' hij hi hj
    simp only at hi hj
    rcases eq_or_ne i k with rfl | hik
    · -- a call behind one that has waited until now has not started either
      right
      rw [List.getElem?_set_ne (by omega)] at hj
      rcases h i j _ task' hij waits hj with ⟨_, hs⟩ | hw
      · cases hs
      · exact hw
    · rw [List.getElem?_set_ne hik.symm] at hi
      rcases eq_or_ne j k with rfl | hjk
      · exact .inl (turn i task hij hi)
      · rw [List.getElem?_set_ne hjk.symm] at hj
        exact h i j task task' hij hi hj
  | askWrite runs => exact h.set runs
  | endWrite runs => exact h.set runs
  | submitRead _ _ => exact h
  | askRead _ => exact h
  | sign _ => exact h

/-- **`runExclusive`**: no two write calls run at once. -/
theorem Reaches.exclusive (h : Reaches E findCommand s) : Exclusive s := by
  induction h with
  | refl =>
    intro j k task task' _ hj
    cases hj
  | tail _ hstep ih => exact step_exclusive hstep ih

end

/-! ## A write call that has the server to itself -/

/-- The entries of a call that runs from a world to its end, with nothing in between. -/
def entriesOf {α : Type} (E : Env) (number : Nat) (call : WriteCall) : Handling α → World → List Entry
  | .ret _, _ => []
  | .raise _, _ => []
  | .ask o next, w => .write number call w (answered E o w) ::
      entriesOf E number call (next (answer E o w).1) (answer E o w).2

theorem entriesOf_events {α : Type} (E : Env) (number : Nat) (call : WriteCall) (p : Handling α)
    (w : World) :
    (entriesOf E number call p w).filterMap (Entry.eventOf number) = (p.exec (answer E) w).trace := by
  induction p generalizing w with
  | ret a => rfl
  | raise e => rfl
  | ask o next ih =>
    rw [entriesOf, List.filterMap_cons]
    simp only [Entry.eventOf, ↓reduceIte, ih]
    rfl

theorem mem_entriesOf {α : Type} {E : Env} {number : Nat} {call : WriteCall} {p : Handling α}
    {w : World} {e : Entry} (h : e ∈ entriesOf E number call p w) :
    ∃ before event, e = .write number call before event := by
  induction p generalizing w with
  | ret a => cases h
  | raise e => cases h
  | ask o next ih =>
    rcases List.mem_cons.mp h with rfl | h
    · exact ⟨_, _, rfl⟩
    · exact ih _ h

/-- The server after a call that runs alone, once all calls before it have settled. -/
def Server.serve (E : Env) (findCommand : JStr → Option CommandDef) (s : Server) (call : WriteCall) :
    Server where
  world := (call.exec E findCommand s.world).world
  writes := s.writes ++ [⟨call, .settled (call.exec E findCommand s.world).result⟩]
  reads := s.reads
  log := s.log ++ entriesOf E s.writes.length call (call.run findCommand E.gate.ttlMs) s.world

section

variable {E : Env} {findCommand : JStr → Option CommandDef} {s : Server}

theorem set_last {α : Type} (l : List α) (a b : α) : (l ++ [a]).set l.length b = l ++ [b] := by
  simp

theorem Reaches.runAlone {call : WriteCall} {p : Handling WriteBody} {w : World}
    {writes : List WriteTask} {reads : List (Handling JsValue)} {log : List Entry}
    (h : Reaches E findCommand ⟨w, writes ++ [⟨call, .running p⟩], reads, log⟩) :
    Reaches E findCommand ⟨(p.exec (answer E) w).world,
      writes ++ [⟨call, .settled (p.exec (answer E) w).result⟩], reads,
      log ++ entriesOf E writes.length call p w⟩ := by
  induction p generalizing w log with
  | ret a =>
    have runs : (writes ++ [⟨call, .running (.ret a)⟩])[writes.length]? =
        some ⟨call, .running (Prog.ofExcept (.ok a))⟩ := List.getElem?_concat_length ..
    have hstep := h.tail (.endWrite runs)
    rw [set_last] at hstep
    rw [entriesOf, List.append_nil]
    exact hstep
  | raise e =>
    have runs : (writes ++ [⟨call, .running (.raise e)⟩])[writes.length]? =
        some ⟨call, .running (Prog.ofExcept (.error e))⟩ := List.getElem?_concat_length ..
    have hstep := h.tail (.endWrite runs)
    rw [set_last] at hstep
    rw [entriesOf, List.append_nil]
    exact hstep
  | ask o next ih =>
    have hstep := h.tail (.askWrite (List.getElem?_concat_length ..))
    rw [set_last] at hstep
    have hrest := ih _ hstep
    rw [List.append_assoc] at hrest
    exact hrest

/-- A run of the server goes on with any call's own run. -/
theorem Reaches.serve (h : Reaches E findCommand s)
    (settled : ∀ task ∈ s.writes, ∃ result, task.phase = .settled result) (call : WriteCall) :
    Reaches E findCommand (s.serve E findCommand call) := by
  have hsubmit := h.tail (.submitWrite call)
  have hstart := hsubmit.tail (.startWrite (List.getElem?_concat_length ..) ?_)
  · rw [set_last] at hstart
    exact Reaches.runAlone hstart
  · intro j task hj hlog
    rw [List.getElem?_append_left hj] at hlog
    exact settled task (List.mem_of_getElem? hlog)

end

end VigorMcp
