import VigorMcp.Commands.Footprint
import VigorMcp.Commands.WriteFrame

/-!
# Cancelling an approved write

The signal of a write call is read twice: before the approval is consumed and
before the write is handed over, with the awaited snapshot between. A call that
is cancelled up to then throws `cancelled` and sends nothing, but its intent
stays pending only when the first reading has seen the abort
(`cancelled_keeps_iff`).
-/

namespace VigorMcp

open Prog

/-- Calls that change what is pending, or hand a write over. -/
def IsDecisive : ToolOp → Prop
  | .create _ _ _ _ => True
  | .consumeSigned _ _ _ => True
  | .send _ c => c.isWrite = true
  | _ => False

theorem isDecisive_spares : Spares IsDecisive fun _ _ => True where
  look o ho := by
    cases o with
    | create _ _ _ _ => cases ho
    | consumeSigned _ _ _ => cases ho
    | send _ _ => cases ho
    | _ => exact id
  request _ _ := id
  writeAudit _ _ := id

theorem answer_intents {E : Env} (o : ToolOp) (w : World) (h : ¬IsDecisive o) :
    (answer E o w).2.gate.intents = w.gate.intents := by
  cases o with
  | create _ _ _ _ => exact absurd trivial h
  | consumeSigned _ _ _ => exact absurd trivial h
  | reply site => cases site <;> rfl
  | _ => rfl

variable {E : Env} {find : JStr → Option CommandDef} {call : WriteCall} {w : World}
  {p : PreparedWrite} {ctx : WriteContext} {signal : AbortSignal} {α : Type}

/-- No write was handed over. -/
def Unsent (trace : List (Event toolCalls)) : Prop :=
  ∀ e ∈ trace, ∀ site c, e.op = .send site c → c.isWrite = false

theorem Unsent.append {t t' : List (Event toolCalls)} (h : Unsent t) (h' : Unsent t') :
    Unsent (t ++ t') := by
  intro e he
  rcases List.mem_append.mp he with he | he
  · exact h e he
  · exact h' e he

theorem unsent_of_not_send {t : List (Event toolCalls)} (h : ∀ e ∈ t, ∀ site c, e.op ≠ .send site c) :
    Unsent t :=
  fun e he site c hop => absurd hop (h e he site c)

/-- Without decisive calls nothing is sent and the pending set stays. -/
structure Harmless (w : World) (r : Outcome toolCalls Thrown α World) : Prop where
  unsent : Unsent r.trace
  intents : r.world.gate.intents = w.gate.intents

theorem harmless_of_avoids {p : Handling α} (hp : Avoids IsDecisive p) (w : World) :
    Harmless w (p.exec (answer E) w) where
  unsent e he site c hop := by
    have := hp.exec w e he
    rw [hop] at this
    simpa [IsDecisive] using this
  intents := (exec_steps p w).keeps (R := fun w w' => w'.gate.intents = w.gate.intents)
    (fun _ => rfl) (fun a b c (h : b.gate.intents = a.gate.intents)
      (h' : c.gate.intents = b.gate.intents) => h'.trans h) answer_intents (hp.exec w)

theorem Harmless.bind {β : Type} {p : Handling α} {f : α → Handling β} {a : α}
    (hp : Harmless w (p.exec (answer E) w)) (hok : (p.exec (answer E) w).result = .ok a)
    (hf : Harmless (p.exec (answer E) w).world
      ((f a).exec (answer E) (p.exec (answer E) w).world)) :
    Harmless w ((p >>= f).exec (answer E) w) := by
  rw [exec_bind hok]
  exact ⟨hp.unsent.append hf.unsent, hf.intents.trans hp.intents⟩

theorem Harmless.bind_error {β : Type} {p : Handling α} {f : α → Handling β} {e : Thrown}
    (hp : Harmless w (p.exec (answer E) w)) (herror : (p.exec (answer E) w).result = .error e) :
    Harmless w ((p >>= f).exec (answer E) w) := by
  rw [exec_bind_error herror]
  exact ⟨hp.unsent, hp.intents⟩

/-- Rows, and what is thrown after them. -/
theorem harmless_throw {p : Handling Unit} {e : Thrown} (returns : Returns p)
    (avoids : Avoids IsDecisive p) (w : World) :
    ((p >>= fun _ => throw e : Handling α).exec (answer E) w).result = .error e ∧
      Harmless w ((p >>= fun _ => throw e : Handling α).exec (answer E) w) := by
  obtain ⟨u, hp⟩ := returns.exec (h := answer E) w
  have hthrow : Avoids IsDecisive (throw e : Handling α) := trivial
  refine ⟨?_, harmless_of_avoids (avoids.bind fun _ => hthrow) w⟩
  rw [exec_bind hp]
  rfl

/-- A part that reads its signal first, when the signal is aborted. -/
theorem exec_aborted {f : Bool → Handling α} {e : Thrown}
    (aborted : isAborted signal w.turns = true)
    (h : ((f true).exec (answer E) w).result = .error e ∧ Harmless w ((f true).exec (answer E) w)) :
    ((ask (.aborted signal) >>= f).exec (answer E) w).result = .error e ∧
      Harmless w ((ask (.aborted signal) >>= f).exec (answer E) w) := by
  have hread : ((ask (.aborted signal)).exec (answer E) w).result = .ok true := by
    rw [← aborted]
    rfl
  have hcall := harmless_of_avoids (E := E)
    (Avoids.op (isDecisive_spares.look (.aborted signal) rfl)) w
  refine ⟨?_, hcall.bind hread h.2⟩
  rw [exec_bind hread]
  exact h.1

/-! ## The two readings of the signal -/

theorem logDenied_returns (status : WriteStatus) (code message : JStr) :
    Returns (logDenied ctx status code message) := fun _ _ _ => trivial

theorem logWriteFailure_returns (before : Option JStr) (persistSnapshots : Bool) (error : Thrown) :
    Returns (logWriteFailure ctx before persistSnapshots error) := by
  have htiming : Returns timingOf := fun timing => by cases timing <;> trivial
  exact fun _ => htiming.bind fun _ _ _ => trivial

/-- A call that sees the abort before its approval is consumed denies itself. -/
theorem consumeApproval_aborted (given : ctx.signal = some signal)
    (aborted : isAborted signal w.turns = true) :
    ((consumeApproval ctx true).exec (answer E) w).result = .error errCancelled ∧
      Harmless w ((consumeApproval ctx true).exec (answer E) w) := by
  have heq : consumeApproval ctx true = (ask (.aborted signal) >>= fun b : Bool => do
      let code := if b then js "cancelled" else (errCode errCancelled).getD (js "denied")
      logDenied ctx (auditDenyStatus code) code (errMsg errCancelled)
      throw errCancelled) := by
    unfold consumeApproval signalAborted
    rw [given]
    rfl
  rw [heq]
  exact exec_aborted aborted (harmless_throw (logDenied_returns _ _ _)
    (logDenied_avoids isDecisive_spares trivial _ _ _) w)

/-- A call that sees the abort before it hands the write over logs it as cancelled. -/
theorem handOver_aborted (given : ctx.signal = some signal)
    (aborted : isAborted signal w.turns = true) (before : Option JStr) (persistSnapshots : Bool) :
    ((handOver ctx before persistSnapshots).exec (answer E) w).result = .error errCancelled ∧
      Harmless w ((handOver ctx before persistSnapshots).exec (answer E) w) := by
  have heq : handOver ctx before persistSnapshots = (ask (.aborted signal) >>= fun b : Bool =>
      if b then do
        logWriteFailure ctx before persistSnapshots errCancelled
        throw errCancelled
      else handOver { ctx with signal := none } before persistSnapshots) := by
    unfold handOver writeReply throwIfCancelled signalAborted
    rw [given]
    exact congrArg (Prog.ask _) (funext fun b => by cases b <;> rfl)
  rw [heq]
  exact exec_aborted aborted (harmless_throw (logWriteFailure_returns _ _ _)
    (logWriteFailure_avoids isDecisive_spares trivial _ _ _) w)

/-- The turns a snapshot takes: one more when it asks the router. -/
def snapshotTurns (find : JStr → Option CommandDef) (snapshotRead : Option JStr) : Nat :=
  if (snapshotCall find snapshotRead).isSome then 2 else 1

/-- A snapshot and the turn of its `await`. -/
theorem snapshot_exec (E : Env) (find : JStr → Option CommandDef) (snapshotRead : Option JStr)
    (w : World) :
    (∃ before, ((snapshot find snapshotRead).exec (answer E) w).result = .ok before) ∧
      ((snapshot find snapshotRead).exec (answer E) w).world.turns + 1 =
        w.turns + snapshotTurns find snapshotRead := by
  rw [snapshot_eq]
  unfold snapshotTurns
  cases hc : snapshotCall find snapshotRead with
  | none => exact ⟨⟨none, rfl⟩, rfl⟩
  | some c =>
    have hexec : Prog.exec (answer E) (tryCatch (do
          let raw ← await .snapshot c
          return some raw) fun _ => return none) w =
        Outcome.prepend (answered E (.send .snapshot c) w)
          (Outcome.prepend (answered E (.reply .snapshot) w) (Prog.exec (answer E) (tryCatch (do
            let raw ← throwVigor (E.readReply w.reads)
            return some raw) fun _ => return none) (answer E (.reply .snapshot) w).2)) := rfl
    rw [Option.elim_some, hexec]
    cases E.readReply w.reads with
    | error e => exact ⟨⟨none, rfl⟩, rfl⟩
    | ok raw => exact ⟨⟨some raw, rfl⟩, rfl⟩

theorem performWrite_aborted (given : ctx.signal = some signal)
    (aborted : isAborted signal (w.turns + snapshotTurns find ctx.cmd.snapshotRead) = true) :
    ((performWrite find ctx).exec (answer E) w).result = .error errCancelled ∧
      Harmless w ((performWrite find ctx).exec (answer E) w) := by
  obtain ⟨⟨before, hbefore⟩, hturns⟩ := snapshot_exec E find ctx.cmd.snapshotRead w
  have hsnapshot := harmless_of_avoids (E := E) (snapshot_avoids (S := IsDecisive)
    (fun c hc => by simp [IsDecisive, hc]) id find ctx.cmd.snapshotRead) w
  have hturn : ∀ w : World, ((ask .turn).exec (answer E) w).result = .ok () := fun _ => rfl
  have hharmless := fun w => harmless_of_avoids (E := E)
    (Avoids.op (isDecisive_spares.look .turn rfl)) w
  have habort : isAborted signal ((ask .turn).exec (answer E)
      ((snapshot find ctx.cmd.snapshotRead).exec (answer E) w).world).world.turns = true := by
    rw [← aborted, ← hturns]
    rfl
  obtain ⟨hresult, hover⟩ := handOver_aborted (E := E) given habort before
    (canPersistSnapshots find ctx.cmd)
  unfold performWrite
  refine ⟨?_, hsnapshot.bind hbefore ((hharmless _).bind (hturn _) (hover.bind_error hresult))⟩
  rw [exec_bind hbefore, exec_bind (hturn _), exec_bind_error hresult]

/-! ## Cancelling before the write is handed over -/

/-- The call without its signal. -/
def WriteCall.unsignalled (call : WriteCall) : WriteCall :=
  { call with opts := { call.opts with signal := none } }

/-- A call that is cancelled without touching its approval: the same one can be presented again. -/
structure KeepsApproval (E : Env) (find : JStr → Option CommandDef) (call : WriteCall)
    (intent : WriteIntent) (w : World) : Prop where
  cancelled : (call.exec E find w).result = .error errCancelled
  unsent : Unsent (call.exec E find w).trace
  pending : (call.exec E find w).world.gate.intents.get intent.confirmationId = some intent
  again : ∀ call' : WriteCall,
    E.gate.clock ((call.exec E find w).world.gate.tick + 1) ≤ intent.expiresAt →
    call'.Approved E.gate intent (call.exec E find w).world.turns →
    ∃ command signature, (⟨.consumeSigned intent.confirmationId command signature, .ok ()⟩ :
      Event toolCalls) ∈ (call'.exec E find (call.exec E find w).world).trace

theorem presented_aborted (given : call.opts.signal = some signal)
    (aborted : isAborted signal w.turns = true) :
    (call.presented E find p w).result = .error errCancelled ∧
      Harmless (answer E .now w).2 (call.presented E find p w) := by
  have hany : call.opts.signal.any (isAborted · w.turns) = true := by
    rw [given]
    exact aborted
  obtain ⟨hresult, hconsume⟩ := @consumeApproval_aborted E (answer E .now w).2
    (call.context p (E.gate.clock w.gate.tick)) signal given aborted
  unfold WriteCall.presented runPresented
  rw [hany]
  refine ⟨?_, hconsume.bind_error hresult⟩
  rw [exec_bind_error hresult]

/-- The approval that a context presents to the gate. -/
def WriteContext.approval (ctx : WriteContext) : ToolOp :=
  .consumeSigned (ctx.cid.getD []) ctx.command (ctx.sig.getD [])

/-- An accepted approval, when the signal was live at the first reading. -/
theorem consumeApproval_accepted (h : (w.gate.consumeSigned E.gate (ctx.cid.getD []) ctx.command
      (ctx.sig.getD [])).1 = .ok ()) :
    ((consumeApproval ctx false).exec (answer E) w).result = .ok () ∧
      ((consumeApproval ctx false).exec (answer E) w).trace = [answered E ctx.approval w] ∧
      ((consumeApproval ctx false).exec (answer E) w).world = (answer E ctx.approval w).2 := by
  have hrun : (consumeApproval ctx false).exec (answer E) w = Outcome.prepend
      (answered E ctx.approval w) ((Prog.handle (throwConfirm (w.gate.consumeSigned E.gate
        (ctx.cid.getD []) ctx.command (ctx.sig.getD [])).1) fun error => (do
          let code := if (← signalAborted ctx.signal) then js "cancelled"
            else (errCode error).getD (js "denied")
          logDenied ctx (auditDenyStatus code) code (errMsg error)
          throw error : Handling Unit)).exec (answer E) (answer E ctx.approval w).2) := rfl
  rw [hrun, h]
  exact ⟨rfl, rfl, rfl⟩

/-- A run whose approval is accepted and whose signal is aborted before the write is handed over. -/
theorem runPresented_aborted (given : ctx.signal = some signal)
    (aborted : isAborted signal (w.turns + snapshotTurns find ctx.cmd.snapshotRead) = true)
    (accepted : (w.gate.consumeSigned E.gate (ctx.cid.getD []) ctx.command
      (ctx.sig.getD [])).1 = .ok ()) :
    ((runPresented find ctx false).exec (answer E) w).result = .error errCancelled ∧
      Unsent ((runPresented find ctx false).exec (answer E) w).trace ∧
      ((runPresented find ctx false).exec (answer E) w).world.gate.intents =
        (answer E ctx.approval w).2.gate.intents := by
  obtain ⟨hok, htrace, hworld⟩ := consumeApproval_accepted (E := E) accepted
  obtain ⟨hresult, hperform⟩ :
      ((performWrite find ctx).exec (answer E) (answer E ctx.approval w).2).result =
          .error errCancelled ∧
        Harmless (answer E ctx.approval w).2
          ((performWrite find ctx).exec (answer E) (answer E ctx.approval w).2) :=
    performWrite_aborted given aborted
  unfold runPresented
  rw [exec_bind hok, htrace, hworld, exec_bind_error hresult]
  have hconsume : Unsent [answered E ctx.approval w] := by
    refine unsent_of_not_send fun e he site c hop => ?_
    obtain rfl := List.mem_singleton.mp he
    cases hop
  exact ⟨rfl, hconsume.append hperform.unsent, hperform.intents⟩

theorem consumed_get_none {g g' : ConfirmGate} {confirmationId command signature : JStr}
    {intent : WriteIntent}
    (h : ConfirmGate.Consumed E.gate g g' confirmationId command signature intent) :
    g'.intents.get confirmationId = none := by
  obtain ⟨_, _, _, later⟩ := h.left
  rw [OrderedMap.get_eq_none]
  intro i hi
  exact (OrderedMap.mem_delete.mp (later.intents.subset hi)).2 rfl

/-- A call whose signal is aborted after its approval was accepted, but before the write is handed
over. -/
theorem presented_late {intent : WriteIntent} (hw : w.gate.WellFormed)
    (given : call.opts.signal = some signal) (live : isAborted signal w.turns = false)
    (aborted : isAborted signal (w.turns + snapshotTurns find call.cmd.snapshotRead) = true)
    (pending : w.gate.intents.get intent.confirmationId = some intent)
    (inTime : E.gate.clock (w.gate.tick + 1) ≤ intent.expiresAt)
    (approved : call.unsignalled.Approved E.gate intent w.turns) (hp : call.prepared = .ok p) :
    (call.presented E find p w).result = .error errCancelled ∧
      Unsent (call.presented E find p w).trace ∧
      (call.presented E find p w).world.gate.intents.get intent.confirmationId = none := by
  have hany : call.opts.signal.any (isAborted · w.turns) = false := by
    rw [given]
    exact live
  obtain ⟨p', hp', digest⟩ := approved.prepared
  obtain rfl : p' = p := Except.ok.inj (hp'.symm.trans hp)
  obtain ⟨key, hkey, verified⟩ := approved.verified
  have hid : call.cid.getD [] = intent.confirmationId := congrArg (Option.getD · []) approved.id
  have hok : (w.gate.ticked.consumeSigned E.gate (call.cid.getD []) p'.command
      (call.sig.getD [])).1 = .ok () := by
    rw [hid]
    exact ConfirmGate.consumeSigned_ok (hw.later (ConfirmGate.ticked_later (E := E.gate) _)) hkey
      pending inTime digest verified
  have hgone : (w.gate.ticked.consumeSigned E.gate (call.cid.getD []) p'.command
      (call.sig.getD [])).2.intents.get intent.confirmationId = none := by
    rcases ConfirmGate.consumeSigned_cases E.gate w.gate.ticked (call.cid.getD []) p'.command
      (call.sig.getD []) with ⟨e, g', he, _⟩ | ⟨g', i, hi, hconsumed⟩
    · rw [he] at hok
      cases hok
    · rw [hi, ← hid]
      exact consumed_get_none hconsumed
  obtain ⟨hresult, hunsent, hintents⟩ := @runPresented_aborted E find (answer E .now w).2
    (call.context p' (E.gate.clock w.gate.tick)) signal given aborted hok
  unfold WriteCall.presented
  rw [hany]
  exact ⟨hresult, hunsent, (congrArg (OrderedMap.get · _) hintents).trans hgone⟩

/-- **Cancelling an approved write before it is handed over keeps the approval if and only if the
signal is aborted when the call first reads it.** The call throws `cancelled` and sends nothing either
way, but after a later abort the approval is gone. -/
theorem cancelled_keeps_iff (hw : w.Reached E) {intent : WriteIntent} {n : Nat}
    (pending : w.gate.intents.get intent.confirmationId = some intent)
    (inTime : E.gate.clock (w.gate.tick + 1) ≤ intent.expiresAt)
    (approved : call.unsignalled.Approved E.gate intent w.turns)
    (given : call.opts.signal = some ⟨some n⟩)
    (before : n ≤ w.turns + snapshotTurns find call.cmd.snapshotRead) :
    (call.exec E find w).result = .error errCancelled ∧ Unsent (call.exec E find w).trace ∧
      (KeepsApproval E find call intent w ↔ n ≤ w.turns) := by
  obtain ⟨p, hp, -⟩ := approved.prepared
  have hprepared : call.prepared = .ok p := hp
  have hcomplete : ¬call.Incomplete := approved.complete
  have hacknowledged : ¬call.NotAcknowledged := approved.acknowledged
  obtain ⟨pre, hpre, hexec⟩ := exec_presented E find w hprepared hcomplete hacknowledged
  have hunsent : Unsent pre := by
    refine unsent_of_not_send fun e he site c hop => ?_
    have := hpre e he
    rw [hop] at this
    cases this
  by_cases hfirst : n ≤ w.turns
  · have haborted : isAborted ⟨some n⟩ w.turns = true := decide_eq_true hfirst
    obtain ⟨hresult, hharmless⟩ : (call.presented E find p w).result = .error errCancelled ∧
        Harmless (answer E .now w).2 (call.presented E find p w) := presented_aborted given haborted
    have hcancelled : (call.exec E find w).result = .error errCancelled := by
      rw [hexec, hresult]
    have hsilent : Unsent (call.exec E find w).trace := by
      rw [hexec]
      exact hunsent.append hharmless.unsent
    have hpending : (call.exec E find w).world.gate.intents.get intent.confirmationId =
        some intent := by
      rw [hexec]
      exact (congrArg (OrderedMap.get · _) hharmless.intents).trans pending
    refine ⟨hcancelled, hsilent, iff_of_true ⟨hcancelled, hsilent, hpending, ?_⟩ hfirst⟩
    exact fun call' live h => consumed_of_approved (exec_reached _ hw).wellFormed hpending live h
  · have hlive : isAborted ⟨some n⟩ w.turns = false := decide_eq_false hfirst
    have haborted : isAborted ⟨some n⟩ (w.turns + snapshotTurns find call.cmd.snapshotRead) = true :=
      decide_eq_true before
    obtain ⟨hresult, hlate, hgone⟩ := presented_late hw.wellFormed given hlive haborted pending
      inTime approved hprepared
    refine ⟨by rw [hexec, hresult], ?_, iff_of_false (fun h => ?_) hfirst⟩
    · rw [hexec]
      exact hunsent.append hlate
    · have hpending := h.pending
      rw [hexec, hgone] at hpending
      cases hpending

/-! ### A write that is cancelled during its snapshot -/

/-- A read tool to take snapshots with. -/
def userStatusTool : CommandDef :=
  { userSetdefaultTool with
    id := js "user_status"
    kind := .read
    render := fun _ => .ok (js "user status")
    sdk := none }

def statusOnly (id : JStr) : Option CommandDef :=
  if id = userStatusTool.id then some userStatusTool else none

/-- The approved call, with a snapshot. -/
def setdefaultSnapshot : WriteCall where
  cmd := { userSetdefaultTool with snapshotRead := some (js "user_status") }
  args := setdefaultApproved.args
  opts := ⟨true, none⟩

theorem setdefaultSnapshot_approved :
    setdefaultSnapshot.Approved userGate setdefaultIntent setdefaultPending.turns where
  prepared := digest_of_map (by decide +kernel)
  id := by decide +kernel
  complete := by decide +kernel
  acknowledged := by decide +kernel
  live := by decide +kernel
  verified := ⟨approveKey, rfl, by decide +kernel⟩

/-- The same call, cancelled at a turn. -/
def setdefaultCancelled (turn : Nat) : WriteCall :=
  { setdefaultSnapshot with opts := ⟨true, some ⟨some turn⟩⟩ }

theorem setdefaultCancelled_early :
    KeepsApproval userEnv statusOnly (setdefaultCancelled 0) setdefaultIntent setdefaultPending :=
  (cancelled_keeps_iff (exec_reached _ .new) (by decide +kernel) (by decide)
    setdefaultSnapshot_approved rfl (Nat.zero_le _)).2.2.mpr (Nat.zero_le _)

/-- The abort arrives while the router is asked for the snapshot. -/
theorem setdefaultCancelled_late : ∃ (find : JStr → Option CommandDef) (call : WriteCall)
    (intent : WriteIntent) (w : World) (n : Nat), w.Reached userEnv ∧
    w.gate.intents.get intent.confirmationId = some intent ∧
    userEnv.gate.clock (w.gate.tick + 1) ≤ intent.expiresAt ∧
    call.unsignalled.Approved userGate intent w.turns ∧
    call.opts.signal = some ⟨some n⟩ ∧ n ≤ w.turns + snapshotTurns find call.cmd.snapshotRead ∧
    ¬KeepsApproval userEnv find call intent w := by
  refine ⟨statusOnly, setdefaultCancelled 1, setdefaultIntent, setdefaultPending, 1,
    exec_reached _ .new, by decide +kernel, by decide, setdefaultSnapshot_approved, rfl,
    by decide +kernel, fun h => ?_⟩
  have hpending := h.pending
  revert hpending
  decide +kernel

end VigorMcp
