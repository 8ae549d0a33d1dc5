import VigorMcp.Commands.WriteAudit
import VigorMcp.Server.Runs
import VigorMcp.Tools.RunExclusive

/-!
# Write calls take turns

A host is a server with the gate's chain of promises. A call's body starts when
a job of the chain calls its callback, whatever the other calls are doing, and
its end settles a promise. Every run of a host is a run of the server
(`Host.Reaches.server`), whose write calls wait for their turn; so the turns are
what the chain does, and the server's results hold of hosts. From the order of
the turns follows the order of the client calls (`write_workflows_take_turns`).
-/

namespace VigorMcp

structure Host where
  server : Server
  chain : WriteChain WriteBody Thrown

def Host.new : Host := ⟨.new, .new⟩

/-- One step of a host. -/
inductive Host.Step (E : Env) (findCommand : JStr → Option CommandDef) : Host → Host → Prop
  /-- `executeWrite`: the call's body goes to `runExclusive`. -/
  | executeWrite {h : Host} (call : WriteCall) :
      Step E findCommand h
        ⟨{ h.server with writes := h.server.writes ++ [⟨call, .waiting⟩] }, h.chain.runExclusive⟩
  /-- A job of the chain starts a body: the call's, from its beginning. -/
  | startBody {h : Host} {k : Nat} {task : WriteTask} {chain : WriteChain WriteBody Thrown}
      (job : h.chain.runJob = some chain) (starts : chain.started = h.chain.started ++ [k])
      (called : h.server.writes[k]? = some task) :
      Step E findCommand h
        ⟨{ h.server with
            writes := h.server.writes.set k
              ⟨task.call, .running (task.call.run findCommand E.gate.ttlMs)⟩ }, chain⟩
  | job {h : Host} {chain : WriteChain WriteBody Thrown} (job : h.chain.runJob = some chain)
      (starts : chain.started = h.chain.started) : Step E findCommand h ⟨h.server, chain⟩
  | askWrite {h : Host} {k : Nat} {call : WriteCall} {o : ToolOp}
      {next : toolCalls.Ans o → Handling WriteBody}
      (runs : h.server.writes[k]? = some ⟨call, .running (.ask o next)⟩) :
      Step E findCommand h
        ⟨{ h.server with
            world := (answer E o h.server.world).2
            writes := h.server.writes.set k ⟨call, .running (next (answer E o h.server.world).1)⟩
            log := h.server.log ++
              [.write k call h.server.world (answered E o h.server.world)] }, h.chain⟩
  /-- The body started as number `s`, of the call `k`, ends and settles its promise. -/
  | endWrite {h : Host} {s k : Nat} {call : WriteCall} {result : Except Thrown WriteBody}
      (runs : h.server.writes[k]? = some ⟨call, .running (Prog.ofExcept result)⟩)
      (body : h.chain.started[s]? = some k) (unfinished : h.chain.outcome s = none) :
      Step E findCommand h
        ⟨{ h.server with writes := h.server.writes.set k ⟨call, .settled result⟩ },
          h.chain.finish s result⟩
  | submitRead {h : Host} (cmd : CommandDef) (args : Args) :
      Step E findCommand h
        ⟨{ h.server with reads := h.server.reads ++ [readTool cmd args] }, h.chain⟩
  | askRead {h : Host} {k : Nat} {o : ToolOp} {next : toolCalls.Ans o → Handling JsValue}
      (runs : h.server.reads[k]? = some (.ask o next)) :
      Step E findCommand h
        ⟨{ h.server with
            world := (answer E o h.server.world).2
            reads := h.server.reads.set k (next (answer E o h.server.world).1)
            log := h.server.log ++ [.read k h.server.world (answered E o h.server.world)] }, h.chain⟩
  | sign {h : Host} (payload : List UInt8) :
      Step E findCommand h
        ⟨{ h.server with log := h.server.log ++ [.signed payload] }, h.chain⟩

/-- The hosts that a run from the empty gate reaches. -/
def Host.Reaches (E : Env) (findCommand : JStr → Option CommandDef) (h : Host) : Prop :=
  Relation.ReflTransGen (Host.Step E findCommand) .new h

namespace Host

/-! ## The chain and the phases of the calls -/

/-- Where the chain has a call of that number and phase. -/
def AtPhase (c : WriteChain WriteBody Thrown) (k : Nat) : Phase → Prop
  | .waiting => c.started.length ≤ k
  | .running _ => c.Running k
  | .settled result => k < c.started.length ∧ c.outcome k = some result

structure Linked (h : Host) : Prop where
  inTurn : h.chain.InTurn
  calls : h.server.writes.length = h.chain.calls
  phases : ∀ k task, h.server.writes[k]? = some task → AtPhase h.chain k task.phase

theorem new_linked : Linked .new where
  inTurn := WriteChain.new_inTurn
  calls := rfl
  phases _ _ h := by cases h

variable {E : Env} {findCommand : JStr → Option CommandDef} {h h' : Host}

/-- The calls whose bodies are over have settled. -/
theorem Linked.settled (hl : Linked h) {k : Nat} {task : WriteTask} {o : Except Thrown WriteBody}
    (hk : h.server.writes[k]? = some task) (hlt : k < h.chain.started.length)
    (ho : h.chain.outcome k = some o) : task.phase = .settled o := by
  have hphase := hl.phases k task hk
  cases hp : task.phase with
  | waiting =>
    rw [hp] at hphase
    exact absurd hlt (Nat.not_lt.mpr hphase)
  | running rest =>
    rw [hp] at hphase
    have := hphase.2
    rw [ho] at this
    cases this
  | settled result =>
    rw [hp] at hphase
    rw [Option.some.inj (ho.symm.trans hphase.2)]

/-- The calls' phases when one of them changes. -/
theorem phases_set {c c' : WriteChain WriteBody Thrown} {writes : List WriteTask} {k : Nat}
    {task task' : WriteTask} (hk : writes[k]? = some task)
    (hphases : ∀ j task, writes[j]? = some task → AtPhase c j task.phase)
    (hothers : ∀ j phase, j ≠ k → AtPhase c j phase → AtPhase c' j phase)
    (hnew : AtPhase c' k task'.phase) (j : Nat) (t : WriteTask)
    (ht : (writes.set k task')[j]? = some t) : AtPhase c' j t.phase := by
  have hlt : k < writes.length := (List.getElem?_eq_some_iff.mp hk).1
  rcases eq_or_ne j k with rfl | hne
  · rw [List.getElem?_set_self hlt] at ht
    obtain rfl := Option.some.inj ht
    exact hnew
  · rw [List.getElem?_set_ne hne.symm] at ht
    exact hothers j t.phase hne (hphases j t ht)

/-- A job that starts a body starts the next call's, and all earlier calls have settled. -/
theorem Linked.starts (hl : Linked h) {chain : WriteChain WriteBody Thrown} {k : Nat}
    (job : h.chain.runJob = some chain) (starts : chain.started = h.chain.started ++ [k]) :
    k = h.chain.started.length ∧ chain.outcome = h.chain.outcome ∧
      ∀ s < h.chain.started.length, ∃ o, h.chain.outcome s = some o := by
  obtain ⟨_, _, houtcome, hsame | ⟨_, hnext, hover⟩⟩ := hl.inTurn.runJob job
  · rw [hsame] at starts
    have := congrArg List.length starts
    rw [List.length_append] at this
    simp at this
  · rw [hnext] at starts
    exact ⟨by simpa using (List.append_cancel_left starts).symm, houtcome, hover⟩

theorem Linked.executeWrite (hl : Linked h) (call : WriteCall) :
    Linked ⟨{ h.server with writes := h.server.writes ++ [⟨call, .waiting⟩] },
      h.chain.runExclusive⟩ where
  inTurn := hl.inTurn.runExclusive
  calls := by simpa [WriteChain.runExclusive] using hl.calls
  phases k task hk := by
    rcases Nat.lt_or_ge k h.server.writes.length with hlt | hge
    · rw [List.getElem?_append_left hlt] at hk
      have := hl.phases k task hk
      cases hp : task.phase <;> rw [hp] at this <;> exact this
    · rw [List.getElem?_append_right hge] at hk
      obtain rfl := List.mem_singleton.mp (List.mem_of_getElem? hk)
      exact hl.inTurn.submitted.trans (hl.calls ▸ hge)

theorem Linked.startBody (hl : Linked h) {chain : WriteChain WriteBody Thrown} {k : Nat}
    {task : WriteTask} (job : h.chain.runJob = some chain)
    (starts : chain.started = h.chain.started ++ [k]) (called : h.server.writes[k]? = some task)
    {rest : Handling WriteBody} :
    Linked ⟨{ h.server with writes := h.server.writes.set k ⟨task.call, .running rest⟩ }, chain⟩ where
  inTurn := (hl.inTurn.runJob job).1
  calls := by simpa [(hl.inTurn.runJob job).2.1] using hl.calls
  phases := by
    obtain ⟨hk, houtcome, _⟩ := hl.starts job starts
    have hlength : chain.started.length = h.chain.started.length + 1 := by
      rw [starts, List.length_append]
      rfl
    show ∀ j t, (h.server.writes.set k _)[j]? = some t → AtPhase chain j t.phase
    refine phases_set called hl.phases (fun j phase hne hphase => ?_) ?_
    · cases phase with
      | waiting =>
        have hphase : h.chain.started.length ≤ j := hphase
        show chain.started.length ≤ j
        omega
      | running _ =>
        obtain ⟨hlt, hnone⟩ := hphase
        exact ⟨by omega, by rw [houtcome, hnone]⟩
      | settled _ =>
        obtain ⟨hlt, hsome⟩ := hphase
        exact ⟨by omega, by rw [houtcome, hsome]⟩
    · exact ⟨by omega, by rw [houtcome, hl.inTurn.fresh k hk.ge]⟩

theorem Linked.job (hl : Linked h) {chain : WriteChain WriteBody Thrown}
    (job : h.chain.runJob = some chain) (starts : chain.started = h.chain.started) :
    Linked ⟨h.server, chain⟩ where
  inTurn := (hl.inTurn.runJob job).1
  calls := hl.calls.trans (hl.inTurn.runJob job).2.1.symm
  phases k task hk := by
    have houtcome := (hl.inTurn.runJob job).2.2.1
    have := hl.phases k task hk
    unfold AtPhase WriteChain.Running at *
    simp only [starts, houtcome]
    exact this

theorem Linked.running (hl : Linked h) {k : Nat} {call : WriteCall} {rest : Handling WriteBody}
    (runs : h.server.writes[k]? = some ⟨call, .running rest⟩) : h.chain.Running k :=
  hl.phases k _ runs

/-- A running call goes on. -/
theorem Linked.goesOn (hl : Linked h) {k : Nat} {call : WriteCall} {rest rest' : Handling WriteBody}
    (runs : h.server.writes[k]? = some ⟨call, .running rest⟩) {world : World} {log : List Entry}
    {reads : List (Handling JsValue)} :
    Linked ⟨⟨world, h.server.writes.set k ⟨call, .running rest'⟩, reads, log⟩, h.chain⟩ where
  inTurn := hl.inTurn
  calls := by simpa using hl.calls
  phases := phases_set runs hl.phases (fun _ _ _ hphase => hphase) (hl.running runs)

/-- The body started as number `s` is the one of the call `s`. -/
theorem Linked.body (hl : Linked h) {s k : Nat} (body : h.chain.started[s]? = some k) : s = k := by
  rw [hl.inTurn.order] at body
  simpa using (List.getElem?_eq_some_iff.mp body).2

theorem Linked.endWrite (hl : Linked h) {k : Nat} {call : WriteCall}
    {result : Except Thrown WriteBody}
    (runs : h.server.writes[k]? = some ⟨call, .running (Prog.ofExcept result)⟩) :
    Linked ⟨{ h.server with writes := h.server.writes.set k ⟨call, .settled result⟩ },
      h.chain.finish k result⟩ where
  inTurn := hl.inTurn.finish (hl.running runs) result
  calls := by simpa [WriteChain.finish] using hl.calls
  phases := by
    refine phases_set runs hl.phases (fun j phase hne hphase => ?_)
      ⟨(hl.running runs).1, Function.update_self ..⟩
    have hother : (h.chain.finish k result).outcome j = h.chain.outcome j :=
      Function.update_of_ne hne ..
    cases phase with
    | waiting => exact hphase
    | running _ => exact ⟨hphase.1, hother.trans hphase.2⟩
    | settled _ => exact ⟨hphase.1, hother.trans hphase.2⟩

/-- The call whose body starts has waited for its turn. -/
theorem Linked.turn (hl : Linked h) {chain : WriteChain WriteBody Thrown} {k : Nat} {task : WriteTask}
    (job : h.chain.runJob = some chain) (starts : chain.started = h.chain.started ++ [k])
    (called : h.server.writes[k]? = some task) : task.phase = .waiting ∧
      ∀ j task, j < k → h.server.writes[j]? = some task → ∃ result, task.phase = .settled result := by
  obtain ⟨rfl, _, hover⟩ := hl.starts job starts
  constructor
  · have hphase := hl.phases _ task called
    cases hp : task.phase with
    | waiting => rfl
    | running rest | settled result =>
      rw [hp] at hphase
      exact absurd hphase.1 (Nat.lt_irrefl _)
  · intro j task hj hcalled
    obtain ⟨o, ho⟩ := hover j hj
    exact ⟨o, hl.settled hcalled hj ho⟩

/-- **What one step keeps**, and that it is a step of the server or none. -/
theorem step_linked (hstep : Step E findCommand h h') (hl : Linked h) :
    Linked h' ∧ (VigorMcp.Step E findCommand h.server h'.server ∨ h'.server = h.server) := by
  cases hstep with
  | executeWrite call => exact ⟨hl.executeWrite call, .inl (.submitWrite call)⟩
  | @startBody k task chain job starts called =>
    obtain ⟨hwaits, hturn⟩ := hl.turn job starts called
    refine ⟨hl.startBody job starts called, .inl (.startWrite ?_ hturn)⟩
    rw [called, ← hwaits]
  | job job starts => exact ⟨hl.job job starts, .inr rfl⟩
  | askWrite runs => exact ⟨hl.goesOn runs, .inl (.askWrite runs)⟩
  | endWrite runs body unfinished =>
    obtain rfl := hl.body body
    exact ⟨hl.endWrite runs, .inl (.endWrite runs)⟩
  | submitRead cmd args =>
    exact ⟨⟨hl.inTurn, hl.calls, hl.phases⟩, .inl (.submitRead cmd args)⟩
  | askRead runs => exact ⟨⟨hl.inTurn, hl.calls, hl.phases⟩, .inl (.askRead runs)⟩
  | sign payload => exact ⟨⟨hl.inTurn, hl.calls, hl.phases⟩, .inl (.sign payload)⟩

theorem Reaches.linked (hr : h.Reaches E findCommand) : Linked h := by
  induction hr with
  | refl => exact new_linked
  | tail _ hstep ih => exact (step_linked hstep ih).1

/-- **A run of a host is a run of the server.** -/
theorem Reaches.server (hr : h.Reaches E findCommand) : VigorMcp.Reaches E findCommand h.server := by
  induction hr with
  | refl => exact .refl
  | @tail h h' hreach hstep ih =>
    rcases (step_linked hstep (Reaches.linked hreach)).2 with hserver | hserver
    · exact ih.tail hserver
    · rw [hserver]
      exact ih

end Host

/-! ## The order of the client calls -/

/-- The write call an entry is of. -/
def Entry.number : Entry → Option Nat
  | .write number _ _ _ => some number
  | _ => none

def Entry.NotAfter (e e' : Entry) : Prop := ∀ j ∈ e.number, ∀ k ∈ e'.number, j ≤ k

/-- A call to the router client that the write executor issued for a write call. -/
structure IssuedCall where
  number : Nat
  site : Site
  call : ClientCall

def Entry.issuedCall : Entry → Option IssuedCall
  | .write number _ _ ⟨.send site call, _⟩ => some ⟨number, site, call⟩
  | _ => none

def issuedCalls (log : List Entry) : List IssuedCall := log.filterMap Entry.issuedCall

theorem Entry.number_of_issuedCall {e : Entry} {i : IssuedCall} (h : e.issuedCall = some i) :
    e.number = some i.number := by
  unfold issuedCall at h
  split at h
  · obtain rfl := Option.some.inj h
    rfl
  · cases h

section

variable {E : Env} {findCommand : JStr → Option CommandDef} {s s' : Server}

/-- What a running call does comes after all that other calls have done. -/
theorem notAfter_running (hs : Sound E s) (hx : Exclusive s) {k : Nat} {call : WriteCall}
    {rest : Handling WriteBody} (runs : s.writes[k]? = some ⟨call, .running rest⟩) {e : Entry}
    (he : e ∈ s.log) : ∀ j ∈ e.number, j ≤ k := by
  intro j hj
  by_contra hlt
  cases e with
  | write number call' before event =>
    obtain rfl := Option.some.inj hj
    obtain ⟨phase, hphase⟩ := hs.numbered _ he
    rcases hx k number _ _ (by omega) runs hphase with ⟨_, hsettled⟩ | hwaits
    · cases hsettled
    · -- a call that waits has done nothing
      have hnone := hs.tasks number
      obtain rfl : phase = .waiting := hwaits
      rw [hphase] at hnone
      have hmem : event ∈ s.log.filterMap (Entry.eventOf number) :=
        List.mem_filterMap.mpr ⟨_, he, if_pos rfl⟩
      rw [show s.log.filterMap (Entry.eventOf number) = [] from hnone] at hmem
      cases hmem
  | read _ _ _ => cases hj
  | signed _ => cases hj

theorem pairwise_concat {R : Entry → Entry → Prop} {log : List Entry} {e : Entry}
    (h : log.Pairwise R) (he : ∀ a ∈ log, R a e) : (log ++ [e]).Pairwise R :=
  List.pairwise_append.mpr ⟨h, List.pairwise_singleton _ _, fun a ha b hb => by
    rw [List.mem_singleton.mp hb]
    exact he a ha⟩

theorem step_ordered (hstep : Step E findCommand s s') (hs : Sound E s) (hx : Exclusive s)
    (h : s.log.Pairwise Entry.NotAfter) : s'.log.Pairwise Entry.NotAfter := by
  cases hstep with
  | submitWrite _ => exact h
  | startWrite _ _ => exact h
  | askWrite runs =>
    refine pairwise_concat h fun e he j hj k hk => ?_
    obtain rfl := Option.some.inj hk
    exact notAfter_running hs hx runs he j hj
  | endWrite _ => exact h
  | submitRead _ _ => exact h
  | askRead _ => exact pairwise_concat h fun _ _ _ _ _ hk => by cases hk
  | sign _ => exact pairwise_concat h fun _ _ _ _ _ hk => by cases hk

/-- The log has the write calls' entries in the order of the calls. -/
theorem Reaches.ordered (h : Reaches E findCommand s) : s.log.Pairwise Entry.NotAfter := by
  induction h with
  | refl => exact .nil
  | tail hreach hstep ih => exact step_ordered hstep (Reaches.sound hreach) (Reaches.exclusive hreach) ih

/-- **The client calls of a write call form one block**, and the blocks are in the order of the
calls. -/
theorem Reaches.blocks (h : Reaches E findCommand s) : issuedCalls s.log =
    (List.range s.writes.length).flatMap fun k =>
      (issuedCalls s.log).filter fun i => i.number = k := by
  refine History.eq_blocks ?_ fun i hi => ?_
  · refine List.Pairwise.filterMap _ (fun e e' hle i hi i' hi' => ?_) h.ordered
    exact hle _ (Entry.number_of_issuedCall hi) _ (Entry.number_of_issuedCall hi')
  · obtain ⟨e, he, hi⟩ := List.mem_filterMap.mp hi
    have hnumber := Entry.number_of_issuedCall hi
    have hcall := (Reaches.sound h).numbered e he
    cases e with
    | write number call before event =>
      obtain ⟨phase, hphase⟩ := hcall
      obtain rfl := Option.some.inj hnumber
      exact (List.getElem?_eq_some_iff.mp hphase).1
    | read _ _ _ => cases hnumber
    | signed _ => cases hnumber

end

/-! ## Write workflows -/

namespace Host

variable {E : Env} {findCommand : JStr → Option CommandDef} {h : Host}

/-- The write call of that number runs. -/
def Runs (h : Host) (k : Nat) : Prop :=
  ∃ call rest, h.server.writes[k]? = some ⟨call, .running rest⟩

/-- A body of the chain that is not over is the one of a running call. -/
theorem Linked.runs (hl : Linked h) {k : Nat} (hk : h.chain.Running k) : h.Runs k := by
  have hlt : k < h.server.writes.length := by
    have := hl.inTurn.submitted
    have := hk.1
    have := hl.calls
    omega
  obtain ⟨⟨call, phase⟩, hcall⟩ : ∃ task, h.server.writes[k]? = some task :=
    ⟨_, List.getElem?_eq_getElem hlt⟩
  have hphase := hl.phases k _ hcall
  cases phase with
  | waiting => exact absurd hk.1 (Nat.not_lt.mpr hphase)
  | running rest => exact ⟨call, rest, hcall⟩
  | settled result =>
    have := hphase.2
    rw [hk.2] at this
    cases this

/-- A call whose body is over has settled with the body's outcome. -/
theorem Linked.ended (hl : Linked h) {k : Nat} {o : Except Thrown WriteBody}
    (hlt : k < h.server.writes.length) (ho : h.chain.outcome k = some o) :
    ∃ call, h.server.writes[k]? = some ⟨call, .settled o⟩ := by
  have hstarted : k < h.chain.started.length := by
    by_contra hge
    rw [hl.inTurn.fresh k (Nat.not_lt.mp hge)] at ho
    cases ho
  obtain ⟨⟨call, phase⟩, hcall⟩ : ∃ task, h.server.writes[k]? = some task :=
    ⟨_, List.getElem?_eq_getElem hlt⟩
  obtain rfl : phase = .settled o := hl.settled hcall hstarted ho
  exact ⟨call, hcall⟩

/-- **Write workflows take turns.** Bodies start in the order of their calls and each once, one runs
at a time, and the promise of a call settles as its own body ended; when nothing is left to run, all
calls have been served. The client calls of a workflow form one block. -/
theorem write_workflows_take_turns (reached : h.Reaches E findCommand) :
    h.chain.started = List.range h.chain.started.length ∧
      (∀ j k, h.Runs j → h.Runs k → j = k) ∧
      (∀ k outcome, k < h.server.writes.length →
        h.chain.promises.state (.run k) = .settled outcome → ∃ call result,
          h.server.writes[k]? = some ⟨call, .settled result⟩ ∧ outcome = result.map some) ∧
      (h.chain.promises.jobs = [] → (∀ k, ¬h.Runs k) →
        h.chain.started = List.range h.server.writes.length ∧
          ∀ k < h.server.writes.length, ∃ call result,
            h.server.writes[k]? = some ⟨call, .settled result⟩ ∧
              h.chain.promises.state (.run k) = .settled (result.map some)) ∧
      issuedCalls h.server.log = (List.range h.server.writes.length).flatMap fun k =>
        (issuedCalls h.server.log).filter fun i => i.number = k := by
  have hl := reached.linked
  refine ⟨hl.inTurn.order, ?_, ?_, ?_, reached.server.blocks⟩
  · rintro j k ⟨_, _, hj⟩ ⟨_, _, hk⟩
    exact hl.inTurn.running_unique (hl.running hj) (hl.running hk)
  · intro k outcome hk hsettled
    obtain ⟨o, ho, rfl⟩ := hl.inTurn.outcome_of_settled (hl.calls ▸ hk) hsettled
    obtain ⟨call, hcall⟩ := hl.ended hk ho
    exact ⟨call, o, hcall, rfl⟩
  · intro hjobs hquiet
    obtain ⟨hall, hserved⟩ := hl.inTurn.quiet hjobs fun s hs => hquiet s (hl.runs hs)
    refine ⟨?_, fun k hk => ?_⟩
    · rw [hl.calls, ← hall]
      exact hl.inTurn.order
    · obtain ⟨o, ho, hrun⟩ := hserved k (hl.calls ▸ hk)
      obtain ⟨call, hcall⟩ := hl.ended hk ho
      exact ⟨call, o, hcall, hrun⟩

/-- Of two calls made at once, a job starts the first one. -/
theorem write_workflows_take_turns_two : ∃ h : Host, h.server.writes.length = 2 ∧
    h.chain.started = [0] ∧ ∀ k, h.Runs k → k = 0 := by
  have hfirst := (Relation.ReflTransGen.refl (r := Step userEnv noTools)).tail
    (.executeWrite (h := Host.new) confirmationIdOnly)
  have hsecond := hfirst.tail (.executeWrite confirmationIdOnly)
  have hstarted := hsecond.tail (.startBody rfl rfl rfl)
  obtain ⟨_, hone, _⟩ := write_workflows_take_turns hstarted
  exact ⟨_, rfl, rfl, fun k hk => hone k 0 hk ⟨_, _, rfl⟩⟩

end Host

end VigorMcp
