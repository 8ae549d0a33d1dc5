import VigorMcp.Commands.WriteFrame
import VigorMcp.Lib.Descent
import VigorMcp.Server.WriteTurns

/-!
# Every write call is served

Calls keep arriving while the chain works. A host serves when it runs a job,
starts a body, lets the running body make its next call or ends it. Each of
these takes the calls up to a given one further down (`step_descends`), and one
of them is possible until that call has its outcome (`Linked.can_serve`); what
arrives meanwhile waits behind. So a host that keeps serving settles the promise
of every write call (`write_call_is_served`): no workflow blocks the ones behind
it, and no stream of new calls starves it.
-/

namespace VigorMcp

namespace WriteChain

variable {ν ε : Type} {c c' : WriteChain ν ε}

/-- How many jobs come after this one before the next body can start. -/
def jobRank : Job ChainPromise ChainCallback (Option ν) ε → Nat
  | .follow _ _ => 3
  | .react (.follow _) _ => 2
  | .react (.callback .ignore _) _ => 1
  | .react (.callback (.fn _) _) _ => 0

def rank (c : WriteChain ν ε) : Nat := (c.promises.jobs.map jobRank).sum

/-- A job that starts no body moves the last outcome along. -/
theorem InTurn.job_descends (h : c.InTurn) (job : c.runJob = some c') (starts : c'.started = c.started) :
    c'.rank < c.rank := by
  unfold WriteChain.runJob at job
  unfold rank
  cases h.frontier with
  | idle outcome _ jobs _ =>
    rcases Nat.lt_or_ge c.started.length c.calls with hlt | hge
    · rw [waitingFor_of_lt hlt] at jobs
      rw [jobs] at job
      obtain rfl := Option.some.inj job
      have := congrArg List.length starts
      simp [WriteChain.start] at this
    · rw [waitingFor_of_ge hge] at jobs
      rw [jobs] at job
      cases job
  | started s last waits jobs body =>
    rw [jobs] at job ⊢
    obtain rfl := Option.some.inj job
    rcases body with ⟨_, hbody⟩ | ⟨o, _, hbody⟩
    · rw [Promises.attach_pending (h := { c.promises with jobs := [] }) hbody]
      simp [jobRank]
    · rw [Promises.attach_settled (h := { c.promises with jobs := [] }) hbody]
      simp [jobRank]
  | running s last waits jobs _ _ =>
    rw [jobs] at job
    cases job
  | finished s last waits o jobs _ =>
    rw [jobs] at job ⊢
    obtain rfl := Option.some.inj job
    rw [Promises.settle_pending (h := { c.promises with jobs := [] }) _ waits.run]
    simp [jobRank]
  | delivered s last o jobs _ _ chain =>
    rw [jobs] at job ⊢
    obtain rfl := Option.some.inj job
    rw [Promises.settle_pending (h := { c.promises with jobs := [] }) _ chain]
    unfold waitingFor
    split <;> simp [jobRank]

/-- A new call's callback is the only job it can add. -/
theorem InTurn.rank_runExclusive (h : c.InTurn) : c.runExclusive.rank = c.rank := by
  unfold rank
  rcases h.tail_state with hpending | ⟨_, outcome, hsettled, _⟩
  · rw [(runExclusive_pending h.tail hpending).2]
  · rw [(runExclusive_settled h.tail hsettled).2]
    simp [jobRank]

/-- The job that starts a body finds all earlier calls served. -/
theorem InTurn.served_at_start (h : c.InTurn) {k s : Nat} (job : c.runJob = some c')
    (starts : c'.started = c.started ++ [s]) (hk : k < c.started.length) :
    ∃ o, c.outcome k = some o ∧ c.promises.state (.run k) = .settled (o.map some) := by
  unfold WriteChain.runJob at job
  cases h.frontier with
  | idle _ _ _ ended => exact ended k hk
  | started _ _ _ jobs _ | finished _ _ _ _ jobs _ | delivered _ _ _ jobs _ _ _ =>
    rw [jobs] at job
    obtain rfl := Option.some.inj job
    simp at starts
  | running _ _ _ jobs _ _ =>
    rw [jobs] at job
    cases job

theorem exists_runJob (h : c.promises.jobs ≠ []) : ∃ c', c.runJob = some c' := by
  unfold WriteChain.runJob
  cases hjobs : c.promises.jobs with
  | nil => exact absurd hjobs h
  | cons job jobs =>
    match job with
    | .react (.callback (.fn _) _) _ => exact ⟨_, rfl⟩
    | .react (.callback .ignore _) _ => exact ⟨_, rfl⟩
    | .react (.follow _) _ => exact ⟨_, rfl⟩
    | .follow _ _ => exact ⟨_, rfl⟩

end WriteChain

/-! ## Phases -/

/-- A call got on: it was started, its body's call was answered, or its body ended. -/
inductive Phase.Later : Phase → Phase → Prop
  | started (rest : Handling WriteBody) : Later (.running rest) .waiting
  | answered {rest rest' : Handling WriteBody} : Descent.Answered rest' rest →
      Later (.running rest') (.running rest)
  | ended (rest : Handling WriteBody) (result : Except Thrown WriteBody) :
      Later (.settled result) (.running rest)

theorem Phase.Later.wf : WellFounded Phase.Later := by
  have settled : ∀ result, Acc Phase.Later (.settled result) := fun _ => ⟨_, fun _ h => by cases h⟩
  have running : ∀ rest, Acc Phase.Later (.running rest) := by
    intro rest
    induction rest using Descent.Answered.wf.induction with
    | _ rest ih =>
      refine ⟨_, fun phase h => ?_⟩
      cases h with
      | answered hanswered => exact ih _ hanswered
      | ended _ result => exact settled result
  refine ⟨fun phase => ?_⟩
  cases phase with
  | settled result => exact settled result
  | running rest => exact running rest
  | waiting =>
    refine ⟨_, fun phase h => ?_⟩
    cases h with
    | started rest => exact running rest

/-! ## Serving -/

def Entry.signature : Entry → Option (List UInt8)
  | .signed payload => some payload
  | _ => none

/-- What the approver has signed. -/
def signatures (log : List Entry) : List (List UInt8) := log.filterMap Entry.signature

namespace Host

variable {E : Env} {findCommand : JStr → Option CommandDef} {h h' : Host} {k : Nat}

/-- A step of the write calls themselves: no call arrives, no read call goes on, nothing is signed. -/
structure Serves (E : Env) (findCommand : JStr → Option CommandDef) (h h' : Host) : Prop where
  step : Step E findCommand h h'
  writes : h'.server.writes.length = h.server.writes.length
  reads : h'.server.reads = h.server.reads
  signed : signatures h'.server.log = signatures h.server.log

/-- The call of that number has settled, and its promise with its outcome. -/
def Served (k : Nat) (h : Host) : Prop :=
  ∃ call result, h.server.writes[k]? = some ⟨call, .settled result⟩ ∧
    h.chain.promises.state (.run k) = .settled (result.map some)

/-- What the calls up to number `k` have yet to do, and the jobs until the next body. -/
def ahead (k : Nat) (h : Host) : List Phase × Nat :=
  ((h.server.writes.take (k + 1)).map WriteTask.phase, h.chain.rank)

def Descends : List Phase × Nat → List Phase × Nat → Prop :=
  Prod.Lex (Descent.OneLess Phase.Later) (· < ·)

theorem Descends.wf : WellFounded Descends :=
  WellFounded.prod_lex (Descent.OneLess.wf Phase.Later.wf) wellFounded_lt

/-- The call of a number up to `k` got on. -/
theorem descends_set {j : Nat} {task task' : WriteTask} {chain : WriteChain WriteBody Thrown}
    {world : World} {reads : List (Handling JsValue)} {log : List Entry} (hj : j ≤ k)
    (called : h.server.writes[j]? = some task) (later : Phase.Later task'.phase task.phase) :
    Descends (ahead k ⟨⟨world, h.server.writes.set j task', reads, log⟩, chain⟩) (ahead k h) := by
  refine .left _ _ ⟨j, task.phase, task'.phase, ?_, later, ?_⟩
  · rw [List.getElem?_map, List.getElem?_take_of_lt (by omega), called]
    rfl
  · simp only [List.take_set, List.map_set]

theorem Linked.served (hl : Linked h) (hk : k < h.server.writes.length)
    (hserved : ∃ o, h.chain.outcome k = some o ∧
      h.chain.promises.state (.run k) = .settled (o.map some)) : h.Served k := by
  obtain ⟨o, ho, hrun⟩ := hserved
  obtain ⟨call, hcall⟩ := hl.ended hk ho
  exact ⟨call, o, hcall, hrun⟩

/-- The running body is not behind a call that has not been served. -/
theorem Linked.running_le (hl : Linked h) (hk : k < h.server.writes.length) (hnot : ¬h.Served k)
    {j : Nat} {call : WriteCall} {rest : Handling WriteBody}
    (runs : h.server.writes[j]? = some ⟨call, .running rest⟩) : j ≤ k := by
  by_contra hlt
  have hlast := hl.inTurn.running_last (hl.running runs)
  exact hnot (hl.served hk (hl.inTurn.ended k (by omega)))

/-- **What a step does to the calls up to one that has not been served**: serving takes them on, and
the other steps leave them as they are. -/
theorem step_descends (hstep : Step E findCommand h h') (hl : Linked h)
    (hk : k < h.server.writes.length) (hnot : ¬h.Served k) :
    Descends (ahead k h') (ahead k h) ∨ ¬Serves E findCommand h h' ∧ ahead k h' = ahead k h := by
  cases hstep with
  | executeWrite call =>
    refine .inr ⟨fun hserves => ?_, ?_⟩
    · have := hserves.writes
      simp at this
    · unfold ahead
      rw [List.take_append_of_le_length (by omega), hl.inTurn.rank_runExclusive]
  | @startBody j task chain job starts called =>
    obtain ⟨rfl, _⟩ := hl.starts job starts
    have hj : h.chain.started.length ≤ k := by
      by_contra hlt
      exact hnot (hl.served hk (hl.inTurn.served_at_start job starts (by omega)))
    refine .inl (descends_set hj called ?_)
    rw [(hl.turn job starts called).1]
    exact .started _
  | job job starts => exact .inl (.right _ (hl.inTurn.job_descends job starts))
  | askWrite runs =>
    exact .inl (descends_set (hl.running_le hk hnot runs) runs (.answered ⟨_, _, _, rfl, rfl⟩))
  | endWrite runs body unfinished =>
    exact .inl (descends_set (hl.running_le hk hnot runs) runs (.ended _ _))
  | submitRead cmd args =>
    refine .inr ⟨fun hserves => ?_, rfl⟩
    have := congrArg List.length hserves.reads
    simp at this
  | @askRead j o next runs =>
    refine .inr ⟨fun hserves => ?_, rfl⟩
    -- a program is not what is left of it
    have hsame : (h.server.reads.set j (next (answer E o h.server.world).1))[j]? =
        h.server.reads[j]? := congrArg (·[j]?) hserves.reads
    rw [List.getElem?_set_self (List.getElem?_eq_some_iff.mp runs).1, runs] at hsame
    exact Descent.Answered.wf.irrefl.irrefl (.ask o next : Handling JsValue)
      ⟨o, next, _, rfl, (Option.some.inj hsame).symm⟩
  | sign payload =>
    refine .inr ⟨fun hserves => ?_, rfl⟩
    have := congrArg List.length hserves.signed
    simp [signatures, Entry.signature] at this

/-! ## Progress -/

theorem signatures_write {log : List Entry} {number : Nat} {call : WriteCall} {before : World}
    {event : Event toolCalls} : signatures (log ++ [.write number call before event]) = signatures log := by
  simp [signatures, Entry.signature]

/-- A job can be run. -/
theorem Linked.can_run_job (hl : Linked h) (jobs : h.chain.promises.jobs ≠ []) :
    ∃ h', Serves E findCommand h h' := by
  obtain ⟨chain, job⟩ := WriteChain.exists_runJob jobs
  obtain ⟨_, _, _, hsame | ⟨hlt, hnext, _⟩⟩ := hl.inTurn.runJob job
  · exact ⟨_, .job job hsame, rfl, rfl, rfl⟩
  · rw [← hl.calls] at hlt
    exact ⟨_, .startBody job hnext (List.getElem?_eq_getElem hlt), by simp, rfl, rfl⟩

/-- The running body can go on. -/
theorem Linked.can_go_on (hl : Linked h) {s : Nat} (hs : h.chain.Running s) :
    ∃ h', Serves E findCommand h h' := by
  obtain ⟨call, rest, runs⟩ := hl.runs hs
  have body : h.chain.started[s]? = some s := by
    rw [hl.inTurn.order]
    exact List.getElem?_range hs.1
  have ends : ∀ result, h.server.writes[s]? = some ⟨call, .running (Prog.ofExcept result)⟩ →
      ∃ h', Serves E findCommand h h' :=
    fun result runs => ⟨_, .endWrite runs body hs.2, by simp, rfl, rfl⟩
  cases rest with
  | ret result => exact ends (.ok result) runs
  | raise error => exact ends (.error error) runs
  | ask o next => exact ⟨_, .askWrite runs, by simp, rfl, signatures_write⟩

/-- **No call blocks the chain**: until all have been served, the host can serve. -/
theorem Linked.can_serve (hl : Linked h) (hk : k < h.server.writes.length) (hnot : ¬h.Served k) :
    ∃ h', Serves E findCommand h h' := by
  by_cases jobs : h.chain.promises.jobs = []
  · by_cases quiet : ∀ s, ¬h.chain.Running s
    · obtain ⟨_, hserved⟩ := hl.inTurn.quiet jobs quiet
      exact absurd (hl.served hk (hserved k (hl.calls ▸ hk))) hnot
    · obtain ⟨s, hs⟩ := not_forall.mp quiet
      exact hl.can_go_on (not_not.mp hs)
  · exact hl.can_run_job jobs

/-! ## Runs -/

/-- A run without end; where nothing happens any more, it stays as it is. -/
structure Run (E : Env) (findCommand : JStr → Option CommandDef) (run : Nat → Host) : Prop where
  start : (run 0).Reaches E findCommand
  steps : ∀ i, run (i + 1) = run i ∨ Step E findCommand (run i) (run (i + 1))

variable {run : Nat → Host}

theorem Run.reaches (hr : Run E findCommand run) (i : Nat) : (run i).Reaches E findCommand := by
  induction i with
  | zero => exact hr.start
  | succ i ih =>
    rcases hr.steps i with hsame | hstep
    · rwa [hsame]
    · exact ih.tail hstep

/-- Calls that were made stay in the list. -/
theorem step_writes_length (hstep : Step E findCommand h h') :
    h.server.writes.length ≤ h'.server.writes.length := by
  cases hstep <;> simp

theorem Run.writes_length (hr : Run E findCommand run) {i j : Nat} (hij : i ≤ j) :
    (run i).server.writes.length ≤ (run j).server.writes.length := by
  induction hij with
  | refl => exact Nat.le_refl _
  | @step j _ ih =>
    rcases hr.steps j with hsame | hstep
    · rwa [hsame]
    · exact Nat.le_trans ih (step_writes_length hstep)

/-- **Every write call is served.** In a run that keeps serving while it can, whatever other calls
arrive, each write call made settles in the end, and its promise with its outcome. -/
theorem write_call_is_served (hr : Run E findCommand run)
    (fair : Descent.WeaklyFair (Serves E findCommand) run) {i : Nat}
    (called : k < (run i).server.writes.length) : ∃ j, i ≤ j ∧ (run j).Served k := by
  have hcalled : ∀ j, i ≤ j → k < (run j).server.writes.length := fun j hj =>
    Nat.lt_of_lt_of_le called (hr.writes_length hj)
  refine fair.reaches Descends.wf (ahead k) ?_ ?_
  · intro j hj hnot
    exact (hr.reaches j).linked.can_serve (hcalled j hj) hnot
  · intro j hj hnot
    by_cases hserves : Serves E findCommand (run j) (run (j + 1))
    · exact step_descends hserves.step (hr.reaches j).linked (hcalled j hj) hnot
    · rcases hr.steps j with hsame | hstep
      · exact .inr ⟨hserves, by rw [hsame]⟩
      · exact step_descends hstep (hr.reaches j).linked (hcalled j hj) hnot

/-- A host that no call reaches any more, left to itself. -/
noncomputable def alone (E : Env) (findCommand : JStr → Option CommandDef) (h : Host) : Nat → Host
  | 0 => h
  | i + 1 =>
    open Classical in
    if hserves : ∃ h', Serves E findCommand (alone E findCommand h i) h' then hserves.choose
    else alone E findCommand h i

theorem alone_serves {i : Nat} (hserves : ∃ h', Serves E findCommand (alone E findCommand h i) h') :
    Serves E findCommand (alone E findCommand h i) (alone E findCommand h (i + 1)) := by
  rw [alone, dif_pos hserves]
  exact hserves.choose_spec

theorem alone_run (hr : h.Reaches E findCommand) : Run E findCommand (alone E findCommand h) where
  start := hr
  steps i := by
    by_cases hserves : ∃ h', Serves E findCommand (alone E findCommand h i) h'
    · exact .inr (alone_serves hserves).step
    · exact .inl (by rw [alone, dif_neg hserves])

theorem alone_fair : Descent.WeaklyFair (Serves E findCommand) (alone E findCommand h) :=
  fun i hserves => ⟨i, Nat.le_refl i, alone_serves (hserves i (Nat.le_refl i))⟩

/-- A step of the host, and then nothing but what is left to do. -/
noncomputable def thenAlone (E : Env) (findCommand : JStr → Option CommandDef) (h h' : Host) :
    Nat → Host
  | 0 => h
  | i + 1 => alone E findCommand h' i

theorem thenAlone_run (hr : h.Reaches E findCommand) (hstep : Step E findCommand h h') :
    Run E findCommand (thenAlone E findCommand h h') where
  start := hr
  steps i := by
    cases i with
    | zero => exact .inr hstep
    | succ i => exact (alone_run (hr.tail hstep)).steps i

theorem thenAlone_fair :
    Descent.WeaklyFair (Serves E findCommand) (thenAlone E findCommand h h') := by
  intro i enabled
  obtain ⟨j, hij, hserves⟩ :=
    alone_fair (h := h') i fun j hij => enabled (j + 1) (Nat.le_succ_of_le hij)
  exact ⟨j + 1, Nat.le_succ_of_le hij, hserves⟩

/-- `executeWrite` of one more call. -/
def withCall (h : Host) (call : WriteCall) : Host :=
  ⟨{ h.server with writes := h.server.writes ++ [⟨call, .waiting⟩] }, h.chain.runExclusive⟩

theorem withCall_reaches (hr : h.Reaches E findCommand) (call : WriteCall) :
    (h.withCall call).Reaches E findCommand :=
  hr.tail (.executeWrite call)

/-- A preview, a call that does not acknowledge, and an approved one that waits behind them. -/
def queued : Host :=
  ((Host.new.withCall setdefaultPreview).withCall setdefaultUnacknowledged).withCall setdefaultApproved

/-- The approved call is served, with two calls before it and one that comes later. -/
theorem write_call_is_served_queued : ∃ i, 1 ≤ i ∧
    (thenAlone userEnv noTools queued (queued.withCall confirmationIdOnly) i).Served 2 := by
  have hreaches : queued.Reaches userEnv noTools :=
    withCall_reaches (withCall_reaches (withCall_reaches .refl _) _) _
  refine write_call_is_served (thenAlone_run hreaches (.executeWrite confirmationIdOnly))
    thenAlone_fair (i := 1) ?_
  decide

end Host

end VigorMcp
