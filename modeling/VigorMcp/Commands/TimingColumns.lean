import VigorMcp.Commands.RouterWorld
import VigorMcp.Commands.WriteCancellation
import VigorMcp.Ssh.Sessions
import VigorMcp.Ssh.WriteAuthorization

/-!
# The timing columns

A row takes its timing columns from the client after the fact: they are those of
the last exchange on its session, whichever call made it. A command that the
client refuses, or that the SDK settles without a send, leaves them as they
were. `Link.Refreshes` says which commands do not, `ToolCall.Refreshes` what
that asks of a whole call, and `timings_own` that the rows of a run of such calls
have the timing of their own exchanges.
-/

namespace VigorMcp

open Prog

/-! ## Columns -/

/-- The columns of the timing that a client gives. -/
def LogTiming.of : Option CommandTiming → LogTiming
  | none => ⟨none, none, none⟩
  | some timing => ⟨some (iso timing.sendAt), some (iso timing.recvAt), some timing.connectMs⟩

theorem timingOf_eq : timingOf = ask .timing >>= fun timing => return .of timing :=
  congrArg (Prog.ask _) (funext fun timing => by cases timing <;> rfl)

def LogEntry.timing (entry : LogEntry) : LogTiming := ⟨entry.sendAt, entry.recvAt, entry.connectMs⟩

/-- Empty columns, or those of an exchange of the call: for a write, of the write command. -/
def OwnTiming (exchanges : List Exchange) (call : Nat) (kind : CommandKind) (timing : LogTiming) :
    Prop :=
  timing = .of none ∨ ∃ x ∈ exchanges, x.call = call ∧ (kind = .write → x.site = .performWrite) ∧
    timing = .of (some x.timing)

/-- Every row has the timing of its own call. -/
def RouterWorld.RowsOwn (w : RouterWorld) : Prop :=
  ∀ row ∈ w.rows, OwnTiming w.exchanges row.call row.entry.kind row.entry.timing

theorem OwnTiming.mono {xs ys : List Exchange} {call : Nat} {kind : CommandKind}
    {timing : LogTiming} (h : OwnTiming xs call kind timing) (hsub : xs ⊆ ys) :
    OwnTiming ys call kind timing := by
  rcases h with h | ⟨x, hx, h⟩
  · exact .inl h
  · exact .inr ⟨x, hsub hx, h⟩

/-! ## The timing of a client -/

/-- The transport's timing is what its last send left. -/
theorem foldl_executed (t : SshClientTransport) (sends : List (Except SshThrown ExecResult)) :
    (sends.foldl (fun t sent => (t.executed sent).2) t).timing =
      sends.getLast?.elim t.timing fun sent => sent.toOption.map ExecResult.timing := by
  induction sends using List.reverseRecOn with
  | nil => rfl
  | append_singleton sends sent ih =>
    rw [List.foldl_concat, List.getLast?_concat]
    cases sent <;> rfl

namespace Link

variable {E : RouterEnv} {l : Link} {c : ClientCall} {timing : CommandTiming}

theorem settle_timing {S : ClientSdk} {run : SdkRun}
    (h : (l.settle S run).2.lastCommandTiming = some timing)
    (fresh : run.sends ≠ [] ∨ l.transport.timing = none) : timing ∈ run.timings := by
  have htransport : (l.settle S run).2.transport =
      run.sends.foldl (fun t sent => (t.executed sent).2) l.transport := by
    unfold settle
    cases run.result <;> rfl
  obtain ⟨s, -, hs⟩ := Option.bind_eq_some_iff.mp h
  rw [htransport, foldl_executed] at hs
  cases hlast : run.sends.getLast? with
  | none =>
    rw [hlast] at hs
    rcases fresh with hsends | hnone
    · exact absurd (List.getLast?_eq_none_iff.mp hlast) hsends
    · exact absurd (hnone.symm.trans hs) nofun
  | some sent =>
    rw [hlast] at hs
    exact List.mem_filterMap.mpr ⟨sent, List.mem_of_getLast? hlast, hs⟩

theorem issued_timing (r : Except VigorCommandError Handed × SdkVigorClient)
    (h : l.lastCommandTiming = none) : (l.issued r).2.transport.timing = none := by
  unfold issued
  unfold lastCommandTiming at h
  cases hs : l.client.session with
  | none => rfl
  | some s =>
    rw [hs] at h
    exact h

/-- Issuing a command leaves a client without timing as it is. -/
theorem issue_timing (S : ClientSdk) (c : ClientCall) (h : l.lastCommandTiming = none) :
    (l.issue S c).2.lastCommandTiming = none ∧
      ∀ r, (l.issue S c).1 = some r → (l.issue S c).2.transport.timing = none := by
  have hissued : ∀ r, (l.issued r).2.lastCommandTiming = none := fun r => by
    unfold lastCommandTiming
    cases (l.issued r).2.client.session with
    | none => rfl
    | some s => exact issued_timing r h
  cases c with
  | authorizeWrite command => exact ⟨h, nofun⟩
  | runCommand command => exact ⟨hissued _, fun _ _ => issued_timing _ h⟩
  | runOperation manifestId input => exact ⟨hissued _, fun _ _ => issued_timing _ h⟩
  | runWriteCommand command => exact ⟨hissued _, fun _ _ => issued_timing _ h⟩
  | runWriteOperation manifestId input => exact ⟨hissued _, fun _ _ => issued_timing _ h⟩

end Link

/-- The call as an action of the client. -/
def ClientCall.action : ClientCall → SdkVigorClient.Action
  | .runCommand command => .runCommand command
  | .runOperation manifestId input => .runOperation manifestId input
  | .authorizeWrite command => .authorizeWrite command
  | .runWriteCommand command => .runWriteCommand command
  | .runWriteOperation manifestId input => .runWriteOperation manifestId input

/-- Every guard of the client lets `c` pass. -/
def Link.Passes (S : ClientSdk) (l : Link) (c : ClientCall) : Prop :=
  SdkVigorClient.Admits S l.client c.action ∧ ∀ t ∈ c.action.texts S, isForbidden t = false

/-- The SDK gets `c`, and sends a frame for it or loses the session. -/
def Link.Refreshes (E : RouterEnv) (l : Link) (c : ClientCall) : Prop :=
  l.Passes E.sdk c ∧ ((E.run l.commands).sends ≠ [] ∨
    ∃ err, (E.run l.commands).result = .error err ∧ SdkVigorClient.EndsSession err)

namespace Link

open SdkVigorClient

variable {E : RouterEnv} {l : Link} {c : ClientCall} {timing : CommandTiming}

/-- A call that the SDK has: the client is open, with a command in flight. -/
structure Issued (r : Except VigorCommandError Handed × SdkVigorClient) : Prop where
  handed : ∃ h, r.1 = .ok h
  isOpen : r.2.closed = false
  inFlight : r.2.inFlight ≠ []

theorem hand_issued {client : SdkVigorClient} (hc : client.closed = false) (call : SdkCall) :
    Issued (client.hand call) := by
  unfold hand current
  rw [if_neg (by simp [hc])]
  cases client.session with
  | none => exact ⟨⟨_, rfl⟩, hc, List.append_ne_nil_of_right_ne_nil _ (List.cons_ne_nil _ _)⟩
  | some s => exact ⟨⟨_, rfl⟩, hc, List.append_ne_nil_of_right_ne_nil _ (List.cons_ne_nil _ _)⟩

theorem issued_of_spec {client : SdkVigorClient} {P : Prop}
    {r : Except VigorCommandError Handed × SdkVigorClient} (h : CallSpec client P r) (hp : P) :
    Issued r := by
  cases h with
  | refused e hn => exact absurd hp hn
  | handed call _ hc => exact hand_issued hc call

theorem issue_passes {S : ClientSdk} (h : l.Passes S c) :
    (∃ handed, (l.issue S c).1 = some (.ok handed)) ∧ (l.issue S c).2.client.closed = false ∧
      (l.issue S c).2.client.inFlight ≠ [] := by
  have hissued : ∀ {r}, Issued r → (∃ handed, (l.issued r).1 = some (.ok handed)) ∧
      (l.issued r).2.client.closed = false ∧ (l.issued r).2.client.inFlight ≠ [] :=
    fun hr => ⟨hr.handed.imp fun _ => congrArg some, hr.isOpen, hr.inFlight⟩
  obtain ⟨admits, allowed⟩ := h
  cases c with
  | authorizeWrite command => exact admits.elim
  | runCommand command =>
    exact hissued (issued_of_spec (runCommand_spec command)
      ⟨admits, allowed command (List.mem_singleton_self _)⟩)
  | runOperation manifestId input =>
    exact hissued (issued_of_spec (runOperation_spec manifestId input) ⟨admits, allowed⟩)
  | runWriteCommand command =>
    exact hissued (issued_of_spec (runWriteCommand_spec (S := S) command)
      ⟨admits, allowed command (List.mem_singleton_self _)⟩)
  | runWriteOperation manifestId input =>
    exact hissued (issued_of_spec (runWriteOperation_spec manifestId input) ⟨admits, allowed⟩)

theorem settle_ended {S : ClientSdk} {run : SdkRun} {err : Thrown} (hrun : run.result = .error err)
    (ends : EndsSession err) (isOpen : l.client.closed = false) (inFlight : l.client.inFlight ≠ []) :
    (l.settle S run).2.lastCommandTiming = none := by
  obtain ⟨s, rest, hs⟩ := List.exists_cons_of_ne_nil inFlight
  have hsession : (l.client.step S (.fail 0 err)).2.session = none := by
    have hplace : l.client.inFlight[0]? = some s := by rw [hs]; rfl
    rw [(step_fail (S := S) hplace ends).2, isOpen]
    rfl
  unfold settle lastCommandTiming
  rw [hrun]
  exact congrArg (Option.bind · _) hsession

/-- The link after an awaited call. -/
def called (E : RouterEnv) (l : Link) (c : ClientCall) : Link :=
  match (l.issue E.sdk c).1 with
  | some (.ok _) => ((l.issue E.sdk c).2.settle E.sdk (E.run l.commands)).2
  | _ => (l.issue E.sdk c).2

/-- The link after a snapshot. -/
def snapshotted (E : RouterEnv) (find : JStr → Option CommandDef) (snapshotRead : Option JStr)
    (l : Link) : Link :=
  (snapshotCall find snapshotRead).elim l (l.called E)

end Link

/-! ## The client's timing in the world of the calls -/

namespace RouterWorld

variable {E : RouterEnv} {w : RouterWorld} {c : ClientCall} {site : Site}

/-- The client has no timing but that of an exchange of the running call, made from `site`. -/
def SlotIsOwn (w : RouterWorld) (site : Site) : Prop :=
  ∀ timing, w.link.lastCommandTiming = some timing → ⟨w.call, site, timing⟩ ∈ w.exchanges

theorem SlotIsOwn.ownTiming {kind : CommandKind} (h : w.SlotIsOwn site)
    (hsite : kind = .write → site = .performWrite) :
    OwnTiming w.exchanges w.call kind (.of w.link.lastCommandTiming) := by
  cases ht : w.link.lastCommandTiming with
  | none => exact .inl rfl
  | some timing => exact .inr ⟨_, h timing ht, rfl, hsite, rfl⟩

theorem slotIsOwn_of_none (h : w.link.lastCommandTiming = none) : w.SlotIsOwn site :=
  fun timing ht => by rw [h] at ht; cases ht

/-- The same call goes on, and its exchanges stay on record. -/
structure Later (w w' : RouterWorld) : Prop where
  call : w'.call = w.call
  exchanges : w.exchanges ⊆ w'.exchanges

theorem Later.refl (w : RouterWorld) : Later w w := ⟨rfl, List.Subset.refl _⟩

theorem Later.trans {w₁ w₂ w₃ : RouterWorld} (h : Later w₁ w₂) (h' : Later w₂ w₃) : Later w₁ w₃ :=
  ⟨h'.call.trans h.call, List.Subset.trans h.exchanges h'.exchanges⟩

theorem settle_later (E : RouterEnv) (w : RouterWorld) (site : Site) :
    Later w (w.settle E site).2 := by
  unfold settle
  split
  · exact ⟨rfl, List.subset_append_left _ _⟩
  · exact ⟨rfl, List.Subset.refl _⟩
  · exact ⟨rfl, List.Subset.refl _⟩

theorem routerAnswer_later (E : RouterEnv) (o : ToolOp) (w : RouterWorld) :
    Later w (routerAnswer E o w).2 := by
  cases o with
  | reply site => exact settle_later E w site
  | _ => exact ⟨rfl, List.Subset.refl _⟩

/-- The world after an awaited call. -/
def called (E : RouterEnv) (w : RouterWorld) (site : Site) (c : ClientCall) : RouterWorld :=
  ((w.issue E c).settle E site).2

theorem issue_commands (S : ClientSdk) (l : Link) (c : ClientCall) :
    (l.issue S c).2.commands = l.commands := by
  cases c <;> rfl

theorem called_link (E : RouterEnv) (w : RouterWorld) (site : Site) (c : ClientCall) :
    (w.called E site c).link = w.link.called E c := by
  unfold called settle issue Link.called
  dsimp only
  rw [issue_commands]
  cases (w.link.issue E.sdk c).1 with
  | none => rfl
  | some r => cases r <;> rfl

/-- A command that the SDK has is on record with its exchanges. -/
theorem called_exchanges {handed : Handed} (h : (w.link.issue E.sdk c).1 = some (.ok handed)) :
    (w.called E site c).exchanges =
      w.exchanges ++ (E.run w.link.commands).timings.map (⟨w.call, site, ·⟩) := by
  unfold called settle issue
  dsimp only
  rw [issue_commands, h]

theorem called_refused (h : ∀ handed, (w.link.issue E.sdk c).1 ≠ some (.ok handed)) :
    w.link.called E c = (w.link.issue E.sdk c).2 := by
  unfold Link.called
  split
  · next handed he => exact absurd he (h handed)
  · rfl

/-- **The timing of a command is its own** when it leaves none of an earlier one's. -/
theorem called_slotIsOwn (h : w.link.lastCommandTiming = none ∨ w.link.Refreshes E c)
    (site : Site) : (w.called E site c).SlotIsOwn site := by
  by_cases hissue : ∃ handed, (w.link.issue E.sdk c).1 = some (.ok handed)
  · obtain ⟨handed, hissue⟩ := hissue
    intro timing ht
    have hcalled : w.link.called E c =
        ((w.link.issue E.sdk c).2.settle E.sdk (E.run w.link.commands)).2 := by
      unfold Link.called
      rw [hissue]
    rw [called_link, hcalled] at ht
    have hmem : timing ∈ (E.run w.link.commands).timings := by
      rcases h with hnone | ⟨passes, hsends | ⟨err, hresult, ends⟩⟩
      · exact Link.settle_timing ht (.inr ((Link.issue_timing E.sdk c hnone).2 _ hissue))
      · exact Link.settle_timing ht (.inl hsends)
      · obtain ⟨-, isOpen, inFlight⟩ := Link.issue_passes passes
        rw [Link.settle_ended hresult ends isOpen inFlight] at ht
        cases ht
    have hcall : (w.called E site c).call = w.call := (settle_later E (w.issue E c) site).call
    rw [called_exchanges hissue, hcall]
    exact List.mem_append_right _ (List.mem_map_of_mem hmem)
  · have hnone : w.link.lastCommandTiming = none := h.resolve_right fun hr =>
      hissue (Link.issue_passes hr.1).1
    refine slotIsOwn_of_none ?_
    rw [called_link, called_refused fun handed he => hissue ⟨handed, he⟩]
    exact (Link.issue_timing E.sdk c hnone).1

/-! ## Rows -/

theorem settle_rows (E : RouterEnv) (w : RouterWorld) (site : Site) :
    (w.settle E site).2.rows = w.rows := by
  unfold settle
  split <;> rfl

/-- A row that is submitted has the timing of its own call. -/
def LogsOwn (w : RouterWorld) : ToolOp → Prop
  | .request entry => OwnTiming w.exchanges w.call entry.kind entry.timing
  | _ => True

theorem routerAnswer_rowsOwn (E : RouterEnv) (o : ToolOp) (w : RouterWorld) (ho : w.LogsOwn o)
    (h : w.RowsOwn) : (routerAnswer E o w).2.RowsOwn := by
  cases o with
  | request entry =>
    intro row hrow
    rcases List.mem_append.mp hrow with hrow | hrow
    · exact h row hrow
    · obtain rfl := List.mem_singleton.mp hrow
      exact ho
  | reply site =>
    intro row hrow
    have hrows : row ∈ w.rows := by rw [← settle_rows E w site]; exact hrow
    exact (h row hrows).mono (settle_later E w site).exchanges
  | _ => exact h

end RouterWorld

section

variable {E : RouterEnv} {find : JStr → Option CommandDef} {w : RouterWorld} {α β : Type}

/-- A part of a tool call, run in `w`: the rows it submits have the timing of their own call. -/
abbrev Logs (E : RouterEnv) (post : RouterWorld → Except Thrown α → Prop) (p : Handling α)
    (w : RouterWorld) : Prop :=
  Along (routerAnswer E) RouterWorld.LogsOwn post p w

theorem Logs.later {post : RouterWorld → Except Thrown α → Prop} {p : Handling α}
    (h : Logs E post p w) : Logs E (fun w' r => post w' r ∧ w.Later w') p w :=
  Along.frame RouterWorld.Later.refl (fun _ _ _ => RouterWorld.Later.trans)
    (fun o w _ => RouterWorld.routerAnswer_later E o w) h

/-! ## Parts of a call -/

theorem timingOf_logs {f : LogTiming → Handling β} {post : RouterWorld → Except Thrown β → Prop}
    (h : Logs E post (f (.of w.link.lastCommandTiming)) w) : Logs E post (timingOf >>= f) w := by
  rw [timingOf_eq]
  exact ⟨trivial, h⟩

theorem signalAborted_logs {signal : Option AbortSignal} {f : Bool → Handling β}
    {post : RouterWorld → Except Thrown β → Prop}
    (h : Logs E post (f (signal.any (isAborted · w.turns))) w) :
    Logs E post (signalAborted signal >>= f) w := by
  cases signal with
  | none => exact h
  | some signal => exact ⟨trivial, h⟩

theorem await_logs {site : Site} {c : ClientCall} {post : RouterWorld → Except Thrown JStr → Prop}
    (h : ∀ r, post (w.called E site c) r) : Logs E post (await site c) w := by
  refine ⟨trivial, trivial, ?_⟩
  show Logs E post (throwVigor ((w.issue E c).settle E site).1) (w.called E site c)
  cases ((w.issue E c).settle E site).1 with
  | ok raw => exact h _
  | error e => exact h _

/-- The world after a snapshot. -/
def RouterWorld.snapshotted (E : RouterEnv) (find : JStr → Option CommandDef)
    (snapshotRead : Option JStr) (w : RouterWorld) : RouterWorld :=
  (snapshotCall find snapshotRead).elim w (w.called E .snapshot)

theorem snapshot_logs {snapshotRead : Option JStr}
    {post : RouterWorld → Except Thrown (Option JStr) → Prop}
    (h : ∀ before, post (w.snapshotted E find snapshotRead) (.ok before)) :
    Logs E post (snapshot find snapshotRead) w := by
  rw [snapshot_eq]
  unfold RouterWorld.snapshotted at h
  cases hc : snapshotCall find snapshotRead with
  | none =>
    rw [hc] at h
    exact h none
  | some c =>
    rw [hc] at h
    refine Along.tryCatch (Along.bind (await_logs fun r => ?_))
    cases r with
    | ok raw => exact h (some raw)
    | error e => exact h none

theorem logWriteOutcome_logs {request : LogEntry} {audit : WriteAuditEntry} {link : Bool}
    {f : Unit → Handling β} {post : RouterWorld → Except Thrown β → Prop}
    (hrow : OwnTiming w.exchanges w.call request.kind request.timing)
    (h : ∀ w', Logs E post (f ()) w') : Logs E post (logWriteOutcome request audit link >>= f) w :=
  ⟨hrow, trivial, h _⟩

theorem logDenied_logs {ctx : WriteContext} {status : WriteStatus} {code message : JStr}
    {f : Unit → Handling β} {post : RouterWorld → Except Thrown β → Prop}
    (h : ∀ w', Logs E post (f ()) w') :
    Logs E post (logDenied ctx status code message >>= f) w :=
  ⟨trivial, .inl rfl, trivial, h _⟩

/-! ## Read tools -/

/-- A row that takes its timing from the client. -/
theorem readRow_logs {entry : Int → LogTiming → LogEntry} {rest : Handling β}
    {post : RouterWorld → Except Thrown β → Prop} (slot : w.SlotIsOwn .readTool)
    (hentry : ∀ ended timing, (entry ended timing).kind = .read ∧ (entry ended timing).timing = timing)
    (hrest : ∀ w', w'.SlotIsOwn .readTool → Logs E post rest w') :
    Logs E post (do
      let ended ← now
      let timing ← timingOf
      let _ ← ask (.request (entry ended timing))
      rest) w := by
  refine ⟨trivial, timingOf_logs ⟨?_, hrest _ slot⟩⟩
  show OwnTiming w.exchanges w.call (entry _ _).kind (entry _ _).timing
  rw [(hentry _ _).1, (hentry _ _).2]
  exact slot.ownTiming fun h => by cases h

theorem readTool_logs {cmd : CommandDef} {args : Args}
    (fresh : w.link.lastCommandTiming = none ∨ ∃ command c, cmd.render args = .ok command ∧
      readCall cmd args command = .ok c ∧ w.link.Refreshes E c) :
    Logs E (fun _ _ => True) (readTool cmd args) w := by
  have failed : ∀ (w : RouterWorld) (command : JStr) (started : Int) (e : Thrown),
      w.SlotIsOwn .readTool → Logs E (fun _ _ => True) (do
        let ended ← now
        let timing ← timingOf
        let _ ← ask (.request { readRow cmd args command .error started ended timing with
          errorCode := errCode e
          errorMsg := some (errMsg e) })
        throw e : Handling JsValue) w := fun w command started e slot =>
    readRow_logs slot (fun _ _ => ⟨rfl, rfl⟩) fun _ _ => trivial
  -- a call that throws before the client has it finds no timing there
  have unsent : (∀ command c, cmd.render args = .ok command → readCall cmd args command ≠ .ok c) →
      w.SlotIsOwn .readTool := fun h => RouterWorld.slotIsOwn_of_none (fresh.resolve_right
    fun ⟨command, c, hr, hc, _⟩ => h command c hr hc)
  refine ⟨trivial, Along.tryCatch (Along.ofExcept_bind (fun command hr =>
    Along.ofExcept_bind (fun c hc => ?_) fun e hc => ?_) fun e hr => ?_)⟩
  · have hfresh : w.link.lastCommandTiming = none ∨ w.link.Refreshes E c := by
      refine fresh.imp_right fun ⟨command', c', hr', hc', h⟩ => ?_
      obtain rfl := Except.ok.inj (hr.symm.trans hr')
      obtain rfl := Except.ok.inj (hc.symm.trans hc')
      exact h
    have slot : (RouterWorld.called E { w with gate := w.gate.ticked } .readTool c).SlotIsOwn
        .readTool := RouterWorld.called_slotIsOwn (w := { w with gate := w.gate.ticked }) hfresh _
    refine Along.bind (await_logs fun r => ?_)
    cases r with
    | error e => exact failed _ _ _ e slot
    | ok raw =>
      refine readRow_logs slot (fun _ _ => ⟨rfl, rfl⟩) fun w' slot' => ?_
      cases formatOutput cmd args raw with
      | ok value => trivial
      | error e => exact failed _ _ _ e slot'
  · refine failed _ _ _ e (unsent fun command' c hr' hc' => ?_)
    obtain rfl := Except.ok.inj (hr.symm.trans hr')
    rw [hc] at hc'
    cases hc'
  · refine failed _ _ _ e (unsent fun command c hr' => ?_)
    rw [hr] at hr'
    cases hr'

/-! ## Write tools -/

theorem commitAfter_logs (ctx : WriteContext) :
    Logs E (fun _ _ => True) (commitAfter ctx) w := by
  have row : ∀ (w : RouterWorld) (post : RouterWorld → Except Thrown CommitStatus → Prop)
      (entry : Int → LogEntry) (status : CommitStatus), (∀ ended, (entry ended).timing = .of none) →
      (∀ w', post w' (.ok status)) → Logs E post (do
        let ended ← now
        let _ ← ask (.request (entry ended))
        return status : Handling CommitStatus) w :=
    fun w post entry status hentry hpost => ⟨trivial, .inl (hentry _), hpost _⟩
  have hcommit : Logs E (fun _ _ => True) runCommit w := by
    refine ⟨trivial, Along.tryCatch (Along.ask trivial (Along.bind (await_logs fun r => ?_)))⟩
    cases r with
    | error e => exact row _ _ _ _ (fun _ => rfl) fun _ => trivial
    | ok raw =>
      dsimp only
      cases isRouterCliFailure raw with
      | true => exact row _ _ _ _ (fun _ => rfl) fun _ => trivial
      | false => exact row _ _ _ _ (fun _ => rfl) fun _ => trivial
  unfold commitAfter
  split
  · exact hcommit.seq (fun w status _ => ⟨trivial, trivial⟩) fun _ _ _ => trivial
  · trivial

/-- A preview changes nothing when it is not asked for. -/
theorem previewWrite_logs (ttlMs : Int) (ctx : WriteContext) :
    Logs E (fun w' r => r = .ok none → w' = w) (previewWrite ttlMs ctx) w := by
  unfold previewWrite
  split
  · exact fun _ => rfl
  · refine ⟨trivial, ?_⟩
    cases (routerAnswer E (.create ctx.cmd.id ctx.command ctx.commandLog ctx.redactedFields) w).1 with
    | error e => exact fun h => by cases h
    | ok created =>
      exact ⟨trivial, trivial, logWriteOutcome_logs (.inl rfl) fun w' h => by cases h⟩

theorem throwIfCancelled_logs {signal : Option AbortSignal} {f : Unit → Handling β}
    {post : RouterWorld → Except Thrown β → Prop}
    (live : signal.any (isAborted · w.turns) = false → Logs E post (f ()) w)
    (aborted : signal.any (isAborted · w.turns) = true → post w (.error errCancelled)) :
    Logs E post (throwIfCancelled signal >>= f) w := by
  refine Along.bind (signalAborted_logs ?_)
  cases h : signal.any (isAborted · w.turns) with
  | false => exact live h
  | true => exact aborted h

/-- The gate accepts the approval that a call presents at a turn. -/
structure WriteCall.Accepted (E : GateEnv) (call : WriteCall) (p : PreparedWrite) (g : ConfirmGate)
    (turns : Nat) : Prop where
  complete : ¬call.Incomplete
  acknowledged : ¬call.NotAcknowledged
  live : call.opts.signal.any (isAborted · turns) = false
  accepted : (g.consumeSigned E (call.cid.getD []) p.command (call.sig.getD [])).1 = .ok ()

theorem verifyApproval_logs (call : WriteCall) (p : PreparedWrite) (started : Int) :
    Logs E (fun w' r => r = .ok () → call.Accepted E.gate p w.gate w.turns ∧
      w' = (routerAnswer E (call.context p started).approval w).2)
      (verifyApproval (call.context p started)) w := by
  unfold verifyApproval
  split
  · exact fun h => by cases h
  · next complete =>
    split
    · exact logDenied_logs fun _ h => by cases h
    · next acknowledged =>
      have denied : ∀ (w : RouterWorld) (e : Thrown) (post : RouterWorld → Except Thrown Unit → Prop),
          (∀ w', post w' (.error e)) → Logs E post (do
            let code := if ← signalAborted call.opts.signal then js "cancelled"
              else (errCode e).getD (js "denied")
            logDenied (call.context p started) (auditDenyStatus code) code (errMsg e)
            throw e) w := fun w e post hpost =>
        signalAborted_logs (logDenied_logs fun w' => hpost w')
      refine Along.tryCatch (throwIfCancelled_logs (fun live => ⟨trivial, ?_⟩) fun _ =>
        denied _ _ _ fun _ h => by cases h)
      show Logs E _ (throwConfirm (w.gate.consumeSigned E.gate (call.cid.getD []) p.command
        (call.sig.getD [])).1) _
      cases accepted : (w.gate.consumeSigned E.gate (call.cid.getD []) p.command
        (call.sig.getD [])).1 with
      | error e => exact denied _ _ _ fun _ h => by cases h
      | ok _ => exact fun _ => ⟨⟨complete, acknowledged, live, accepted⟩, rfl⟩

/-- The write, taken up at a turn with the client in `l`, leaves no timing of an earlier command: the
client has none, or the call hands it over. -/
def WriteContext.Refreshes (E : RouterEnv) (ctx : WriteContext) (l : Link) (turns : Nat) : Prop :=
  l.lastCommandTiming = none ∨ (ctx.signal.any (isAborted · turns) = false ∧
    ({ l with client := l.client.authorizeWrite ctx.command } : Link).Refreshes E ctx.call)

theorem writeReply_logs {ctx : WriteContext} (fresh : ctx.Refreshes E w.link w.turns) :
    Logs E (fun w' _ => w'.SlotIsOwn .performWrite) (writeReply ctx) w := by
  refine throwIfCancelled_logs (fun _ => Along.ask trivial (Along.bind (await_logs fun r => ?_)))
    fun aborted => ?_
  · have slot : ((w.issue E (.authorizeWrite ctx.command)).called E .performWrite ctx.call).SlotIsOwn
        .performWrite := RouterWorld.called_slotIsOwn
      (w := w.issue E (.authorizeWrite ctx.command)) (Or.imp id And.right fresh) _
    cases r with
    | error e => exact slot
    | ok raw =>
      dsimp only
      cases isRouterCliFailure raw with
      | true => exact slot
      | false => exact slot
  · refine RouterWorld.slotIsOwn_of_none (fresh.resolve_right fun h => ?_)
    rw [h.1] at aborted
    cases aborted

theorem handOver_logs {ctx : WriteContext} (fresh : ctx.Refreshes E w.link w.turns)
    (before : Option JStr) (persistSnapshots : Bool) :
    Logs E (fun w' r => ∀ raw, r = .ok raw → w'.SlotIsOwn .performWrite)
      (handOver ctx before persistSnapshots) w := by
  refine Along.tryCatch ((writeReply_logs fresh).mono ?_)
  rintro w' (e | raw) slot
  · refine ⟨trivial, Along.bind (timingOf_logs (logWriteOutcome_logs ?_ fun _ _ h => by cases h))⟩
    exact slot.ownTiming fun _ => rfl
  · exact fun _ _ => slot

theorem called_turns (E : RouterEnv) (w : RouterWorld) (site : Site) (c : ClientCall) :
    (w.called E site c).turns = w.turns + 1 := by
  unfold RouterWorld.called RouterWorld.settle
  split <;> rfl

theorem snapshotted_link (E : RouterEnv) (find : JStr → Option CommandDef)
    (snapshotRead : Option JStr) (w : RouterWorld) :
    (w.snapshotted E find snapshotRead).link = w.link.snapshotted E find snapshotRead := by
  unfold RouterWorld.snapshotted Link.snapshotted
  cases snapshotCall find snapshotRead with
  | none => rfl
  | some c => exact RouterWorld.called_link E w .snapshot c

/-- The turns of a snapshot, with that of its `await`. -/
theorem snapshotted_turns (E : RouterEnv) (find : JStr → Option CommandDef)
    (snapshotRead : Option JStr) (w : RouterWorld) :
    (w.snapshotted E find snapshotRead).turns + 1 = w.turns + snapshotTurns find snapshotRead := by
  unfold RouterWorld.snapshotted snapshotTurns
  cases snapshotCall find snapshotRead with
  | none => rfl
  | some c => exact congrArg (· + 1) (called_turns E w .snapshot c)

/-- What a write found at the client when the router had replied is its own timing. -/
theorem performWrite_logs {ctx : WriteContext}
    (fresh : ctx.Refreshes E (w.link.snapshotted E find ctx.cmd.snapshotRead)
      (w.turns + snapshotTurns find ctx.cmd.snapshotRead)) :
    Logs E (fun w' r => ∀ performed, r = .ok performed →
      OwnTiming w'.exchanges w'.call .write performed.writeTiming) (performWrite find ctx) w := by
  rw [← snapshotted_link, ← snapshotted_turns E] at fresh
  refine Along.bind (snapshot_logs fun before => Along.ask trivial ?_)
  refine (handOver_logs fresh before _).seq (fun w₁ raw slot => timingOf_logs ?_) fun _ _ _ _ h => by
    cases h
  have rest : Logs E (fun _ r => ∀ performed : PerformedWrite, r = .ok performed →
      performed.writeTiming = .of w₁.link.lastCommandTiming) (do
        let after ← snapshot find ctx.cmd.snapshotRead
        ask .turn
        let commitStatus ← commitAfter ctx
        return ⟨before, after, canPersistSnapshots find ctx.cmd, raw,
          .of w₁.link.lastCommandTiming, commitStatus⟩ : Handling PerformedWrite) w₁ :=
    Along.bind (snapshot_logs fun after => Along.ask trivial ((commitAfter_logs ctx).seq
      (fun _ _ _ performed h => by rw [← Except.ok.inj h]) fun _ _ _ _ h => by cases h))
  refine rest.later.mono fun w₂ r ⟨htiming, later⟩ performed hr => ?_
  rw [htiming performed hr, later.call]
  exact ((slot raw rfl).ownTiming fun _ => rfl).mono later.exchanges

theorem recordWrite_logs {ctx : WriteContext} {performed : PerformedWrite}
    (own : OwnTiming w.exchanges w.call .write performed.writeTiming) :
    Logs E (fun _ _ => True) (recordWrite ctx performed) w := by
  refine ⟨trivial, logWriteOutcome_logs own fun w' => ?_⟩
  split <;> trivial

/-- When the approval of a write is accepted, the write leaves no timing of an earlier command. -/
def WriteCall.Refreshes (E : RouterEnv) (find : JStr → Option CommandDef) (call : WriteCall)
    (w : RouterWorld) : Prop :=
  ∀ p, call.prepared = .ok p → call.Accepted E.gate p w.gate.ticked w.turns →
    (call.context p 0).Refreshes E (w.link.snapshotted E find call.cmd.snapshotRead)
      (w.turns + snapshotTurns find call.cmd.snapshotRead)

theorem WriteCall.run_logs {call : WriteCall} (fresh : call.Refreshes E find w) (ttlMs : Int) :
    Logs E (fun _ _ => True) (call.run find ttlMs) w := by
  rw [WriteCall.run_eq]
  refine Along.ask trivial ?_
  cases hp : call.prepared with
  | error e => exact ⟨trivial, logWriteOutcome_logs (.inl rfl) fun _ => trivial⟩
  | ok p =>
    refine (previewWrite_logs ttlMs _).seq (fun w₁ preview hsame => ?_) fun _ _ _ => trivial
    cases preview with
    | some body => trivial
    | none =>
      obtain rfl := hsame rfl
      refine (verifyApproval_logs call p _).seq (fun w₂ _ haccepted => ?_) fun _ _ _ => trivial
      obtain ⟨accepted, rfl⟩ := haccepted rfl
      refine (performWrite_logs ?_).seq (fun w₃ performed own => ?_) fun _ _ _ => trivial
      · exact fresh p hp accepted
      · exact Along.ask trivial (recordWrite_logs (own performed rfl))

/-! ## Runs -/

namespace ToolCall

/-- Where the call takes a timing for its row, the client has none of an earlier command. -/
def Refreshes (E : RouterEnv) (find : JStr → Option CommandDef) (w : RouterWorld) : ToolCall → Prop
  | read cmd args => w.link.lastCommandTiming = none ∨ ∃ command c, cmd.render args = .ok command ∧
    readCall cmd args command = .ok c ∧ w.link.Refreshes E c
  | write call => call.Refreshes E find w

/-- Every call of a run does so in the world it finds. -/
def AllRefresh (E : RouterEnv) (find : JStr → Option CommandDef) : RouterWorld → List ToolCall → Prop
  | _, [] => True
  | w, tool :: tools => tool.Refreshes E find w ∧ AllRefresh E find (tool.after E find w) tools

theorem after_rowsOwn {tool : ToolCall} (fresh : tool.Refreshes E find w) (h : w.RowsOwn) :
    (tool.after E find w).RowsOwn := by
  have rowsOwn : ∀ {γ : Type} {p : Handling γ},
      Logs E (fun _ _ => True) p { w with call := w.call + 1 } →
      (p.exec (routerAnswer E) { w with call := w.call + 1 }).world.RowsOwn :=
    fun hlogs => (hlogs.exec (RouterWorld.routerAnswer_rowsOwn E) h).1
  cases tool with
  | read cmd args => exact rowsOwn (readTool_logs fresh)
  | write call =>
    have hcall : call.Refreshes E find { w with call := w.call + 1 } := fresh
    exact rowsOwn (WriteCall.run_logs hcall _)

theorem afterAll_rowsOwn {tools : List ToolCall} (fresh : AllRefresh E find w tools)
    (h : w.RowsOwn) (n : Nat) : (afterAll E find w (tools.take n)).RowsOwn := by
  induction tools generalizing w n with
  | nil => rwa [List.take_nil]
  | cons tool tools ih =>
    cases n with
    | zero => exact h
    | succ n => exact ih fresh.2 (after_rowsOwn fresh.1 h) n

end ToolCall

end

/-- **The timing columns belong to their own row** in every state of a run whose calls leave no
timing of an earlier command: they are empty or those of an exchange of the call, and for a write of
the write command. -/
theorem timings_own (E : RouterEnv) (find : JStr → Option CommandDef) (readOnly : Bool)
    (tools : List ToolCall) (fresh : ToolCall.AllRefresh E find (.new readOnly) tools) (n : Nat) :
    (ToolCall.afterAll E find (.new readOnly) (tools.take n)).RowsOwn :=
  ToolCall.afterAll_rowsOwn fresh (fun row hrow => by cases hrow) n

/-! ### An approved write that is cancelled after a read -/

/-- A router that answers every command with one exchange. -/
def userRouter : RouterEnv where
  gate := userGate
  sdk := ⟨fun _ => none, fun command => command = js "user status"⟩
  run _ := ⟨[.ok ⟨js "OK", noon, noon + 5, 0⟩], .ok (js "OK")⟩
  rowId n := some n

/-- The second read finds the timing of the first. -/
def statusReads : List ToolCall := [.read userStatusTool .empty, .read userStatusTool .empty]

theorem timings_own_status :
    (ToolCall.afterAll userRouter noTools (.new false) (statusReads.take 2)).RowsOwn := by
  refine timings_own userRouter noTools false statusReads ⟨.inl rfl, .inr ?_, trivial⟩ 2
  refine ⟨_, _, rfl, rfl, ⟨?_, ?_⟩, .inl (List.cons_ne_nil _ _)⟩
  · exact ⟨by decide +kernel, by decide +kernel⟩
  · exact fun t ht => by obtain rfl := List.mem_singleton.mp ht; decide +kernel

/-- The write is denied after its approval was accepted, before it is handed over. -/
def cancelledAfterRead : List ToolCall :=
  [.read userStatusTool .empty, .write setdefaultPreview,
    .write { setdefaultApproved with opts := ⟨true, some ⟨some 2⟩⟩ }]

/-- The row of the denied write has the timing of the read. -/
theorem cancelled_logs_read :
    ¬(ToolCall.afterAll userRouter noTools (.new false) cancelledAfterRead).RowsOwn := by
  intro hrows
  have hrun : ((ToolCall.afterAll userRouter noTools (.new false) cancelledAfterRead).rows.getLast?.map
        fun row => (row.call, row.entry.sendAt),
      (ToolCall.afterAll userRouter noTools (.new false) cancelledAfterRead).exchanges.map
        Exchange.call) = (some (3, some (iso noon)), [1]) := by decide +kernel
  obtain ⟨hlast, hexchanges⟩ := Prod.mk.inj hrun
  obtain ⟨row, hrow, hcolumns⟩ := Option.map_eq_some_iff.mp hlast
  obtain ⟨hcall, hsend⟩ := Prod.mk.inj hcolumns
  rcases hrows row (List.mem_of_getLast? hrow) with hnone | ⟨x, hx, hxcall, -⟩
  · have hempty : row.entry.sendAt = none := congrArg LogTiming.sendAt hnone
    rw [hsend] at hempty
    cases hempty
  · have hmem : x.call ∈ [1] := hexchanges ▸ List.mem_map_of_mem hx
    rw [hxcall, hcall] at hmem
    simp at hmem

end VigorMcp
