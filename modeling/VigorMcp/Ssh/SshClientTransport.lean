import VigorMcp.Db.Log

/-!
# The SSH transport

`SshClientTransport` moves bytes for the SDK. A `send` tests the open flag when
it is called, awaits `ssh.connect()` and then issues `ssh.exec`; `close` clears
the flag for good when the MCP lifecycle closes. `Step` interleaves the calls on
one transport at their awaits. A send that passed the test before the close
issues its command after it when its connect resolves (`transport_shutdown`).
-/

namespace VigorMcp

/-- What a call of the SSH client can throw: an error by its class, any other value by its text. -/
inductive SshThrown where
  | vigor (e : VigorCommandError)
  | sshClient (code message : JStr)
  | other (message : JStr)
  deriving DecidableEq

/-- The codes an error of the SSH client keeps. -/
def sshErrorCode (code : JStr) : VigorErrorCode :=
  if code = js "connect" then .connect
  else if code = js "auth" then .auth
  else if code = js "timeout" then .timeout
  else if code = js "closed" then .closed
  else if code = js "invalid" then .invalid
  else .connect

def mapTransportError : SshThrown → VigorCommandError
  | .vigor e => e
  | .sshClient code message => ⟨sshErrorCode code, message⟩
  | .other message => ⟨.connect, message⟩

structure ExecutionLimits where
  commandTimeoutMs : Nat
  idleTimeoutMs : Option Nat
  maxOutputBytes : Nat
  deriving DecidableEq

/-- What `ssh.exec` is given. -/
structure SshExec where
  command : JStr
  limits : ExecutionLimits
  deriving DecidableEq

structure ExecResult where
  stdout : JStr
  sendAt : Int
  recvAt : Int
  connectMs : Int
  deriving DecidableEq

structure SshClientTransport where
  isOpen : Bool
  timing : Option CommandTiming
  deriving DecidableEq

inductive TransportCall where
  | send (frame : SshExec)
  | ensureConnected
  deriving DecidableEq

/-- Where a call stands: at its `ssh.connect()`, at its `ssh.exec(…)`, or done. -/
inductive CallStage where
  | connecting
  | executing
  | settled (result : Except VigorCommandError JStr)
  deriving DecidableEq

namespace SshClientTransport

variable (t : SshClientTransport)

def new : SshClientTransport := ⟨true, none⟩

def errTransportClosed : VigorCommandError := ⟨.closed, js "transport is closed"⟩

/-- A call up to its first await. -/
def enter : CallStage :=
  if !t.isOpen then .settled (.error errTransportClosed) else .connecting

/-- A call from the settlement of `ssh.connect()` on. -/
def connected : TransportCall → Except SshThrown Unit → CallStage × SshClientTransport
  | .send _, .ok () => (.executing, t)
  | .send _, .error err => (.settled (.error (mapTransportError err)), { t with timing := none })
  | .ensureConnected, .ok () => (.settled (.ok []), t)
  | .ensureConnected, .error err => (.settled (.error (mapTransportError err)), t)

/-- A send from the settlement of `ssh.exec(…)` on. -/
def executed : Except SshThrown ExecResult → CallStage × SshClientTransport
  | .ok result => (.settled (.ok result.stdout),
      { t with timing := some ⟨result.sendAt, result.recvAt, result.connectMs⟩ })
  | .error err => (.settled (.error (mapTransportError err)), { t with timing := none })

def mcpDisconnect : JStr := js "mcp_disconnect"

/-- What `ssh.disconnect()` throws is ignored. -/
def close (reason : JStr) : SshClientTransport :=
  if reason = mcpDisconnect then { t with isOpen := false } else t

end SshClientTransport

/-! ## Interleavings -/

structure OpenCall where
  call : TransportCall
  stage : CallStage
  deriving DecidableEq

/-- A transport, its calls in the order they were made, and what `ssh.exec` has been given. -/
structure TransportWorld where
  transport : SshClientTransport
  calls : List OpenCall
  execs : List SshExec
  deriving DecidableEq

inductive TransportEvent where
  | call (call : TransportCall)
  | connect (i : Nat) (result : Except SshThrown Unit)
  | exec (i : Nat) (result : Except SshThrown ExecResult)
  | close (reason : JStr)
  deriving DecidableEq

namespace TransportWorld

open SshClientTransport

def new : TransportWorld := ⟨.new, [], []⟩

section

variable (w : TransportWorld)

/-- A call moves on to a stage, and the transport to its next state. -/
def move (i : Nat) (call : TransportCall) (next : CallStage × SshClientTransport) :
    TransportWorld :=
  { w with transport := next.2, calls := w.calls.set i ⟨call, next.1⟩ }

/-- The command that a send issues as it enters its second await. -/
def issued : TransportCall → CallStage → List SshExec
  | .send frame, .executing => [frame]
  | _, _ => []

def connect (i : Nat) (call : TransportCall) (result : Except SshThrown Unit) : TransportWorld :=
  let next := w.transport.connected call result
  { w.move i call next with execs := w.execs ++ issued call next.1 }

def close (reason : JStr) : TransportWorld :=
  { w with transport := w.transport.close reason }

end

inductive Step : TransportWorld → TransportEvent → TransportWorld → Prop where
  | call (w : TransportWorld) (call : TransportCall) :
    Step w (.call call) { w with calls := w.calls ++ [⟨call, w.transport.enter⟩] }
  | connect {w : TransportWorld} {i : Nat} {call : TransportCall} (result : Except SshThrown Unit)
      (awaits : w.calls[i]? = some ⟨call, .connecting⟩) :
    Step w (.connect i result) (w.connect i call result)
  | exec {w : TransportWorld} {i : Nat} {call : TransportCall}
      (result : Except SshThrown ExecResult) (awaits : w.calls[i]? = some ⟨call, .executing⟩) :
    Step w (.exec i result) (w.move i call (w.transport.executed result))
  | close (w : TransportWorld) (reason : JStr) : Step w (.close reason) (w.close reason)

inductive Run : TransportWorld → List TransportEvent → TransportWorld → Prop where
  | done (w : TransportWorld) : Run w [] w
  | step {w w₁ w' : TransportWorld} {event : TransportEvent} {events : List TransportEvent} :
    Step w event w₁ → Run w₁ events w' → Run w (event :: events) w'

/-- From `w` on no command is issued, and the sends that had not issued theirs, or are made later,
fail with `closed` when they settle. -/
structure Quiet (w w' : TransportWorld) : Prop where
  execs : w'.execs = w.execs
  fails : ∀ (i : Nat) (frame : SshExec) (stage : CallStage),
    w'.calls[i]? = some ⟨.send frame, stage⟩ →
    (∀ c, w.calls[i]? = some c → c.stage = .connecting) →
    stage = .connecting ∨ ∃ e, stage = .settled (.error e) ∧ e.code = .closed

/-- Every send that awaits its connect in `w` has it rejected as closed. -/
def Rejected (w : TransportWorld) (events : List TransportEvent) : Prop :=
  ∀ (i : Nat) (frame : SshExec) (result : Except SshThrown Unit),
    w.calls[i]? = some ⟨.send frame, .connecting⟩ → .connect i result ∈ events →
    ∃ err, result = .error err ∧ (mapTransportError err).code = .closed

variable {w w₁ w' : TransportWorld} {event : TransportEvent} {events : List TransportEvent}
  {i : Nat} {c : OpenCall}

/-! ## What a step keeps -/

theorem Step.execs (h : Step w event w') : w.execs <+: w'.execs := by
  cases h with
  | connect result awaits => exact List.prefix_append _ _
  | _ => exact List.prefix_rfl

/-- The call of the step moves on, the others stay where they are. -/
theorem getElem?_move {call : TransportCall} {stage : CallStage} (i j : Nat)
    (next : CallStage × SshClientTransport) (awaits : w.calls[i]? = some ⟨call, stage⟩) :
    (w.move i call next).calls[j]? = if j = i then some ⟨call, next.1⟩ else w.calls[j]? := by
  have hlt := (List.getElem?_eq_some_iff.mp awaits).1
  unfold move
  rw [List.getElem?_set]
  by_cases hj : j = i
  · subst hj
    simp [hlt]
  · simp [hj, Ne.symm hj]

/-- A call keeps its request, and its result once it has one. -/
theorem Step.stage (h : Step w event w') (hc : w.calls[i]? = some c) :
    ∃ stage, w'.calls[i]? = some ⟨c.call, stage⟩ ∧
      ∀ result, c.stage = .settled result → stage = .settled result := by
  have moved {j : Nat} {call : TransportCall} {stage : CallStage}
      (next : CallStage × SshClientTransport) (awaits : w.calls[j]? = some ⟨call, stage⟩)
      (hstage : ∀ result, stage ≠ .settled result) :
      ∃ stage, (w.move j call next).calls[i]? = some ⟨c.call, stage⟩ ∧
        ∀ result, c.stage = .settled result → stage = .settled result := by
    rw [getElem?_move j i next awaits]
    by_cases hi : i = j
    · subst hi
      obtain rfl := Option.some.inj (hc.symm.trans awaits)
      exact ⟨next.1, if_pos rfl, fun result hresult => absurd hresult (hstage result)⟩
    · exact ⟨c.stage, by rw [if_neg hi, hc], fun _ hresult => hresult⟩
  cases h with
  | call call =>
    refine ⟨c.stage, ?_, fun _ hresult => hresult⟩
    rw [List.getElem?_append_left (List.getElem?_eq_some_iff.mp hc).1, hc]
  | connect result awaits => exact moved _ awaits fun _ => CallStage.noConfusion
  | exec result awaits => exact moved _ awaits fun _ => CallStage.noConfusion
  | close reason => exact ⟨c.stage, hc, fun _ hresult => hresult⟩

theorem Run.execs (h : Run w events w') : w.execs <+: w'.execs := by
  induction h with
  | done w => exact List.prefix_rfl
  | step hstep _ ih => exact hstep.execs.trans ih

theorem Run.stage (h : Run w events w') (hc : w.calls[i]? = some c) :
    ∃ stage, w'.calls[i]? = some ⟨c.call, stage⟩ ∧
      ∀ result, c.stage = .settled result → stage = .settled result := by
  induction h generalizing c with
  | done w => exact ⟨c.stage, hc, fun _ hresult => hresult⟩
  | step hstep _ ih =>
    obtain ⟨stage₁, hstage₁, keeps₁⟩ := hstep.stage hc
    obtain ⟨stage, hstage, keeps⟩ := ih hstage₁
    exact ⟨stage, hstage, fun result hresult => keeps result (keeps₁ result hresult)⟩

/-- A run passes each of its events. -/
theorem Run.split (h : Run w events w') (hmem : event ∈ events) :
    ∃ before after w₁ w₂, Run w before w₁ ∧ Step w₁ event w₂ ∧ Run w₂ after w' := by
  induction h with
  | done w => cases hmem
  | step hstep hrun ih =>
    rcases List.mem_cons.mp hmem with rfl | hmem
    · exact ⟨[], _, _, _, .done _, hstep, hrun⟩
    · obtain ⟨before, after, w₁, w₂, hbefore, hevent, hafter⟩ := ih hmem
      exact ⟨_, after, w₁, w₂, .step hstep hbefore, hevent, hafter⟩

/-! ## After the close -/

/-- The runs that stay quiet: none of the calls that still connect is new. -/
structure Stopped (w w' : TransportWorld) : Prop where
  isClosed : w'.transport.isOpen = false
  quiet : Quiet w w'
  awaits : ∀ (i : Nat) (call : TransportCall), w'.calls[i]? = some ⟨call, .connecting⟩ →
    w.calls[i]? = some ⟨call, .connecting⟩

theorem Stopped.start (h : w.transport.isOpen = false) : Stopped w w where
  isClosed := h
  quiet := ⟨rfl, fun _ _ _ hstage hc => .inl (hc _ hstage)⟩
  awaits _ _ hc := hc

/-- A call may move on when it no longer connects, and fails with `closed` where it has to. -/
theorem Stopped.move {call : TransportCall} {stage : CallStage}
    {next : CallStage × SshClientTransport} (h : Stopped w w₁)
    (awaits : w₁.calls[i]? = some ⟨call, stage⟩)
    (hopen : next.2.isOpen = w₁.transport.isOpen) (connects : next.1 ≠ .connecting)
    (fails : ∀ frame, call = .send frame →
      (∀ c, w.calls[i]? = some c → c.stage = .connecting) →
      ∃ e, next.1 = .settled (.error e) ∧ e.code = .closed) :
    Stopped w (w₁.move i call next) := by
  have hcalls {j : Nat} {c : OpenCall} (hj : (w₁.move i call next).calls[j]? = some c) :
      (j = i ∧ ⟨call, next.1⟩ = c) ∨ w₁.calls[j]? = some c := by
    rw [getElem?_move i j next awaits] at hj
    split at hj
    · next heq => exact .inl ⟨heq, Option.some.inj hj⟩
    · exact .inr hj
  refine ⟨hopen.trans h.isClosed, ⟨h.quiet.execs, fun j frame stage' hj hbefore => ?_⟩,
    fun j call' hj => ?_⟩
  · rcases hcalls hj with ⟨rfl, heq⟩ | hj
    · obtain ⟨hcall, rfl⟩ := OpenCall.mk.inj heq
      exact .inr (fails frame hcall hbefore)
    · exact h.quiet.fails j frame stage' hj hbefore
  · rcases hcalls hj with ⟨rfl, heq⟩ | hj
    · exact absurd (OpenCall.mk.inj heq).2 connects
    · exact h.awaits j call' hj

/-- Nothing is issued for a call whose connect is rejected. -/
theorem connect_eq_move {call : TransportCall} {result : Except SshThrown Unit}
    (h : issued call (w.transport.connected call result).1 = []) :
    w.connect i call result = w.move i call (w.transport.connected call result) := by
  simp only [TransportWorld.connect, h, List.append_nil]
  rfl

theorem Stopped.step (h : Stopped w w₁) (hstep : Step w₁ event w') (rejected : Rejected w [event]) :
    Stopped w w' := by
  cases hstep with
  | call call =>
    have entered : w₁.transport.enter = .settled (.error errTransportClosed) := by
      simp [enter, h.isClosed]
    have hcalls {j : Nat} {c : OpenCall}
        (hj : (w₁.calls ++ [⟨call, w₁.transport.enter⟩])[j]? = some c) :
        w₁.calls[j]? = some c ∨ c.stage = .settled (.error errTransportClosed) := by
      rw [List.getElem?_append] at hj
      split at hj
      · exact .inl hj
      · obtain rfl := List.mem_singleton.mp (List.mem_of_getElem? hj)
        exact .inr entered
    refine ⟨h.isClosed, ⟨h.quiet.execs, fun j frame stage hj hbefore => ?_⟩, fun j call' hj => ?_⟩
    · rcases hcalls hj with hj | hstage
      · exact h.quiet.fails j frame stage hj hbefore
      · exact .inr ⟨_, hstage, rfl⟩
    · rcases hcalls hj with hj | hstage
      · exact h.awaits j call' hj
      · cases hstage
  | @connect i call result awaits =>
    cases call with
    | ensureConnected =>
      rw [connect_eq_move rfl]
      have noSend : ∀ frame, TransportCall.ensureConnected ≠ .send frame :=
        fun _ => TransportCall.noConfusion
      cases result with
      | ok u => exact h.move awaits rfl CallStage.noConfusion fun f hf => absurd hf (noSend f)
      | error err => exact h.move awaits rfl CallStage.noConfusion fun f hf => absurd hf (noSend f)
    | send frame =>
      obtain ⟨err, rfl, hclosed⟩ :=
        rejected i frame result (h.awaits i _ awaits) (List.mem_singleton_self _)
      rw [connect_eq_move rfl]
      exact h.move awaits rfl CallStage.noConfusion fun _ _ _ => ⟨_, rfl, hclosed⟩
  | @exec i call result awaits =>
    have sent : ∀ frame, call = .send frame →
        ¬ ∀ c, w.calls[i]? = some c → c.stage = .connecting := by
      rintro frame rfl hbefore
      rcases h.quiet.fails i frame .executing awaits hbefore with hstage | ⟨e, hstage, _⟩ <;>
        cases hstage
    cases result with
    | ok result =>
      exact h.move awaits rfl CallStage.noConfusion fun frame hcall hbefore =>
        absurd hbefore (sent frame hcall)
    | error err =>
      exact h.move awaits rfl CallStage.noConfusion fun frame hcall hbefore =>
        absurd hbefore (sent frame hcall)
  | close reason =>
    refine ⟨?_, ⟨h.quiet.execs, h.quiet.fails⟩, h.awaits⟩
    unfold TransportWorld.close SshClientTransport.close
    split
    · rfl
    · exact h.isClosed

theorem Stopped.run (h : Stopped w w₁) (hrun : Run w₁ events w') (rejected : Rejected w events) :
    Stopped w w' := by
  induction hrun with
  | done _ => exact h
  | step hstep _ ih =>
    refine ih (h.step hstep ?_) ?_
    · intro i frame result hc hmem
      exact rejected i frame result hc (List.mem_cons.mpr (.inl (List.mem_singleton.mp hmem)))
    · intro i frame result hc hmem
      exact rejected i frame result hc (List.mem_cons_of_mem _ hmem)

/-- **A closed transport stays quiet exactly when the sends that still connect are rejected.** -/
theorem quiet_iff_rejected (hclosed : w.transport.isOpen = false) (hrun : Run w events w') :
    Quiet w w' ↔ Rejected w events := by
  refine ⟨fun quiet i frame result hc hmem => ?_,
    fun rejected => ((Stopped.start hclosed).run hrun rejected).quiet⟩
  obtain ⟨before, after, w₁, w₂, hbefore, hstep, hafter⟩ := hrun.split hmem
  obtain ⟨stage₁, hstage₁, -⟩ := hbefore.stage hc
  cases hstep with
  | @connect _ call _ awaits =>
    obtain ⟨rfl, rfl⟩ := OpenCall.mk.inj (Option.some.inj (hstage₁.symm.trans awaits))
    have hmoved : (w₁.connect i (.send frame) result).calls[i]? =
        some ⟨.send frame, (w₁.transport.connected (.send frame) result).1⟩ :=
      (getElem?_move i i _ awaits).trans (if_pos rfl)
    cases result with
    | ok u =>
      -- the command issued here is missing in `w`
      exfalso
      have hlog := (hbefore.execs.length_le).trans_lt
        ((Nat.lt_succ_self _).trans_le (List.length_append ▸ hafter.execs.length_le))
      rw [quiet.execs] at hlog
      exact Nat.lt_irrefl _ hlog
    | error err =>
      obtain ⟨stage, hstage, keeps⟩ := hafter.stage hmoved
      obtain rfl := keeps _ rfl
      rcases quiet.fails i frame _ hstage fun c hc' => by
        rw [Option.some.inj (hc'.symm.trans hc)] with hconnecting | ⟨e, he, hcode⟩
      · cases hconnecting
      · obtain rfl := Except.error.inj (CallStage.settled.inj he)
        exact ⟨err, rfl, hcode⟩

/-! ## The shutdown -/

theorem Run.isOpen (hrun : Run w events w')
    (stays : ∀ reason, .close reason ∈ events → reason ≠ mcpDisconnect) :
    w'.transport.isOpen = w.transport.isOpen := by
  induction hrun with
  | done w => rfl
  | step hstep _ ih =>
    rw [ih fun reason hmem => stays reason (List.mem_cons_of_mem _ hmem)]
    cases hstep with
    | call call => rfl
    | @connect i call result _ => cases call <;> cases result <;> rfl
    | @exec i call result _ => cases result <;> rfl
    | close reason =>
      have hne := stays reason List.mem_cons_self
      simp [TransportWorld.close, SshClientTransport.close, hne]

/-- A send on an open transport runs to its end when the SSH client serves it. -/
theorem send_served (hopen : w.transport.isOpen = true) (frame : SshExec) (result : ExecResult) :
    ∃ w', Run w [.call (.send frame), .connect w.calls.length (.ok ()),
        .exec w.calls.length (.ok result)] w' ∧
      w'.calls[w.calls.length]? = some ⟨.send frame, .settled (.ok result.stdout)⟩ ∧
      w'.execs = w.execs ++ [frame] := by
  have hcall : (w.calls ++ [⟨.send frame, w.transport.enter⟩])[w.calls.length]? =
      some ⟨.send frame, .connecting⟩ := by
    simp [enter, hopen]
  have hconnect := (getElem?_move (w := ⟨w.transport, _, w.execs⟩) w.calls.length w.calls.length
    (w.transport.connected (.send frame) (.ok ())) hcall).trans (if_pos rfl)
  have hexec := (getElem?_move (w := ⟨w.transport, _, w.execs ++ [frame]⟩) w.calls.length
    w.calls.length (w.transport.executed (.ok result)) hconnect).trans (if_pos rfl)
  exact ⟨_, .step (.call w _) (.step (.connect _ hcall) (.step (.exec _ hconnect) (.done _))),
    hexec, rfl⟩

/-- **The shutdown of a transport.** From the close of the MCP lifecycle on, the transport is quiet
in exactly the runs that reject the sends still awaiting their connect as closed. As long as it is
only closed for other reasons, a send is served. -/
theorem transport_shutdown (w : TransportWorld) :
    (∀ after w', Run (w.close mcpDisconnect) after w' →
      (Quiet (w.close mcpDisconnect) w' ↔ Rejected (w.close mcpDisconnect) after)) ∧
    (∀ events, Run new events w → (∀ reason, .close reason ∈ events → reason ≠ mcpDisconnect) →
      ∀ frame result, ∃ w', Run w [.call (.send frame), .connect w.calls.length (.ok ()),
          .exec w.calls.length (.ok result)] w' ∧
        w'.calls[w.calls.length]? = some ⟨.send frame, .settled (.ok result.stdout)⟩ ∧
        w'.execs = w.execs ++ [frame]) := by
  refine ⟨fun after w' hrun => quiet_iff_rejected ?_ hrun, fun events hrun stays => ?_⟩
  · simp [TransportWorld.close, SshClientTransport.close]
  · exact send_served (hrun.isOpen stays)

/-! ## A send that is connecting at the close -/

def sysVersion : SshExec := ⟨js "sys version", ⟨60000, none, 1000000⟩⟩

def connecting : TransportWorld := ⟨.new, [⟨.send sysVersion, .connecting⟩], []⟩

theorem transport_shutdown_sample :
    (Quiet (connecting.close mcpDisconnect)
        ((connecting.close mcpDisconnect).connect 0 (.send sysVersion)
          (.error (.sshClient (js "closed") (js "disconnected")))) ↔
      Rejected (connecting.close mcpDisconnect)
        [.connect 0 (.error (.sshClient (js "closed") (js "disconnected")))]) ∧
    ∃ w', Run (new.close (js "aborted")) [.call (.send sysVersion), .connect 0 (.ok ()),
        .exec 0 (.ok ⟨js "4.4.3", 1, 2, 0⟩)] w' ∧
      w'.calls[0]? = some ⟨.send sysVersion, .settled (.ok (js "4.4.3"))⟩ ∧
      w'.execs = [sysVersion] := by
  refine ⟨(transport_shutdown connecting).1 _ _ (.step (.connect _ rfl) (.done _)), ?_⟩
  refine (transport_shutdown (new.close (js "aborted"))).2 [.close (js "aborted")]
    (.step (.close _ _) (.done _)) ?_ sysVersion _
  intro reason hmem
  obtain rfl := TransportEvent.close.inj (List.mem_singleton.mp hmem)
  decide

/-- The flag is tested before the connect: a send that awaits it at the close issues its command
afterwards. -/
theorem exec_after_disconnect :
    Run new [.call (.send sysVersion)] connecting ∧
    ∃ w', Run (connecting.close mcpDisconnect) [.connect 0 (.ok ())] w' ∧
      w'.execs = [sysVersion] ∧ ¬ Quiet (connecting.close mcpDisconnect) w' := by
  refine ⟨.step (.call _ _) (.done _), _, .step (.connect _ rfl) (.done _), rfl, fun h => ?_⟩
  cases h.execs

end TransportWorld

end VigorMcp
