import VigorMcp.Commands.SdkBindings
import VigorMcp.Commands.TimingColumns
import VigorMcp.Server.AuditLinks
import VigorMcp.Server.HonestApproval
import VigorMcp.Ssh.WriteAuthorization

/-!
# The executor over the client

The client guards itself: a write passes only with an authorization of its own
text in the slot. The executor fills the slot and hands its write over in two
calls, and between any two calls of it reads of other tools reach the client,
sessions open, fail and close. A `Stack` is a run of the server with what its
client was called with; whatever the interleaving, a write that reaches the
client finds the text in the slot that the gate accepted for it
(`facade_agrees`), and the slot is empty whenever no write call runs.
-/

namespace VigorMcp

open Prog SdkVigorClient

theorem ClientCall.action_isWrite (c : ClientCall) : c.action.isWrite = c.isWrite := by
  cases c <;> rfl

/-- `runCommand` or `runOperation`. -/
def ClientCall.isRead : ClientCall → Bool
  | .runCommand _ => true
  | .runOperation _ _ => true
  | _ => false

theorem ClientCall.slotAfter_read {c : ClientCall} (hc : c.isRead = true) (slot : Option JStr) :
    slotAfter slot c.action = slot := by
  cases c <;> first | rfl | cases hc

theorem snapshotCall_isRead {find : JStr → Option CommandDef} {snapshotRead : Option JStr}
    {c : ClientCall} (h : snapshotCall find snapshotRead = some c) : c.isRead = true := by
  unfold snapshotCall at h
  split at h
  · cases h
  · split at h
    · cases h
    · split at h
      · cases h
      · split at h
        · obtain ⟨input, -, rfl⟩ := Option.map_eq_some_iff.mp h
          rfl
        · obtain ⟨command, -, rfl⟩ := Option.map_eq_some_iff.mp h
          rfl

theorem readCall_isRead {cmd : CommandDef} {args : Args} {command : JStr} {c : ClientCall}
    (h : readCall cmd args command = .ok c) : c.isRead = true := by
  unfold readCall at h
  cases hs : cmd.sdk with
  | none =>
    simp only [hs] at h
    cases h
    rfl
  | some sdk =>
    simp only [hs] at h
    cases hi : resolveSdkInput sdk args with
    | error e => rw [hi] at h; cases h
    | ok input => rw [hi] at h; cases h; rfl

/-! ## What a write call leaves in the slot -/

/-- The slot after an event. -/
def slotNext (slot : Option JStr) (e : Event toolCalls) : Option JStr :=
  match e with
  | ⟨.send _ c, _⟩ => slotAfter slot c.action
  | _ => slot

/-- `c` is what the site sends for `command`: the call's own write, or the commit after it. -/
def WriteCall.Intends (call : WriteCall) (command : JStr) (c : ClientCall) : Site → Prop
  | .performWrite => ∃ p started, call.prepared = .ok p ∧ p.command = command ∧
      c = (call.context p started).call
  | .runCommit => command = syscommit ∧ c = .runWriteCommand syscommit
  | _ => False

/-- Follows the slot; a write is sent with its own text in it, and no call leaves one behind. -/
def authorizing : Watcher where
  monitor call :=
    { State := Option JStr
      allow := fun slot o => match o with
        | .send site c => c.isWrite = true → ∃ command, slot = some command ∧
            call.Intends command c site
        | _ => True
      next := slotNext }
  start _ := none
  ends _ slot _ := slot = none

/-- A part of a call that starts with the slot empty and leaves it so. -/
def Clears {α : Type} (call : WriteCall) (p : Handling α) : Prop :=
  Obeys (authorizing.monitor call) (fun slot _ => slot = none) none p

namespace Clears

variable {call : WriteCall} {α β : Type}

theorem pure (a : α) : Clears call (pure a : Handling α) := rfl

theorem throw (e : Thrown) : Clears call (throw e : Handling α) := rfl

theorem bind {p : Handling α} {f : α → Handling β} (hp : Clears call p)
    (hf : ∀ a, Clears call (f a)) : Clears call (p >>= f) := by
  refine Obeys.seq hp ?_ fun _ _ h => h
  rintro slot a rfl
  exact hf a

theorem tryCatch {p : Handling α} {f : Thrown → Handling α} (hp : Clears call p)
    (hf : ∀ e, Clears call (f e)) : Clears call (tryCatch p f) := by
  refine Obeys.tryCatch (hp.mono ?_)
  rintro slot (e | a) rfl
  · exact hf e
  · rfl

end Clears

/-- A call to the client. -/
def CallsClient : ToolOp → Prop
  | .send _ _ => True
  | _ => False

theorem callsClient_spares : Spares CallsClient fun _ _ => True where
  look o ho := by
    cases o with
    | send site c => cases ho
    | _ => exact id
  request _ _ := id
  writeAudit _ _ := id

section

variable {call : WriteCall} {α : Type} {p : PreparedWrite} {started : Int}

/-- A part that does not call the client. -/
theorem clears_of_avoids {p : Handling α} (hp : Avoids CallsClient p) : Clears call p := by
  refine Avoids.obeys (M := authorizing.monitor call) (fun slot o ho => ?_) hp none
  cases o with
  | send site c => exact absurd trivial ho
  | _ => exact ⟨trivial, fun _ => rfl⟩

theorem await_clears {site : Site} {c : ClientCall} (hc : c.isRead = true) :
    Clears call (await site c) := by
  refine ⟨fun hw => ?_, fun _ => ?_⟩
  · cases c with
    | runCommand command => cases hw
    | runOperation manifestId input => cases hw
    | _ => cases hc
  · show Obeys (authorizing.monitor call) _ (slotAfter none c.action) _
    rw [ClientCall.slotAfter_read hc]
    exact clears_of_avoids (.ask id fun r => by cases r <;> trivial)

theorem snapshot_clears (find : JStr → Option CommandDef) (snapshotRead : Option JStr) :
    Clears call (snapshot find snapshotRead) := by
  rw [snapshot_eq]
  cases hc : snapshotCall find snapshotRead with
  | none => exact .pure _
  | some c =>
    exact .tryCatch ((await_clears (snapshotCall_isRead hc)).bind fun _ => .pure _) fun _ => .pure _

/-- **The two calls of a write**: its text goes into the slot, and the write takes it out. -/
theorem handing_clears {site : Site} {command : JStr} {c : ClientCall} {f : JStr → Handling α}
    (hc : c.isWrite = true) (intends : call.Intends command c site) (hf : ∀ raw, Clears call (f raw)) :
    Clears call (do
      VigorMcp.ask (.send site (.authorizeWrite command))
      let raw ← await site c
      f raw) := by
  have hempty : slotAfter (some command) c.action = none := by
    cases c <;> first | rfl | cases hc
  refine Obeys.ask (fun hw => by cases hw) fun _ => ?_
  refine Obeys.ask (fun _ => ⟨command, rfl, intends⟩) fun _ => ?_
  show Obeys (authorizing.monitor call) _ (slotAfter (some command) c.action) _
  rw [hempty]
  refine ⟨trivial, fun r => ?_⟩
  cases r with
  | ok raw => exact hf raw
  | error e => exact .throw rfl

theorem now_clears {f : Int → Handling α} (hf : ∀ t, Clears call (f t)) : Clears call (now >>= f) :=
  ⟨trivial, hf⟩

theorem runCommit_clears : Clears call runCommit := by
  refine now_clears fun started => .tryCatch (handing_clears rfl ⟨rfl, rfl⟩ fun raw => ?_) fun e => ?_
  · split
    · exact .throw _
    · exact clears_of_avoids (.ask id fun _ => .ask id fun _ => trivial)
  · exact clears_of_avoids (.ask id fun _ => .ask id fun _ => trivial)

theorem commitAfter_clears (ctx : WriteContext) : Clears call (commitAfter ctx) := by
  unfold commitAfter
  split
  · exact runCommit_clears.bind fun _ => clears_of_avoids (.ask id fun _ => trivial)
  · exact .pure _

theorem context_call_isWrite (ctx : WriteContext) : ctx.call.isWrite = true := by
  unfold WriteContext.call
  split <;> rfl

theorem handOver_clears (hp : call.prepared = .ok p) (before : Option JStr)
    (persistSnapshots : Bool) :
    Clears call (handOver (call.context p started) before persistSnapshots) := by
  refine .tryCatch ?_ fun e => ?_
  · refine (clears_of_avoids (throwIfCancelled_avoids callsClient_spares _)).bind fun _ => ?_
    refine handing_clears (context_call_isWrite _) ⟨p, started, hp, rfl, rfl⟩ fun raw => ?_
    split
    · exact .throw _
    · exact .pure _
  · exact clears_of_avoids
      ((logWriteFailure_avoids callsClient_spares trivial _ _ _).bind fun _ => trivial)

theorem performWrite_clears (hp : call.prepared = .ok p) (find : JStr → Option CommandDef) :
    Clears call (performWrite find (call.context p started)) := by
  refine (snapshot_clears find _).bind fun before => ?_
  refine (clears_of_avoids (.op id)).bind fun _ => (handOver_clears hp _ _).bind fun raw => ?_
  refine (clears_of_avoids (timingOf_avoids callsClient_spares)).bind fun timing => ?_
  refine (snapshot_clears find _).bind fun after => (clears_of_avoids (.op id)).bind fun _ => ?_
  exact (commitAfter_clears _).bind fun _ => .pure _

end

/-- **Every write call** authorizes what it hands over, and leaves the slot empty. -/
theorem run_authorizing (find : JStr → Option CommandDef) (ttlMs : Int) (call : WriteCall) :
    Obeys (authorizing.monitor call) (authorizing.ends call) (authorizing.start call)
      (call.run find ttlMs) := by
  rw [WriteCall.run_eq]
  refine ⟨trivial, fun started => ?_⟩
  show Clears call (call.runPrepared find ttlMs started call.prepared)
  cases hp : call.prepared with
  | error error =>
    exact clears_of_avoids
      ((recordPreparationFailure_avoids callsClient_spares trivial _ _ _).bind fun _ => trivial)
  | ok p =>
    refine (clears_of_avoids (previewWrite_avoids callsClient_spares (fun _ _ _ _ => id) ttlMs
      trivial)).bind fun preview => ?_
    cases preview with
    | some body => exact .pure body
    | none =>
      refine (clears_of_avoids (verifyApproval_avoids callsClient_spares (fun _ _ _ => id)
        trivial)).bind fun _ => (performWrite_clears hp find).bind fun performed => ?_
      exact (clears_of_avoids (.op id)).bind fun _ =>
        clears_of_avoids (recordWrite_avoids callsClient_spares trivial performed)

/-- A call to the client that is not a read. -/
def IsUnread : ToolOp → Prop
  | .send _ c => c.isRead = false
  | _ => False

theorem readTool_reads (cmd : CommandDef) (args : Args) : Avoids IsUnread (readTool cmd args) := by
  have row : ∀ {f : Int → LogTiming → LogEntry} {end_ : Handling JsValue}, Avoids IsUnread end_ →
      Avoids IsUnread (do
        let ended ← now
        let timing ← timingOf
        let _ ← ask (.request (f ended timing))
        end_) := fun h => .ask id fun _ => Avoids.bind
    (.ask id fun timing => by cases timing <;> trivial) fun _ => .ask id fun _ => h
  refine .ask id fun started => .tryCatch ?_ fun e => row trivial
  refine .ofExcept_bind fun command _ => .ofExcept_bind fun c hc => ?_
  refine (await_avoids (fun h => ?_) id).bind fun raw => row (.ofExcept _)
  have hread := readCall_isRead hc
  rw [show c.isRead = false from h] at hread
  cases hread

/-! ## The server and its client -/

/-- What an entry calls on the client. -/
def Entry.action (e : Entry) : Option Action :=
  e.event.bind fun event => match event with
    | ⟨.send _ c, _⟩ => some c.action
    | _ => none

/-- A run of the server, and what its client was called with. -/
structure Stack where
  server : Server
  actions : List Action

/-- What happens to a client that no tool calls. -/
def SdkVigorClient.Action.isOwn : Action → Bool
  | .connect => true
  | .disconnect => true
  | .succeed _ => true
  | .fail _ _ => true
  | _ => false

namespace Stack

def new : Stack := ⟨.new, []⟩

/-- The calls on the client that a step has logged. -/
def fresh (s s' : Server) : List Action := (s'.log.drop s.log.length).filterMap Entry.action

inductive Step (E : Env) (find : JStr → Option CommandDef) : Stack → Stack → Prop
  | server {s s' : Server} {actions : List Action} (h : VigorMcp.Step E find s s') :
      Step E find ⟨s, actions⟩ ⟨s', actions ++ fresh s s'⟩
  | client {s : Server} {actions : List Action} (a : Action) (own : a.isOwn = true) :
      Step E find ⟨s, actions⟩ ⟨s, actions ++ [a]⟩

def Reaches (E : Env) (find : JStr → Option CommandDef) (x : Stack) : Prop :=
  Relation.ReflTransGen (Step E find) new x

/-- The client after those calls. -/
def client (S : ClientSdk) (readOnly : Bool) (x : Stack) : SdkVigorClient :=
  (SdkVigorClient.new readOnly).after S x.actions

/-- What the calls have left in the slot. -/
def slot (actions : List Action) : Option JStr := actions.foldl slotAfter none

theorem client_slot (S : ClientSdk) (readOnly : Bool) (x : Stack) :
    (x.client S readOnly).writeAuthorized = slot x.actions :=
  after_writeAuthorized S _ _

theorem slot_append (actions more : List Action) :
    slot (actions ++ more) = more.foldl slotAfter (slot actions) := by
  simp [slot]

theorem fresh_same {s s' : Server} (h : s'.log = s.log) : fresh s s' = [] := by
  simp [fresh, h]

theorem fresh_concat {s s' : Server} {e : Entry} (h : s'.log = s.log ++ [e]) :
    fresh s s' = e.action.toList := by
  rw [fresh, h, List.drop_left]
  cases he : e.action <;> simp [he]

theorem foldl_action {e : Entry} {event : Event toolCalls} (he : e.event = some event)
    (q : Option JStr) : e.action.toList.foldl slotAfter q = slotNext q event := by
  unfold Entry.action
  rw [he]
  obtain ⟨o, a⟩ := event
  cases o <;> rfl

/-- The slot after a step that logs one entry. -/
theorem slot_fresh {s s' : Server} {actions : List Action} {e : Entry} {event : Event toolCalls}
    (log : s'.log = s.log ++ [e]) (he : e.event = some event) :
    slot (actions ++ fresh s s') = slotNext (slot actions) event := by
  rw [fresh_concat log, slot_append, foldl_action he]

section

variable {E : Env} {find : JStr → Option CommandDef} {x x' : Stack}

theorem Reaches.server (hr : x.Reaches E find) : VigorMcp.Reaches E find x.server := by
  induction hr with
  | refl => exact .refl
  | tail _ hstep ih =>
    cases hstep with
    | server h => exact ih.tail h
    | client a own => exact ih

/-- No write call runs. -/
def Idle (s : Server) : Prop :=
  ∀ task ∈ s.writes, ∀ rest, task.phase ≠ .running rest

/-- What the call of that number has left in the slot. -/
def slotOf (k : Nat) (log : List Entry) : Option JStr :=
  (log.filterMap (Entry.eventOf k)).foldl slotNext none

/-- The slot is the running call's, and empty when none runs. -/
structure Owned (x : Stack) : Prop where
  running : ∀ k call rest, x.server.writes[k]? = some ⟨call, .running rest⟩ →
    slot x.actions = slotOf k x.server.log
  idle : Idle x.server → slot x.actions = none

theorem slotOf_other {k : Nat} {log : List Entry} {e : Entry} (he : e.eventOf k = none) :
    slotOf k (log ++ [e]) = slotOf k log := by
  simp [slotOf, List.filterMap_append, he]

/-- The running call's slot, if one of the calls runs. -/
theorem Owned.runs {k : Nat} {task : WriteTask} {s : Server} {actions : List Action}
    (hk : s.writes[k]? = some task)
    (running : ∀ rest, task.phase = .running rest → slot actions = slotOf k s.log)
    (settles : (∀ rest, task.phase ≠ .running rest) → slot actions = none)
    (others : ∀ j task', j ≠ k → s.writes[j]? = some task' → ∀ rest, task'.phase ≠ .running rest) :
    Owned ⟨s, actions⟩ where
  running j call rest hj := by
    rcases eq_or_ne j k with rfl | hne
    · obtain rfl := Option.some.inj (hk.symm.trans hj)
      exact running rest rfl
    · exact absurd rfl (others j _ hne hj rest)
  idle hidle := settles (hidle task (List.mem_of_getElem? hk))

/-- What changes neither the calls nor the slot. -/
theorem Owned.quiet {s s' : Server} {actions more : List Action} (h : Owned ⟨s, actions⟩)
    (writes : s'.writes = s.writes) (log : ∀ k, slotOf k s'.log = slotOf k s.log)
    (same : slot (actions ++ more) = slot actions) : Owned ⟨s', actions ++ more⟩ where
  running k call rest hk := same.trans ((h.running k call rest (writes ▸ hk)).trans (log k).symm)
  idle hidle := same.trans (h.idle fun task htask => hidle task (writes ▸ htask))

/-- A step that logs nothing calls nothing. -/
theorem Owned.silent {s s' : Server} {actions : List Action} (log : s'.log = s.log)
    (h : Owned ⟨s', actions⟩) : Owned ⟨s', actions ++ fresh s s'⟩ := by
  rw [fresh_same log, List.append_nil]
  exact h

/-- While a call runs, no other does. -/
theorem others_idle {s : Server} (hx : Exclusive s) {k : Nat} {call : WriteCall}
    {rest : Handling WriteBody} (runs : s.writes[k]? = some ⟨call, .running rest⟩) {j : Nat}
    {task : WriteTask} (hne : j ≠ k) (hj : s.writes[j]? = some task) (rest' : Handling WriteBody) :
    task.phase ≠ .running rest' := by
  intro hphase
  rcases Nat.lt_or_gt_of_ne hne with hlt | hgt
  · rcases hx j k task _ hlt hj runs with ⟨result, h⟩ | h
    · rw [h] at hphase
      cases hphase
    · cases h
  · rcases hx k j _ task hgt runs hj with ⟨result, h⟩ | h
    · cases h
    · rw [h] at hphase
      cases hphase

/-- **What one step of the server keeps.** -/
theorem server_owned {s s' : Server} {actions : List Action} (hr : VigorMcp.Reaches E find s)
    (hstep : VigorMcp.Step E find s s') (h : Owned ⟨s, actions⟩) :
    Owned ⟨s', actions ++ fresh s s'⟩ := by
  have hx' := step_exclusive hstep hr.exclusive
  cases hstep with
  | submitWrite call =>
    refine .silent rfl ⟨fun j call' rest hj => h.running j call' rest ?_, fun hidle =>
      h.idle fun task htask => hidle task (List.mem_append_left _ htask)⟩
    rcases Nat.lt_or_ge j s.writes.length with hlt | hge
    · rwa [List.getElem?_append_left hlt] at hj
    · rw [List.getElem?_append_right hge] at hj
      cases List.mem_singleton.mp (List.mem_of_getElem? hj)
  | @startWrite k call waits turn =>
    have hget : (s.writes.set k ⟨call, .running (call.run find E.gate.ttlMs)⟩)[k]? =
        some ⟨call, .running (call.run find E.gate.ttlMs)⟩ :=
      List.getElem?_set_self (List.getElem?_eq_some_iff.mp waits).1
    have hothers := fun j task' (hne : j ≠ k) => @others_idle _ hx' _ _ _ hget j task' hne
    have hempty : slot actions = none := h.idle fun task htask rest => by
      obtain ⟨j, hj⟩ := List.mem_iff_getElem?.mp htask
      rcases eq_or_ne j k with rfl | hne
      · obtain rfl := Option.some.inj (waits.symm.trans hj)
        intro hphase
        cases hphase
      · exact hothers j task hne (by rwa [List.getElem?_set_ne hne.symm]) rest
    have hidle := hr.sound.tasks k
    rw [waits] at hidle
    refine .silent rfl (.runs hget (fun _ _ => ?_) (fun _ => hempty) hothers)
    rw [hempty, slotOf, show s.log.filterMap (Entry.eventOf k) = [] from hidle]
    rfl
  | @askWrite k call o next runs =>
    have hget : (s.writes.set k ⟨call, .running (next (answer E o s.world).1)⟩)[k]? =
        some ⟨call, .running (next (answer E o s.world).1)⟩ :=
      List.getElem?_set_self (List.getElem?_eq_some_iff.mp runs).1
    refine .runs hget (fun _ _ => ?_) (fun hno => absurd rfl (hno _))
      fun j task' hne => others_idle hx' hget hne
    refine (slot_fresh rfl rfl).trans ?_
    rw [h.running k call _ runs]
    simp [slotOf, List.filterMap_append, Entry.eventOf]
  | @endWrite k call result runs =>
    have hsaw := authorizing.saw hr (run_authorizing find _) k
    rw [runs] at hsaw
    have hempty : slot actions = none := by
      rw [h.running k call _ runs]
      cases result <;> exact hsaw.2
    have hget : (s.writes.set k ⟨call, .settled result⟩)[k]? = some ⟨call, .settled result⟩ :=
      List.getElem?_set_self (List.getElem?_eq_some_iff.mp runs).1
    refine .silent rfl (.runs hget (fun _ h => by cases h) (fun _ => hempty) fun j task' hne hj => ?_)
    rw [List.getElem?_set_ne hne.symm] at hj
    exact others_idle hr.exclusive runs hne hj
  | submitRead cmd args =>
    exact .silent rfl ⟨h.running, h.idle⟩
  | @askRead k o next runs =>
    have hread := ((hr.reads_avoid readTool_reads).1 _ (List.mem_of_getElem? runs)).1
    refine h.quiet rfl (fun j => slotOf_other rfl) ((slot_fresh rfl rfl).trans ?_)
    cases o with
    | send site c => exact ClientCall.slotAfter_read (by simpa [IsUnread] using hread) _
    | _ => rfl
  | sign payload =>
    refine h.quiet rfl (fun j => slotOf_other rfl) ?_
    rw [slot_append]
    simp [fresh, Entry.action, Entry.event, List.filterMap_cons]

/-- **The slot belongs to the running call**, in every run. -/
theorem Reaches.owned (hr : x.Reaches E find) : Owned x := by
  induction hr with
  | refl => exact ⟨fun k call rest hk => by simp [new, Server.new] at hk, fun _ => rfl⟩
  | tail hreach hstep ih =>
    cases hstep with
    | server h => exact server_owned (Reaches.server hreach) h ih
    | client a own =>
      refine ih.quiet rfl (fun _ => rfl) ?_
      rw [slot_append]
      cases a <;> first | rfl | cases own

/-! ## The calls of the log and the calls on the client -/

/-- The client's call `i` is the one that the log's entry `j` made, and found the slot as its write
call had left it. -/
def Sent (x : Stack) (i j : Nat) : Prop :=
  ∃ e a, x.server.log[j]? = some e ∧ e.action = some a ∧ x.actions[i]? = some a ∧
    ∀ k call before event, e = .write k call before event →
      slot (x.actions.take i) = slotOf k (x.server.log.take j)

/-- Every call on the client is its own or an entry's, and every entry's call reached it. -/
structure Matched (x : Stack) : Prop where
  sent : ∀ i a, x.actions[i]? = some a → a.isOwn = false → ∃ j, Sent x i j
  reached : ∀ j e a, x.server.log[j]? = some e → e.action = some a → ∃ i, Sent x i j

theorem Sent.mono {i j : Nat} (h : Sent x i j) (log : x.server.log <+: x'.server.log)
    (actions : x.actions <+: x'.actions) : Sent x' i j := by
  obtain ⟨e, a, hj, he, hi, hslot⟩ := h
  refine ⟨e, a, prefix_getElem? log hj, he, prefix_getElem? actions hi, fun k call before event h => ?_⟩
  have htake : ∀ {α : Type} {l l' : List α} {n : Nat}, n < l.length → l <+: l' →
      l'.take n = l.take n := by
    rintro α l l' n hn ⟨r, rfl⟩
    exact List.take_append_of_le_length (Nat.le_of_lt hn)
  rw [htake (List.getElem?_eq_some_iff.mp hi).1 actions, htake (List.getElem?_eq_some_iff.mp hj).1 log]
  exact hslot k call before event h

/-- An element of a list with one more is an old one or the new one. -/
theorem getElem?_concat_cases {α : Type} {l : List α} {a b : α} {i : Nat}
    (h : (l ++ [a])[i]? = some b) : l[i]? = some b ∨ i = l.length ∧ a = b := by
  rcases Nat.lt_or_ge i l.length with hlt | hge
  · exact .inl (by rwa [List.getElem?_append_left hlt] at h)
  · right
    rw [List.getElem?_append_right hge] at h
    obtain ⟨hlt, hget⟩ := List.getElem?_eq_some_iff.mp h
    have hi : i - l.length = 0 := by simpa using hlt
    exact ⟨by omega, by simpa [hi] using hget⟩

/-- A step logs nothing, or one entry, which the slot's owner made if a write call did. -/
theorem step_logs {s s' : Server} {actions : List Action} (h : Owned ⟨s, actions⟩)
    (hstep : VigorMcp.Step E find s s') : s'.log = s.log ∨ ∃ e, s'.log = s.log ++ [e] ∧
      ∀ k call before event, e = .write k call before event → slot actions = slotOf k s.log := by
  cases hstep with
  | @askWrite k call o next runs =>
    refine .inr ⟨_, rfl, fun k' call' before event he => ?_⟩
    cases he
    exact h.running k call _ runs
  | askRead runs => exact .inr ⟨_, rfl, fun _ _ _ _ he => by cases he⟩
  | sign payload => exact .inr ⟨_, rfl, fun _ _ _ _ he => by cases he⟩
  | _ => exact .inl rfl

/-- The call of the entry that a step logs. -/
theorem Sent.new {s s' : Server} {actions : List Action} {e : Entry} {a : Action}
    (log : s'.log = s.log ++ [e]) (ha : e.action = some a)
    (owner : ∀ k call before event, e = .write k call before event → slot actions = slotOf k s.log) :
    Sent ⟨s', actions ++ fresh s s'⟩ actions.length s.log.length := by
  rw [fresh_concat log, ha]
  refine ⟨e, a, by rw [log]; exact List.getElem?_concat_length .., ha,
    List.getElem?_concat_length .., fun k call before event he => ?_⟩
  rw [log, List.take_left, List.take_left]
  exact owner k call before event he

theorem Matched.entry {s s' : Server} {actions : List Action} {e : Entry}
    (h : Matched ⟨s, actions⟩) (log : s'.log = s.log ++ [e])
    (owner : ∀ k call before event, e = .write k call before event → slot actions = slotOf k s.log) :
    Matched ⟨s', actions ++ fresh s s'⟩ := by
  have hlog : s.log <+: s'.log := log ▸ List.prefix_append _ _
  have hold : ∀ {i j}, Sent ⟨s, actions⟩ i j → Sent ⟨s', actions ++ fresh s s'⟩ i j :=
    fun h => h.mono hlog (List.prefix_append _ _)
  have hnew : ∀ a, e.action = some a →
      Sent ⟨s', actions ++ fresh s s'⟩ actions.length s.log.length := fun a ha => .new log ha owner
  constructor
  · intro i a hi own
    cases ha : e.action with
    | none =>
      rw [fresh_concat log, ha] at hi
      obtain ⟨j, hj⟩ := h.sent i a (by simpa using hi) own
      exact ⟨j, hold hj⟩
    | some b =>
      rw [fresh_concat log, ha] at hi
      rcases getElem?_concat_cases hi with hi | ⟨rfl, -⟩
      · obtain ⟨j, hj⟩ := h.sent i a hi own
        exact ⟨j, hold hj⟩
      · exact ⟨_, hnew b ha⟩
  · intro j e' a hj ha
    rw [log] at hj
    rcases getElem?_concat_cases hj with hj | ⟨rfl, rfl⟩
    · obtain ⟨i, hi⟩ := h.reached j e' a hj ha
      exact ⟨i, hold hi⟩
    · exact ⟨_, hnew a ha⟩

theorem Reaches.matched (hr : x.Reaches E find) : Matched x := by
  induction hr with
  | refl =>
    exact ⟨fun i a h => by simp [new] at h, fun j e a h => by simp [new, Server.new] at h⟩
  | tail hreach hstep ih =>
    cases hstep with
    | @server s s' actions h =>
      rcases step_logs (Reaches.owned hreach) h with hsame | ⟨e, log, owner⟩
      · rw [fresh_same hsame, List.append_nil]
        have hold : ∀ {i j}, Sent ⟨s, actions⟩ i j → Sent ⟨s', actions⟩ i j := fun h =>
          h.mono (hsame ▸ List.prefix_rfl) List.prefix_rfl
        refine ⟨fun i a hi own => (ih.sent i a hi own).imp fun _ => hold, fun j e a hj ha => ?_⟩
        exact (ih.reached j e a (hsame ▸ hj) ha).imp fun _ => hold
      · exact ih.entry log owner
    | @client s actions a own =>
      have hold : ∀ {i j}, Sent ⟨s, actions⟩ i j → Sent ⟨s, actions ++ [a]⟩ i j := fun h =>
        h.mono List.prefix_rfl (List.prefix_append _ _)
      refine ⟨fun i b hi hb => ?_, fun j e b hj hb => (ih.reached j e b hj hb).imp fun _ => hold⟩
      rcases getElem?_concat_cases hi with hi | ⟨-, rfl⟩
      · exact (ih.sent i b hi hb).imp fun _ => hold
      · rw [own] at hb
        cases hb

end

/-! ## Writes at the client -/

/-- The client's call `i` is the write `c` that the log's entry `j` handed over, `command` is in the
slot, and the gate accepted an approval of it in that call: of `command` itself, or of the write
that a commit follows. -/
inductive Carries (x : Stack) (i j : Nat) (c : ClientCall) (command : JStr) : Prop
  | intro {number n : Nat} {call : WriteCall} {site : Site} {presented : World}
      {confirmationId accepted signature : JStr}
      (entry : HandsOver x.server.log j site number call c)
      (action : x.actions[i]? = some c.action)
      (authorized : slot (x.actions.take i) = some command)
      (earlier : n < j)
      (presented_at : x.server.log[n]? = some (.write number call presented
        ⟨.consumeSigned confirmationId accepted signature, .ok ()⟩))
      (text : site = .performWrite ∧ call.Hands c ∧ command = accepted ∨
        site = .runCommit ∧ c = .runWriteCommand syscommit ∧ command = syscommit)

/-- The action is a write of `command` to the SDK, of which the blocklist refuses no text. -/
def Renders (S : ClientSdk) (a : Action) (command : JStr) : Prop :=
  a.rendered S = some command ∧
    (∀ manifestId input op, a = .runWriteOperation manifestId input →
      S.operationFor manifestId = some op → op.classification ≠ .read) ∧
    ∀ t ∈ a.texts S, isForbidden t = false

theorem admits_write {S : ClientSdk} {c : SdkVigorClient} {a : Action} {command : JStr}
    (ha : a.isWrite = true) (slot : c.writeAuthorized = some command) :
    (Admits S c a ∧ ∀ t ∈ a.texts S, isForbidden t = false) ↔
      Renders S a command ∧ c.readOnly = false ∧ c.closed = false := by
  cases a with
  | runWriteCommand text =>
    simp only [Admits, Renders, slot, Action.rendered, Option.some.injEq]
    constructor
    · rintro ⟨⟨rfl, hro, hcl⟩, hall⟩
      exact ⟨⟨rfl, (fun _ _ _ h => by cases h), hall⟩, hro, hcl⟩
    · rintro ⟨⟨rfl, -, hall⟩, hro, hcl⟩
      exact ⟨⟨rfl, hro, hcl⟩, hall⟩
  | runWriteOperation manifestId input =>
    constructor
    · rintro ⟨⟨op, frames, hop, hclass, hb, hs, hro, hcl⟩, hall⟩
      refine ⟨⟨?_, fun m inp op' he hop' => ?_, hall⟩, hro, hcl⟩
      · simp [Action.rendered, hop, hb, Except.toOption, slot.symm.trans hs]
      · cases he
        obtain rfl := Option.some.inj (hop.symm.trans hop')
        exact hclass
    · rintro ⟨⟨hr, hclass, hall⟩, hro, hcl⟩
      obtain ⟨op, hop, hframes⟩ := Option.bind_eq_some_iff.mp hr
      obtain ⟨frames, hb, rfl⟩ := Option.map_eq_some_iff.mp hframes
      cases hbuild : op.buildFrames input with
      | error e =>
        rw [hbuild] at hb
        cases hb
      | ok frames' =>
        rw [hbuild] at hb
        cases hb
        exact ⟨⟨op, frames, hop, hclass _ _ op rfl hop, hbuild, slot, hro, hcl⟩, hall⟩
  | _ => cases ha

section

variable {E : Env} {find : JStr → Option CommandDef} {x : Stack}

theorem Sent.carries (hr : x.Reaches E find) {i j : Nat} (h : Sent x i j) {site : Site}
    {number : Nat} {call : WriteCall} {c : ClientCall}
    (hands : HandsOver x.server.log j site number call c) : ∃ command, Carries x i j c command := by
  have hs := (Reaches.server hr).sound
  obtain ⟨hwrite, before, hj⟩ := id hands
  obtain ⟨e, a, hj', ha, hi, howner⟩ := h
  obtain rfl := Option.some.inj (hj.symm.trans hj')
  obtain rfl : c.action = a := Option.some.inj ha
  obtain ⟨command, hslot, intends⟩ :=
    authorizing.allowed_at (Reaches.server hr) (run_authorizing find _) hj hwrite
  have hauthorized := (howner number call before _ rfl).trans hslot
  obtain ⟨confirmationId, accepted, signature, hmem⟩ := approved_consumes (hs.maySend hands).1
  obtain ⟨n, presented, hlt, hn⟩ := hs.earlier hj hmem
  refine ⟨command, .intro hands hi hauthorized hlt hn ?_⟩
  rcases hs.site hands with rfl | rfl
  · obtain ⟨p, started, hp, rfl, hc⟩ := intends
    obtain ⟨p', hp', rfl⟩ := (hs.at hn).2.2.1
    obtain rfl := Except.ok.inj (hp.symm.trans hp')
    exact .inl ⟨rfl, ⟨p, started, hp, hc⟩, rfl⟩
  · exact .inr ⟨rfl, intends.2, intends.1⟩

/-- The tool renders the frames that the client's SDK has for its operation. -/
def Faithful (S : ClientSdk) (call : WriteCall) : Prop :=
  ∀ binding, call.cmd.sdk = some binding →
    Previews S.operationFor call.cmd binding (ownArgs call.args)

/-- **What was approved is what the client renders.** -/
theorem rendered_of_faithful {S : ClientSdk} {call : WriteCall} {c : ClientCall} {command : JStr}
    (faithful : Faithful S call) (hands : call.Hands c) (renders : call.Renders command) :
    c.action.rendered S = some command := by
  obtain ⟨p, started, hp, rfl⟩ := hands
  obtain ⟨p', hp', rfl⟩ := renders
  obtain rfl := Except.ok.inj (hp.symm.trans hp')
  obtain ⟨hrender, -, hinput⟩ := prepareWrite_eq_ok.mp hp
  unfold WriteContext.call
  cases hsdk : call.cmd.sdk with
  | none => simp only [WriteCall.context, hsdk, ClientCall.action, Action.rendered]
  | some binding =>
    obtain ⟨op, hop, hpreview⟩ := faithful binding hsdk
    rw [hsdk] at hinput
    rw [hpreview, show resolveSdkInput binding (ownArgs call.args) = .ok p.sdkInput from hinput] at hrender
    obtain ⟨frames, hframes, hjoin⟩ := Except.bind_eq_ok.mp
      (show VigorMcp.renderFrames op p.sdkInput = .ok p.command from hrender)
    have hcommand := Except.pure_eq_ok.mp hjoin
    simp only [WriteCall.context, hsdk, ClientCall.action, Action.rendered, hop, hframes,
      Except.toOption, Option.bind_some, Option.map_some, hcommand]

/-- A write action is a tool's, not the client's own. -/
theorem isOwn_of_isWrite {a : Action} (ha : a.isWrite = true) : a.isOwn = false := by
  cases a <;> first | rfl | cases ha

/-- The entry that made a write attempt hands it over. -/
theorem Sent.write_carried (hr : x.Reaches E find) {i j : Nat} {a : Action} (h : Sent x i j)
    (hi : x.actions[i]? = some a) (ha : a.isWrite = true) :
    ∃ c command, c.action = a ∧ Carries x i j c command := by
  obtain ⟨e, a', hj, haction, hi', -⟩ := id h
  obtain rfl := Option.some.inj (hi.symm.trans hi')
  obtain ⟨event, hevent, hsend⟩ := Option.bind_eq_some_iff.mp haction
  obtain ⟨o, answer⟩ := event
  cases o with
  | send site c =>
    obtain rfl : c.action = a := Option.some.inj hsend
    rw [ClientCall.action_isWrite] at ha
    cases e with
    | write number call before event =>
      obtain rfl := Option.some.inj hevent
      obtain ⟨command, hcarries⟩ := h.carries hr ⟨ha, before, hj⟩
      exact ⟨c, command, rfl, hcarries⟩
    | read number before event =>
      obtain rfl := Option.some.inj hevent
      refine absurd ?_ (((Reaches.server hr).reads_avoid readTool_reads).2 _ _ _ (List.mem_of_getElem? hj))
      show c.isRead = false
      cases c <;> first | rfl | cases ha
    | signed payload => cases hevent
  | _ => cases hsend

/-- Every write attempt on the client is one that the log hands over. -/
theorem Reaches.write_carried (hr : x.Reaches E find) {i : Nat} {a : Action}
    (hi : x.actions[i]? = some a) (ha : a.isWrite = true) :
    ∃ j c command, c.action = a ∧ Carries x i j c command := by
  obtain ⟨j, hsent⟩ := hr.matched.sent i a hi (isOwn_of_isWrite ha)
  exact ⟨j, hsent.write_carried hr hi ha⟩

/-- Every write that the log hands over reaches the client. -/
theorem Reaches.hands_carried (hr : x.Reaches E find) {j number : Nat} {site : Site}
    {call : WriteCall} {c : ClientCall} (hands : HandsOver x.server.log j site number call c) :
    ∃ i command, Carries x i j c command := by
  obtain ⟨hwrite, before, hj⟩ := id hands
  obtain ⟨i, hsent⟩ := hr.matched.reached j _ c.action hj rfl
  exact ⟨i, hsent.carries hr hands⟩

/-- When the SDK gets a write of the log. -/
theorem Carries.handed_iff (S : ClientSdk) (readOnly : Bool) {i j : Nat} {c : ClientCall}
    {command : JStr} (h : Carries x i j c command) :
    WriteHanded S (SdkVigorClient.new readOnly) x.actions i ↔
      Renders S c.action command ∧ readOnly = false ∧ .disconnect ∉ x.actions.take i := by
  obtain ⟨entry, action, authorized, -, -, -⟩ := h
  have hwrite : c.action.isWrite = true := (ClientCall.action_isWrite c).trans entry.1
  have hslot : ((SdkVigorClient.new readOnly).after S (x.actions.take i)).writeAuthorized =
      some command := (after_writeAuthorized S _ _).trans authorized
  have hclosed := after_closed S (SdkVigorClient.new readOnly) (x.actions.take i)
  have hstep := (step_handed_iff S ((SdkVigorClient.new readOnly).after S (x.actions.take i))
    c.action).trans (admits_write hwrite hslot)
  rw [after_readOnly] at hstep
  have hopen : ((SdkVigorClient.new readOnly).after S (x.actions.take i)).closed = false ↔
      .disconnect ∉ x.actions.take i := by
    rw [← Bool.not_eq_true, hclosed]
    simp [SdkVigorClient.new]
  rw [hopen] at hstep
  refine Iff.trans ?_ hstep
  constructor
  · rintro ⟨a, ha, -, hhanded⟩
    obtain rfl := Option.some.inj (action.symm.trans ha)
    exact hhanded
  · exact fun hhanded => ⟨c.action, action, hwrite, hhanded⟩

/-- A write of the log renders what the gate accepted for it. -/
theorem Carries.rendered {S : ClientSdk} (hr : x.Reaches E find)
    (faithful : ∀ task ∈ x.server.writes, Faithful S task.call) {i j : Nat} {c : ClientCall}
    {command : JStr} (h : Carries x i j c command) : c.action.rendered S = some command := by
  obtain ⟨entry, -, -, -, presented_at, text⟩ := h
  have hs := (Reaches.server hr).sound
  obtain ⟨-, before, hj⟩ := entry
  rcases text with ⟨-, hands, rfl⟩ | ⟨-, rfl, rfl⟩
  · obtain ⟨phase, hphase⟩ := hs.numbered _ (List.mem_of_getElem? hj)
    exact rendered_of_faithful (faithful _ (List.mem_of_getElem? hphase)) hands
      (hs.at presented_at).2.2.1
  · rfl

/-- **The façade and the executor agree**, whatever reaches the client in between: the slot is empty
while no write call runs; every write attempt on the client is one that the log hands over, with the
text in the slot that the gate accepted; the SDK gets it unless the client is read-only or closed, or
the SDK renders another text or the blocklist refuses it; and it renders no other text when the tools'
commands are the frames of their operations. -/
theorem facade_agrees (S : ClientSdk) (readOnly : Bool) (hr : x.Reaches E find) :
    (Idle x.server → (x.client S readOnly).writeAuthorized = none) ∧
    (∀ i a, x.actions[i]? = some a → a.isWrite = true →
      ∃ j c command, c.action = a ∧ Carries x i j c command) ∧
    (∀ j site number call c, HandsOver x.server.log j site number call c →
      ∃ i command, Carries x i j c command) ∧
    (∀ i j c command, Carries x i j c command →
      (WriteHanded S (SdkVigorClient.new readOnly) x.actions i ↔
        Renders S c.action command ∧ readOnly = false ∧ .disconnect ∉ x.actions.take i)) ∧
    ((∀ task ∈ x.server.writes, Faithful S task.call) →
      ∀ i j c command, Carries x i j c command → c.action.rendered S = some command) := by
  refine ⟨fun hidle => ?_, fun i a hi ha => hr.write_carried hi ha,
    fun j site number call c hands => hr.hands_carried hands,
    fun i j c command h => h.handed_iff S readOnly,
    fun faithful i j c command h => h.rendered hr faithful⟩
  rw [client_slot]
  exact hr.owned.idle hidle

end

/-! ## The password at the client -/

/-- A run of the server whose client is only called by its tools. -/
theorem Reaches.alone {E : Env} {find : JStr → Option CommandDef} {s : Server}
    (hr : VigorMcp.Reaches E find s) : Reaches E find ⟨s, s.log.filterMap Entry.action⟩ := by
  induction hr with
  | refl => exact .refl
  | @tail s s' hreach hstep ih =>
    obtain ⟨more, hlog⟩ := (step_progress (VigorMcp.Reaches.sound hreach) hstep).log
    have hfresh : s'.log.filterMap Entry.action = s.log.filterMap Entry.action ++ fresh s s' := by
      rw [fresh, ← hlog, List.drop_left, List.filterMap_append]
    rw [hfresh]
    exact .tail ih (.server hstep)

/-- No tool disconnects the client. -/
theorem not_disconnect (log : List Entry) : .disconnect ∉ log.filterMap Entry.action := by
  intro hmem
  obtain ⟨e, -, he⟩ := List.mem_filterMap.mp hmem
  obtain ⟨⟨o, a⟩, -, hsend⟩ := Option.bind_eq_some_iff.mp he
  cases o with
  | send site c => cases c <;> cases hsend
  | _ => cases hsend

def passwordStack : Stack := ⟨passwordApproved, passwordApproved.log.filterMap Entry.action⟩

theorem passwordStack_open : .disconnect ∉ passwordStack.actions := not_disconnect _

/-- The SDK of the password's tool. -/
def passwordSdk : ClientSdk := ⟨userSdk.operationFor, fun _ => false⟩

theorem passwordSdk_writes {manifestId : JStr} {op : AnyOperation}
    (h : passwordSdk.operationFor manifestId = some op) : op.classification ≠ .read := by
  simp only [passwordSdk, Sdk.operationFor] at h
  have hmem : op ∈ [cliUser] := List.mem_of_find?_eq_some h
  rw [List.mem_singleton.mp hmem]
  decide

theorem userSet_faithful {call : WriteCall} (h : call.cmd = userSetTool) :
    Faithful passwordSdk call := by
  intro binding hbinding
  rw [h] at hbinding ⊢
  obtain rfl := Option.some.inj hbinding
  refine ⟨cliUser, rfl, ?_⟩
  simp only [userSetTool, userTool, sdkTool, resolveSdkInput, bind_assoc]

theorem passwordStack_reaches : passwordStack.Reaches mirroredEnv noTools :=
  Reaches.alone (passwordApproved_reaches.1.trans passwordApproved_reaches.2)

/-- The approved password is in the slot when its write reaches the client. -/
theorem passwordStack_carries : ∃ i j c,
    Carries passwordStack i j c signedSet.command ∧ Renders passwordSdk c.action signedSet.command := by
  have hhands : handsWrite .performWrite ((userSetApproved.exec mirroredEnv noTools
      (userSetPreview.exec mirroredEnv noTools .new).world).trace.map Event.op) = true := by
    decide +kernel
  obtain ⟨j, c, hands⟩ := approvedRun_hands signedSet.payload hhands
  obtain ⟨i, command, hcarries⟩ := passwordStack_reaches.hands_carried hands
  have hfaithful : ∀ task ∈ passwordStack.server.writes, Faithful passwordSdk task.call := by
    intro task htask
    rcases List.mem_append.mp htask with h | h
    · rw [List.mem_singleton.mp h]
      exact userSet_faithful rfl
    · rw [List.mem_singleton.mp h]
      exact userSet_faithful rfl
  obtain ⟨p, hp, hcommand⟩ := userSetApproved_offers.renders
  have hcall : command = signedSet.command ∧ c = (userSetApproved.context p 0).call := by
    obtain ⟨entry, -, -, -, presented_at, text⟩ := id hcarries
    obtain ⟨_, before, hj⟩ := entry
    obtain ⟨_, before', hj'⟩ := hands
    injection Option.some.inj (hj.symm.trans hj') with _ hcall _ hevent
    injection hevent with hsend
    injection hsend with hsite
    subst hcall hsite
    have hs := VigorMcp.Reaches.sound (passwordApproved_reaches.1.trans passwordApproved_reaches.2)
    obtain ⟨p', hp', rfl⟩ := (hs.at presented_at).2.2.1
    obtain rfl := Except.ok.inj (hp.symm.trans hp')
    rcases text with ⟨-, ⟨p', started, hp', rfl⟩, rfl⟩ | ⟨⟨⟩, -⟩
    obtain rfl := Except.ok.inj (hp.symm.trans hp')
    exact ⟨hcommand, rfl⟩
  obtain ⟨rfl, rfl⟩ := hcall
  have hallowed : userSetApproved.prepared.toOption.all (fun p =>
      ((userSetApproved.context p 0).call.action.texts passwordSdk).all fun t => !isForbidden t) =
        true := by
    decide +kernel
  rw [hp] at hallowed
  refine ⟨i, j, _, hcarries, hcarries.rendered passwordStack_reaches hfaithful, ?_, fun t ht => ?_⟩
  · rintro manifestId input op - hop
    exact passwordSdk_writes hop
  · simpa using List.all_eq_true.mp hallowed t ht

/-- The approved password reaches the SDK. -/
theorem facade_agrees_password : ∃ i j c,
    Carries passwordStack i j c signedSet.command ∧ c.action.rendered passwordSdk = some signedSet.command ∧
      WriteHanded passwordSdk (SdkVigorClient.new false) passwordStack.actions i := by
  obtain ⟨i, j, c, hcarries, hrenders⟩ := passwordStack_carries
  have hagree := facade_agrees passwordSdk false passwordStack_reaches
  exact ⟨i, j, c, hcarries, hrenders.1, (hagree.2.2.2.1 _ _ _ _ hcarries).mpr
    ⟨hrenders, rfl, fun hmem => passwordStack_open (List.mem_of_mem_take hmem)⟩⟩

end Stack

end VigorMcp
