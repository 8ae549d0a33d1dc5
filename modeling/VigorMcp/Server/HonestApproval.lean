import VigorMcp.Commands.WriteSecrets
import VigorMcp.Server.Awaiting
import VigorMcp.Tools.HonestApprover

/-!
# An honest approval is enough

The gate refuses in many ways, and the approve tool in as many. Neither refuses
an honest approval: while a preview's intent is pending, whoever has the private
key and types the arguments that the preview hides gets a signature, and the
call that presents it in time hands its write over (`honest_approval_suffices`).
-/

namespace VigorMcp

open Prog

/-! ## Calls that are over -/

/-- A monitor for each write call, and what holds when the call is over. -/
structure Watcher where
  monitor : WriteCall → Monitor toolCalls
  start : (call : WriteCall) → (monitor call).State
  ends : (call : WriteCall) → (monitor call).State → Except Thrown WriteBody → Prop

namespace Watcher

variable {W : Watcher} {E : Env} {find : JStr → Option CommandDef} {s s' : Server}

/-- The calls of that number were allowed, and so is the rest, or the end holds. -/
def Saw (W : Watcher) (log : List Entry) (k : Nat) : Option WriteTask → Prop
  | some ⟨call, .running rest⟩ =>
    (W.monitor call).Accepts (W.start call) (log.filterMap (Entry.eventOf k)) ∧
      Obeys (W.monitor call) (W.ends call)
        ((W.monitor call).after (W.start call) (log.filterMap (Entry.eventOf k))) rest
  | some ⟨call, .settled result⟩ =>
    (W.monitor call).Accepts (W.start call) (log.filterMap (Entry.eventOf k)) ∧
      W.ends call ((W.monitor call).after (W.start call) (log.filterMap (Entry.eventOf k))) result
  | _ => True

theorem Saw.frame {log : List Entry} {k : Nat} {task : Option WriteTask} {e : Entry}
    (h : W.Saw log k task) (he : e.eventOf k = none) : W.Saw (log ++ [e]) k task := by
  have hevents : (log ++ [e]).filterMap (Entry.eventOf k) = log.filterMap (Entry.eventOf k) := by
    simp [List.filterMap_append, he]
  rcases task with _ | ⟨_, _ | _ | _⟩
  · trivial
  · trivial
  · simp only [Saw, hevents]
    exact h
  · simp only [Saw, hevents]
    exact h

theorem saw_set {log : List Entry} {writes : List WriteTask} {k : Nat} {task task' : WriteTask}
    (hk : writes[k]? = some task) (h : ∀ j, j ≠ k → W.Saw log j writes[j]?)
    (hnew : W.Saw log k (some task')) (j : Nat) : W.Saw log j (writes.set k task')[j]? := by
  have hlt : k < writes.length := (List.getElem?_eq_some_iff.mp hk).1
  rcases eq_or_ne j k with rfl | hne
  · rw [List.getElem?_set_self hlt]
    exact hnew
  · rw [List.getElem?_set_ne hne.symm]
    exact h j hne

theorem step_saw (hstep : Step E find s s') (hs : Sound E s)
    (obeys : ∀ call, Obeys (W.monitor call) (W.ends call) (W.start call) (call.run find E.gate.ttlMs))
    (h : ∀ k, W.Saw s.log k s.writes[k]?) (k : Nat) : W.Saw s'.log k s'.writes[k]? := by
  cases hstep with
  | submitWrite call =>
    rcases Nat.lt_trichotomy k s.writes.length with hlt | rfl | hlt
    · rw [List.getElem?_append_left hlt]
      exact h k
    · rw [List.getElem?_concat_length]
      trivial
    · rw [List.getElem?_eq_none (by simp; omega)]
      trivial
  | @startWrite k' call waits turn =>
    refine saw_set waits (fun j _ => h j) ?_ k
    have hidle := hs.tasks k'
    rw [waits] at hidle
    simp only [Saw]
    rw [show s.log.filterMap (Entry.eventOf k') = [] from hidle]
    exact ⟨trivial, obeys call⟩
  | @askWrite k' call o next runs =>
    have hothers : ∀ j, j ≠ k' →
        Entry.eventOf j (.write k' call s.world (answered E o s.world)) = none :=
      fun j hj => if_neg (Ne.symm hj)
    refine saw_set runs (fun j hj => (h j).frame (hothers j hj)) ?_ k
    have hrun := h k'
    rw [runs] at hrun
    obtain ⟨haccepts, hallow, hnext⟩ := hrun
    have hevents : (s.log ++ [Entry.write k' call s.world (answered E o s.world)]).filterMap
        (Entry.eventOf k') = s.log.filterMap (Entry.eventOf k') ++ [answered E o s.world] := by
      rw [List.filterMap_append]
      simp [Entry.eventOf]
    simp only [Saw]
    rw [hevents, Monitor.after_concat]
    exact ⟨haccepts.concat hallow, hnext _⟩
  | @endWrite k' call result runs =>
    refine saw_set runs (fun j _ => h j) ?_ k
    have hrun := h k'
    rw [runs] at hrun
    refine ⟨hrun.1, ?_⟩
    cases result <;> exact hrun.2
  | submitRead cmd args => exact h k
  | askRead runs => exact (h k).frame rfl
  | sign payload => exact (h k).frame rfl

/-- **What holds at the end of every call alone** holds of the calls of any run. -/
theorem saw (hr : Reaches E find s)
    (obeys : ∀ call, Obeys (W.monitor call) (W.ends call) (W.start call) (call.run find E.gate.ttlMs))
    (k : Nat) : W.Saw s.log k s.writes[k]? := by
  induction hr generalizing k with
  | refl => trivial
  | tail hsteps hstep ih => exact step_saw hstep (Reaches.sound hsteps) obeys ih k

/-- Each entry of a call was allowed where the call was. -/
theorem allowed_at (hr : Reaches E find s)
    (obeys : ∀ call, Obeys (W.monitor call) (W.ends call) (W.start call) (call.run find E.gate.ttlMs))
    {j number : Nat} {call : WriteCall} {before : World} {e : Event toolCalls}
    (hj : s.log[j]? = some (.write number call before e)) :
    (W.monitor call).allow ((W.monitor call).after (W.start call)
      ((s.log.take j).filterMap (Entry.eventOf number))) e.op := by
  have hs := Reaches.sound hr
  obtain ⟨hlt, hget⟩ := List.getElem?_eq_some_iff.mp hj
  have hsplit : s.log.filterMap (Entry.eventOf number) =
      (s.log.take j).filterMap (Entry.eventOf number) ++
        e :: (s.log.drop (j + 1)).filterMap (Entry.eventOf number) := by
    conv_lhs => rw [← List.take_append_drop j s.log, List.drop_eq_getElem_cons hlt, hget]
    simp [List.filterMap_append, Entry.eventOf]
  obtain ⟨phase, hphase⟩ := hs.numbered _ (List.mem_of_getElem? hj)
  have hsaw := saw hr obeys number
  have htask := hs.tasks number
  rw [hphase] at hsaw htask
  cases phase with
  | waiting =>
    rw [show s.log.filterMap (Entry.eventOf number) = [] from htask] at hsplit
    cases (List.append_eq_nil_iff.mp hsplit.symm).2
  | running rest => exact Monitor.Accepts.allows (hsplit ▸ hsaw.1)
  | settled result => exact Monitor.Accepts.allows (hsplit ▸ hsaw.1)

/-- Each entry of a call was allowed. -/
theorem allowed (hr : Reaches E find s)
    (obeys : ∀ call, Obeys (W.monitor call) (W.ends call) (W.start call) (call.run find E.gate.ttlMs))
    {number : Nat} {call : WriteCall} {before : World} {e : Event toolCalls}
    (hmem : .write number call before e ∈ s.log) : ∃ q, (W.monitor call).allow q e.op := by
  obtain ⟨j, hj⟩ := List.mem_iff_getElem?.mp hmem
  exact ⟨_, allowed_at hr obeys hj⟩

end Watcher

/-! ## Previews and signals -/

/-- Watches what a call asks the gate to show, and whether its own signal was read as aborted. -/
def attentive (call : WriteCall) : Monitor toolCalls where
  State := Bool
  allow _ o :=
    match o with
    | .create _ command commandPreview redactedFields => ∃ p, call.prepared = .ok p ∧
        command = p.command ∧ commandPreview = p.commandLog ∧ redactedFields = p.redactedFields
    | .aborted signal => call.opts.signal = some signal
    | _ => True
  next q e :=
    match e with
    | ⟨.aborted _, true⟩ => true
    | _ => q

/-- A part of a call that throws `cancelled` only after its signal was read as aborted, or for the
reason `c`. -/
def Heeds {α : Type} (call : WriteCall) (c : Prop) (p : Handling α) : Prop :=
  ∀ q : Bool, (c → q = true) → Obeys (attentive call)
    (fun q' r => (q = true → q' = true) ∧ (r = .error errCancelled → q' = true)) q p

namespace Heeds

variable {call : WriteCall} {c : Prop} {α β : Type}

theorem pure (a : α) : Heeds call c (pure a : Handling α) := fun _ _ => ⟨id, by rintro ⟨⟩⟩

theorem throw {e : Thrown} (h : e = errCancelled → c) : Heeds call c (throw e : Handling α) :=
  fun _ hq => ⟨id, fun he => hq (h (Except.error.inj he))⟩

theorem bind {p : Handling α} {f : α → Handling β} (hp : Heeds call c p)
    (hf : ∀ a, Heeds call c (f a)) : Heeds call c (p >>= f) := by
  intro q hq
  refine Obeys.seq (hp q hq) (fun q' a h => ?_) fun q' e h => ⟨h.1, fun he => h.2 (by cases he; rfl)⟩
  exact (hf a q' fun hc => h.1 (hq hc)).mono fun q'' r h' => ⟨h'.1 ∘ h.1, h'.2⟩

theorem tryCatch {p : Handling α} {f : Thrown → Handling α} (hp : Heeds call c p)
    (hf : ∀ e, Heeds call (e = errCancelled) (f e)) : Heeds call c (tryCatch p f) := by
  refine fun q hq => Obeys.tryCatch ((hp q hq).mono ?_)
  rintro q' (e | a) h
  · exact (hf e q' fun he => h.2 (he ▸ rfl)).mono fun q'' r h' => ⟨h'.1 ∘ h.1, h'.2⟩
  · exact h

/-- The state keeps that the signal was read as aborted. -/
theorem next {q : Bool} (hq : q = true) (e : Event toolCalls) : (attentive call).next q e = true := by
  subst hq
  obtain ⟨o, a⟩ := e
  cases o with
  | aborted signal => cases a <;> rfl
  | _ => rfl

theorem ask {o : ToolOp} {f : toolCalls.Ans o → Handling α} (ho : (attentive call).allow false o)
    (hf : ∀ a, Heeds call c (f a)) : Heeds call c (VigorMcp.ask o >>= f) := by
  refine fun q hq => ⟨?_, fun a => ?_⟩
  · cases o <;> exact ho
  · exact (hf a _ fun hc => next (hq hc) _).mono fun q'' r h =>
      ⟨fun hq => h.1 (next hq _), h.2⟩

end Heeds

section

variable {call : WriteCall} {c : Prop} {α : Type} {p : PreparedWrite} {started : Int}

theorem logWriteOutcome_heeds (request : LogEntry) (audit : WriteAuditEntry) (link : Bool) :
    Heeds call c (logWriteOutcome request audit link) :=
  .ask trivial fun _ => .ask (f := pure) trivial fun _ => .pure _

theorem timingOf_heeds : Heeds call c timingOf :=
  .ask trivial fun timing => by cases timing <;> exact .pure _

theorem signalAborted_heeds : Heeds call c (signalAborted call.opts.signal) := by
  cases hsignal : call.opts.signal with
  | none => exact .pure _
  | some signal => exact .ask (f := pure) hsignal fun _ => .pure _

/-- **`cancelled` is thrown for an aborted signal.** -/
theorem throwIfCancelled_heeds : Heeds call c (throwIfCancelled call.opts.signal) := by
  cases hsignal : call.opts.signal with
  | none => exact .pure _
  | some signal =>
    refine fun q hq => ⟨hsignal, fun aborted => ?_⟩
    cases aborted with
    | false => exact ⟨id, by rintro ⟨⟩⟩
    | true => exact ⟨fun _ => rfl, fun _ => rfl⟩

theorem throwConfirm_heeds (r : Except ConfirmError α) : Heeds call c (throwConfirm r) := by
  cases r with
  | ok a => exact .pure a
  | error e => exact .throw (by rintro ⟨⟩)

theorem await_heeds (site : Site) (request : ClientCall) : Heeds call c (await site request) :=
  .ask trivial fun _ => .ask trivial fun r => by
    cases r with
    | ok raw => exact .pure raw
    | error e => exact .throw (by rintro ⟨⟩)

theorem snapshot_heeds (find : JStr → Option CommandDef) (snapshotRead : Option JStr) :
    Heeds call c (snapshot find snapshotRead) := by
  rw [snapshot_eq]
  cases snapshotCall find snapshotRead with
  | none => exact .pure _
  | some request => exact .tryCatch ((await_heeds _ request).bind fun _ => .pure _) fun _ => .pure _

theorem runCommit_heeds : Heeds call c runCommit := by
  refine .ask trivial fun started => .tryCatch (.ask trivial fun _ => ?_) fun e => ?_
  · refine (await_heeds _ _).bind fun raw => ?_
    split
    · exact .throw fun h => by injection h with h; cases h
    · exact .ask trivial fun _ => .ask trivial fun _ => .pure _
  · exact .ask trivial fun _ => .ask trivial fun _ => .pure _

theorem commitAfter_heeds (ctx : WriteContext) : Heeds call c (commitAfter ctx) := by
  unfold commitAfter
  split
  · exact runCommit_heeds.bind fun _ => .ask trivial fun _ => .pure _
  · exact .pure _

theorem recordPreparationFailure_heeds (argsLog : JStr) (error : Thrown) :
    Heeds call c (recordPreparationFailure call.cmd argsLog started error) :=
  .ask trivial fun _ => logWriteOutcome_heeds _ _ _

/-- The gate is asked to show what was prepared. -/
theorem previewWrite_heeds (hp : call.prepared = .ok p) (ttlMs : Int) :
    Heeds call c (previewWrite ttlMs (call.context p started)) := by
  unfold previewWrite
  split
  · exact .pure _
  · refine .ask ⟨p, hp, rfl, rfl, rfl⟩ fun r => (throwConfirm_heeds r).bind fun created => ?_
    exact .ask trivial fun _ => .ask trivial fun _ =>
      (logWriteOutcome_heeds _ _ _).bind fun _ => .pure _

theorem logDenied_heeds (ctx : WriteContext) (status : WriteStatus) (code message : JStr) :
    Heeds call c (logDenied ctx status code message) :=
  .ask trivial fun _ => logWriteOutcome_heeds _ _ _

theorem verifyApproval_heeds : Heeds call c (verifyApproval (call.context p started)) := by
  unfold verifyApproval
  split
  · exact .throw (by rintro ⟨⟩)
  · split
    · exact (logDenied_heeds _ _ _ _).bind fun _ => .throw fun h => by injection h with h; cases h
    · refine .tryCatch (throwIfCancelled_heeds.bind fun _ => .ask trivial throwConfirm_heeds) ?_
      exact fun e => signalAborted_heeds.bind fun _ => (logDenied_heeds _ _ _ _).bind fun _ =>
        .throw id

theorem logWriteFailure_heeds (ctx : WriteContext) (before : Option JStr) (persistSnapshots : Bool)
    (error : Thrown) : Heeds call c (logWriteFailure ctx before persistSnapshots error) :=
  .ask trivial fun _ => timingOf_heeds.bind fun _ => logWriteOutcome_heeds _ _ _

theorem handOver_heeds (before : Option JStr) (persistSnapshots : Bool) :
    Heeds call c (handOver (call.context p started) before persistSnapshots) := by
  refine .tryCatch ?_ fun e => (logWriteFailure_heeds _ _ _ _).bind fun _ => .throw id
  refine throwIfCancelled_heeds.bind fun _ => .ask trivial fun _ => (await_heeds _ _).bind fun raw => ?_
  split
  · exact .throw fun h => by injection h with h; cases h
  · exact .pure _

theorem performWrite_heeds (find : JStr → Option CommandDef) :
    Heeds call c (performWrite find (call.context p started)) :=
  (snapshot_heeds find _).bind fun _ => .ask trivial fun _ => (handOver_heeds _ _).bind fun _ =>
    timingOf_heeds.bind fun _ => (snapshot_heeds find _).bind fun _ => .ask trivial fun _ =>
      (commitAfter_heeds _).bind fun _ => .pure _

theorem recordWrite_heeds (ctx : WriteContext) (result : PerformedWrite) :
    Heeds call c (recordWrite ctx result) := by
  refine .ask trivial fun _ => (logWriteOutcome_heeds _ _ _).bind fun _ => ?_
  split <;> exact .pure _

end

/-- A call that could be prepared is cancelled only by its signal. -/
def attention : Watcher where
  monitor := attentive
  start _ := false
  ends call q r := (∃ p, call.prepared = .ok p) → r = .error errCancelled → q = true

theorem run_attention (find : JStr → Option CommandDef) (ttlMs : Int) (call : WriteCall) :
    Obeys (attention.monitor call) (attention.ends call) (attention.start call)
      (call.run find ttlMs) := by
  rw [WriteCall.run_eq]
  refine ⟨trivial, fun started => ?_⟩
  show Obeys (attentive call) (attention.ends call) false
    (call.runPrepared find ttlMs started call.prepared)
  cases hp : call.prepared with
  | error error =>
    have vacuous : ∀ q r, attention.ends call q r := by
      rintro q r ⟨p, h⟩
      rw [hp] at h
      cases h
    exact Obeys.seq (recordPreparationFailure_heeds (c := False) _ error false (by rintro ⟨⟩))
      (fun q _ _ => vacuous q _) fun q _ _ => vacuous q _
  | ok p =>
    have hrun : Heeds call False (call.runPrepared find ttlMs started (.ok p)) := by
      refine (previewWrite_heeds hp ttlMs).bind fun preview => ?_
      cases preview with
      | some body => exact .pure body
      | none =>
        refine verifyApproval_heeds.bind fun _ => (performWrite_heeds find).bind fun performed => ?_
        exact .ask (f := fun _ => recordWrite (call.context p started) performed) trivial fun _ =>
          recordWrite_heeds _ performed
    exact (hrun false (by rintro ⟨⟩)).mono fun q r h _ => h.2

/-! ## Nothing else is in the way -/

theorem isAborted_mono {signal : AbortSignal} {m n : Nat} (h : m ≤ n)
    (aborted : isAborted signal m = true) : isAborted signal n = true := by
  unfold isAborted at aborted ⊢
  split at aborted
  · simp only [decide_eq_true_eq] at aborted ⊢
    omega
  · cases aborted

/-- A signal was read as aborted, if the watcher says so. -/
theorem attentive_after {call : WriteCall} {t : List (Event toolCalls)} {q : Bool}
    (h : (attentive call).after q t = true) :
    q = true ∨ ∃ signal, (⟨.aborted signal, true⟩ : Event toolCalls) ∈ t := by
  induction t generalizing q with
  | nil => exact .inl h
  | cons e t ih =>
    rcases ih h with hq | ⟨signal, hmem⟩
    · obtain ⟨o, a⟩ := e
      cases o with
      | aborted signal =>
        cases a with
        | false => exact .inl hq
        | true => exact .inr ⟨signal, List.mem_cons_self⟩
      | _ => exact .inl hq
    · exact .inr ⟨signal, List.mem_cons_of_mem _ hmem⟩

theorem WriteCall.Renders.of_command {call : WriteCall} {command : JStr}
    (h : (call.prepared.map PreparedWrite.command).toOption = some command) : call.Renders command := by
  cases hp : call.prepared with
  | error e =>
    rw [hp] at h
    cases h
  | ok p =>
    rw [hp] at h
    exact ⟨p, hp, Option.some.inj h⟩

/-- The call presents the approval of `created` for the command. -/
structure WriteCall.Offers (call : WriteCall) (created : CreateIntentResult)
    (command signature : JStr) : Prop where
  renders : call.Renders command
  id : call.cid = some created.confirmationId
  sig : call.sig = some signature
  complete : ¬call.Incomplete
  acknowledged : ¬call.NotAcknowledged

/-- The call's signal, if it has one, is not aborted by the turn. -/
def WriteCall.Live (call : WriteCall) (turns : Nat) : Prop :=
  ∀ signal, call.opts.signal = some signal → isAborted signal turns = false

section

variable {E : Env} {find : JStr → Option CommandDef} {s : Server} {k : Nat} {call : WriteCall}
  {result : Except Thrown WriteBody}

/-- A call that could be prepared, and whose signal is not aborted, is not cancelled. -/
theorem Reaches.not_cancelled (hr : Reaches E find s)
    (settled : s.writes[k]? = some ⟨call, .settled result⟩)
    (prepared : ∃ p, call.prepared = .ok p) (live : call.Live s.world.turns) :
    result ≠ .error errCancelled := by
  intro hcancelled
  have hsaw := attention.saw hr (run_attention find _) k
  rw [settled] at hsaw
  obtain ⟨signal, hmem⟩ := (attentive_after (hsaw.2 prepared hcancelled)).resolve_left (by rintro ⟨⟩)
  obtain ⟨e, he, hevent⟩ := List.mem_filterMap.mp hmem
  obtain ⟨call', before, rfl⟩ := eventOf_eq_some hevent
  obtain ⟨phase, hphase⟩ := (Reaches.sound hr).numbered _ he
  obtain ⟨rfl, -⟩ := WriteTask.mk.inj (Option.some.inj (hphase.symm.trans settled))
  obtain ⟨q, hown⟩ := attention.allowed hr (run_attention find _) he
  have haborted : isAborted signal before.turns = true := by
    injection Reaches.answers hr he with _ hanswer
    exact hanswer.symm
  obtain ⟨j, hj⟩ := List.mem_iff_getElem?.mp he
  obtain ⟨s₀, hr₀, honward, -, rfl⟩ := Reaches.at_entry hr hj
  have hlater := isAborted_mono (Onward.elapses hr₀ honward).1.turns haborted
  rw [live signal hown] at hlater
  cases hlater

/-- A call that presents an approval hands its write over, when the gate refuses it, if at all, only
after it has accepted it. -/
theorem Reaches.hands_over (hr : Reaches E find s)
    (settled : s.writes[k]? = some ⟨call, .settled result⟩) {created : CreateIntentResult}
    {command signature : JStr} (offers : call.Offers created command signature)
    (live : call.Live s.world.turns)
    (accepted : ∀ before e, .write k call before ⟨.consumeSigned created.confirmationId command signature,
        .error e⟩ ∈ s.log →
      .ok () ∈ (ledgerOf k s.log).approvals) :
    ∃ i c, HandsOver s.log i .performWrite k call c := by
  have hs := Reaches.sound hr
  have hexit : WriteExit call (ledgerOf k s.log) result := by
    have htask := hs.tasks k
    rw [settled] at htask
    exact htask
  have hprepared : ∃ p, call.prepared = .ok p := by
    obtain ⟨p, hp, -⟩ := offers.renders
    exact ⟨p, hp⟩
  have hnot := Reaches.not_cancelled hr settled hprepared live
  have hasks : ¬call.AsksPreview := fun h => by
    have hid := offers.id
    rw [h.1] at hid
    cases hid
  -- a write that was settled was handed over before
  have hreplied : ∀ {reply}, (ledgerOf k s.log).write = .settled reply →
      ∃ i c, HandsOver s.log i .performWrite k call c := by
    intro reply hwrite
    rw [ledgerOf, of_write] at hwrite
    obtain ⟨e, he, hevent⟩ := List.mem_filterMap.mp
      ((foldl_next_settled hwrite).resolve_left (by rintro ⟨⟩))
    obtain ⟨call', before, rfl⟩ := eventOf_eq_some hevent
    obtain ⟨phase, hphase⟩ := hs.numbered _ he
    obtain ⟨rfl, -⟩ := WriteTask.mk.inj (Option.some.inj (hphase.symm.trans settled))
    obtain ⟨i, hi⟩ := List.mem_iff_getElem?.mp he
    obtain ⟨j, write, -, hhands⟩ := hs.replied hi
    exact ⟨j, write, hhands⟩
  generalize hq : ledgerOf k s.log = q at hexit hreplied accepted
  cases hexit with
  | unprepared failed =>
    obtain ⟨p, hp⟩ := hprepared
    rw [hp] at failed
    cases failed
  | full _ asks => exact absurd asks hasks
  | preview _ asks => exact absurd asks hasks
  | incomplete _ _ incomplete => exact absurd incomplete offers.complete
  | notAcknowledged _ _ missing => exact absurd missing offers.acknowledged
  | aborted => exact absurd rfl hnot
  | @refused e request audit presents status denies rows =>
    have hrefused : .error e ∈ (ledgerOf k s.log).approvals := by
      rw [hq]
      exact List.mem_singleton.mpr rfl
    rw [ledgerOf, of_approvals] at hrefused
    obtain ⟨⟨o, a⟩, hmem, hanswer⟩ := List.mem_filterMap.mp hrefused
    cases o with
    | consumeSigned id command' signature' =>
      cases hanswer
      obtain ⟨entry, he, hevent⟩ := List.mem_filterMap.mp hmem
      obtain ⟨call', before, rfl⟩ := eventOf_eq_some hevent
      obtain ⟨phase, hphase⟩ := hs.numbered _ he
      obtain ⟨rfl, -⟩ := WriteTask.mk.inj (Option.some.inj (hphase.symm.trans settled))
      obtain ⟨i, hi⟩ := List.mem_iff_getElem?.mp he
      obtain ⟨hid, hsig, ⟨p, hp, hcommand⟩, -⟩ := hs.at hi
      obtain ⟨p', hp', rfl⟩ := offers.renders
      obtain rfl : p = p' := Except.ok.inj (hp.symm.trans hp')
      obtain rfl : created.confirmationId = id := Option.some.inj (offers.id.symm.trans hid)
      obtain rfl : signature = signature' := Option.some.inj (offers.sig.symm.trans hsig)
      have hboth := accepted before e (hcommand ▸ he)
      simp [Ledger.logged, Ledger.empty] at hboth
    | _ => cases hanswer
  | cancelled => exact absurd rfl hnot
  | failed => exact hreplied rfl
  | executed => exact hreplied rfl
  | committed => exact hreplied rfl

/-- The intent of a preview is pending when a call that was submitted later presents its approval. -/
theorem Reaches.pending_when_offered {s₁ : Server} (hr₁ : Reaches E find s₁)
    (onward : Onward E find s₁ s) {number j : Nat} {preview : WriteCall} {before w : World}
    {toolId command commandPreview : JStr} {redactedFields : List JStr} {created : CreateIntentResult}
    {e : Event toolCalls}
    (previewed : .write number preview before ⟨.create toolId command commandPreview redactedFields,
      .ok created⟩ ∈ s₁.log)
    (hj : s.log[j]? = some (.write k call w e)) (after : s₁.writes.length ≤ k)
    (inTime : ∀ n, n < w.gate.tick → E.gate.clock n ≤ created.expiresAt)
    (unconsumed : ∀ entry ∈ s.log.take j, ¬entry.Consumed created.confirmationId) :
    w.gate.WellFormed ∧ ∃ i, w.gate.intents.get created.confirmationId = some i ∧
      Shows E.gate i created command commandPreview redactedFields := by
  obtain ⟨s₂, hr₂, -, hlog, rfl⟩ := Reaches.at_entry (hr₁.trans onward) hj
  -- the log of `s₁` has no entry of the call, so its entries are all before `j`
  obtain ⟨rest, hrest⟩ := (Onward.elapses hr₁ onward).2
  have hle : s₁.log.length ≤ j := by
    by_contra hlt
    rw [← hrest, List.getElem?_append_left (Nat.not_le.mp hlt)] at hj
    obtain ⟨phase, hphase⟩ := (Reaches.sound hr₁).numbered _ (List.mem_of_getElem? hj)
    rw [List.getElem?_eq_none after] at hphase
    cases hphase
  have hearlier : .write number preview before ⟨.create toolId command commandPreview redactedFields,
      .ok created⟩ ∈ s₂.log := by
    rw [hlog, ← hrest, List.take_append]
    exact List.mem_append_left _ (by rwa [List.take_of_length_le hle])
  exact ⟨(Reaches.sound hr₂).reached.wellFormed,
    Reaches.awaiting hr₂ _ _ _ _ _ _ _ _ hearlier inTime (hlog ▸ unconsumed)⟩

end

/-! ## An honest approval -/

theorem views_nodup {g : ConfirmGate} (h : g.WellFormed) :
    (g.views.map PendingIntentView.confirmationId).Nodup := by
  have hkeys : g.views.map PendingIntentView.confirmationId = g.intents.entries.map Prod.fst := by
    unfold ConfirmGate.views OrderedMap.values
    rw [List.map_map, List.map_map]
    exact List.map_congr_left fun e he => h.ids e he
  rw [hkeys]
  exact g.intents.nodup

section

variable {E : Env} {find : JStr → Option CommandDef} {s₁ s : Server} {preview : WriteCall}
  {before : World} {number : Nat} {toolId command commandPreview : JStr} {redactedFields : List JStr}
  {created : CreateIntentResult}

/-- **The approve tool signs for an honest approver** what is pending in a server that is reached. -/
theorem Reaches.approve_signs (hr : Reaches E find s₁) (keeps : KeepsFile E.gate)
    (previewed : .write number preview before ⟨.create toolId command commandPreview redactedFields,
      .ok created⟩ ∈ s₁.log)
    (live : ∀ n, n < s₁.world.gate.tick → E.gate.clock n ≤ created.expiresAt)
    (unconsumed : ∀ e ∈ s₁.log, ¬e.Consumed created.confirmationId)
    (named : created.confirmationId ≠ []) (askable : ApproveCli.Askable preview.cmd.secrets)
    {A : Approver} {signature : JStr}
    (file : A.pendingFile = s₁.world.gate.file.map PendingFile.pendingText)
    (digest : A.crypto.digestCommand command = E.gate.crypto.digestCommand command)
    (honest : ApproveCli.Truthful A (ownArgs preview.args) redactedFields
      (buildSignPayload created.confirmationId created.nonce created.commandDigest
        (.ofInt created.expiresAt))
      signature)
    (date : -8640000000000000 ≤ created.expiresAt ∧ created.expiresAt ≤ 8640000000000000) :
    ∃ signed, ApproveCli.approve A (some created.confirmationId) = .signed signed ∧
      signed.commandPreview = commandPreview ∧ signed.signature = signature := by
  obtain ⟨i, hi, ⟨rfl, hdigest, rfl, rfl⟩⟩ := Reaches.awaiting hr _ _ _ _ _ _ _ _ previewed live unconsumed
  have hmem := OrderedMap.get_eq_some.mp hi
  have hfile : s₁.world.gate.file = some s₁.world.gate.views :=
    (Reaches.filed keeps hr).resolve_left fun hnone => by
      rw [hnone] at hmem
      cases hmem
  have hview : ConfirmGate.viewOf i ∈ s₁.world.gate.views :=
    List.mem_map_of_mem (List.mem_map_of_mem (f := Prod.snd) hmem)
  obtain ⟨_, p, hp, rfl, hpreview, hfields⟩ := attention.allowed hr (run_attention find _) previewed
  obtain ⟨-, hredacted, -⟩ := prepareWrite_eq_ok.mp hp
  rw [← hpreview, ← hfields] at hredacted
  rw [hfile] at file
  obtain ⟨signed, hsigned, hshown, -, hsignature⟩ := ApproveCli.approve_signs
    file hview (views_nodup (Reaches.sound hr).reached.wellFormed) named askable hredacted
    (digest.trans hdigest.symm) honest date
  exact ⟨signed, hsigned, hshown, hsignature⟩

/-- A later call that presents, in time, an approval whose signature verifies hands its write over. -/
theorem Reaches.offer_hands (hr : Reaches E find s₁) (onward : Onward E find s₁ s)
    (previewed : .write number preview before ⟨.create toolId command commandPreview redactedFields,
      .ok created⟩ ∈ s₁.log)
    {key : KeyObject} (configured : E.gate.approvePublicKey = some key) {signature : JStr}
    (verifies : verifyApprovalSignature E.gate.crypto key signature created.confirmationId created.nonce
      created.commandDigest (.ofInt created.expiresAt) = true)
    {k : Nat} {call : WriteCall} {result : Except Thrown WriteBody} (after : s₁.writes.length ≤ k)
    (settled : s.writes[k]? = some ⟨call, .settled result⟩)
    (offers : call.Offers created command signature) (notAborted : call.Live s.world.turns)
    (inTime : ∀ w e, .write k call w ⟨.consumeSigned created.confirmationId command signature, e⟩ ∈
      s.log → ∀ n, n ≤ w.gate.tick → E.gate.clock n ≤ created.expiresAt)
    (alone : ∀ number call w e, .write number call w e ∈ s.log →
      Consumes created.confirmationId e → number = k) :
    ∃ i c, HandsOver s.log i .performWrite k call c := by
  have hr' : Reaches E find s := hr.trans onward
  refine Reaches.hands_over hr' settled offers notAborted fun w e hmem => ?_
  by_contra hnone
  -- what is refused was pending, since the call has consumed nothing
  obtain ⟨j, hj⟩ := List.mem_iff_getElem?.mp hmem
  obtain ⟨wellFormed, i, hi, ⟨rfl, hdigest, -, -⟩⟩ := Reaches.pending_when_offered hr onward previewed hj
    after (fun n hn => inTime _ _ hmem n (Nat.le_of_lt hn)) fun entry hentry hconsumed => by
      cases entry with
      | write number' call' w' event =>
        have hlog := List.mem_of_mem_take hentry
        obtain rfl := alone _ _ _ _ hlog hconsumed
        refine hnone ?_
        rw [ledgerOf, of_approvals]
        obtain ⟨command', signature', rfl⟩ := hconsumed
        exact List.mem_filterMap.mpr ⟨_, List.mem_filterMap.mpr ⟨_, hlog, if_pos rfl⟩, rfl⟩
      | _ => cases hconsumed
  have hok := ConfirmGate.consumeSigned_ok wellFormed configured hi
    (inTime _ _ hmem _ (Nat.le_refl _)) hdigest.symm verifies
  injection Reaches.answers hr' hmem with _ hanswer
  have hrefused : (w.gate.consumeSigned E.gate i.confirmationId command signature).1 = .error e :=
    hanswer.symm
  rw [hok] at hrefused
  cases hrefused

/-- **An honest approval is enough.** In any run: once a preview has been answered, and as long as its
intent is neither consumed nor expired, the approve tool signs for whoever holds the key and types the
arguments that the preview hides, when the expiry is a date and the hidden arguments can be asked for
by their names; and a later call that renders the same command, presents the id with a signature that
verifies and acknowledges if its tool is dual hands its write over, when it is not aborted, no other
call consumes the intent, and the approval is presented in time. -/
theorem honest_approval_suffices (hr : Reaches E find s₁) (onward : Onward E find s₁ s)
    (keeps : KeepsFile E.gate)
    (previewed : .write number preview before ⟨.create toolId command commandPreview redactedFields,
      .ok created⟩ ∈ s₁.log)
    (live : ∀ n, n < s₁.world.gate.tick → E.gate.clock n ≤ created.expiresAt)
    (date : -8640000000000000 ≤ created.expiresAt ∧ created.expiresAt ≤ 8640000000000000)
    (askable : ApproveCli.Askable preview.cmd.secrets) {A : Approver} {signature : JStr}
    (file : A.pendingFile = s₁.world.gate.file.map PendingFile.pendingText)
    (digest : A.crypto.digestCommand command = E.gate.crypto.digestCommand command)
    (honest : ApproveCli.Truthful A (ownArgs preview.args) redactedFields
      (buildSignPayload created.confirmationId created.nonce created.commandDigest
        (.ofInt created.expiresAt))
      signature)
    {key : KeyObject} (configured : E.gate.approvePublicKey = some key)
    (verifies : verifyApprovalSignature E.gate.crypto key signature created.confirmationId created.nonce
      created.commandDigest (.ofInt created.expiresAt) = true)
    {k : Nat} {call : WriteCall} {result : Except Thrown WriteBody} (after : s₁.writes.length ≤ k)
    (settled : s.writes[k]? = some ⟨call, .settled result⟩)
    (offers : call.Offers created command signature) (notAborted : call.Live s.world.turns)
    (inTime : ∀ w e, .write k call w ⟨.consumeSigned created.confirmationId command signature, e⟩ ∈
      s.log → ∀ n, n ≤ w.gate.tick → E.gate.clock n ≤ created.expiresAt)
    (alone : ∀ number call w e, .write number call w e ∈ s.log →
      Consumes created.confirmationId e → number = k) :
    (∃ signed, ApproveCli.approve A (some created.confirmationId) = .signed signed ∧
      signed.commandPreview = commandPreview ∧ signed.signature = signature) ∧
    ∃ i c, HandsOver s.log i .performWrite k call c := by
  constructor
  · refine Reaches.approve_signs hr keeps previewed live ?_ ?_ askable file digest honest date
    · intro e he hconsumed
      cases e with
      | write number' call' w' event =>
        have hmem := (Onward.elapses hr onward).2.subset he
        obtain rfl := alone _ _ _ _ hmem hconsumed
        obtain ⟨phase, hphase⟩ := (Reaches.sound hr).numbered _ he
        rw [List.getElem?_eq_none after] at hphase
        cases hphase
      | _ => cases hconsumed
    · intro hnil
      exact offers.complete (.inl (by rw [offers.id, hnil]; rfl))
  · exact Reaches.offer_hands hr onward previewed configured verifies after settled offers notAborted
      inTime alone

end

/-! ### A password that is approved -/

section

variable {E : Env} {find : JStr → Option CommandDef} {s : Server}

theorem onward_end {call : WriteCall} (result : Except Thrown WriteBody) {w : World}
    {writes : List WriteTask} {reads : List (Handling JsValue)} {log : List Entry} :
    Onward E find ⟨w, writes ++ [⟨call, .running (Prog.ofExcept result)⟩], reads, log⟩
      ⟨w, writes ++ [⟨call, .settled result⟩], reads, log ++ []⟩ := by
  have hstep : Step E find ⟨w, writes ++ [⟨call, .running (Prog.ofExcept result)⟩], reads, log⟩ _ :=
    .endWrite (List.getElem?_concat_length ..)
  rw [set_last] at hstep
  rw [List.append_nil]
  exact .single hstep

theorem onward_alone {call : WriteCall} {p : Handling WriteBody} {w : World} {writes : List WriteTask}
    {reads : List (Handling JsValue)} {log : List Entry} :
    Onward E find ⟨w, writes ++ [⟨call, .running p⟩], reads, log⟩ ⟨(p.exec (answer E) w).world,
      writes ++ [⟨call, .settled (p.exec (answer E) w).result⟩], reads,
      log ++ entriesOf E writes.length call p w⟩ := by
  induction p generalizing w log with
  | ret a => exact onward_end (.ok a)
  | raise e => exact onward_end (.error e)
  | ask o next ih =>
    have hstep : Step E find ⟨w, writes ++ [⟨call, .running (.ask o next)⟩], reads, log⟩ _ :=
      .askWrite (List.getElem?_concat_length ..)
    rw [set_last] at hstep
    have hrest := Relation.ReflTransGen.head hstep (ih _)
    rw [List.append_assoc] at hrest
    exact hrest

/-- A server goes on with a call that has it to itself. -/
theorem onward_serve (settled : ∀ task ∈ s.writes, ∃ result, task.phase = .settled result)
    (call : WriteCall) : Onward E find s (s.serve E find call) := by
  refine .head (.submitWrite call) (.head (.startWrite (List.getElem?_concat_length ..) ?_) ?_)
  · intro j task hj hlog
    rw [List.getElem?_append_left hj] at hlog
    exact settled task (List.mem_of_getElem? hlog)
  · rw [set_last]
    exact onward_alone

end

/-- The server after the preview of a `user_set` with a password. -/
def passwordPending : Server := Server.new.serve mirroredEnv noTools userSetPreview

/-- The approver of the password, which it types itself. -/
def passwordApprover : Approver where
  crypto := userCrypto
  pendingFile := passwordPending.world.gate.file.map PendingFile.pendingText
  isTTY := true
  answers _ := some (js "-o")
  sign payload := if payload = signedSet.payload then some signedSet.signature else none

def passwordApproved : Server :=
  approvedRun mirroredEnv noTools userSetPreview userSetApproved signedSet.payload

def passwordCreated : CreateIntentResult :=
  ⟨firstId, firstNonce, signedSet.digest, noon + 60000, expiry_safe⟩

theorem passwordPending_previewed : ∃ before toolId command commandPreview redactedFields,
    (.write 0 userSetPreview before ⟨.create toolId command commandPreview redactedFields,
      .ok passwordCreated⟩ : Entry) ∈ passwordPending.log := by
  have hcreates : (userSetPreview.exec mirroredEnv noTools .new).trace.filterMap createAnswer =
      [.ok passwordCreated] := by
    decide +kernel
  obtain ⟨⟨o, a⟩, hmem, hanswer⟩ := List.mem_filterMap.mp (hcreates ▸ List.mem_singleton.mpr rfl)
  cases o with
  | create toolId command commandPreview redactedFields =>
    cases hanswer
    rw [WriteCall.exec, ← entriesOf_events mirroredEnv 0 userSetPreview] at hmem
    obtain ⟨e, he, hevent⟩ := List.mem_filterMap.mp hmem
    obtain ⟨before, event, rfl⟩ := mem_entriesOf he
    obtain rfl : event = _ := Option.some.inj hevent
    exact ⟨before, toolId, command, commandPreview, redactedFields, he⟩
  | _ => cases hanswer

theorem passwordApproved_reaches : Reaches mirroredEnv noTools passwordPending ∧
    Onward mirroredEnv noTools passwordPending passwordApproved := by
  refine ⟨Reaches.serve .refl (fun _ h => by cases h) userSetPreview, .head (.sign signedSet.payload) ?_⟩
  refine onward_serve (fun task h => ?_) userSetApproved
  rw [List.mem_singleton.mp h]
  exact ⟨_, rfl⟩

theorem userSetApproved_offers :
    userSetApproved.Offers passwordCreated signedSet.command signedSet.signature where
  renders := .of_command (by decide +kernel)
  id := by decide +kernel
  sig := by decide +kernel
  complete := by decide +kernel
  acknowledged := by decide +kernel

/-- Only the second call consumes the intent. -/
theorem passwordApproved_alone (number : Nat) (call : WriteCall) (w : World) (e : Event toolCalls)
    (hmem : .write number call w e ∈ passwordApproved.log) (hconsumes : Consumes firstId e) :
    number = 1 := by
  have hs := Reaches.sound (passwordApproved_reaches.1.trans passwordApproved_reaches.2)
  obtain ⟨phase, hphase⟩ := hs.numbered _ hmem
  obtain ⟨j, hj⟩ := List.mem_iff_getElem?.mp hmem
  have hallows := hs.at hj
  obtain ⟨command, signature, rfl⟩ := hconsumes
  rcases number with _ | _ | number
  · -- the preview presents no approval
    obtain rfl : userSetPreview = call := congrArg WriteTask.call (Option.some.inj hphase)
    have hnone : userSetPreview.cid = none := by decide +kernel
    have hcid := hallows.1
    rw [hnone] at hcid
    cases hcid
  · rfl
  · cases hphase

/-- The previewed password is typed, signed and set. -/
theorem honest_approval_suffices_password :
    (∃ signed, ApproveCli.approve passwordApprover (some firstId) = .signed signed ∧
      signed.signature = signedSet.signature) ∧
    ∃ i c, HandsOver passwordApproved.log i .performWrite 1 userSetApproved c := by
  obtain ⟨hr, honward⟩ := passwordApproved_reaches
  obtain ⟨before, toolId, command, commandPreview, redactedFields, previewed⟩ := passwordPending_previewed
  obtain ⟨_, p, hp, rfl, rfl, rfl⟩ := attention.allowed hr (run_attention noTools _) previewed
  have hprepared : userSetPreview.prepared.toOption.any (fun p =>
      p.command = signedSet.command && p.redactedFields = [js "param"]) = true := by decide +kernel
  rw [hp] at hprepared
  simp only [Except.toOption, Option.any_some, Bool.and_eq_true, decide_eq_true_eq] at hprepared
  obtain ⟨hcommand, hfields⟩ := hprepared
  have hhonest : ApproveCli.Truthful passwordApprover (ownArgs userSetPreview.args) p.redactedFields
      signedSet.payload signedSet.signature := by
    have hsigns : passwordApprover.sign signedSet.payload = some signedSet.signature := by
      simp only [passwordApprover, ↓reduceIte]
    refine ⟨fun _ => rfl, fun m field hm => ⟨js "-o", rfl, ?_⟩, hsigns⟩
    rw [hfields] at hm
    obtain rfl : js "param" = field := by
      cases m with
      | zero => exact Option.some.inj hm
      | succ m => cases hm
    decide +kernel
  have haskable : ApproveCli.Askable userSetPreview.cmd.secrets := by
    have hsecrets : userSetPreview.cmd.secrets = [js "param"] := by decide +kernel
    rw [hsecrets]
    exact List.forall_mem_singleton.mpr (by decide)
  have hinTime : ∀ n, mirroredEnv.gate.clock n ≤ passwordCreated.expiresAt := fun _ => by
    show noon ≤ noon + 60000
    decide
  obtain ⟨⟨signed, hsigned, -, hsignature⟩, hands⟩ := honest_approval_suffices hr honward
    (⟨by decide, fun _ => rfl⟩ : KeepsFile mirroredEnv.gate) previewed (fun n _ => hinTime n)
    (by decide) haskable (A := passwordApprover) rfl rfl hhonest
    (rfl : mirroredEnv.gate.approvePublicKey = some approveKey) (by decide +kernel) (k := 1) (Nat.le_refl _)
    rfl (hcommand ▸ userSetApproved_offers) (fun signal h => by cases h) (fun _ _ _ n _ => hinTime n)
    passwordApproved_alone
  exact ⟨⟨signed, hsigned, hsignature⟩, hands⟩

end VigorMcp
