import VigorMcp.Server.Started
import VigorMcp.Tools.PendingMirror

/-!
# What stays pending

A run is a sequence of answered calls, so what one call does to the gate
(`answer_keeps`, `answer_filed`) says what is pending in any server that is
reached: the intent of a preview, until a call consumes it or a reading of the
clock is past its expiry (`Reaches.awaiting`); and the pending file, while the
file system serves it, holds it (`Reaches.filed`).
-/

namespace VigorMcp

open Prog

/-! ## What a step does to the world -/

/-- A step makes no call, or one; or the approver signs. -/
inductive Progress (E : Env) (s s' : Server) : Prop
  | none (world : s'.world = s.world) (log : s'.log = s.log)
  | signed (payload : List UInt8) (world : s'.world = s.world) (log : s'.log = s.log ++ [.signed payload])
  | write (number : Nat) (call : WriteCall) (o : ToolOp) (world : s'.world = (answer E o s.world).2)
      (log : s'.log = s.log ++ [.write number call s.world (answered E o s.world)])
  | read (number : Nat) (o : ToolOp) (calm : ¬IsWriteWork o) (world : s'.world = (answer E o s.world).2)
      (log : s'.log = s.log ++ [.read number s.world (answered E o s.world)])

/-- Time does not go back: neither the readings of the clock nor the turns. -/
structure Elapses (w w' : World) : Prop where
  tick : w.gate.tick ≤ w'.gate.tick
  turns : w.turns ≤ w'.turns

theorem Elapses.refl (w : World) : Elapses w w := ⟨Nat.le_refl _, Nat.le_refl _⟩

theorem Elapses.trans {w w' w'' : World} (h : Elapses w w') (h' : Elapses w' w'') : Elapses w w'' :=
  ⟨h.tick.trans h'.tick, h.turns.trans h'.turns⟩

section

variable {E : Env} {find : JStr → Option CommandDef} {s s' : Server} {w : World}

theorem step_progress (hs : Sound E s) (hstep : Step E find s s') : Progress E s s' := by
  cases hstep with
  | submitWrite call => exact .none rfl rfl
  | startWrite waits turn => exact .none rfl rfl
  | @askWrite k call o next runs => exact .write k call o rfl rfl
  | endWrite runs => exact .none rfl rfl
  | submitRead cmd args => exact .none rfl rfl
  | @askRead k o next runs =>
    have hrun : Avoids IsWriteWork (.ask o next : Handling JsValue) :=
      hs.avoids _ (List.mem_of_getElem? runs)
    exact .read k o hrun.1 rfl rfl
  | sign payload => exact .signed payload rfl rfl

theorem answer_elapses (o : ToolOp) (w : World) : Elapses w (answer E o w).2 := by
  cases o with
  | now => exact ⟨Nat.le_succ _, Nat.le_refl _⟩
  | create toolId command commandPreview redactedFields =>
    refine ⟨?_, Nat.le_refl _⟩
    show _ ≤ (w.gate.create E.gate _ _ _ _).2.tick
    have hpruned := (ConfirmGate.prune_later (E := E.gate) w.gate).tick
    rcases ConfirmGate.create_cases E.gate w.gate toolId command commandPreview redactedFields with
      ⟨_, e, hc⟩ | ⟨_, i, _, hc⟩
    · rw [hc]
      exact hpruned
    · rw [hc]
      have hsaved := (ConfirmGate.persist_later (E := E.gate) ((w.gate.prune E.gate).withIntent E.gate i)).tick
      exact hpruned.trans ((Nat.le_succ _).trans hsaved)
  | consumeSigned confirmationId command signature =>
    refine ⟨?_, Nat.le_refl _⟩
    show _ ≤ (w.gate.consumeSigned E.gate _ _ _).2.tick
    rcases ConfirmGate.consumeSigned_cases E.gate w.gate confirmationId command signature with
      ⟨e, g', hc, later⟩ | ⟨g', intent, hc, consumed⟩
    · rw [hc]
      exact later.tick
    · rw [hc]
      obtain ⟨_, _, _, later⟩ := consumed.left
      exact later.tick
  | reply site => cases site <;> exact ⟨Nat.le_refl _, Nat.le_succ _⟩
  | turn => exact ⟨Nat.le_refl _, Nat.le_succ _⟩
  | _ => exact ⟨Nat.le_refl _, Nat.le_refl _⟩

theorem Progress.elapses (h : Progress E s s') : Elapses s.world s'.world := by
  cases h with
  | none world _ => exact world ▸ .refl _
  | signed _ world _ => exact world ▸ .refl _
  | write _ _ o world _ => exact world ▸ answer_elapses o _
  | read _ o _ world _ => exact world ▸ answer_elapses o _

theorem Progress.log (h : Progress E s s') : s.log <+: s'.log := by
  cases h with
  | none _ log => exact log ▸ List.prefix_rfl
  | signed _ _ log => exact log ▸ List.prefix_append _ _
  | write _ _ _ _ log => exact log ▸ List.prefix_append _ _
  | read _ _ _ _ log => exact log ▸ List.prefix_append _ _

/-- A server of a run, later on in it. -/
abbrev Onward (E : Env) (find : JStr → Option CommandDef) (s s' : Server) : Prop :=
  Relation.ReflTransGen (Step E find) s s'

theorem Onward.elapses (hr : Reaches E find s) (h : Onward E find s s') :
    Elapses s.world s'.world ∧ s.log <+: s'.log := by
  induction h with
  | refl => exact ⟨.refl _, List.prefix_rfl⟩
  | tail hsteps hstep ih =>
    have hprogress := step_progress (Reaches.sound (hr.trans hsteps)) hstep
    exact ⟨ih.1.trans hprogress.elapses, ih.2.trans hprogress.log⟩

theorem prefix_getElem? {α : Type*} {l l' : List α} {i : Nat} {a : α} (h : l <+: l')
    (hi : l[i]? = some a) : l'[i]? = some a := by
  obtain ⟨r, rfl⟩ := h
  rw [List.getElem?_append_left (List.getElem?_eq_some_iff.mp hi).1]
  exact hi

/-- **Every entry was made in a server of the run**, the one that the log before it is of. -/
theorem Reaches.at_entry (hr : Reaches E find s) {j number : Nat} {call : WriteCall} {before : World}
    {e : Event toolCalls} (hj : s.log[j]? = some (.write number call before e)) :
    ∃ s₀, Reaches E find s₀ ∧ Onward E find s₀ s ∧ s₀.log = s.log.take j ∧ s₀.world = before := by
  induction hr with
  | refl => cases hj
  | @tail s s' hsteps hstep ih =>
    have hprogress := step_progress (Reaches.sound hsteps) hstep
    -- an entry of the log before was made before
    have hearlier : s.log[j]? = some (.write number call before e) →
        ∃ s₀, Reaches E find s₀ ∧ Onward E find s₀ s' ∧ s₀.log = s'.log.take j ∧ s₀.world = before := by
      intro hj
      obtain ⟨s₀, hr₀, honward, hlog, hworld⟩ := ih hj
      obtain ⟨rest, hrest⟩ := hprogress.log
      refine ⟨s₀, hr₀, honward.tail hstep, ?_, hworld⟩
      rw [← hrest, List.take_append_of_le_length (List.getElem?_eq_some_iff.mp hj).1.le, hlog]
    cases hprogress with
    | none _ log => exact hearlier (log ▸ hj)
    | signed _ _ log =>
      rcases History.getElem?_concat (log ▸ hj) with hj | ⟨_, he⟩
      · exact hearlier hj
      · cases he
    | write _ _ _ _ log =>
      rcases History.getElem?_concat (log ▸ hj) with hj | ⟨rfl, he⟩
      · exact hearlier hj
      · cases he
        exact ⟨s, hsteps, .single hstep, by rw [log, List.take_left], rfl⟩
    | read _ _ _ _ log =>
      rcases History.getElem?_concat (log ▸ hj) with hj | ⟨_, he⟩
      · exact hearlier hj
      · cases he

end

/-! ## What a call does to a pending intent -/

/-- The call consumes the intent of that id. -/
def Consumes (id : JStr) (e : Event toolCalls) : Prop :=
  ∃ command signature, e = ⟨.consumeSigned id command signature, .ok ()⟩

section

variable {E : Env} {w : World} {id : JStr} {i : WriteIntent}

theorem get_of_later {E : GateEnv} {g g' : ConfirmGate} (h : ConfirmGate.Later E g g')
    (pending : g.intents.get id = some i)
    (live : ∀ n, n < g'.tick → E.clock n ≤ i.expiresAt) : g'.intents.get id = some i :=
  (Frame.same h).keeps pending fun n _ hn => live n hn

/-- **A pending intent stays**, unless the call consumes it or its time is over. -/
theorem answer_keeps {o : ToolOp} (pending : w.gate.intents.get id = some i)
    (live : ∀ n, n < (answer E o w).2.gate.tick → E.gate.clock n ≤ i.expiresAt)
    (other : ¬Consumes id (answered E o w)) : (answer E o w).2.gate.intents.get id = some i := by
  cases o with
  | create toolId command commandPreview redactedFields =>
    have hgate : (answer E (.create toolId command commandPreview redactedFields) w).2.gate =
        (w.gate.create E.gate toolId command commandPreview redactedFields).2 := rfl
    rcases ConfirmGate.create_cases E.gate w.gate toolId command commandPreview redactedFields with
      ⟨_, e, hc⟩ | ⟨_, new, hnew, hc⟩
    · rw [hgate, hc] at live ⊢
      exact get_of_later (ConfirmGate.prune_later _) pending live
    · rw [hgate, hc] at live ⊢
      have hfresh : new.confirmationId ∉ (w.gate.prune E.gate).takenIds := by
        rw [hnew]
        exact ConfirmGate.idDraw_not_mem
      exact (Frame.added (ConfirmGate.prune_later _) hfresh (ConfirmGate.persist_later _)).keeps pending
        fun n _ hn => live n hn
  | consumeSigned id' command signature =>
    have hgate : (answer E (.consumeSigned id' command signature) w).2.gate =
        (w.gate.consumeSigned E.gate id' command signature).2 := rfl
    rcases ConfirmGate.consumeSigned_cases E.gate w.gate id' command signature with
      ⟨e, g', hc, later⟩ | ⟨g', intent, hc, consumed⟩
    · rw [hgate, hc] at live ⊢
      exact get_of_later later pending live
    · rw [hgate, hc] at live ⊢
      have hne : id ≠ id' := by
        rintro rfl
        refine other ⟨command, signature, ?_⟩
        show (⟨.consumeSigned id command signature,
          (w.gate.consumeSigned E.gate id command signature).1⟩ : Event toolCalls) = _
        rw [hc]
      obtain ⟨_, _, _, later⟩ := consumed.left
      refine get_of_later later ?_ live
      exact OrderedMap.get_eq_some.mpr
        (OrderedMap.mem_delete.mpr ⟨OrderedMap.get_eq_some.mp pending, hne⟩)
  | _ =>
    refine get_of_later (answer_later _ w ⟨?_, ?_⟩) pending live
    · rintro _ ⟨⟩
    · rintro ⟨⟩

/-- What is pending for a preview: the intent it was answered with, as it is shown. -/
structure Shows (E : GateEnv) (i : WriteIntent) (created : CreateIntentResult)
    (command commandPreview : JStr) (redactedFields : List JStr) : Prop where
  result : ConfirmGate.resultOf i = created
  digest : i.commandDigest = E.crypto.digestCommand command
  preview : i.commandPreview = commandPreview
  fields : i.redactedFields = redactedFields

/-- A preview's intent is pending, unless its time is over already. -/
theorem answer_creates {toolId command commandPreview : JStr} {redactedFields : List JStr}
    {created : CreateIntentResult}
    (made : (w.gate.create E.gate toolId command commandPreview redactedFields).1 = .ok created)
    (live : ∀ n, n < (w.gate.create E.gate toolId command commandPreview redactedFields).2.tick →
      E.gate.clock n ≤ created.expiresAt) :
    ∃ i, (w.gate.create E.gate toolId command commandPreview redactedFields).2.intents.get
        created.confirmationId = some i ∧ Shows E.gate i created command commandPreview redactedFields := by
  rcases ConfirmGate.create_cases E.gate w.gate toolId command commandPreview redactedFields with
    ⟨_, e, hc⟩ | ⟨_, i, hi, hc⟩
  · rw [hc] at made
    cases made
  · rw [hc] at made live ⊢
    obtain rfl := Except.ok.inj made
    have hadded : ((w.gate.prune E.gate).withIntent E.gate i).intents.get i.confirmationId = some i :=
      OrderedMap.get_eq_some.mpr (OrderedMap.mem_set.mpr (.inr rfl))
    have hpending := get_of_later (ConfirmGate.persist_later _) hadded live
    exact ⟨i, hpending, rfl, hi ▸ rfl, hi ▸ rfl, hi ▸ rfl⟩

end

/-! ## What is pending in a run -/

/-- A write call consumed the intent of that id. -/
def Entry.Consumed (id : JStr) : Entry → Prop
  | .write _ _ _ e => Consumes id e
  | _ => False

/-- The intent of every preview in the log is pending, unless it was consumed or its time is over. -/
def AwaitsApproval (E : Env) (s : Server) : Prop :=
  ∀ number call before toolId command commandPreview redactedFields (created : CreateIntentResult),
    .write number call before ⟨.create toolId command commandPreview redactedFields, .ok created⟩ ∈
      s.log →
    (∀ n, n < s.world.gate.tick → E.gate.clock n ≤ created.expiresAt) →
    (∀ e ∈ s.log, ¬e.Consumed created.confirmationId) →
    ∃ i, s.world.gate.intents.get created.confirmationId = some i ∧
      Shows E.gate i created command commandPreview redactedFields

section

variable {E : Env} {find : JStr → Option CommandDef} {s s' : Server}

theorem AwaitsApproval.next {o : ToolOp} {e : Entry} (h : AwaitsApproval E s)
    (world : s'.world = (answer E o s.world).2) (log : s'.log = s.log ++ [e])
    (made : (∃ number call, e = .write number call s.world (answered E o s.world)) ∨
      ∃ number, e = .read number s.world (answered E o s.world) ∧ ¬IsWriteWork o) :
    AwaitsApproval E s' := by
  intro number call before toolId command commandPreview redactedFields created hmem live unconsumed
  rw [log] at hmem unconsumed
  rw [world] at live ⊢
  rw [List.forall_mem_append] at unconsumed
  rcases List.mem_append.mp hmem with hmem | hmem
  · have helapses := answer_elapses (E := E) o s.world
    obtain ⟨i, hi, hshows⟩ := h _ _ _ _ _ _ _ _ hmem
      (fun n hn => live n (Nat.lt_of_lt_of_le hn helapses.tick)) unconsumed.1
    have hexpires : i.expiresAt = created.expiresAt := congrArg CreateIntentResult.expiresAt hshows.result
    refine ⟨i, answer_keeps hi (hexpires ▸ live) fun hconsumes => ?_, hshows⟩
    rcases made with ⟨k, call', rfl⟩ | ⟨k, rfl, calm⟩
    · exact unconsumed.2 _ (List.mem_singleton.mpr rfl) hconsumes
    · obtain ⟨command, signature, hevent⟩ := hconsumes
      obtain rfl : o = .consumeSigned created.confirmationId command signature :=
        congrArg Event.op hevent
      exact calm trivial
  · have he := List.mem_singleton.mp hmem
    rcases made with ⟨k, call', rfl⟩ | ⟨k, rfl, _⟩
    · injection he with _ _ hbefore hevent
      obtain rfl : o = .create toolId command commandPreview redactedFields :=
        (congrArg Event.op hevent).symm
      refine answer_creates ?_ live
      injection hevent with _ hans
      exact hans.symm
    · cases he

/-- **A preview's intent is pending** in every server reached, until a call consumes it or a reading
of the clock is past its expiry. -/
theorem Reaches.awaiting (hr : Reaches E find s) : AwaitsApproval E s := by
  induction hr with
  | refl =>
    intro _ _ _ _ _ _ _ _ hmem
    cases hmem
  | @tail s s' hsteps hstep ih =>
    cases step_progress (Reaches.sound hsteps) hstep with
    | none world log =>
      intro number call before toolId command commandPreview redactedFields created
      rw [world, log]
      exact ih _ _ _ _ _ _ _ _
    | signed payload world log =>
      intro number call before toolId command commandPreview redactedFields created hmem live unconsumed
      rw [log] at hmem unconsumed
      rw [world] at live ⊢
      have hearlier := (List.mem_append.mp hmem).resolve_right fun h => by
        cases List.mem_singleton.mp h
      exact ih _ _ _ _ _ _ _ _ hearlier live fun e he => unconsumed e (List.mem_append_left _ he)
    | write number call o world log => exact ih.next world log (.inl ⟨number, call, rfl⟩)
    | read number o calm world log => exact ih.next world log (.inr ⟨number, rfl, calm⟩)

end

/-! ## What the pending file holds -/

/-- The gate keeps a pending file, and the file system serves it. -/
structure KeepsFile (E : GateEnv) : Prop where
  configured : E.pendingFile.getD [] ≠ []
  fsOk : ∀ n, E.fs n = .ok

/-- The file holds the views of the pending intents, if there are any. -/
def Filed (g : ConfirmGate) : Prop := g.intents.entries = [] ∨ g.file = some g.views

section

variable {E : GateEnv} {g : ConfirmGate}

theorem persist_filed (keeps : KeepsFile E) (g : ConfirmGate) : Filed (g.persist E) := by
  right
  unfold ConfirmGate.persist ConfirmGate.persistWith
  rw [if_neg keeps.configured, keeps.fsOk]
  rfl

theorem Filed.same {g' : ConfirmGate} (h : Filed g) (intents : g'.intents = g.intents)
    (file : g'.file = g.file) : Filed g' := by
  unfold Filed ConfirmGate.views at h ⊢
  rwa [intents, file]

theorem prune_filed (keeps : KeepsFile E) (h : Filed g) : Filed (g.prune E) := by
  rw [ConfirmGate.prune_eq]
  split
  · exact persist_filed keeps _
  · next same =>
    have hlength : (g.swept E).intents.entries.length = g.intents.entries.length :=
      Nat.le_antisymm ConfirmGate.size_swept_le (Nat.not_lt.mp same)
    have hentries := (List.filter_sublist (l := g.intents.entries)).eq_of_length hlength
    exact h.same (OrderedMap.ext hentries) rfl

theorem create_filed (keeps : KeepsFile E) (h : Filed g) (toolId command commandPreview : JStr)
    (redactedFields : List JStr) : Filed (g.create E toolId command commandPreview redactedFields).2 := by
  rcases ConfirmGate.create_cases E g toolId command commandPreview redactedFields with
    ⟨_, e, hc⟩ | ⟨_, i, _, hc⟩
  · rw [hc]
    exact prune_filed keeps h
  · rw [hc]
    exact persist_filed keeps _

/-- What is left before the `persist` of a call has the file that it had. -/
theorem pendingUnsaved_file (g : ConfirmGate) (key : KeyObject) (id command signature : JStr) :
    (g.pendingUnsaved E key id command signature).1.file = g.file := by
  unfold ConfirmGate.pendingUnsaved
  cases g.intents.get id with
  | none => rfl
  | some intent =>
    dsimp only
    split
    · rfl
    · split
      · rfl
      · split
        · rfl
        · split <;> rfl

theorem consumeUnsaved_file (g : ConfirmGate) (id command signature : JStr) :
    (g.consumeUnsaved E id command signature).1.file = g.file := by
  unfold ConfirmGate.consumeUnsaved
  cases E.approvePublicKey with
  | none => rfl
  | some key =>
    cases g.used.get id with
    | none => exact pendingUnsaved_file g key id command signature
    | some usedExpiry =>
      dsimp only
      split
      · exact pendingUnsaved_file _ key id command signature
      · rfl

theorem consumeSigned_filed (keeps : KeepsFile E) (h : Filed g) (id command signature : JStr) :
    Filed (g.consumeSigned E id command signature).2 := by
  rw [ConfirmGate.consumeSigned_saved]
  unfold ConfirmGate.saved
  cases hsaves : (g.consumeUnsaved E id command signature).2 with
  | true => exact persist_filed keeps _
  | false => exact h.same (ConfirmGate.consumeUnsaved_intents hsaves) (consumeUnsaved_file g _ _ _)

end

section

variable {E : Env} {find : JStr → Option CommandDef} {s : Server}

theorem answer_filed (keeps : KeepsFile E.gate) {w : World} (h : Filed w.gate) (o : ToolOp) :
    Filed (answer E o w).2.gate := by
  cases o with
  | now => exact h.same rfl rfl
  | create toolId command commandPreview redactedFields => exact create_filed keeps h _ _ _ _
  | consumeSigned id command signature => exact consumeSigned_filed keeps h _ _ _
  | reply site => cases site <;> exact h
  | _ => exact h

/-- **The pending file shows what is pending**, in every server reached. -/
theorem Reaches.filed (keeps : KeepsFile E.gate) (hr : Reaches E find s) : Filed s.world.gate := by
  induction hr with
  | refl => exact .inl rfl
  | tail hsteps hstep ih =>
    cases step_progress (Reaches.sound hsteps) hstep with
    | none world _ => exact world ▸ ih
    | signed _ world _ => exact world ▸ ih
    | write _ _ o world _ => exact world ▸ answer_filed keeps ih o
    | read _ o _ world _ => exact world ▸ answer_filed keeps ih o

end

end VigorMcp
