import VigorMcp.Tools.GateRuns
import VigorMcp.Tools.PendingFile

/-!
# The pending file mirrors the gate

`prune`, `persist` and `pendingViews` call each other, and a nested `persist`
writes the file that the outer one is about to write. `Prunes` and `Persists` are
these calls as they return, with the files on the disk: a call that returns has a
finite derivation, and every call has one (`prunes_returns`). The file that is
written last holds the views of the intents in memory, so once a call has changed
the pending set the file mirrors the gate (`pending_file_mirrors`).
-/

namespace VigorMcp

/-- The texts of the pending file and of the temporary file next to it. -/
structure Disk where
  file : Option JStr
  temp : Option JStr

namespace Disk

variable (d : Disk)

def writeTemp (text : JStr) : Disk := { d with temp := some text }

/-- The temporary file takes the place of the pending file. -/
def renameTemp : Disk := ⟨d.temp, none⟩

def removeTemp : Disk := { d with temp := none }

end Disk

namespace ConfirmGate

/-! ## Calls that return -/

mutual

/-- `prune` on the gate and disk before, returning with those after. -/
inductive Prunes (E : GateEnv) : ConfirmGate → Disk → ConfirmGate → Disk → Prop where
  | unchanged {g : ConfirmGate} {d : Disk} (same : ¬ (g.swept E).intents.size < g.intents.size) :
    Prunes E g d (g.swept E) d
  | changed {g g' : ConfirmGate} {d d' : Disk} (fewer : (g.swept E).intents.size < g.intents.size)
      (persist : Persists E (g.swept E) d g' d') : Prunes E g d g' d'

/-- `persist`: the body is built by a `prune` of its own, before anything is written. -/
inductive Persists (E : GateEnv) : ConfirmGate → Disk → ConfirmGate → Disk → Prop where
  | off {g : ConfirmGate} {d : Disk} (noFile : E.pendingFile.getD [] = []) : Persists E g d g d
  | mkdirFails {g : ConfirmGate} {d : Disk} (file : E.pendingFile.getD [] ≠ [])
      (fs : E.fs g.persists = .mkdirFails) :
    Persists E g d { g with persists := g.persists + 1 } d.removeTemp
  | writeFails {g g' : ConfirmGate} {d d' : Disk} (file : E.pendingFile.getD [] ≠ [])
      (fs : E.fs g.persists = .writeFails)
      (views : Prunes E { g with persists := g.persists + 1 } d g' d') :
    Persists E g d g' d'.removeTemp
  | ok {g g' : ConfirmGate} {d d' : Disk} (file : E.pendingFile.getD [] ≠ [])
      (fs : E.fs g.persists = .ok)
      (views : Prunes E { g with persists := g.persists + 1 } d g' d') :
    Persists E g d { g' with file := some g'.views }
      ((d'.writeTemp (PendingFile.pendingText g'.views)).renameTemp.removeTemp)

end

variable {E : GateEnv} {g g' g₁ g₂ : ConfirmGate} {d d' d₁ d₂ : Disk}

theorem size_swept_le : (g.swept E).intents.size ≤ g.intents.size := List.length_filter_le _ _

/-- `persist` returns when the `prune` inside it does. -/
theorem persists_of_prunes
    (h : ∀ d, ∃ d', Prunes E { g with persists := g.persists + 1 } d
      (prune E { g with persists := g.persists + 1 }) d') (d : Disk) :
    ∃ d', Persists E g d (g.persist E) d' := by
  unfold persist persistWith
  by_cases hfile : E.pendingFile.getD [] = []
  · rw [if_pos hfile]
    exact ⟨d, .off hfile⟩
  · rw [if_neg hfile]
    obtain ⟨d', hd'⟩ := h d
    cases hfs : E.fs g.persists with
    | ok => exact ⟨_, .ok hfile hfs hd'⟩
    | mkdirFails => exact ⟨_, .mkdirFails hfile hfs⟩
    | writeFails => exact ⟨_, .writeFails hfile hfs hd'⟩

/-- **Every `prune` returns**, as the function does: a nested one has fewer intents. -/
theorem prunes_returns (g : ConfirmGate) (d : Disk) : ∃ d', Prunes E g d (g.prune E) d' := by
  induction hs : g.intents.size using Nat.strong_induction_on generalizing g d with
  | _ s ih =>
    rw [prune_eq]
    split
    · next hlt =>
      obtain ⟨d', hd'⟩ := persists_of_prunes (g := g.swept E)
        (fun d => ih (g.swept E).intents.size (hs ▸ hlt) { g.swept E with persists := _ } d rfl) d
      exact ⟨d', .changed hlt hd'⟩
    · next hlt => exact ⟨d, .unchanged hlt⟩

theorem persists_returns (g : ConfirmGate) (d : Disk) : ∃ d', Persists E g d (g.persist E) d' :=
  persists_of_prunes (fun d => prunes_returns _ d) d

theorem Persists.eq_of_prunes
    (h : ∀ {d g' d'}, Prunes E { g with persists := g.persists + 1 } d g' d' →
      g' = prune E { g with persists := g.persists + 1 })
    (hp : Persists E g d g' d') : g' = g.persist E := by
  unfold persist persistWith
  cases hp with
  | off hfile => rw [if_pos hfile]
  | mkdirFails hfile hfs => rw [if_neg hfile, hfs]
  | writeFails hfile hfs hd' => rw [if_neg hfile, hfs, h hd']
  | ok hfile hfs hd' => rw [if_neg hfile, hfs, h hd']

/-- A `prune` that returns does so with the gate that the function gives. -/
theorem Prunes.eq (h : Prunes E g d g' d') : g' = g.prune E := by
  induction hs : g.intents.size using Nat.strong_induction_on generalizing g d g' d' with
  | _ s ih =>
    rw [prune_eq]
    cases h with
    | unchanged same => rw [if_neg same]
    | changed fewer persist =>
      rw [if_pos fewer]
      exact persist.eq_of_prunes fun hd => ih (g.swept E).intents.size (hs ▸ fewer) hd rfl

theorem Persists.eq (h : Persists E g d g' d') : g' = g.persist E := h.eq_of_prunes Prunes.eq

/-! ## The operations -/

/-- `consumePending` up to its `persist`: the gate there, and whether `persist` is called. -/
def pendingUnsaved (E : GateEnv) (g : ConfirmGate) (key : KeyObject)
    (confirmationId command signature : JStr) : ConfirmGate × Bool :=
  match g.intents.get confirmationId with
  | none => (g, false)
  | some intent =>
    if intent.used then (g, false)
    else if E.clock g.tick > intent.expiresAt then
      ({ g.ticked with intents := g.intents.delete confirmationId }, true)
    else if E.crypto.digestCommand command ≠ intent.commandDigest then (g.ticked, false)
    else if !verifyApprovalSignature E.crypto key signature intent.confirmationId intent.nonce
        intent.commandDigest (.ofInt intent.expiresAt) then (g.ticked, false)
    else
      ({ g with
          intents := g.intents.delete confirmationId
          used := g.used.set confirmationId (E.clock (g.tick + 1) + E.ttlMs)
          tick := g.tick + 2 }, true)

/-- `consumeSigned` up to its `persist`. -/
def consumeUnsaved (E : GateEnv) (g : ConfirmGate) (confirmationId command signature : JStr) :
    ConfirmGate × Bool :=
  match E.approvePublicKey with
  | none => (g, false)
  | some key =>
    match g.used.get confirmationId with
    | none => pendingUnsaved E g key confirmationId command signature
    | some usedExpiry =>
      if E.clock g.tick > usedExpiry then
        pendingUnsaved E { g.ticked with used := g.used.delete confirmationId } key confirmationId
          command signature
      else (g.ticked, false)

/-- The gate after the `persist`, when there is one. -/
def saved (E : GateEnv) (unsaved : ConfirmGate × Bool) : ConfirmGate :=
  if unsaved.2 then unsaved.1.persist E else unsaved.1

theorem consumePending_saved (g : ConfirmGate) (key : KeyObject)
    (confirmationId command signature : JStr) :
    (g.consumePending E key confirmationId command signature).2 =
      saved E (g.pendingUnsaved E key confirmationId command signature) := by
  unfold consumePending pendingUnsaved
  cases g.intents.get confirmationId with
  | none => rfl
  | some intent =>
    dsimp only
    by_cases hused : intent.used = true
    · rw [if_pos hused, if_pos hused]
      rfl
    rw [if_neg hused, if_neg hused]
    by_cases hexp : E.clock g.tick > intent.expiresAt
    · rw [if_pos hexp, if_pos hexp]
      rfl
    rw [if_neg hexp, if_neg hexp]
    by_cases hdigest : E.crypto.digestCommand command ≠ intent.commandDigest
    · rw [if_pos hdigest, if_pos hdigest]
      rfl
    rw [if_neg hdigest, if_neg hdigest]
    split <;> rfl

theorem consumeSigned_saved (g : ConfirmGate) (confirmationId command signature : JStr) :
    (g.consumeSigned E confirmationId command signature).2 =
      saved E (g.consumeUnsaved E confirmationId command signature) := by
  unfold consumeSigned consumeUnsaved
  cases E.approvePublicKey with
  | none => rfl
  | some key =>
    cases g.used.get confirmationId with
    | none => exact consumePending_saved _ _ _ _ _
    | some usedExpiry =>
      dsimp only
      by_cases hexp : E.clock g.tick > usedExpiry
      · rw [if_pos hexp, if_pos hexp]
        exact consumePending_saved _ _ _ _ _
      · rw [if_neg hexp, if_neg hexp]
        rfl

/-- Without a `persist` the pending set stays. -/
theorem pendingUnsaved_intents {key : KeyObject} {confirmationId command signature : JStr}
    (h : (g.pendingUnsaved E key confirmationId command signature).2 = false) :
    (g.pendingUnsaved E key confirmationId command signature).1.intents = g.intents := by
  unfold pendingUnsaved at h ⊢
  split
  · rfl
  · next intent hintent =>
    simp only [hintent] at h
    split at h
    · next hused => rw [if_pos hused]
    · next hused =>
      split at h
      · cases h
      · next hexp =>
        rw [if_neg hused, if_neg hexp]
        split at h
        · next hdigest => rw [if_pos hdigest]; rfl
        · next hdigest =>
          rw [if_neg hdigest]
          split at h
          · next hverify => rw [if_pos hverify]; rfl
          · cases h

theorem consumeUnsaved_intents {confirmationId command signature : JStr}
    (h : (g.consumeUnsaved E confirmationId command signature).2 = false) :
    (g.consumeUnsaved E confirmationId command signature).1.intents = g.intents := by
  unfold consumeUnsaved at h ⊢
  split
  · rfl
  · next key hkey =>
    simp only [hkey] at h
    split
    · next hused =>
      simp only [hused] at h
      exact pendingUnsaved_intents h
    · next usedExpiry hused =>
      simp only [hused] at h
      split at h
      · next hexp =>
        rw [if_pos hexp]
        exact pendingUnsaved_intents h
      · next hexp =>
        rw [if_neg hexp]
        rfl

/-- An operation on the gate and disk before, returning or throwing with those after. -/
inductive Calls (E : GateEnv) : GateOp → ConfirmGate → Disk → ConfirmGate → Disk → Prop where
  | createFull {g g' : ConfirmGate} {d d' : Disk} (toolId command commandPreview : JStr)
      (redactedFields : List JStr) (prune : Prunes E g d g' d')
      (full : g'.intents.size ≥ E.maxPending) :
    Calls E (.create toolId command commandPreview redactedFields) g d g' d'
  | create {g g₁ g' : ConfirmGate} {d d₁ d' : Disk} (toolId command commandPreview : JStr)
      (redactedFields : List JStr) (prune : Prunes E g d g₁ d₁)
      (room : ¬ g₁.intents.size ≥ E.maxPending)
      (persist : Persists E
        (g₁.withIntent E (g₁.newIntent E toolId command commandPreview redactedFields)) d₁ g' d') :
    Calls E (.create toolId command commandPreview redactedFields) g d g' d'
  | consumeSigned {g : ConfirmGate} {d : Disk} (confirmationId command signature : JStr)
      (keeps : (g.consumeUnsaved E confirmationId command signature).2 = false) :
    Calls E (.consumeSigned confirmationId command signature) g d
      (g.consumeUnsaved E confirmationId command signature).1 d
  | consumeSaved {g g' : ConfirmGate} {d d' : Disk} (confirmationId command signature : JStr)
      (saves : (g.consumeUnsaved E confirmationId command signature).2 = true)
      (persist : Persists E (g.consumeUnsaved E confirmationId command signature).1 d g' d') :
    Calls E (.consumeSigned confirmationId command signature) g d g' d'
  | prune {g g' : ConfirmGate} {d d' : Disk} (prune : Prunes E g d g' d') :
    Calls E .prune g d g' d'
  | getByConfirmationId {g g' : ConfirmGate} {d d' : Disk} (id : JStr)
      (prune : Prunes E g d g' d') : Calls E (.getByConfirmationId id) g d g' d'
  | pendingViews {g g' : ConfirmGate} {d d' : Disk} (prune : Prunes E g d g' d') :
    Calls E .pendingViews g d g' d'

/-- **Every operation returns**, with the gate that the function gives. -/
theorem calls_returns (op : GateOp) (g : ConfirmGate) (d : Disk) :
    ∃ d', Calls E op g d (op.run E g) d' := by
  obtain ⟨d₁, hprune⟩ := prunes_returns (E := E) g d
  cases op with
  | create toolId command commandPreview redactedFields =>
    unfold GateOp.run ConfirmGate.create
    by_cases hfull : (g.prune E).intents.size ≥ E.maxPending
    · exact ⟨d₁, by simpa only [if_pos hfull] using .createFull _ _ _ _ hprune hfull⟩
    · obtain ⟨d₂, hpersist⟩ := persists_returns (E := E) ((g.prune E).withIntent E
        ((g.prune E).newIntent E toolId command commandPreview redactedFields)) d₁
      exact ⟨d₂, by simpa only [if_neg hfull] using .create _ _ _ _ hprune hfull hpersist⟩
  | consumeSigned confirmationId command signature =>
    unfold GateOp.run
    dsimp only
    rw [consumeSigned_saved]
    unfold saved
    cases hsaves : (g.consumeUnsaved E confirmationId command signature).2 with
    | false => exact ⟨d, .consumeSigned _ _ _ hsaves⟩
    | true =>
      obtain ⟨d₂, hpersist⟩ :=
        persists_returns (E := E) (g.consumeUnsaved E confirmationId command signature).1 d
      exact ⟨d₂, .consumeSaved _ _ _ hsaves hpersist⟩
  | prune => exact ⟨d₁, .prune hprune⟩
  | getByConfirmationId id => exact ⟨d₁, .getByConfirmationId id hprune⟩
  | pendingViews => exact ⟨d₁, .pendingViews hprune⟩

theorem Calls.eq {op : GateOp} (h : Calls E op g d g' d') : g' = op.run E g := by
  cases h with
  | createFull _ _ _ _ hprune hfull =>
    obtain rfl := hprune.eq
    unfold GateOp.run ConfirmGate.create
    simp only [if_pos hfull]
  | create _ _ _ _ hprune hroom hpersist =>
    obtain rfl := hprune.eq
    unfold GateOp.run ConfirmGate.create
    simp only [if_neg hroom]
    exact hpersist.eq
  | consumeSigned _ _ _ hkeeps =>
    unfold GateOp.run
    dsimp only
    rw [consumeSigned_saved, saved, hkeeps]
    rfl
  | consumeSaved _ _ _ hsaves hpersist =>
    unfold GateOp.run
    dsimp only
    rw [consumeSigned_saved, saved, hsaves]
    exact hpersist.eq
  | prune hprune => exact hprune.eq
  | getByConfirmationId _ hprune => exact hprune.eq
  | pendingViews hprune => exact hprune.eq

/-! ## The file and the gate -/

/-- The file read back is the views of the intents in memory. -/
def Mirrors (g : ConfirmGate) (d : Disk) : Prop :=
  PendingFile.loadPending d.file = g.views.map PendingFile.viewJson

/-- Either nothing has changed, or the file mirrors the gate. -/
def KeptOrMirrored (g : ConfirmGate) (d : Disk) (g' : ConfirmGate) (d' : Disk) : Prop :=
  (g'.intents = g.intents ∧ d'.file = d.file) ∨ Mirrors g' d'

/-- A gate that keeps its pending set and its file keeps mirroring. -/
theorem KeptOrMirrored.mirrors (h : KeptOrMirrored g d g' d') (hm : Mirrors g d) :
    Mirrors g' d' := by
  rcases h with ⟨hintents, hfile⟩ | h
  · unfold Mirrors views at hm ⊢
    rw [hintents, hfile]
    exact hm
  · exact h

/-- The `persist` that returns last has written the views of the gate it returns with. -/
theorem Persists.mirrors (configured : E.pendingFile.getD [] ≠ []) (fsOk : ∀ n, E.fs n = .ok)
    (h : Persists E g d g' d') : Mirrors g' d' := by
  cases h with
  | off noFile => exact absurd noFile configured
  | mkdirFails _ fs =>
    rw [fsOk] at fs
    cases fs
  | writeFails _ fs _ =>
    rw [fsOk] at fs
    cases fs
  | ok _ _ _ => exact PendingFile.loadPending_pendingText _

theorem Prunes.kept (configured : E.pendingFile.getD [] ≠ []) (fsOk : ∀ n, E.fs n = .ok)
    (h : Prunes E g d g' d') : KeptOrMirrored g d g' d' := by
  cases h with
  | unchanged same =>
    have hlength : (g.swept E).intents.entries.length = g.intents.entries.length :=
      Nat.le_antisymm size_swept_le (Nat.not_lt.mp same)
    have hentries := (List.filter_sublist (l := g.intents.entries)).eq_of_length hlength
    exact .inl ⟨OrderedMap.ext hentries, rfl⟩
  | changed _ persist => exact .inr (persist.mirrors configured fsOk)

theorem Calls.kept {op : GateOp} (configured : E.pendingFile.getD [] ≠ [])
    (fsOk : ∀ n, E.fs n = .ok) (h : Calls E op g d g' d') : KeptOrMirrored g d g' d' := by
  cases h with
  | createFull _ _ _ _ hprune _ => exact hprune.kept configured fsOk
  | create _ _ _ _ _ _ hpersist => exact .inr (hpersist.mirrors configured fsOk)
  | consumeSigned _ _ _ hkeeps => exact .inl ⟨consumeUnsaved_intents hkeeps, rfl⟩
  | consumeSaved _ _ _ _ hpersist => exact .inr (hpersist.mirrors configured fsOk)
  | prune hprune => exact hprune.kept configured fsOk
  | getByConfirmationId _ hprune => exact hprune.kept configured fsOk
  | pendingViews hprune => exact hprune.kept configured fsOk

/-- Operations one after the other. -/
inductive CallRun (E : GateEnv) : List GateOp → ConfirmGate → Disk → ConfirmGate → Disk → Prop where
  | nil (g : ConfirmGate) (d : Disk) : CallRun E [] g d g d
  | cons {op : GateOp} {ops : List GateOp} {g g₁ g' : ConfirmGate} {d d₁ d' : Disk}
      (call : Calls E op g d g₁ d₁) (rest : CallRun E ops g₁ d₁ g' d') :
    CallRun E (op :: ops) g d g' d'

theorem CallRun.mirrors {ops : List GateOp} (configured : E.pendingFile.getD [] ≠ [])
    (fsOk : ∀ n, E.fs n = .ok) (h : CallRun E ops g d g' d') (hm : Mirrors g d) :
    Mirrors g' d' := by
  induction h with
  | nil _ _ => exact hm
  | cons call _ ih => exact ih ((call.kept configured fsOk).mirrors hm)

/-- A run has the gates of `runOps`. -/
theorem CallRun.eq {ops : List GateOp} (h : CallRun E ops g d g' d') : g' = runOps E g ops := by
  induction h with
  | nil _ _ => rfl
  | cons call _ ih =>
    rw [ih, call.eq]
    rfl

/-- **The pending file mirrors the gate.** With a file and a file system that serves it, every
operation returns, and from the first one on that changes the pending set (or the file) the file
read back is the views of the intents in memory, whatever was on the disk before. -/
theorem pending_file_mirrors (E : GateEnv) (configured : E.pendingFile.getD [] ≠ [])
    (fsOk : ∀ n, E.fs n = .ok) :
    (∀ op g d, ∃ d', Calls E op g d (op.run E g) d') ∧
    ∀ before op after d₀ g₁ d₁ g₂ d₂ g d, CallRun E before .new d₀ g₁ d₁ →
      Calls E op g₁ d₁ g₂ d₂ → (g₂.intents ≠ g₁.intents ∨ d₂.file ≠ d₁.file) →
      CallRun E after g₂ d₂ g d →
      PendingFile.loadPending d.file = g.views.map PendingFile.viewJson := by
  refine ⟨calls_returns, fun before op after d₀ g₁ d₁ g₂ d₂ g d _ hcall hchanged hafter => ?_⟩
  rcases hcall.kept configured fsOk with ⟨hintents, hfile⟩ | hmirrors
  · exact absurd hchanged (by simp [hintents, hfile])
  · exact hafter.mirrors configured fsOk hmirrors

/-- The user gate with a pending file. -/
def filedGate : GateEnv := { userGate with pendingFile := some (js "pending-confirms.json") }

def createReboot : GateOp := .create (js "sys_reboot") (js "sys reboot") (js "sys reboot") []

theorem pending_file_mirrors_sample : ∃ d,
    Calls filedGate createReboot .new ⟨none, none⟩ (createReboot.run filedGate .new) d ∧
    PendingFile.loadPending d.file =
      (createReboot.run filedGate .new).views.map PendingFile.viewJson := by
  have h := pending_file_mirrors filedGate (by decide) fun _ => rfl
  obtain ⟨d, hd⟩ := h.1 createReboot .new ⟨none, none⟩
  refine ⟨d, hd, h.2 [] createReboot [] _ _ _ _ _ _ _ (.nil _ _) hd (.inl ?_) (.nil _ _)⟩
  intro heq
  have hsize : (createReboot.run filedGate .new).intents.size = 0 := by
    rw [heq]
    rfl
  revert hsize
  decide

end ConfirmGate

end VigorMcp
