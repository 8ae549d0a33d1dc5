import VigorMcp.Tools.PendingMirror

/-!
# The pending file through failures and crashes

`persist` writes a temporary file next to the pending file, sets its mode and
renames it. Any of these calls can fail, the process can be killed between two
of them or in the middle of the write, and the next process finds what is left.
`PersistMoments` is `persist` with the moments it passes through: the gate in
memory and the files, after every file call. At each of them the pending file is
as it was, or it is put in place whole, with the views in memory at that very
moment and readable by its owner alone (`Intact`); so it is never torn, whatever
fails (`pending_file_is_never_torn`).
-/

namespace VigorMcp

structure StoredFile where
  text : JStr
  mode : Nat

/-- The pending file and the temporary file next to it. -/
structure Files where
  file : Option StoredFile
  temp : Option StoredFile

namespace Files

/-- The mode of the files that `persist` puts in place. -/
def ownerOnly : Nat := 0o600

/-- `writeFileSync`, `chmodSync` and `renameSync`: the files on the way and at the end. Before the
text is written whole the temporary file holds anything; a file that was there keeps its mode. -/
inductive Saves (body : JStr) (d : Files) : List Files → Files → FsOutcome → Prop
  | writeFails (partly : Option StoredFile) :
      Saves body d [⟨d.file, partly⟩] ⟨d.file, partly⟩ .writeFails
  | chmodFails (partly : Option StoredFile) (mode : Nat) :
      Saves body d [⟨d.file, partly⟩, ⟨d.file, some ⟨body, mode⟩⟩] ⟨d.file, some ⟨body, mode⟩⟩
        .writeFails
  | renameFails (partly : Option StoredFile) (mode : Nat) :
      Saves body d [⟨d.file, partly⟩, ⟨d.file, some ⟨body, mode⟩⟩, ⟨d.file, some ⟨body, ownerOnly⟩⟩]
        ⟨d.file, some ⟨body, ownerOnly⟩⟩ .writeFails
  | ok (partly : Option StoredFile) (mode : Nat) :
      Saves body d
        [⟨d.file, partly⟩, ⟨d.file, some ⟨body, mode⟩⟩, ⟨d.file, some ⟨body, ownerOnly⟩⟩,
          ⟨some ⟨body, ownerOnly⟩, none⟩]
        ⟨some ⟨body, ownerOnly⟩, none⟩ .ok

/-- `rmSync` of the temporary file, which can fail. -/
inductive Removes (d : Files) : Files → Prop
  | removed : Removes d ⟨d.file, none⟩
  | fails : Removes d d

theorem Removes.file_eq {d d' : Files} (h : d.Removes d') : d'.file = d.file := by
  cases h <;> rfl

end Files

/-- Between two file calls. -/
structure Moment where
  gate : ConfirmGate
  files : Files

/-- The pending file of a moment holds the views in memory at it, for its owner alone. -/
def Moment.Written (m : Moment) : Prop :=
  m.files.file = some ⟨PendingFile.pendingText m.gate.views, Files.ownerOnly⟩

/-- From one moment to the next the pending file stays or is put in place whole. -/
def Intact : Option StoredFile → List Moment → Prop
  | _, [] => True
  | file, m :: ms => (m.files.file = file ∨ m.Written) ∧ Intact m.files.file ms

/-- The files at the last moment. -/
def filesAfter : Files → List Moment → Files
  | d, [] => d
  | _, m :: ms => filesAfter m.files ms

/-! ## Moments -/

section

variable {file : Option StoredFile} {d d' : Files} {ms ms' : List Moment} {m : Moment}

theorem filesAfter_append : filesAfter d (ms ++ ms') = filesAfter (filesAfter d ms) ms' := by
  induction ms generalizing d with
  | nil => rfl
  | cons m ms ih => exact ih

theorem intact_append : Intact d.file (ms ++ ms') ↔
    Intact d.file ms ∧ Intact (filesAfter d ms).file ms' := by
  induction ms generalizing d with
  | nil => simp [Intact, filesAfter]
  | cons m ms ih => rw [List.cons_append, Intact, Intact, ih, filesAfter, and_assoc]

/-- What the file is at the end is what it was at first, or was put in place on the way. -/
theorem Intact.at_end (h : Intact d.file ms) : (filesAfter d ms).file = d.file ∨
    ∃ m ∈ ms, (filesAfter d ms).file =
      some ⟨PendingFile.pendingText m.gate.views, Files.ownerOnly⟩ := by
  induction ms generalizing d with
  | nil => exact .inl rfl
  | cons m ms ih =>
    rw [filesAfter]
    rcases ih h.2 with hsame | ⟨m', hm', hfile⟩
    · rcases h.1 with hkept | hwritten
      · exact .inl (hsame.trans hkept)
      · exact .inr ⟨m, List.mem_cons_self, hsame.trans hwritten⟩
    · exact .inr ⟨m', List.mem_cons_of_mem _ hm', hfile⟩

end

namespace ConfirmGate

/-! ## `persist` and `prune` with their moments -/

mutual

/-- `prune` on the gate and files before, with the moments on the way and the gate and files
after. -/
inductive PruneMoments (E : GateEnv) :
    ConfirmGate → Files → List Moment → ConfirmGate → Files → Prop where
  | unchanged {g : ConfirmGate} {d : Files} (same : ¬ (g.swept E).intents.size < g.intents.size) :
    PruneMoments E g d [] (g.swept E) d
  | changed {g g' : ConfirmGate} {d d' : Files} {ms : List Moment}
      (fewer : (g.swept E).intents.size < g.intents.size)
      (persist : PersistMoments E (g.swept E) d ms g' d') : PruneMoments E g d ms g' d'

inductive PersistMoments (E : GateEnv) :
    ConfirmGate → Files → List Moment → ConfirmGate → Files → Prop where
  | off {g : ConfirmGate} {d : Files} (noFile : E.pendingFile.getD [] = []) :
    PersistMoments E g d [] g d
  | mkdirFails {g : ConfirmGate} {d d' : Files} (file : E.pendingFile.getD [] ≠ [])
      (fs : E.fs g.persists = .mkdirFails) (removes : d.Removes d') :
    PersistMoments E g d [⟨{ g with persists := g.persists + 1 }, d'⟩]
      { g with persists := g.persists + 1 } d'
  | writeFails {g g' : ConfirmGate} {d d₁ d₂ d' : Files} {ms : List Moment} {saved : List Files}
      (file : E.pendingFile.getD [] ≠ []) (fs : E.fs g.persists = .writeFails)
      (views : PruneMoments E { g with persists := g.persists + 1 } d ms g' d₁)
      (saves : d₁.Saves (PendingFile.pendingText g'.views) saved d₂ .writeFails)
      (removes : d₂.Removes d') :
    PersistMoments E g d (ms ++ (saved ++ [d']).map (⟨g', ·⟩)) g' d'
  | ok {g g' : ConfirmGate} {d d₁ d₂ d' : Files} {ms : List Moment} {saved : List Files}
      (file : E.pendingFile.getD [] ≠ []) (fs : E.fs g.persists = .ok)
      (views : PruneMoments E { g with persists := g.persists + 1 } d ms g' d₁)
      (saves : d₁.Saves (PendingFile.pendingText g'.views) saved d₂ .ok)
      (removes : d₂.Removes d') :
    PersistMoments E g d (ms ++ (saved ++ [d']).map (⟨g', ·⟩)) { g' with file := some g'.views } d'

end

variable {E : GateEnv} {g g' : ConfirmGate} {d d' : Files} {ms : List Moment}

/-- The steps of one save leave the file alone until the rename puts the text in its place. -/
theorem Saves.intact {saved : List Files} {d₂ d' : Files} {outcome : FsOutcome}
    (saves : d.Saves (PendingFile.pendingText g.views) saved d₂ outcome) (removes : d₂.Removes d') :
    Intact d.file ((saved ++ [d']).map (⟨g, ·⟩)) := by
  have hremoved : d'.file = d₂.file := removes.file_eq
  cases saves with
  | writeFails partly => exact ⟨.inl rfl, .inl hremoved, trivial⟩
  | chmodFails partly mode => exact ⟨.inl rfl, .inl rfl, .inl hremoved, trivial⟩
  | renameFails partly mode => exact ⟨.inl rfl, .inl rfl, .inl rfl, .inl hremoved, trivial⟩
  | ok partly mode => exact ⟨.inl rfl, .inl rfl, .inl rfl, .inr rfl, .inl hremoved, trivial⟩

mutual

theorem PruneMoments.intact {g g' : ConfirmGate} {d d' : Files} {ms : List Moment} :
    PruneMoments E g d ms g' d' → Intact d.file ms ∧ filesAfter d ms = d'
  | .unchanged _ => ⟨trivial, rfl⟩
  | .changed _ persist => persist.intact

theorem PersistMoments.intact {g g' : ConfirmGate} {d d' : Files} {ms : List Moment} :
    PersistMoments E g d ms g' d' → Intact d.file ms ∧ filesAfter d ms = d'
  | .off _ => ⟨trivial, rfl⟩
  | .mkdirFails _ _ removes => ⟨⟨.inl (removes.file_eq), trivial⟩, rfl⟩
  | .writeFails _ _ views saves removes | .ok _ _ views saves removes => by
    obtain ⟨hintact, rfl⟩ := views.intact
    refine ⟨intact_append.mpr ⟨hintact, Saves.intact saves removes⟩, ?_⟩
    rw [List.map_append, ← List.append_assoc, filesAfter_append]
    rfl

end

/-! ## The same gates as without moments -/

mutual

theorem PruneMoments.prunes {g g' : ConfirmGate} {d d' : Files} {ms : List Moment} :
    PruneMoments E g d ms g' d' → ∀ δ, ∃ δ', Prunes E g δ g' δ'
  | .unchanged same, δ => ⟨δ, .unchanged same⟩
  | .changed fewer persist, δ =>
    let ⟨δ', h⟩ := persist.persists δ
    ⟨δ', .changed fewer h⟩

theorem PersistMoments.persists {g g' : ConfirmGate} {d d' : Files} {ms : List Moment} :
    PersistMoments E g d ms g' d' → ∀ δ, ∃ δ', Persists E g δ g' δ'
  | .off noFile, δ => ⟨δ, .off noFile⟩
  | .mkdirFails file fs _, δ => ⟨_, .mkdirFails file fs⟩
  | .writeFails file fs views _ _, δ =>
    let ⟨_, h⟩ := views.prunes δ
    ⟨_, .writeFails file fs h⟩
  | .ok file fs views _ _, δ =>
    let ⟨_, h⟩ := views.prunes δ
    ⟨_, .ok file fs h⟩

end

mutual

/-- However the files are, a `prune` has its moments. -/
theorem Prunes.moments {g g' : ConfirmGate} {δ δ' : Disk} :
    Prunes E g δ g' δ' → ∀ d, ∃ ms d', PruneMoments E g d ms g' d'
  | .unchanged same, d => ⟨[], d, .unchanged same⟩
  | .changed fewer persist, d =>
    let ⟨ms, d', h⟩ := persist.moments d
    ⟨ms, d', .changed fewer h⟩

theorem Persists.moments {g g' : ConfirmGate} {δ δ' : Disk} :
    Persists E g δ g' δ' → ∀ d, ∃ ms d', PersistMoments E g d ms g' d'
  | .off noFile, d => ⟨[], d, .off noFile⟩
  | .mkdirFails file fs, d => ⟨_, _, .mkdirFails file fs .removed⟩
  | .writeFails file fs views, d =>
    let ⟨_, _, h⟩ := views.moments d
    ⟨_, _, .writeFails file fs h (.writeFails none) .removed⟩
  | .ok file fs views, d =>
    let ⟨_, _, h⟩ := views.moments d
    ⟨_, _, .ok file fs h (.ok none Files.ownerOnly) .removed⟩

end

/-! ## Operations and runs -/

/-- An operation with its moments. -/
inductive CallMoments (E : GateEnv) :
    GateOp → ConfirmGate → Files → List Moment → ConfirmGate → Files → Prop where
  | createFull {g g' : ConfirmGate} {d d' : Files} {ms : List Moment}
      (toolId command commandPreview : JStr) (redactedFields : List JStr)
      (prune : PruneMoments E g d ms g' d') (full : g'.intents.size ≥ E.maxPending) :
    CallMoments E (.create toolId command commandPreview redactedFields) g d ms g' d'
  | create {g g₁ g' : ConfirmGate} {d d₁ d' : Files} {ms ms' : List Moment}
      (toolId command commandPreview : JStr) (redactedFields : List JStr)
      (prune : PruneMoments E g d ms g₁ d₁) (room : ¬ g₁.intents.size ≥ E.maxPending)
      (persist : PersistMoments E
        (g₁.withIntent E (g₁.newIntent E toolId command commandPreview redactedFields)) d₁ ms' g' d') :
    CallMoments E (.create toolId command commandPreview redactedFields) g d (ms ++ ms') g' d'
  | consumeSigned {g : ConfirmGate} {d : Files} (confirmationId command signature : JStr)
      (keeps : (g.consumeUnsaved E confirmationId command signature).2 = false) :
    CallMoments E (.consumeSigned confirmationId command signature) g d []
      (g.consumeUnsaved E confirmationId command signature).1 d
  | consumeSaved {g g' : ConfirmGate} {d d' : Files} {ms : List Moment}
      (confirmationId command signature : JStr)
      (saves : (g.consumeUnsaved E confirmationId command signature).2 = true)
      (persist : PersistMoments E (g.consumeUnsaved E confirmationId command signature).1 d ms g' d') :
    CallMoments E (.consumeSigned confirmationId command signature) g d ms g' d'
  | prune {g g' : ConfirmGate} {d d' : Files} {ms : List Moment}
      (prune : PruneMoments E g d ms g' d') : CallMoments E .prune g d ms g' d'
  | getByConfirmationId {g g' : ConfirmGate} {d d' : Files} {ms : List Moment} (id : JStr)
      (prune : PruneMoments E g d ms g' d') :
    CallMoments E (.getByConfirmationId id) g d ms g' d'
  | pendingViews {g g' : ConfirmGate} {d d' : Files} {ms : List Moment}
      (prune : PruneMoments E g d ms g' d') : CallMoments E .pendingViews g d ms g' d'

theorem CallMoments.intact {op : GateOp} (h : CallMoments E op g d ms g' d') :
    Intact d.file ms ∧ filesAfter d ms = d' := by
  cases h with
  | createFull _ _ _ _ hprune _ => exact hprune.intact
  | create _ _ _ _ hprune _ hpersist =>
    obtain ⟨hintact, rfl⟩ := hprune.intact
    obtain ⟨hintact', rfl⟩ := hpersist.intact
    exact ⟨intact_append.mpr ⟨hintact, hintact'⟩, filesAfter_append⟩
  | consumeSigned _ _ _ _ => exact ⟨trivial, rfl⟩
  | consumeSaved _ _ _ _ hpersist => exact hpersist.intact
  | prune hprune => exact hprune.intact
  | getByConfirmationId _ hprune => exact hprune.intact
  | pendingViews hprune => exact hprune.intact

theorem CallMoments.calls {op : GateOp} (h : CallMoments E op g d ms g' d') (δ : Disk) :
    ∃ δ', Calls E op g δ g' δ' := by
  cases h with
  | createFull _ _ _ _ hprune hfull =>
    obtain ⟨δ', h⟩ := hprune.prunes δ
    exact ⟨δ', .createFull _ _ _ _ h hfull⟩
  | create _ _ _ _ hprune hroom hpersist =>
    obtain ⟨δ₁, h⟩ := hprune.prunes δ
    obtain ⟨δ', h'⟩ := hpersist.persists δ₁
    exact ⟨δ', .create _ _ _ _ h hroom h'⟩
  | consumeSigned _ _ _ hkeeps => exact ⟨δ, .consumeSigned _ _ _ hkeeps⟩
  | consumeSaved _ _ _ hsaves hpersist =>
    obtain ⟨δ', h⟩ := hpersist.persists δ
    exact ⟨δ', .consumeSaved _ _ _ hsaves h⟩
  | prune hprune =>
    obtain ⟨δ', h⟩ := hprune.prunes δ
    exact ⟨δ', .prune h⟩
  | getByConfirmationId id hprune =>
    obtain ⟨δ', h⟩ := hprune.prunes δ
    exact ⟨δ', .getByConfirmationId id h⟩
  | pendingViews hprune =>
    obtain ⟨δ', h⟩ := hprune.prunes δ
    exact ⟨δ', .pendingViews h⟩

/-- **Every operation returns** on any files, with the gate that the function gives. -/
theorem callMoments_returns (op : GateOp) (g : ConfirmGate) (d : Files) :
    ∃ ms d', CallMoments E op g d ms (op.run E g) d' := by
  obtain ⟨δ', h⟩ := calls_returns (E := E) op g ⟨none, none⟩
  generalize op.run E g = g' at h
  cases h with
  | createFull _ _ _ _ hprune hfull =>
    obtain ⟨ms, d', h⟩ := hprune.moments d
    exact ⟨ms, d', .createFull _ _ _ _ h hfull⟩
  | create _ _ _ _ hprune hroom hpersist =>
    obtain ⟨ms, d₁, h⟩ := hprune.moments d
    obtain ⟨ms', d', h'⟩ := hpersist.moments d₁
    exact ⟨_, d', .create _ _ _ _ h hroom h'⟩
  | consumeSigned _ _ _ hkeeps => exact ⟨[], d, .consumeSigned _ _ _ hkeeps⟩
  | consumeSaved _ _ _ hsaves hpersist =>
    obtain ⟨ms, d', h⟩ := hpersist.moments d
    exact ⟨ms, d', .consumeSaved _ _ _ hsaves h⟩
  | prune hprune =>
    obtain ⟨ms, d', h⟩ := hprune.moments d
    exact ⟨ms, d', .prune h⟩
  | getByConfirmationId id hprune =>
    obtain ⟨ms, d', h⟩ := hprune.moments d
    exact ⟨ms, d', .getByConfirmationId id h⟩
  | pendingViews hprune =>
    obtain ⟨ms, d', h⟩ := hprune.moments d
    exact ⟨ms, d', .pendingViews h⟩

/-- Operations one after the other, with their moments. -/
inductive RunMoments (E : GateEnv) :
    List GateOp → ConfirmGate → Files → List Moment → ConfirmGate → Files → Prop where
  | nil (g : ConfirmGate) (d : Files) : RunMoments E [] g d [] g d
  | cons {op : GateOp} {ops : List GateOp} {g g₁ g' : ConfirmGate} {d d₁ d' : Files}
      {ms ms' : List Moment} (call : CallMoments E op g d ms g₁ d₁)
      (rest : RunMoments E ops g₁ d₁ ms' g' d') : RunMoments E (op :: ops) g d (ms ++ ms') g' d'

theorem RunMoments.intact {ops : List GateOp} (h : RunMoments E ops g d ms g' d') :
    Intact d.file ms ∧ filesAfter d ms = d' := by
  induction h with
  | nil _ _ => exact ⟨trivial, rfl⟩
  | cons call _ ih =>
    obtain ⟨hintact, rfl⟩ := call.intact
    exact ⟨intact_append.mpr ⟨hintact, ih.1⟩, filesAfter_append.trans ih.2⟩

/-- A run has the gates of `runOps`. -/
theorem RunMoments.eq {ops : List GateOp} (h : RunMoments E ops g d ms g' d') :
    g' = runOps E g ops := by
  induction h with
  | nil _ _ => rfl
  | cons call _ ih =>
    obtain ⟨_, hcall⟩ := call.calls ⟨none, none⟩
    rw [ih, hcall.eq]
    rfl

/-! ## Processes -/

/-- Processes one after the other on the same files. Each starts with an empty gate and is stopped
after any number of its moments. -/
inductive Processes : Files → List Moment → Prop
  | none (d : Files) : Processes d []
  | next {E : GateEnv} {ops : List GateOp} {d d' : Files} {ms passed rest : List Moment}
      {g : ConfirmGate} (before : Processes d ms)
      (run : RunMoments E ops .new (filesAfter d ms) (passed ++ rest) g d') :
      Processes d (ms ++ passed)

theorem Processes.intact (h : Processes d ms) : Intact d.file ms := by
  induction h with
  | none d => trivial
  | next _ run ih => exact intact_append.mpr ⟨ih, (intact_append.mp run.intact.1).1⟩

/-- **The pending file is never torn.** Every operation returns, whatever file calls fail; and
wherever processes are killed, the pending file is the one that was there at first, or a file for its
owner alone from which a reader gets the views that were in memory at one moment. -/
theorem pending_file_is_never_torn :
    (∀ E op g d, ∃ ms d', CallMoments E op g d ms (op.run E g) d') ∧
    ∀ d ms, Processes d ms → (filesAfter d ms).file = d.file ∨
      ∃ m ∈ ms, ∃ f, (filesAfter d ms).file = some f ∧ f.mode = 0o600 ∧
        PendingFile.loadPending (some f.text) = m.gate.views.map PendingFile.viewJson := by
  refine ⟨fun E op g d => callMoments_returns op g d, fun d ms h => ?_⟩
  rcases h.intact.at_end with hsame | ⟨m, hm, hfile⟩
  · exact .inl hsame
  · exact .inr ⟨m, hm, _, hfile, rfl, PendingFile.loadPending_pendingText _⟩

/-- `createReboot` on no files, where all file calls succeed. -/
theorem createReboot_moments : ∃ g partly rest,
    RunMoments filedGate [createReboot] .new ⟨none, none⟩
      ([⟨g, ⟨none, some ⟨partly, Files.ownerOnly⟩⟩⟩] ++ rest)
      (createReboot.run filedGate .new)
      ⟨some ⟨PendingFile.pendingText g.views, Files.ownerOnly⟩, none⟩ := by
  have hpersist := PersistMoments.ok (E := filedGate)
    (g := (ConfirmGate.new.swept filedGate).withIntent filedGate
      ((ConfirmGate.new.swept filedGate).newIntent filedGate (js "sys_reboot") (js "sys reboot")
        (js "sys reboot") [])) (d := ⟨none, none⟩)
    (by decide) rfl (.unchanged (by decide)) (.ok (some ⟨js "[", Files.ownerOnly⟩) Files.ownerOnly)
    .removed
  have hcall := CallMoments.create _ _ _ _ (.unchanged (by decide)) (by decide) hpersist
  have hrun := RunMoments.cons hcall (.nil _ _)
  rw [hrun.eq] at hrun
  exact ⟨_, _, _, hrun⟩

/-- A process that is killed in the middle of its first write leaves no pending file. -/
theorem pending_file_is_never_torn_killed : ∃ ms, Processes ⟨none, none⟩ ms ∧ ms.length = 1 ∧
    ((filesAfter ⟨none, none⟩ ms).file = none ∨
      ∃ m ∈ ms, ∃ f, (filesAfter ⟨none, none⟩ ms).file = some f ∧ f.mode = 0o600 ∧
        PendingFile.loadPending (some f.text) = m.gate.views.map PendingFile.viewJson) := by
  obtain ⟨g, partly, rest, hrun⟩ := createReboot_moments
  have hkilled := Processes.next (.none ⟨none, none⟩) hrun
  exact ⟨_, hkilled, rfl, pending_file_is_never_torn.2 _ _ hkilled⟩

end ConfirmGate

end VigorMcp
