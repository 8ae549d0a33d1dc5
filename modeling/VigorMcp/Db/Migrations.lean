import VigorMcp.Db.LogStore

/-!
# Opening a log store

A database of any earlier version opens: the rows stay, the columns it lacks are
added, and opening it again changes nothing. Whatever fails on the way, no row is
lost, and a store that calls itself open has all the columns its inserts name
(`log_store_opens`).
-/

namespace VigorMcp

open Prog

namespace LogStore

/-- A database this program or an earlier version of it made: its two tables, where they are there,
have the columns that no migration adds. -/
def Older (db : Database) : Prop :=
  (∀ t, db.table requests = some t → ∀ c ∈ requestBase.map Column.name, c ∈ t.names) ∧
    ∀ t, db.table writeAudit = some t → ∀ c ∈ auditBase.map Column.name, c ∈ t.names

/-- Everything is there that opening a store makes. -/
structure Complete (db : Database) : Prop where
  requests : db.Prepares LogStore.requests insertRequestColumns
  writeAudit : db.Prepares LogStore.writeAudit insertAuditColumns
  indexes : ∀ name ∈ [js "idx_requests_ts", js "idx_requests_tool", js "idx_write_audit_ts",
    js "idx_requests_send"], name ∈ db.indexes

variable {faults : Nat → Bool} {w : SetupWorld} {db db' : Database}

/-! ## One call -/

/-- No call takes anything away. -/
theorem setup_extends (o : SetupOp) (w : SetupWorld) : w.db.Extends (setup faults o w).2.db := by
  unfold setup
  dsimp only
  split
  · exact .refl _
  · split
    · split
      · next h => exact Tables.extends_run h
      · exact .refl _
    · exact .refl _
    · exact .refl _

/-- A prepared insert has its table with its columns. -/
theorem prepares_of_setup {table : JStr} {columns : List JStr}
    (h : (setup faults (.prepare table columns) w).1 = true) :
    (setup faults (.prepare table columns) w).2.db.Prepares table columns := by
  unfold setup at h ⊢
  dsimp only at h ⊢
  split at h
  · cases h
  · next hfault =>
    rw [if_neg hfault]
    exact of_decide_eq_true h

variable {α : Type} {ok : SetupWorld → SetupOp → Prop}

/-- A call that must succeed. -/
theorem attempt_along {o : SetupOp} {post : SetupWorld → Except Unit Unit → Prop} (ho : ok w o)
    (hok : (setup faults o w).1 = true → post (setup faults o w).2 (.ok ()))
    (herror : (setup faults o w).1 = false → post (setup faults o w).2 (.error ())) :
    Along (setup faults) ok post (attempt o) w := by
  refine Along.ask ho ?_
  cases h : (setup faults o w).1 with
  | true =>
    rw [if_pos rfl]
    exact hok h
  | false =>
    rw [if_neg (by decide)]
    exact herror h

/-- A part of the constructor of which only the database matters. -/
theorem along_any (p : Setup α) (w : SetupWorld) :
    Along (setup faults) (fun _ _ => True) (fun _ _ => True) p w := by
  induction p generalizing w with
  | ret a => trivial
  | raise e => trivial
  | ask o next ih => exact ⟨trivial, ih _ _⟩

/-- **A store that calls itself open has the columns its inserts name**, whatever failed. -/
theorem openStore_prepares : Along (setup faults) (fun _ _ => True)
    (fun w r => r = .ok true → w.db.Prepares requests insertRequestColumns ∧
      w.db.Prepares writeAudit insertAuditColumns) openStore w := by
  unfold openStore
  refine Along.tryCatch ?_
  refine Along.seq (along_any _ _) (fun w _ _ => ?_) fun _ _ _ h => by cases h
  refine Along.seq (along_any _ _) (fun w _ _ => ?_) fun _ _ _ h => by cases h
  refine Along.seq (along_any _ _) (fun w _ _ => ?_) fun _ _ _ h => by cases h
  refine Along.seq (along_any _ _) (fun w _ _ => ?_) fun _ _ _ h => by cases h
  refine Along.seq (along_any _ _) (fun w _ _ => ?_) fun _ _ _ h => by cases h
  refine Along.seq (along_any _ _) (fun w _ _ => ?_) fun _ _ _ h => by cases h
  refine Along.bind (attempt_along trivial (fun hrequests => ?_) fun _ h => by cases h)
  refine Along.bind (attempt_along trivial (fun haudits => ?_) fun _ h => by cases h)
  intro _
  exact ⟨(prepares_of_setup hrequests).mono (setup_extends _ _), prepares_of_setup haudits⟩

/-! ## Opening without faults -/

/-- A part that ends well on that database. -/
def Leaves (db : Database) (w : SetupWorld) (r : Except Unit Unit) : Prop := r = .ok () ∧ w.db = db

/-- Such a part, then the rest. -/
theorem Leaves.seq {p : Setup Unit} {f : Unit → Setup α} {post : SetupWorld → Except Unit α → Prop}
    (hp : Along (setup noFaults) (fun _ _ => True) (Leaves db) p w)
    (hf : ∀ w', w'.db = db → Along (setup noFaults) (fun _ _ => True) post (f ()) w') :
    Along (setup noFaults) (fun _ _ => True) post (p >>= f) w :=
  Along.seq hp (fun w' _ h => hf w' h.2) fun _ _ h => by cases h.1

theorem setup_exec (statement : Statement JStr) : setup noFaults (.exec statement) w =
    match w.db.run statement with
    | some db => (true, ⟨db, w.calls + 1⟩)
    | none => (false, ⟨w.db, w.calls + 1⟩) := rfl

/-- A call that succeeds. -/
theorem attempt_leaves {o : SetupOp} (h : setup noFaults o w = (true, ⟨db, w.calls + 1⟩)) :
    Along (setup noFaults) (fun _ _ => True) (Leaves db) (attempt o) w := by
  refine attempt_along trivial (fun _ => ?_) fun hno => ?_
  · rw [h]
    exact ⟨rfl, rfl⟩
  · rw [h] at hno
    cases hno

/-- A statement that is run on its own, and may be refused. -/
theorem besideErrors_leaves (statement : Statement JStr) : Along (setup noFaults) (fun _ _ => True)
    (Leaves ((w.db.run statement).getD w.db)) (besideErrors (.exec statement)) w := by
  refine Along.tryCatch (attempt_along trivial ?_ ?_)
  · rw [setup_exec]
    cases h : w.db.run statement with
    | some db => exact fun _ => ⟨rfl, rfl⟩
    | none => exact fun hno => by cases hno
  · rw [setup_exec]
    cases h : w.db.run statement with
    | some db => exact fun hno => by cases hno
    | none => exact fun _ => ⟨rfl, rfl⟩

theorem besideErrors_forM (statements : List (Statement JStr)) :
    Along (setup noFaults) (fun _ _ => True) (Leaves (w.db.runEach statements))
      (statements.forM fun s => besideErrors (.exec s)) w := by
  induction statements generalizing w with
  | nil => exact ⟨rfl, rfl⟩
  | cons s rest ih =>
    refine Leaves.seq (besideErrors_leaves s) fun w' h => ?_
    have hrest := ih (w := w')
    rw [h] at hrest
    exact hrest

/-- Statements of which none is refused. -/
theorem attempt_forM {statements : List (Statement JStr)} {db : Database}
    (h : statements.foldlM Tables.run w.db = some db) : Along (setup noFaults) (fun _ _ => True)
      (Leaves db) (statements.forM fun s => attempt (.exec s)) w := by
  induction statements generalizing w with
  | nil => exact ⟨rfl, Option.some.inj h⟩
  | cons s rest ih =>
    rw [List.foldlM_cons] at h
    obtain ⟨db₁, hrun, hrest⟩ := Option.bind_eq_some_iff.mp h
    refine Leaves.seq (attempt_leaves (by rw [setup_exec, hrun])) fun w' hw' => ih ?_
    rw [hw']
    exact hrest

/-- The schema makes the tables and indexes, or leaves them as they are. -/
theorem schema_runs (older : Older db) : ∃ db', schema.foldlM Tables.run db = some db' ∧
    db'.Prepares requests (requestBase.map Column.name) ∧
    db'.Prepares writeAudit (auditBase.map Column.name) ∧
    ∀ name ∈ [js "idx_requests_ts", js "idx_requests_tool", js "idx_write_audit_ts"],
      name ∈ db'.indexes := by
  obtain ⟨db₁, hrun₁, hreq₁, hother₁, hidx₁⟩ := Tables.exists_createTable db requests
    (requestBase ++ requestAdded.map optional) (requestBase.map Column.name) (fun t ht => older.1 t ht)
    (by rw [List.map_append]; exact List.subset_append_left _ _)
  obtain ⟨db₂, hrun₂, htable₂, hmem₂, hidx₂⟩ := Tables.exists_createIndex (js "idx_requests_ts")
    (hreq₁.subset (show [js "ts"] ⊆ _ by decide))
  have hreq₂ : db₂.Prepares requests (requestBase.map Column.name) := by
    unfold Tables.Prepares
    rw [htable₂]
    exact hreq₁
  obtain ⟨db₃, hrun₃, htable₃, hmem₃, hidx₃⟩ := Tables.exists_createIndex (js "idx_requests_tool")
    (hreq₂.subset (show [js "tool_id"] ⊆ _ by decide))
  have hreq₃ : db₃.Prepares requests (requestBase.map Column.name) := by
    unfold Tables.Prepares
    rw [htable₃]
    exact hreq₂
  have haudit : db₃.table writeAudit = db.table writeAudit := by
    rw [htable₃, htable₂]
    exact hother₁ _ (by decide)
  obtain ⟨db₄, hrun₄, haud₄, hother₄, hidx₄⟩ := Tables.exists_createTable db₃ writeAudit
    (auditBase ++ auditAdded.map optional) (auditBase.map Column.name) (fun t ht => older.2 t (haudit ▸ ht))
    (by rw [List.map_append]; exact List.subset_append_left _ _)
  obtain ⟨db₅, hrun₅, htable₅, hmem₅, hidx₅⟩ := Tables.exists_createIndex (js "idx_write_audit_ts")
    (haud₄.subset (show [js "ts"] ⊆ _ by decide))
  refine ⟨db₅, ?_, ?_, ?_, ?_⟩
  · simp only [schema, List.foldlM_cons, List.foldlM_nil]
    show (some db).bind _ = _
    simp [hrun₁, hrun₂, hrun₃, hrun₄, hrun₅]
  · exact (hreq₃.mono (Tables.extends_run hrun₄)).mono (Tables.extends_run hrun₅)
  · exact haud₄.mono (Tables.extends_run hrun₅)
  · simp only [List.forall_mem_cons, List.not_mem_nil, false_implies, implies_true, and_true]
    rw [hidx₄] at hidx₅
    exact ⟨hidx₅ (hidx₃ hmem₂), hidx₅ hmem₃, hmem₅⟩

/-- The columns that the migrations add, with their tables. -/
def added : List (JStr × JStr) := auditAdded.map (writeAudit, ·) ++ requestAdded.map (requests, ·)

theorem migrations_eq : migrations = added.map fun c => .addColumn c.1 c.2 := rfl

/-- The migrations and the last index complete a database. -/
theorem complete_runEach (requested : db.Prepares requests (requestBase.map Column.name))
    (audited : db.Prepares writeAudit (auditBase.map Column.name))
    (indexed : ∀ name ∈ [js "idx_requests_ts", js "idx_requests_tool", js "idx_write_audit_ts"],
      name ∈ db.indexes) : Complete (((db.runEach migrations).run sendIndex).getD
        (db.runEach migrations)) := by
  obtain ⟨hindexes, hadded⟩ := Tables.prepares_runEach db added fun c hc => by
    rcases List.mem_append.mp hc with hc | hc
    · obtain ⟨_, _, rfl⟩ := List.mem_map.mp hc
      exact ⟨_, audited⟩
    · obtain ⟨_, _, rfl⟩ := List.mem_map.mp hc
      exact ⟨_, requested⟩
  rw [← migrations_eq] at hindexes hadded
  have hrequests : (db.runEach migrations).Prepares requests insertRequestColumns :=
    (requested.mono Tables.extends_runEach).append_all requestAdded fun c hc =>
      hadded (requests, c) (List.mem_append_right _ (List.mem_map_of_mem hc))
  have haudits : (db.runEach migrations).Prepares writeAudit insertAuditColumns :=
    (audited.mono Tables.extends_runEach).append_all auditAdded fun c hc =>
      hadded (writeAudit, c) (List.mem_append_left _ (List.mem_map_of_mem hc))
  obtain ⟨db', hrun, _, hmem, hidx⟩ := Tables.exists_createIndex (js "idx_requests_send")
    (hrequests.subset (show [js "send_at"] ⊆ _ by decide))
  have hext := Tables.extends_run hrun
  rw [show (db.runEach migrations).run sendIndex = some db' from hrun]
  refine ⟨hrequests.mono hext, haudits.mono hext, ?_⟩
  simp only [List.forall_mem_cons, List.not_mem_nil, false_implies, implies_true, and_true] at indexed ⊢
  rw [← hindexes] at indexed
  exact ⟨hidx indexed.1, hidx indexed.2.1, hidx indexed.2.2, hmem⟩

/-- A complete database is left as it is. -/
theorem Complete.unchanged (h : Complete db) : schema.foldlM Tables.run db = some db ∧
    db.runEach migrations = db ∧ (db.run sendIndex).getD db = db := by
  obtain ⟨t, ht, _⟩ := h.requests
  obtain ⟨t', ht', _⟩ := h.writeAudit
  have hindex : ∀ name table column, name ∈ db.indexes →
      db.run (.createIndex name table column) = some db := fun name table column hmem => by
    rw [Tables.run_createIndex, if_pos hmem]
  have hindexes := h.indexes
  simp only [List.forall_mem_cons, List.not_mem_nil, false_implies, implies_true, and_true] at hindexes
  obtain ⟨hts, htool, haudit, hsend⟩ := hindexes
  refine ⟨?_, ?_, by rw [show db.run sendIndex = some db from hindex _ _ _ hsend]; rfl⟩
  · simp only [schema, List.foldlM_cons, List.foldlM_nil]
    show (some db).bind _ = _
    simp [Tables.run_createTable_old ht, Tables.run_createTable_old ht', hindex _ _ _ hts,
      hindex _ _ _ htool, hindex _ _ _ haudit]
  · refine Tables.runEach_eq_self fun s hs => ?_
    rw [migrations_eq] at hs
    obtain ⟨c, hc, rfl⟩ := List.mem_map.mp hs
    refine Tables.addColumn_unchanged ?_
    rcases List.mem_append.mp hc with hc | hc
    · obtain ⟨column, hcolumn, rfl⟩ := List.mem_map.mp hc
      exact h.writeAudit.subset (fun c hc => List.mem_singleton.mp hc ▸
        (show auditAdded ⊆ insertAuditColumns by decide) hcolumn)
    · obtain ⟨column, hcolumn, rfl⟩ := List.mem_map.mp hc
      exact h.requests.subset (fun c hc => List.mem_singleton.mp hc ▸
        (show requestAdded ⊆ insertRequestColumns by decide) hcolumn)

theorem setup_prepare {table : JStr} {columns : List JStr} (h : w.db.Prepares table columns) :
    setup noFaults (.prepare table columns) w = (true, ⟨w.db, w.calls + 1⟩) := by
  simp [setup, noFaults, h]

/-- The constructor when nothing fails: the database with the schema, the migrations and the last
index. -/
theorem openStore_noFaults {db' : Database} (hschema : schema.foldlM Tables.run w.db = some db')
    (hcomplete : Complete (((db'.runEach migrations).run sendIndex).getD (db'.runEach migrations))) :
    Along (setup noFaults) (fun _ _ => True)
      (fun w' r => r = .ok true ∧
        w'.db = ((db'.runEach migrations).run sendIndex).getD (db'.runEach migrations))
      openStore w := by
  unfold openStore
  refine Along.tryCatch ?_
  refine Leaves.seq (attempt_leaves rfl) fun w₁ h₁ => ?_
  refine Leaves.seq (attempt_leaves rfl) fun w₂ h₂ => ?_
  have hchmod : Along (setup noFaults) (fun _ _ => True) (Leaves w₂.db) (besideErrors .chmod) w₂ :=
    Along.tryCatch (attempt_along trivial (fun _ => ⟨rfl, rfl⟩) fun _ => ⟨rfl, rfl⟩)
  refine Leaves.seq hchmod fun w₃ h₃ => ?_
  refine Leaves.seq (attempt_forM (by rw [h₃, h₂, h₁]; exact hschema)) fun w₄ h₄ => ?_
  refine Leaves.seq (besideErrors_forM migrations) fun w₅ h₅ => ?_
  refine Leaves.seq (besideErrors_leaves sendIndex) fun w₆ h₆ => ?_
  rw [h₄] at h₅
  rw [h₅] at h₆
  rw [← h₆] at hcomplete
  refine Leaves.seq (attempt_leaves (setup_prepare hcomplete.requests)) fun w₇ h₇ => ?_
  rw [← h₇] at hcomplete
  refine Leaves.seq (attempt_leaves (setup_prepare hcomplete.writeAudit)) fun w₈ h₈ => ?_
  exact ⟨rfl, by rw [h₈, h₇, h₆]⟩

/-! ## The constructor -/

theorem opened_extends : db.Extends (opened faults db).2 :=
  (exec_steps openStore ⟨db, 0⟩).keeps (R := fun w w' => w.db.Extends w'.db)
    (fun _ => .refl _) (fun _ _ _ h h' => h.trans h') (fun o w (_ : True) => setup_extends o w)
    fun _ _ => trivial

theorem opened_prepares (h : (opened faults db).1 = true) :
    (opened faults db).2.Prepares requests insertRequestColumns ∧
      (opened faults db).2.Prepares writeAudit insertAuditColumns := by
  refine openStore_prepares.ends ?_
  unfold opened at h
  dsimp only at h
  split at h
  · next hresult => rw [hresult, h]
  · cases h

theorem opened_noFaults (older : Older db) :
    (opened noFaults db).1 = true ∧ Complete (opened noFaults db).2 := by
  obtain ⟨db', hrun, hrequests, haudits, hindexes⟩ := schema_runs older
  have hcomplete := complete_runEach hrequests haudits hindexes
  obtain ⟨hresult, hdb⟩ := (openStore_noFaults (w := ⟨db, 0⟩) hrun hcomplete).ends
  unfold opened
  dsimp only
  rw [hresult, hdb]
  exact ⟨rfl, hcomplete⟩

theorem Complete.opened (h : Complete db) : opened noFaults db = (true, db) := by
  obtain ⟨hrun, hmigrations, hindex⟩ := h.unchanged
  have hsame : ((db.runEach migrations).run sendIndex).getD (db.runEach migrations) = db := by
    rw [hmigrations, hindex]
  obtain ⟨hresult, hdb⟩ := (openStore_noFaults (w := ⟨db, 0⟩) hrun (by rwa [hsame])).ends
  unfold LogStore.opened
  dsimp only
  rw [hresult, hdb, hsame]

/-! ## Openings that are cut short -/

/-- The statements of the constructor. -/
def statements : List (Statement JStr) := schema ++ migrations ++ [sendIndex]

/-- They keep the columns that no migration adds. -/
theorem Older.run (older : Older db) {s : Statement JStr} (hs : s ∈ statements)
    (h : db.run s = some db') : Older db' := by
  have hold : ∀ {name : JStr} {base : List (Column JStr)},
      (∀ t, db.table name = some t → ∀ c ∈ base.map Column.name, c ∈ t.names) →
      (∀ columns, s = .createTable name columns → base.map Column.name ⊆ columns.map Column.name) →
      ∀ t', db'.table name = some t' → ∀ c ∈ base.map Column.name, c ∈ t'.names := by
    intro name base hbase hnew t' ht' c hc
    cases htable : db.table name with
    | some t =>
      obtain ⟨t₁, ht₁, hext⟩ := Tables.extends_run h name t htable
      obtain rfl := Option.some.inj (ht₁.symm.trans ht')
      exact hext.names (hbase t htable c hc)
    | none =>
      obtain ⟨columns, rfl, rfl⟩ := Tables.made_by_run h htable ht'
      exact hnew columns rfl hc
  have hne : requests ≠ writeAudit := by decide
  refine ⟨hold older.1 fun columns heq => ?_, hold older.2 fun columns heq => ?_⟩
  · subst heq
    have hcolumns : columns = requestBase ++ requestAdded.map optional := by
      revert hs
      simp [statements, schema, migrations, sendIndex, hne]
    rw [hcolumns, List.map_append]
    exact List.subset_append_left _ _
  · subst heq
    have hcolumns : columns = auditBase ++ auditAdded.map optional := by
      revert hs
      simp [statements, schema, migrations, sendIndex, hne.symm]
    rw [hcolumns, List.map_append]
    exact List.subset_append_left _ _

/-- A call that runs another statement. -/
def Foreign (o : SetupOp) : Prop := ∃ s, o = .exec s ∧ s ∉ statements

theorem forM_avoids {f : Statement JStr → Setup Unit} {ss : List (Statement JStr)}
    (h : ∀ s ∈ ss, Avoids Foreign (f s)) : Avoids Foreign (ss.forM f) := by
  induction ss with
  | nil => trivial
  | cons s rest ih =>
    rw [List.forall_mem_cons] at h
    exact Avoids.bind h.1 fun _ => ih h.2

theorem attempt_avoids {o : SetupOp} (h : ¬Foreign o) : Avoids Foreign (attempt o) := by
  refine Avoids.ask h fun ok => ?_
  cases ok <;> trivial

theorem besideErrors_avoids {o : SetupOp} (h : ¬Foreign o) : Avoids Foreign (besideErrors o) :=
  Avoids.tryCatch (attempt_avoids h) fun _ => trivial

theorem openStore_avoids : Avoids Foreign openStore := by
  have plain : ∀ {o : SetupOp}, (∀ s, o ≠ .exec s) → ¬Foreign o := fun h ⟨s, hs, _⟩ => h s hs
  have ours : ∀ {s : Statement JStr}, s ∈ statements → ¬Foreign (.exec s) := by
    rintro s hs ⟨_, ⟨rfl⟩, hno⟩
    exact hno hs
  unfold openStore
  refine Avoids.tryCatch ?_ fun _ => trivial
  refine Avoids.bind (attempt_avoids (plain fun _ h => by cases h)) fun _ => ?_
  refine Avoids.bind (attempt_avoids (plain fun _ h => by cases h)) fun _ => ?_
  refine Avoids.bind (besideErrors_avoids (plain fun _ h => by cases h)) fun _ => ?_
  refine Avoids.bind (forM_avoids fun s hs => attempt_avoids (ours (by simp [statements, hs])))
    fun _ => ?_
  refine Avoids.bind (forM_avoids fun s hs => besideErrors_avoids (ours (by simp [statements, hs])))
    fun _ => ?_
  refine Avoids.bind (besideErrors_avoids (ours (by simp [statements]))) fun _ => ?_
  refine Avoids.bind (attempt_avoids (plain fun _ h => by cases h)) fun _ => ?_
  refine Avoids.bind (attempt_avoids (plain fun _ h => by cases h)) fun _ => ?_
  trivial

theorem setup_older {o : SetupOp} (ho : ¬Foreign o) (older : Older w.db) :
    Older (setup faults o w).2.db := by
  unfold setup
  dsimp only
  split
  · exact older
  · cases o with
    | exec statement =>
      have hours : statement ∈ statements := not_not.mp fun hno => ho ⟨statement, rfl, hno⟩
      dsimp only
      cases h : w.db.run statement with
      | some db => exact older.run hours h
      | none => exact older
    | mkdir | openDatabase | chmod | prepare _ _ => exact older

theorem opened_older (older : Older db) : Older (opened faults db).2 :=
  (exec_steps (h := setup faults) openStore ⟨db, 0⟩).keeps
    (R := fun w w' : SetupWorld => Older w.db → Older w'.db)
    (fun _ h => h) (fun _ _ _ h h' hw => h' (h hw))
    (fun _ _ (ho : ¬Foreign _) hw => setup_older ho hw) (openStore_avoids.exec _) older

/-- **A log store opens on every earlier database.** Whatever fails on the way, all rows and columns
stay, the database can be opened again, and a store that is open has the columns its inserts name.
When nothing fails the store is open, and opening it once more changes nothing. -/
theorem log_store_opens (older : Older db) :
    (∀ faults, db.Extends (opened faults db).2 ∧ Older (opened faults db).2 ∧
      ((opened faults db).1 = true → (opened faults db).2.Prepares requests insertRequestColumns ∧
        (opened faults db).2.Prepares writeAudit insertAuditColumns)) ∧
    (opened noFaults db).1 = true ∧
      opened noFaults (opened noFaults db).2 = (true, (opened noFaults db).2) := by
  obtain ⟨hopen, hcomplete⟩ := opened_noFaults older
  exact ⟨fun faults => ⟨opened_extends, opened_older older, opened_prepares⟩, hopen, hcomplete.opened⟩

/-- A request as the first version logged it. -/
def firstRequest : List (JStr × Option SqlValue) :=
  [(js "ts", some (.text (js "2026-01-05T08:00:00.000Z"))),
    (js "tool_id", some (.text (js "show_status"))), (js "kind", some (.text (js "read"))),
    (js "command", some (.text (js "show status"))), (js "args_json", some (.text (js "\x7b\x7d"))),
    (js "outcome", some (.text (js "ok"))), (js "error_code", none), (js "error_msg", none),
    (js "duration_ms", some (.integer 140)), (js "output", some (.text (js "System Uptime: 3 days")))]

example : ∀ c ∈ requestBase, c.notNull = true → (Tables.cellOf firstRequest c.name).isSome = true := by
  decide

/-- A database from before the timing columns and the commit status, with one request. -/
def firstVersion : Database where
  table name :=
    if name = requests then some ((Table.new requestBase).withRow (Tables.cellOf firstRequest))
    else if name = writeAudit then some (.new auditBase)
    else none
  indexes := []

theorem log_store_opens_first_version : (opened noFaults firstVersion).1 = true ∧
    firstVersion.Extends (opened noFaults firstVersion).2 := by
  have older : Older firstVersion :=
    ⟨fun t ht c hc => by
      obtain rfl := Option.some.inj ht
      exact hc, fun t ht c hc => by
      obtain rfl := Option.some.inj ht
      exact hc⟩
  exact ⟨(log_store_opens older).2.1, ((log_store_opens older).1 noFaults).1⟩

end LogStore

end VigorMcp
