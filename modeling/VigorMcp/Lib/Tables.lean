import Mathlib.Data.List.Basic

/-!
# Tables

A small relational store: tables with named columns and rows that get their keys
by counting up, a key never being given twice. A cell that no statement wrote is
`NULL`, so a new column leaves the rows as they are. `run` is a statement on the
schema, which can fail; `insert` adds a row. Neither takes a table, a column or a
row away (`Extends`).
-/

/-- A column next to the key; one that is not declared `NOT NULL` may be empty. -/
structure Column (κ : Type*) where
  name : κ
  notNull : Bool

/-- A row: its key and what its cells hold. -/
structure Row (κ ν : Type*) where
  key : Nat
  cell : κ → Option ν

/-- A table whose keys count up; `sequence` is the last one given. -/
structure Table (κ ν : Type*) where
  columns : List (Column κ)
  rows : List (Row κ ν)
  sequence : Nat
  increasing : (rows.map Row.key).Pairwise (· < ·)
  bounded : ∀ r ∈ rows, r.key ≤ sequence

/-- A statement on the schema. -/
inductive Statement (κ : Type*) where
  | pragma
  /-- `CREATE TABLE IF NOT EXISTS`. -/
  | createTable (name : κ) (columns : List (Column κ))
  /-- `ALTER TABLE … ADD COLUMN`, of a column that may be empty. -/
  | addColumn (table column : κ)
  /-- `CREATE INDEX IF NOT EXISTS … ON`. -/
  | createIndex (name table column : κ)

structure Tables (κ ν : Type*) where
  table : κ → Option (Table κ ν)
  indexes : List κ

namespace Table

variable {κ ν : Type*} (t : Table κ ν)

def new (columns : List (Column κ)) : Table κ ν := ⟨columns, [], 0, .nil, fun _ h => by cases h⟩

def names : List κ := t.columns.map Column.name

/-- The table with one column more. -/
def withColumn (column : κ) : Table κ ν := { t with columns := t.columns ++ [⟨column, false⟩] }

/-- The table with one row more, under a key above all others. -/
def withRow (cell : κ → Option ν) : Table κ ν where
  columns := t.columns
  rows := t.rows ++ [⟨t.sequence + 1, cell⟩]
  sequence := t.sequence + 1
  increasing := by
    rw [List.map_append]
    refine List.pairwise_append.mpr ⟨t.increasing, List.pairwise_singleton _ _, fun a ha b hb => ?_⟩
    obtain ⟨r, hr, rfl⟩ := List.mem_map.mp ha
    obtain rfl := List.mem_singleton.mp hb
    exact Nat.lt_succ_of_le (t.bounded r hr)
  bounded r hr := by
    rcases List.mem_append.mp hr with hr | hr
    · exact Nat.le_succ_of_le (t.bounded r hr)
    · obtain rfl := List.mem_singleton.mp hr
      exact Nat.le_refl _

/-- `t'` is `t` with more columns and rows. -/
structure Extends (t t' : Table κ ν) : Prop where
  columns : t.columns <+: t'.columns
  rows : t.rows <+: t'.rows
  sequence : t.sequence ≤ t'.sequence

variable {t} {t' t'' : Table κ ν}

theorem Extends.refl (t : Table κ ν) : t.Extends t := ⟨List.prefix_rfl, List.prefix_rfl, Nat.le_refl _⟩

theorem Extends.trans (h : t.Extends t') (h' : t'.Extends t'') : t.Extends t'' :=
  ⟨h.columns.trans h'.columns, h.rows.trans h'.rows, Nat.le_trans h.sequence h'.sequence⟩

theorem Extends.names (h : t.Extends t') : t.names ⊆ t'.names :=
  List.map_subset _ h.columns.subset

theorem extends_withColumn {column : κ} : t.Extends (t.withColumn column) :=
  ⟨List.prefix_append _ _, List.prefix_rfl, Nat.le_refl _⟩

@[simp] theorem names_withColumn {column : κ} : (t.withColumn column).names = t.names ++ [column] := by
  simp [names, withColumn]

end Table

namespace Tables

variable {κ ν : Type*}

/-- `db'` has all tables of `db` with all their columns and rows. -/
def Extends (db db' : Tables κ ν) : Prop :=
  ∀ name t, db.table name = some t → ∃ t', db'.table name = some t' ∧ t.Extends t'

theorem Extends.refl (db : Tables κ ν) : db.Extends db := fun _ t h => ⟨t, h, .refl t⟩

theorem Extends.trans {db db' db'' : Tables κ ν} (h : db.Extends db')
    (h' : db'.Extends db'') : db.Extends db'' := by
  intro name t ht
  obtain ⟨t', ht', hext⟩ := h name t ht
  obtain ⟨t'', ht'', hext'⟩ := h' name t' ht'
  exact ⟨t'', ht'', hext.trans hext'⟩

/-- An `INSERT` can be prepared: its table is there with the columns it names. -/
def Prepares (db : Tables κ ν) (table : κ) (columns : List κ) : Prop :=
  ∃ t, db.table table = some t ∧ ∀ c ∈ columns, c ∈ t.names

theorem Prepares.mono {db db' : Tables κ ν} {table : κ} {columns : List κ} (h : db.Prepares table columns)
    (hext : db.Extends db') : db'.Prepares table columns := by
  obtain ⟨t, ht, hc⟩ := h
  obtain ⟨t', ht', htext⟩ := hext table t ht
  exact ⟨t', ht', fun c hmem => htext.names (hc c hmem)⟩

theorem Prepares.append_all {db : Tables κ ν} {table : κ} {columns : List κ}
    (h : db.Prepares table columns) (columns' : List κ) (h' : ∀ c ∈ columns', db.Prepares table [c]) :
    db.Prepares table (columns ++ columns') := by
  obtain ⟨t, ht, hc⟩ := h
  refine ⟨t, ht, fun c hmem => ?_⟩
  rcases List.mem_append.mp hmem with hmem | hmem
  · exact hc c hmem
  · obtain ⟨t', ht', hc'⟩ := h' c hmem
    obtain rfl := Option.some.inj (ht.symm.trans ht')
    exact hc' c (List.mem_singleton.mpr rfl)

theorem Prepares.subset {db : Tables κ ν} {table : κ} {columns columns' : List κ}
    (h : db.Prepares table columns) (hsub : columns' ⊆ columns) : db.Prepares table columns' := by
  obtain ⟨t, ht, hc⟩ := h
  exact ⟨t, ht, fun c hmem => hc c (hsub hmem)⟩

variable [DecidableEq κ] (db : Tables κ ν)

def empty : Tables κ ν := ⟨fun _ => none, []⟩

def set (name : κ) (t : Table κ ν) : Tables κ ν :=
  { db with table := fun n => if n = name then some t else db.table n }

/-- The rows of a table, where it is there. -/
def rows (name : κ) : List (Row κ ν) :=
  match db.table name with
  | some t => t.rows
  | none => []

/-- A statement on the schema; `none` where the store refuses it. -/
def run : Statement κ → Option (Tables κ ν)
  | .pragma => some db
  | .createTable name columns =>
    match db.table name with
    | some _ => some db
    | none => some (db.set name (.new columns))
  | .addColumn table column =>
    match db.table table with
    | some t => if column ∈ t.names then none else some (db.set table (t.withColumn column))
    | none => none
  | .createIndex name table column =>
    if name ∈ db.indexes then some db
    else
      match db.table table with
      | some t => if column ∈ t.names then some { db with indexes := db.indexes ++ [name] } else none
      | none => none

instance {table : κ} {columns : List κ} : Decidable (db.Prepares table columns) :=
  match h : db.table table with
  | some t => decidable_of_iff (∀ c ∈ columns, c ∈ t.names)
      ⟨fun hc => ⟨t, h, hc⟩, fun ⟨t', ht', hc⟩ => by
        rw [h] at ht'
        cases ht'
        exact hc⟩
  | none => .isFalse fun ⟨t', ht', _⟩ => by
      rw [h] at ht'
      cases ht'

/-- What a row of these values holds in a column. -/
def cellOf (values : List (κ × Option ν)) (column : κ) : Option ν := (values.lookup column).getD none

/-- `INSERT INTO`, with the key of the new row; `none` where the store refuses it. -/
def insert (table : κ) (values : List (κ × Option ν)) : Option (Nat × Tables κ ν) :=
  match db.table table with
  | none => none
  | some t =>
    if (∀ c ∈ values.map Prod.fst, c ∈ t.names) ∧
        ∀ c ∈ t.columns, c.notNull = true → (cellOf values c.name).isSome = true then
      some (t.sequence + 1, db.set table (t.withRow (cellOf values)))
    else none

variable {db} {db' db'' : Tables κ ν}

@[simp] theorem table_set {name : κ} {t : Table κ ν} : (db.set name t).table name = some t := if_pos rfl

@[simp] theorem table_set_of_ne {name n : κ} {t : Table κ ν} (h : n ≠ name) :
    (db.set name t).table n = db.table n := if_neg h

@[simp] theorem indexes_set {name : κ} {t : Table κ ν} : (db.set name t).indexes = db.indexes := rfl

theorem extends_set {name : κ} {t : Table κ ν} (h : ∀ t₀, db.table name = some t₀ → t₀.Extends t) :
    db.Extends (db.set name t) := by
  intro n t₀ ht₀
  by_cases hn : n = name
  · subst hn
    exact ⟨t, table_set, h t₀ ht₀⟩
  · exact ⟨t₀, (table_set_of_ne hn).trans ht₀, .refl t₀⟩

/-! ## Statements -/

theorem run_createTable_old {name : κ} {columns : List (Column κ)} {t : Table κ ν}
    (h : db.table name = some t) : db.run (.createTable name columns) = some db := by
  simp only [run, h]

theorem run_createTable_new {name : κ} {columns : List (Column κ)} (h : db.table name = none) :
    db.run (.createTable name columns) = some (db.set name (.new columns)) := by
  simp only [run, h]

theorem run_addColumn_old {table column : κ} {t : Table κ ν} (h : db.table table = some t)
    (hmem : column ∈ t.names) : db.run (.addColumn table column) = none := by
  simp only [run, h, hmem, if_true]

theorem run_addColumn_new {table column : κ} {t : Table κ ν} (h : db.table table = some t)
    (hmem : column ∉ t.names) :
    db.run (.addColumn table column) = some (db.set table (t.withColumn column)) := by
  simp only [run, h, hmem, if_false]

/-- An index needs its column, if it is not there yet. -/
theorem run_createIndex {name table column : κ} :
    db.run (.createIndex name table column) =
      if name ∈ db.indexes then some db
      else if db.Prepares table [column] then some { db with indexes := db.indexes ++ [name] }
      else none := by
  unfold run
  by_cases hname : name ∈ db.indexes
  · simp only [hname, if_true]
  · simp only [hname, if_false]
    cases h : db.table table with
    | none => simp [Prepares, h]
    | some t => simp [Prepares, h]

/-- A table is made or left as it is. -/
theorem exists_createTable (db : Tables κ ν) (name : κ) (columns : List (Column κ)) (needed : List κ)
    (hold : ∀ t, db.table name = some t → needed ⊆ t.names) (hnew : needed ⊆ columns.map Column.name) :
    ∃ db', db.run (.createTable name columns) = some db' ∧ db'.Prepares name needed ∧
      (∀ n, n ≠ name → db'.table n = db.table n) ∧ db'.indexes = db.indexes := by
  cases hname : db.table name with
  | some t =>
    exact ⟨db, run_createTable_old hname, ⟨t, hname, fun c hc => hold t hname hc⟩, fun _ _ => rfl, rfl⟩
  | none =>
    exact ⟨_, run_createTable_new hname, ⟨_, table_set, fun c hc => hnew hc⟩,
      fun n hn => table_set_of_ne hn, rfl⟩

/-- An index is made on a column that is there, or is left as it is. -/
theorem exists_createIndex (name : κ) {table column : κ} (h : db.Prepares table [column]) :
    ∃ db', db.run (.createIndex name table column) = some db' ∧ db'.table = db.table ∧
      name ∈ db'.indexes ∧ db.indexes ⊆ db'.indexes := by
  rw [run_createIndex]
  by_cases hname : name ∈ db.indexes
  · exact ⟨db, if_pos hname, rfl, hname, fun _ h => h⟩
  · refine ⟨_, (if_neg hname).trans (if_pos h), rfl, ?_, List.subset_append_left _ _⟩
    exact List.mem_append_right _ (List.mem_singleton.mpr rfl)

/-- After an attempt to add a column to a table, it has the column. -/
theorem prepares_addColumn {table column : κ} {columns : List κ} (h : db.Prepares table columns) :
    ((db.run (.addColumn table column)).getD db).Prepares table [column] := by
  obtain ⟨t, ht, _⟩ := h
  by_cases hmem : column ∈ t.names
  · rw [run_addColumn_old ht hmem]
    exact ⟨t, ht, by simpa using hmem⟩
  · rw [run_addColumn_new ht hmem]
    exact ⟨_, table_set, by simp⟩

/-- A column that is there is not added again. -/
theorem addColumn_unchanged {table column : κ} (h : db.Prepares table [column]) :
    (db.run (.addColumn table column)).getD db = db := by
  obtain ⟨t, ht, hmem⟩ := h
  rw [run_addColumn_old ht (hmem column (List.mem_singleton.mpr rfl))]
  rfl

theorem indexes_addColumn {table column : κ} :
    ((db.run (.addColumn table column)).getD db).indexes = db.indexes := by
  cases h : db.table table with
  | none => simp [run, h]
  | some t =>
    by_cases hmem : column ∈ t.names
    · rw [run_addColumn_old h hmem]
      rfl
    · rw [run_addColumn_new h hmem]
      rfl

/-- **No statement takes anything away.** -/
theorem extends_run {s : Statement κ} (h : db.run s = some db') : db.Extends db' := by
  cases s with
  | pragma =>
    obtain rfl := Option.some.inj h
    exact .refl db
  | createTable name columns =>
    cases hname : db.table name with
    | some t =>
      rw [run_createTable_old hname] at h
      obtain rfl := Option.some.inj h
      exact .refl db
    | none =>
      rw [run_createTable_new hname] at h
      obtain rfl := Option.some.inj h
      exact extends_set fun t₀ ht₀ => by
        rw [hname] at ht₀
        cases ht₀
  | addColumn table column =>
    cases htable : db.table table with
    | none => simp [run, htable] at h
    | some t =>
      by_cases hmem : column ∈ t.names
      · rw [run_addColumn_old htable hmem] at h
        cases h
      · rw [run_addColumn_new htable hmem] at h
        obtain rfl := Option.some.inj h
        exact extends_set fun t₀ ht₀ => by
          obtain rfl := Option.some.inj (htable.symm.trans ht₀)
          exact Table.extends_withColumn
  | createIndex name table column =>
    rw [run_createIndex] at h
    split at h
    · obtain rfl := Option.some.inj h
      exact .refl db
    · split at h
      · obtain rfl := Option.some.inj h
        exact fun n t ht => ⟨t, ht, .refl t⟩
      · cases h

/-- A table that was not there was made by the statement. -/
theorem made_by_run {s : Statement κ} {name : κ} {t : Table κ ν} (h : db.run s = some db')
    (hnone : db.table name = none) (ht : db'.table name = some t) :
    ∃ columns, s = .createTable name columns ∧ t = .new columns := by
  cases s with
  | pragma =>
    obtain rfl := Option.some.inj h
    rw [hnone] at ht
    cases ht
  | createTable n columns =>
    cases hn : db.table n with
    | some t₀ =>
      rw [run_createTable_old hn] at h
      obtain rfl := Option.some.inj h
      rw [hnone] at ht
      cases ht
    | none =>
      rw [run_createTable_new hn] at h
      obtain rfl := Option.some.inj h
      by_cases hname : name = n
      · subst hname
        rw [table_set] at ht
        exact ⟨columns, rfl, (Option.some.inj ht).symm⟩
      · rw [table_set_of_ne hname, hnone] at ht
        cases ht
  | addColumn table column =>
    cases htable : db.table table with
    | none => simp [run, htable] at h
    | some t₀ =>
      by_cases hmem : column ∈ t₀.names
      · rw [run_addColumn_old htable hmem] at h
        cases h
      · rw [run_addColumn_new htable hmem] at h
        obtain rfl := Option.some.inj h
        have hname : name ≠ table := fun he => by
          rw [he, htable] at hnone
          cases hnone
        rw [table_set_of_ne hname, hnone] at ht
        cases ht
  | createIndex n table column =>
    rw [run_createIndex] at h
    split at h
    · obtain rfl := Option.some.inj h
      rw [hnone] at ht
      cases ht
    · split at h
      · obtain rfl := Option.some.inj h
        have ht : db.table name = some t := ht
        rw [hnone] at ht
        cases ht
      · cases h

theorem extends_run_getD {s : Statement κ} : db.Extends ((db.run s).getD db) := by
  cases h : db.run s with
  | none => exact .refl db
  | some db' => exact extends_run h

/-- Statements one after the other; one that is refused is skipped. -/
def runEach (db : Tables κ ν) : List (Statement κ) → Tables κ ν
  | [] => db
  | s :: rest => ((db.run s).getD db).runEach rest

theorem runEach_eq {s : Statement κ} {rest : List (Statement κ)} :
    db.runEach (s :: rest) = ((db.run s).getD db).runEach rest := rfl

theorem extends_runEach {statements : List (Statement κ)} : db.Extends (db.runEach statements) := by
  induction statements generalizing db with
  | nil => exact .refl db
  | cons s rest ih => exact extends_run_getD.trans ih

/-- Columns added to tables that are there: each table has its column at the end. -/
theorem prepares_runEach (db : Tables κ ν) (columns : List (κ × κ))
    (h : ∀ c ∈ columns, ∃ others, db.Prepares c.1 others) :
    (db.runEach (columns.map fun c => .addColumn c.1 c.2)).indexes = db.indexes ∧
      ∀ c ∈ columns, (db.runEach (columns.map fun c => .addColumn c.1 c.2)).Prepares c.1 [c.2] := by
  induction columns generalizing db with
  | nil => exact ⟨rfl, fun _ hc => by cases hc⟩
  | cons c rest ih =>
    rw [List.forall_mem_cons] at h
    obtain ⟨others, hothers⟩ := h.1
    rw [List.map_cons, runEach_eq]
    obtain ⟨hindexes, hadded⟩ := @ih ((db.run (.addColumn c.1 c.2)).getD db) fun c' hc' => by
      obtain ⟨others', hothers'⟩ := h.2 c' hc'
      exact ⟨others', hothers'.mono extends_run_getD⟩
    refine ⟨hindexes.trans indexes_addColumn, List.forall_mem_cons.mpr ⟨?_, hadded⟩⟩
    exact (prepares_addColumn hothers).mono extends_runEach

/-- Statements that all change nothing. -/
theorem runEach_eq_self {statements : List (Statement κ)}
    (h : ∀ s ∈ statements, (db.run s).getD db = db) : db.runEach statements = db := by
  induction statements with
  | nil => rfl
  | cons s rest ih =>
    rw [List.forall_mem_cons] at h
    rw [runEach_eq, h.1, ih h.2]

/-! ## Rows -/

/-- What an insert does: one row more in its table, under a new key. -/
theorem insert_eq_some {table : κ} {values : List (κ × Option ν)} {key : Nat}
    (h : db.insert table values = some (key, db')) : ∃ t, db.table table = some t ∧
      key = t.sequence + 1 ∧ db' = db.set table (t.withRow (cellOf values)) := by
  unfold insert at h
  split at h
  · cases h
  · next t ht =>
    split at h
    · obtain ⟨rfl, rfl⟩ := Prod.mk.inj (Option.some.inj h)
      exact ⟨t, ht, rfl, rfl⟩
    · cases h

/-- What an insert does to the rows of the tables. -/
theorem rows_insert {table name : κ} {values : List (κ × Option ν)} {key : Nat}
    (h : db.insert table values = some (key, db')) :
    db'.rows name = if name = table then db.rows name ++ [⟨key, cellOf values⟩] else db.rows name := by
  obtain ⟨t, ht, rfl, rfl⟩ := insert_eq_some h
  by_cases hname : name = table
  · subst hname
    simp only [rows, table_set, ht, if_true]
    rfl
  · simp only [rows, table_set_of_ne hname, if_neg hname]

/-- No statement on the schema makes a row or changes one. -/
theorem rows_run {s : Statement κ} {name : κ} (h : db.run s = some db') : db'.rows name = db.rows name := by
  cases s with
  | pragma =>
    obtain rfl := Option.some.inj h
    rfl
  | createTable n columns =>
    cases hn : db.table n with
    | some t =>
      rw [run_createTable_old hn] at h
      obtain rfl := Option.some.inj h
      rfl
    | none =>
      rw [run_createTable_new hn] at h
      obtain rfl := Option.some.inj h
      by_cases hname : name = n
      · subst hname
        simp only [rows, table_set, hn]
        rfl
      · simp only [rows, table_set_of_ne hname]
  | addColumn table column =>
    cases ht : db.table table with
    | none => simp [run, ht] at h
    | some t =>
      by_cases hmem : column ∈ t.names
      · rw [run_addColumn_old ht hmem] at h
        cases h
      · rw [run_addColumn_new ht hmem] at h
        obtain rfl := Option.some.inj h
        by_cases hname : name = table
        · subst hname
          simp only [rows, table_set, ht]
          rfl
        · simp only [rows, table_set_of_ne hname]
  | createIndex n table column =>
    rw [run_createIndex] at h
    split at h
    · obtain rfl := Option.some.inj h
      rfl
    · split at h
      · obtain rfl := Option.some.inj h
        rfl
      · cases h

end Tables
