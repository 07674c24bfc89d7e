import Topic0.BaseScript
import Topic0.BaseTable
import Topic0.MigratorDdl

/-! Planning and applying a migration against a live database. Every statement is guarded, so what
is there already stays as it is: a table keeps its columns and a column its type, whoever came
first. No plan is ever marked destructive. The migration therefore delivers the desired schemas
exactly when each desired column is the first comer of its name, and a difference it cannot deliver
is not refused. -/

namespace Topic0

open Keyed

/-- The columns of a table, by name. -/
abbrev Columns := Table (fun column : String × PgType => column.1)

/-- What a name of the schema `public` stands for. -/
inductive Relation where
  | table (columns : Columns)
  | view (columns : Columns)
  /-- An index or a sequence. -/
  | other

/-- A live database: its relations, and whether it has a constraint named `receipts_tx_fk`. -/
structure Catalog where
  relation : String → Option Relation
  receiptsTxFk : Bool

/-- What the database decides: how it reads a name standing bare in a statement, where it may name
no relation of `public`, and one standing between double quotes; and what it refuses for reasons
beyond the catalog, such as permissions or the rows of a table. -/
structure Database where
  relationName : String → Option String
  columnName : String → Option String
  permits : Catalog → Statement → Bool

namespace Relation

/-- `ADD COLUMN IF NOT EXISTS`. -/
def add (column : String × PgType) : Relation → Relation
  | .table columns => .table (columns.insertIgnore column)
  | r => r

def addAll (columns : List (String × PgType)) (r : Relation) : Relation :=
  columns.foldl (fun r column => r.add column) r

end Relation

namespace Catalog

/-- A name is taken only when it is free. -/
def introduce (c : Catalog) (name : String) (r : Relation) : Catalog :=
  { c with relation := Function.update c.relation name ((c.relation name).or (some r)) }

def alter (c : Catalog) (name : String) (f : Relation → Relation) : Catalog :=
  { c with relation := Function.update c.relation name ((c.relation name).map f) }

/-- The columns of a table; nothing else has any here. -/
def columns (c : Catalog) (name : String) : Option Columns :=
  match c.relation name with
  | some (.table columns) => some columns
  | _ => none

/-- Listed in `information_schema.tables`, which lists views too. -/
def tableExists (c : Catalog) (name : String) : Bool :=
  match c.relation name with
  | some (.table _) | some (.view _) => true
  | _ => false

end Catalog

namespace Database

variable (db : Database)

def declared (column : DeclaredColumn) : Option (String × PgType) :=
  (db.columnName column.name).map fun name => (name, column.ty)

/-- A table with the given columns, which have to be distinct. -/
def newTable (columns : List DeclaredColumn) : Option Relation :=
  (columns.mapM db.declared).bind fun columns =>
    if h : (columns.map fun column => column.1).Nodup then some (.table ⟨columns, h⟩) else none

def hasColumn (columns : Columns) (name : String) : Bool :=
  (db.columnName name).any fun name => (columns.find? name).isSome

/-- A guarded foreign key from `receipts` to `transactions`. -/
def addForeignKey (c : Catalog) : Except String Catalog :=
  if c.receiptsTxFk then .ok c
  else
    match c.columns receiptsTable, c.columns transactionsTable with
    | some receipts, some transactions =>
        if (["chain_id", "tx_id"].all fun name =>
            db.hasColumn receipts name && db.hasColumn transactions name) then
          .ok { c with receiptsTxFk := true }
        else .error "column referenced in foreign key constraint does not exist"
    | _, _ => .error "relation does not exist"

/-- One statement. -/
def exec (c : Catalog) (stmt : Statement) : Except String Catalog :=
  if !db.permits c stmt then .error "statement refused"
  else
    match stmt with
    | .createTable table columns primaryKey =>
        match db.relationName table, columns.mapM db.declared with
        | some name, some _ =>
            if (c.relation name).isSome then .ok c
            else
              match db.newTable columns with
              | some (.table cols) =>
                  if primaryKey.all (db.hasColumn cols) then .ok (c.introduce name (.table cols))
                  else .error "column named in key does not exist"
              | _ => .error "column specified more than once"
        | _, _ => .error "syntax error"
    | .addColumn table column ty =>
        match db.relationName table, db.columnName column with
        | some name, some col =>
            match c.columns name with
            | some _ => .ok (c.alter name (Relation.add (col, ty)))
            | none => .error "relation does not exist"
        | _, _ => .error "syntax error"
    | .createIndex index table columns includes =>
        match db.relationName index, db.relationName table with
        | some index, some name =>
            match c.columns name with
            | some cols =>
                if (columns ++ includes).all (db.hasColumn cols) then .ok (c.introduce index .other)
                else .error "column does not exist"
            | none => .error "relation does not exist"
        | _, _ => .error "syntax error"
    | .receiptsForeignKey => db.addForeignKey c

end Database

/-- A planned schema change. -/
structure SchemaPlan where
  summary : List String
  statements : List Statement
  destructive : Bool

namespace Migrator

/-- `plan`: all guarded DDL of every desired schema. -/
def plan (live : Catalog) (desired : List EventSchema) : SchemaPlan :=
  desired.foldl
    (fun plan schema =>
      { plan with
        summary := if live.tableExists schema.table then plan.summary
          else plan.summary ++ ["CREATE TABLE " ++ schema.table]
        statements := plan.statements ++ Ddl.tableStatements schema })
    ⟨[], [], false⟩

def destructiveError : DomainError :=
  .schema "plan contains destructive changes; rerun with --allow-destructive"

/-- `apply`, with the catalog it leaves. -/
def apply (db : Database) (plan : SchemaPlan) (allowDestructive : Bool) (c : Catalog) :
    Catalog × Except DomainError Unit :=
  if plan.destructive && !allowDestructive then (c, .error destructiveError)
  else
    let result := Script.run db.exec plan.statements c
    (result.1, result.2.mapError fun message => .schema ("database error: " ++ message))

end Migrator

section Effect

variable {db : Database} {c c' : Catalog} {stmt : Statement}

/-- The relation a statement brings under a name. -/
def Database.introduces (db : Database) (n : String) : Statement → Option Relation
  | .createTable table columns _ => if db.relationName table = some n then db.newTable columns else none
  | .createIndex index _ _ _ => if db.relationName index = some n then some .other else none
  | _ => none

/-- The column a statement adds to a name. -/
def Database.adds (db : Database) (n : String) : Statement → Option (String × PgType)
  | .addColumn table column ty =>
      if db.relationName table = some n then (db.columnName column).map fun col => (col, ty) else none
  | _ => none

/-- What executing a statement can do, by kind. -/
theorem exec_cases (h : db.exec c stmt = .ok c') :
    match stmt with
    | .createTable table columns _ => ∃ name, db.relationName table = some name ∧
        ((c.relation name).isSome ∧ c' = c ∨ c.relation name = none ∧
          ∃ r, db.newTable columns = some r ∧ c' = c.introduce name r)
    | .addColumn table column ty => ∃ name col cols, db.relationName table = some name ∧
        db.columnName column = some col ∧ c.relation name = some (.table cols) ∧
        c' = c.alter name (Relation.add (col, ty))
    | .createIndex index _ _ _ => ∃ name, db.relationName index = some name ∧
        c' = c.introduce name .other
    | .receiptsForeignKey => c' = { c with receiptsTxFk := true } := by
  unfold Database.exec at h
  split at h
  · cases h
  · cases stmt with
    | createTable table columns primaryKey =>
        simp only at h
        split at h
        · rename_i name _ hname _
          refine ⟨name, hname, ?_⟩
          split at h
          · rename_i hsome
            cases h
            exact .inl ⟨hsome, rfl⟩
          · rename_i hnone
            rw [Option.not_isSome_iff_eq_none] at hnone
            split at h
            · rename_i cols hnew
              split at h
              · cases h
                exact .inr ⟨hnone, _, hnew, rfl⟩
              · cases h
            · cases h
        · cases h
    | addColumn table column ty =>
        simp only at h
        split at h
        · rename_i name col hname hcol
          split at h
          · rename_i cols hcols
            cases h
            refine ⟨name, col, cols, hname, hcol, ?_, rfl⟩
            unfold Catalog.columns at hcols
            split at hcols
            · cases hcols
              assumption
            · cases hcols
          · cases h
        · cases h
    | createIndex index table columns includes =>
        simp only at h
        split at h
        · rename_i name _ hname _
          split at h
          · split at h
            · cases h
              exact ⟨name, hname, rfl⟩
            · cases h
          · cases h
        · cases h
    | receiptsForeignKey =>
        simp only [Database.addForeignKey] at h
        split at h
        · rename_i hfk
          cases h
          show c = { c with receiptsTxFk := true }
          rw [← hfk]
        · split at h
          · split at h
            · cases h
              rfl
            · cases h
          · cases h

@[simp] theorem relation_introduce (name : String) (r : Relation) (n : String) :
    (c.introduce name r).relation n =
      (c.relation n).or (if name = n then some r else none) := by
  unfold Catalog.introduce
  by_cases hn : name = n
  · subst hn
    simp
  · simp [Function.update_of_ne (Ne.symm hn), hn]

@[simp] theorem relation_alter (name : String) (f : Relation → Relation) (n : String) :
    (c.alter name f).relation n = if name = n then (c.relation n).map f else c.relation n := by
  unfold Catalog.alter
  by_cases hn : name = n
  · subst hn
    simp
  · simp [Function.update_of_ne (Ne.symm hn), hn]

@[simp] theorem addAll_nil : Relation.addAll [] = id := rfl

theorem addAll_table (columns : List (String × PgType)) (cols : Columns) :
    (Relation.table cols).addAll columns = .table (cols.insertAll columns) := by
  induction columns generalizing cols with
  | nil => rfl
  | cons column columns ih => exact ih (cols.insertIgnore column)

theorem addAll_eq_table {columns : List (String × PgType)} {r : Relation} {cols : Columns} :
    r.addAll columns = .table cols ↔ ∃ base, r = .table base ∧ cols = base.insertAll columns := by
  have hother : ∀ r : Relation, (∀ column, r.add column = r) → r.addAll columns = r := by
    intro r hr
    induction columns with
    | nil => rfl
    | cons column columns ih =>
        show (r.add column).addAll columns = r
        rw [hr, ih]
  cases r with
  | table base =>
      rw [addAll_table]
      constructor
      · intro h
        cases h
        exact ⟨base, rfl, rfl⟩
      · intro ⟨base', hbase, hcols⟩
        cases hbase
        rw [hcols]
  | view columns' =>
      rw [hother (.view columns') fun _ => rfl]
      constructor
      · exact nofun
      · intro ⟨_, hbase, _⟩
        cases hbase
  | other =>
      rw [hother .other fun _ => rfl]
      constructor
      · exact nofun
      · intro ⟨_, hbase, _⟩
        cases hbase

/-- The relation under a name after a statement: what was there, else what the statement introduces,
with the column it adds. -/
theorem relation_exec (h : db.exec c stmt = .ok c') (n : String) :
    c'.relation n = ((c.relation n).or (db.introduces n stmt)).map
        (Relation.addAll (db.adds n stmt).toList) ∧
      ((db.adds n stmt).isSome → (c.relation n).isSome) := by
  have hcases := exec_cases h
  cases stmt with
  | createTable table columns primaryKey =>
      obtain ⟨name, hname, ⟨hsome, rfl⟩ | ⟨hnone, r, hnew, rfl⟩⟩ := hcases
      · refine ⟨?_, nofun⟩
        obtain ⟨r, hr⟩ := Option.isSome_iff_exists.mp hsome
        by_cases hn : name = n
        · subst hn
          simp [Database.adds, hr]
        · simp [Database.introduces, Database.adds, hname, hn]
      · refine ⟨?_, nofun⟩
        simp [Database.introduces, Database.adds, hname, hnew]
  | addColumn table column ty =>
      obtain ⟨name, col, cols, hname, hcol, hrel, rfl⟩ := hcases
      by_cases hn : name = n
      · subst hn
        simp [Database.introduces, Database.adds, hname, hcol, hrel, Relation.addAll]
      · simp [Database.introduces, Database.adds, hname, hn]
  | createIndex index table columns includes =>
      obtain ⟨name, hname, rfl⟩ := hcases
      refine ⟨?_, nofun⟩
      simp [Database.introduces, Database.adds, hname]
  | receiptsForeignKey =>
      have hc : c' = { c with receiptsTxFk := true } := hcases
      refine ⟨?_, nofun⟩
      rw [hc]
      simp [Database.introduces, Database.adds]

/-- The relation under a name after a script: the first comer, with every column added to it. -/
theorem relation_run (stmts : List Statement) (h : (Script.run db.exec stmts c).2 = .ok ())
    (n : String) :
    (Script.run db.exec stmts c).1.relation n =
      ((c.relation n).or (stmts.findSome? (db.introduces n))).map
        (Relation.addAll (stmts.filterMap (db.adds n))) := by
  induction stmts generalizing c with
  | nil => simp [Script.run]
  | cons stmt stmts ih =>
      obtain ⟨next, hexec, hrun⟩ := Script.exists_of_run_cons h
      rw [hrun] at h ⊢
      obtain ⟨hrel, hadds⟩ := relation_exec hexec n
      have hintroduces : (stmt :: stmts).findSome? (db.introduces n) =
          (db.introduces n stmt).or (stmts.findSome? (db.introduces n)) := by
        cases hnew : db.introduces n stmt with
        | none => simp [hnew]
        | some r => simp [hnew]
      rw [ih h, hrel, hintroduces, ← Option.or_assoc, List.filterMap_cons]
      cases hfirst : (c.relation n).or (db.introduces n stmt) with
      | none =>
          -- nothing is added to a name that is still free
          have hnone : db.adds n stmt = none := by
            rw [← Option.not_isSome_iff_eq_none]
            intro hsome
            have hthere := hadds hsome
            rw [(Option.or_eq_none_iff.mp hfirst).1] at hthere
            cases hthere
          rw [hnone]
          rfl
      | some r =>
          rw [Option.map_some, Option.some_or, Option.some_or, Option.map_some, Option.map_some]
          cases db.adds n stmt with
          | none => rfl
          | some column => rfl

theorem receiptsTxFk_exec (h : db.exec c stmt = .ok c') (hfk : c.receiptsTxFk = true) :
    c'.receiptsTxFk = true := by
  have hcases := exec_cases h
  cases stmt with
  | createTable table columns primaryKey =>
      obtain ⟨name, -, ⟨-, rfl⟩ | ⟨-, r, -, rfl⟩⟩ := hcases
      · exact hfk
      · exact hfk
  | addColumn table column ty =>
      obtain ⟨name, col, cols, -, -, -, rfl⟩ := hcases
      exact hfk
  | createIndex index table columns includes =>
      obtain ⟨name, -, rfl⟩ := hcases
      exact hfk
  | receiptsForeignKey =>
      have hc : c' = { c with receiptsTxFk := true } := hcases
      rw [hc]

end Effect

section Rerun

variable {db : Database}

/-- What a statement is for is there already. -/
def Database.Done (db : Database) (stmt : Statement) (c : Catalog) : Prop :=
  match stmt with
  | .createTable table _ _ => ∃ name r, db.relationName table = some name ∧ c.relation name = some r
  | .addColumn table column _ => ∃ name col cols, db.relationName table = some name ∧
      db.columnName column = some col ∧ c.relation name = some (.table cols) ∧
      ∃ x ∈ cols, x.1 = col
  | .createIndex index _ _ _ => ∃ name r, db.relationName index = some name ∧ c.relation name = some r
  | .receiptsForeignKey => c.receiptsTxFk = true

theorem done_exec (stmt : Statement) (c c' : Catalog) (h : db.exec c stmt = .ok c') :
    db.Done stmt c' := by
  have hcases := exec_cases h
  cases stmt with
  | createTable table columns primaryKey =>
      obtain ⟨name, hname, ⟨hsome, rfl⟩ | ⟨hnone, r, -, rfl⟩⟩ := hcases
      · obtain ⟨r, hr⟩ := Option.isSome_iff_exists.mp hsome
        exact ⟨name, r, hname, hr⟩
      · exact ⟨name, r, hname, by simp [hnone]⟩
  | addColumn table column ty =>
      obtain ⟨name, col, cols, hname, hcol, hrel, rfl⟩ := hcases
      have hkey : ∃ x ∈ cols.insertAll [(col, ty)], x.1 = col :=
        Table.exists_key_insertAll List.mem_cons_self
      exact ⟨name, col, cols.insertIgnore (col, ty), hname, hcol, by simp [hrel, Relation.add], hkey⟩
  | createIndex index table columns includes =>
      obtain ⟨name, hname, rfl⟩ := hcases
      cases hrel : c.relation name with
      | none => exact ⟨name, .other, hname, by simp [hrel]⟩
      | some r => exact ⟨name, r, hname, by simp [hrel]⟩
  | receiptsForeignKey =>
      have hc : c' = { c with receiptsTxFk := true } := hcases
      rw [hc]
      rfl

/-- No statement takes a relation or a column away. -/
theorem relation_kept {stmt : Statement} {c c' : Catalog} (h : db.exec c stmt = .ok c') {n : String}
    {r : Relation} (hr : c.relation n = some r) :
    c'.relation n = some (r.addAll (db.adds n stmt).toList) := by
  rw [(relation_exec h n).1, hr, Option.some_or, Option.map_some]

theorem done_kept (stmt other : Statement) (c c' : Catalog) (hdone : db.Done stmt c)
    (h : db.exec c other = .ok c') : db.Done stmt c' := by
  cases stmt with
  | createTable table columns primaryKey =>
      obtain ⟨name, r, hname, hr⟩ := hdone
      exact ⟨name, _, hname, relation_kept h hr⟩
  | addColumn table column ty =>
      obtain ⟨name, col, cols, hname, hcol, hrel, x, hx, hkey⟩ := hdone
      refine ⟨name, col, cols.insertAll (db.adds name other).toList, hname, hcol, ?_, x, ?_, hkey⟩
      · rw [relation_kept h hrel, addAll_table]
      · exact Table.mem_insertAll_of_mem _ hx
  | createIndex index table columns includes =>
      obtain ⟨name, r, hname, hr⟩ := hdone
      exact ⟨name, _, hname, relation_kept h hr⟩
  | receiptsForeignKey => exact receiptsTxFk_exec h hdone

theorem introduce_of_some {c : Catalog} {name : String} {r r' : Relation}
    (h : c.relation name = some r') : c.introduce name r = c := by
  unfold Catalog.introduce
  rw [h, Option.some_or, ← h, Function.update_eq_self]

theorem exec_of_done (stmt : Statement) (c c' : Catalog) (hdone : db.Done stmt c)
    (h : db.exec c stmt = .ok c') : c' = c := by
  have hcases := exec_cases h
  cases stmt with
  | createTable table columns primaryKey =>
      obtain ⟨name, r, hname, hr⟩ := hdone
      obtain ⟨name', hname', ⟨-, rfl⟩ | ⟨hnone, -⟩⟩ := hcases
      · rfl
      · rw [hname, Option.some.injEq] at hname'
        rw [← hname', hr] at hnone
        cases hnone
  | addColumn table column ty =>
      obtain ⟨name, col, cols, hname, hcol, hrel, hx⟩ := hdone
      obtain ⟨name', col', cols', hname', hcol', hrel', rfl⟩ := hcases
      rw [hname, Option.some.injEq] at hname'
      rw [hcol, Option.some.injEq] at hcol'
      subst hname' hcol'
      have hsame : cols.insertAll [(col, ty)] = cols :=
        Table.insertAll_eq_self (List.forall_mem_singleton.mpr hx)
      have hself : (c.relation name).map (Relation.add (col, ty)) = c.relation name := by
        rw [hrel, Option.map_some]
        exact congrArg (fun columns => some (Relation.table columns)) hsame
      unfold Catalog.alter
      rw [hself, Function.update_eq_self]
  | createIndex index table columns includes =>
      obtain ⟨name, r, hname, hr⟩ := hdone
      obtain ⟨name', hname', rfl⟩ := hcases
      rw [hname, Option.some.injEq] at hname'
      exact introduce_of_some (hname' ▸ hr)
  | receiptsForeignKey =>
      have hc : c' = { c with receiptsTxFk := true } := hcases
      have hfk : c.receiptsTxFk = true := hdone
      rw [hc, ← hfk]

end Rerun

end Topic0
