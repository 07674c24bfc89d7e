import Topic0.MigratorApply

/-! What a migration that ended well delivers. A name belongs to whoever came first: the relation
that was live, else the first statement that introduces it; and in a table the column of a name that
was there, or came with the table, or was desired first. Whether the live database and the desired
schemas could be reconciled by additions alone is a separate matter, which the plan does not look
at. -/

namespace Topic0

open Keyed

namespace Migrator

/-- Every desired table is there with its columns in their types. -/
def Delivered (c : Catalog) (desired : List EventSchema) : Prop :=
  ∀ schema ∈ desired, ∃ columns, c.relation schema.table = some (.table columns) ∧
    ∀ col ∈ schema.columns, (col.name, pgType col.ty) ∈ columns

/-- The columns desired for a name, in the order of their schemas. -/
def desiredColumns (db : Database) (desired : List EventSchema) (n : String) :
    List (String × PgType) :=
  desired.flatMap fun schema =>
    if db.relationName schema.table = some n then
      schema.columns.filterMap fun col => (db.columnName col.name).map fun name => (name, pgType col.ty)
    else []

/-- Every desired table is a table by whoever takes its name first, and every desired column has the
type of the first column of its name. -/
def FirstComers (db : Database) (live : Catalog) (desired : List EventSchema) : Prop :=
  ∀ schema ∈ desired, ∃ columns : Columns,
    (live.relation schema.table).or
        ((desired.flatMap Ddl.tableStatements).findSome? (db.introduces schema.table)) =
      some (.table columns) ∧
    ∀ col ∈ schema.columns,
      (columns.find? col.name).or
          ((desiredColumns db desired schema.table).find? fun column => column.1 = col.name) =
        some (col.name, pgType col.ty)

section Plan

variable (live : Catalog) (desired : List EventSchema)

theorem plan_eq : (plan live desired).statements = desired.flatMap Ddl.tableStatements ∧
    (plan live desired).destructive = false := by
  have hfold : ∀ (start : SchemaPlan),
      let planned := desired.foldl
        (fun plan schema =>
          { plan with
            summary := if live.tableExists schema.table then plan.summary
              else plan.summary ++ ["CREATE TABLE " ++ schema.table]
            statements := plan.statements ++ Ddl.tableStatements schema }) start
      planned.statements = start.statements ++ desired.flatMap Ddl.tableStatements ∧
        planned.destructive = start.destructive := by
    induction desired with
    | nil => simp
    | cons schema desired ih =>
        intro start
        obtain ⟨hstatements, hdestructive⟩ := ih _
        refine ⟨hstatements.trans ?_, hdestructive⟩
        rw [List.flatMap_cons, List.append_assoc]
  exact hfold ⟨[], [], false⟩

/-- The plan is never refused: it runs, and fails only as its statements do. -/
theorem apply_plan (db : Database) (c : Catalog) :
    apply db (plan live desired) false c =
      ((Script.run db.exec (desired.flatMap Ddl.tableStatements) c).1,
        (Script.run db.exec (desired.flatMap Ddl.tableStatements) c).2.mapError fun message =>
          .schema ("database error: " ++ message)) := by
  obtain ⟨hstatements, hdestructive⟩ := plan_eq live desired
  rw [apply, hdestructive, Bool.false_and, if_neg (by decide), hstatements]

theorem run_of_apply {db : Database} {c : Catalog}
    (h : (apply db (plan live desired) false c).2 = .ok ()) :
    (Script.run db.exec (desired.flatMap Ddl.tableStatements) c).2 = .ok () := by
  rw [apply_plan] at h
  cases hrun : (Script.run db.exec (desired.flatMap Ddl.tableStatements) c).2 with
  | ok _ => rfl
  | error e =>
      rw [hrun] at h
      cases h

end Plan

/-- The plan adds to a name the columns desired for it. -/
theorem filterMap_adds (db : Database) (desired : List EventSchema) (n : String) :
    (desired.flatMap Ddl.tableStatements).filterMap (db.adds n) = desiredColumns db desired n := by
  have hnone : ∀ schema : EventSchema,
      (Ddl.createIndexes schema ++ Ddl.foreignKeys schema).filterMap (db.adds n) = [] := by
    intro schema
    rw [List.filterMap_eq_nil_iff]
    intro stmt hstmt
    rcases List.mem_append.mp hstmt with hindex | hkey
    · rcases List.mem_append.mp hindex with hjoin | hparam
      · split at hjoin
        · exact absurd hjoin List.not_mem_nil
        · rw [List.mem_singleton.mp hjoin]
          rfl
      · obtain ⟨pos, -, hpos⟩ := List.mem_filterMap.mp hparam
        obtain ⟨col, -, rfl⟩ := Option.map_eq_some_iff.mp hpos
        rfl
    · unfold Ddl.foreignKeys at hkey
      split at hkey
      · rw [List.mem_singleton.mp hkey]
        rfl
      · exact absurd hkey List.not_mem_nil
  unfold desiredColumns
  rw [List.filterMap_flatMap]
  congr 1
  funext schema
  rw [Ddl.tableStatements, List.append_assoc, List.filterMap_cons, List.filterMap_append, hnone,
    List.append_nil, Ddl.addColumns, List.filterMap_map]
  show List.filterMap (fun col : ColumnDef => db.adds n (.addColumn schema.table col.name (pgType col.ty)))
    schema.columns = _
  by_cases hname : db.relationName schema.table = some n
  · simp [Database.adds, hname]
  · simp [Database.adds, hname]

/-- A migration that ended well delivered exactly the first comers. -/
theorem delivered_iff {db : Database} {live : Catalog} {desired : List EventSchema}
    (h : (apply db (plan live desired) false live).2 = .ok ()) :
    Delivered (apply db (plan live desired) false live).1 desired ↔
      FirstComers db live desired := by
  have hrel := relation_run _ (run_of_apply live desired h)
  have hfind : ∀ (columns : Columns) (rows : List (String × PgType)) (column : String × PgType),
      column ∈ columns.insertAll rows ↔
        (columns.find? column.1).or (rows.find? fun row => row.1 = column.1) = some column := by
    intro columns rows column
    rw [← Table.find?_insertAll, Table.find?_eq_some, and_iff_left rfl]
  unfold Delivered FirstComers
  refine forall₂_congr fun schema _ => ?_
  rw [apply_plan]
  simp only [hrel, filterMap_adds]
  constructor
  · intro hdelivered
    obtain ⟨columns, hcolumns, hall⟩ := hdelivered
    obtain ⟨r, hr, hadd⟩ := Option.map_eq_some_iff.mp hcolumns
    obtain ⟨base, rfl, rfl⟩ := addAll_eq_table.mp hadd
    exact ⟨base, hr, fun col hcol => (hfind _ _ _).mp (hall col hcol)⟩
  · intro hfirst
    obtain ⟨base, hbase, hall⟩ := hfirst
    refine ⟨base.insertAll (desiredColumns db desired schema.table), ?_, fun col hcol => ?_⟩
    · rw [hbase, Option.map_some, addAll_table]
    · exact (hfind _ _ _).mpr (hall col hcol)

/-- Applying the plan again changes nothing. -/
theorem apply_again {db : Database} {live : Catalog} {desired : List EventSchema}
    (h : (apply db (plan live desired) false live).2 = .ok ()) :
    (apply db (plan live desired) false (apply db (plan live desired) false live).1).1 =
      (apply db (plan live desired) false live).1 := by
  have hagain := Script.run_again done_exec done_kept exec_of_done _ (run_of_apply live desired h)
  simp only [apply_plan]
  exact hagain

section Reconcile

/-- The same relation, or a table with more columns. -/
def Grows : Relation → Relation → Prop
  | .table columns, .table columns' => ∀ column ∈ columns, column ∈ columns'
  | .view columns, .view columns' => columns = columns'
  | .other, .other => True
  | _, _ => False

/-- Reached by additions: every relation is kept, and every column of every table. -/
def Extends (c c' : Catalog) : Prop :=
  ∀ n r, c.relation n = some r → ∃ r', c'.relation n = some r' ∧ Grows r r'

/-- Additions alone can deliver the desired schemas. -/
def Reconcilable (live : Catalog) (desired : List EventSchema) : Prop :=
  ∃ c, Extends live c ∧ Delivered c desired

/-- No desired table is something else than a table, no desired column is live with another type,
and no two schemas of one table desire one column with two types. -/
structure NoConflict (live : Catalog) (desired : List EventSchema) : Prop where
  tables : ∀ schema ∈ desired, ∀ r, live.relation schema.table = some r → ∃ columns, r = .table columns
  columns : ∀ schema ∈ desired, ∀ columns, live.relation schema.table = some (.table columns) →
    ∀ col ∈ schema.columns, ∀ ty, (col.name, ty) ∈ columns → ty = pgType col.ty
  desired : ∀ schema ∈ desired, ∀ schema' ∈ desired, schema.table = schema'.table →
    ∀ col ∈ schema.columns, ∀ col' ∈ schema'.columns, col.name = col'.name →
    pgType col.ty = pgType col'.ty

theorem Reconcilable.noConflict {live : Catalog} {desired : List EventSchema}
    (h : Reconcilable live desired) : NoConflict live desired := by
  obtain ⟨c, hextends, hdelivered⟩ := h
  have hgrown : ∀ schema ∈ desired, ∀ r, live.relation schema.table = some r →
      ∃ columns, c.relation schema.table = some (.table columns) ∧ Grows r (.table columns) ∧
        ∀ col ∈ schema.columns, (col.name, pgType col.ty) ∈ columns := by
    intro schema hschema r hr
    obtain ⟨columns, hcolumns, hall⟩ := hdelivered schema hschema
    obtain ⟨r', hr', hgrows⟩ := hextends _ r hr
    rw [hcolumns, Option.some.injEq] at hr'
    exact ⟨columns, hcolumns, hr' ▸ hgrows, hall⟩
  refine ⟨fun schema hschema r hr => ?_, fun schema hschema columns hcolumns col hcol ty hty => ?_,
    fun schema hschema schema' hschema' htable col hcol col' hcol' hname => ?_⟩
  · obtain ⟨columns, -, hgrows, -⟩ := hgrown schema hschema r hr
    cases r with
    | table columns' => exact ⟨columns', rfl⟩
    | view columns' => exact hgrows.elim
    | other => exact hgrows.elim
  · obtain ⟨columns', -, hgrows, hall⟩ := hgrown schema hschema _ hcolumns
    have hsame := Table.eq_of_key (hgrows _ hty) (hall col hcol) rfl
    exact (Prod.mk.injEq .. ▸ hsame).2
  · obtain ⟨columns, hcolumns, hall⟩ := hdelivered schema hschema
    obtain ⟨columns', hcolumns', hall'⟩ := hdelivered schema' hschema'
    rw [← htable, hcolumns] at hcolumns'
    cases hcolumns'
    have hsame := Table.eq_of_key (hall col hcol) (hall' col' hcol') hname
    exact (Prod.mk.injEq .. ▸ hsame).2

/-- All columns the schemas of a table desire. -/
def tableColumns (desired : List EventSchema) (n : String) : List (String × PgType) :=
  (desired.filter fun schema => schema.table = n).flatMap fun schema =>
    schema.columns.map fun col => (col.name, pgType col.ty)

theorem mem_tableColumns {desired : List EventSchema} {n : String} {column : String × PgType} :
    column ∈ tableColumns desired n ↔
      ∃ schema ∈ desired, schema.table = n ∧
        ∃ col ∈ schema.columns, (col.name, pgType col.ty) = column := by
  simp only [tableColumns, List.mem_flatMap, List.mem_filter, List.mem_map, decide_eq_true_eq,
    and_assoc]

/-- The live database with every desired column added. -/
def completed (live : Catalog) (desired : List EventSchema) : Catalog :=
  { live with
    relation := fun n =>
      if n ∈ desired.map EventSchema.table then
        some (.table (((live.columns n).getD Table.empty).insertAll (tableColumns desired n)))
      else live.relation n }

theorem NoConflict.reconcilable {live : Catalog} {desired : List EventSchema}
    (h : NoConflict live desired) : Reconcilable live desired := by
  refine ⟨completed live desired, fun n r hr => ?_, fun schema hschema => ?_⟩
  · by_cases hn : n ∈ desired.map EventSchema.table
    · obtain ⟨schema, hschema, rfl⟩ := List.mem_map.mp hn
      obtain ⟨columns, rfl⟩ := h.tables schema hschema r hr
      refine ⟨_, if_pos hn, fun column hcolumn => ?_⟩
      rw [Catalog.columns, hr]
      exact Table.mem_insertAll_of_mem _ hcolumn
    · refine ⟨r, (if_neg hn).trans hr, ?_⟩
      cases r with
      | table columns => exact fun _ hcolumn => hcolumn
      | view columns => rfl
      | other => trivial
  · refine ⟨_, if_pos (List.mem_map_of_mem hschema), fun col hcol => ?_⟩
    refine (Table.mem_insertAll ?_).mpr
      (.inr (mem_tableColumns.mpr ⟨schema, hschema, rfl, col, hcol, rfl⟩))
    intro column hcolumn x hx hkey
    obtain ⟨schema', hschema', htable', col', hcol', rfl⟩ := mem_tableColumns.mp hcolumn
    rcases hx with hx | hx
    · cases hlive : live.relation schema.table with
      | none =>
          rw [Catalog.columns, hlive] at hx
          exact absurd hx (Table.not_mem_empty x)
      | some r =>
          obtain ⟨columns, rfl⟩ := h.tables schema hschema r hlive
          rw [Catalog.columns, hlive] at hx
          have hmem : (col'.name, x.2) ∈ columns := by
            rw [← show x.1 = col'.name from hkey]
            exact hx
          have hty := h.columns schema' hschema' columns (htable' ▸ hlive) col' hcol' x.2 hmem
          exact Prod.ext hkey hty
    · obtain ⟨schema'', hschema'', htable'', col'', hcol'', rfl⟩ := mem_tableColumns.mp hx
      have hty := h.desired schema'' hschema'' schema' hschema' (htable''.trans htable'.symm)
        col'' hcol'' col' hcol' hkey
      exact Prod.ext hkey hty

end Reconcile

/-- A migration that ends well delivers the desired schemas exactly when they are first comers, and
can be run again for nothing. A difference that additions cannot bridge is refused exactly when
there is none. -/
theorem migration_delivers_iff_firstComers (db : Database) (live : Catalog)
    (desired : List EventSchema) :
    ((apply db (plan live desired) false live).2 = .ok () →
      (Delivered (apply db (plan live desired) false live).1 desired ↔
        FirstComers db live desired) ∧
      (apply db (plan live desired) false (apply db (plan live desired) false live).1).1 =
        (apply db (plan live desired) false live).1) ∧
    ((¬Reconcilable live desired → (plan live desired).destructive = true ∧
        (apply db (plan live desired) false live).2 = .error destructiveError) ↔
      NoConflict live desired) := by
  refine ⟨fun h => ⟨delivered_iff h, apply_again h⟩, ?_⟩
  constructor
  · intro hrefused
    by_contra hconflict
    obtain ⟨hdestructive, -⟩ := hrefused fun h => hconflict h.noConflict
    rw [(plan_eq live desired).2] at hdestructive
    cases hdestructive
  · intro hno hnot
    exact absurd hno.reconcilable hnot

/-- A database that reads identifiers as they are and refuses nothing. -/
def plainDb : Database where
  relationName name := if isValidIdent name then some name else none
  columnName name := if isValidIdent name then some name else none
  permits _ _ := true

/-- `Transfer(address indexed from, address indexed to, uint256 value)`. -/
def transferSchema : EventSchema where
  table := "evt_erc20_transfer"
  event := "Transfer"
  topic0 := some "0xddf2"
  columns := [⟨"from", .address, false⟩, ⟨"to", .address, false⟩, ⟨"value", .uint 256, false⟩]
  indexedPositions := [0, 1]
  pkColumns := EventSchema.eventPk

/-- A database without relations. -/
def emptyCatalog : Catalog := ⟨fun _ => none, false⟩

/-- The columns the transfers' table is created with. -/
def transferColumns : Columns where
  rows := [("chain_id", .bigint), ("height", .bigint), ("block_hash", .bytea),
    ("block_time", .timestamptz), ("tx_id", .bytea), ("idx", .bigint), ("from", .bytea),
    ("to", .bytea), ("value", .numeric)]
  nodup := by decide

theorem migration_delivers_transfer :
    (apply plainDb (plan emptyCatalog [transferSchema]) false emptyCatalog).2 = .ok () ∧
      Delivered (apply plainDb (plan emptyCatalog [transferSchema]) false emptyCatalog).1
        [transferSchema] := by
  have hok : (apply plainDb (plan emptyCatalog [transferSchema]) false emptyCatalog).2 = .ok () := by
    rfl
  refine ⟨hok, ((migration_delivers_iff_firstComers _ _ _).1 hok).1.mpr ?_⟩
  refine List.forall_mem_singleton.mpr ⟨transferColumns, rfl, ?_⟩
  decide

/-- The same table, left by a configuration where `value` was a text. -/
def oldColumns : Columns where
  rows := [("chain_id", .bigint), ("height", .bigint), ("block_hash", .bytea),
    ("block_time", .timestamptz), ("tx_id", .bytea), ("idx", .bigint), ("from", .bytea),
    ("to", .bytea), ("value", .text)]
  nodup := by decide

def oldCatalog : Catalog where
  relation name := if name = "evt_erc20_transfer" then some (.table oldColumns) else none
  receiptsTxFk := false

/-- The migration ends well and leaves the text, refusing nothing. -/
theorem not_delivered_changed_type :
    ¬∀ (db : Database) (live : Catalog) (desired : List EventSchema),
      ((apply db (plan live desired) false live).2 = .ok () →
        Delivered (apply db (plan live desired) false live).1 desired ∧
        (apply db (plan live desired) false (apply db (plan live desired) false live).1).1 =
          (apply db (plan live desired) false live).1) ∧
      (¬Reconcilable live desired → (plan live desired).destructive = true ∧
        (apply db (plan live desired) false live).2 = .error destructiveError) := by
  intro hevery
  have hok : (apply plainDb (plan oldCatalog [transferSchema]) false oldCatalog).2 = .ok () := by
    rfl
  have hdelivered := ((hevery plainDb oldCatalog [transferSchema]).1 hok).1
  obtain ⟨columns, hcolumns, hall⟩ :=
    (delivered_iff hok).mp hdelivered transferSchema List.mem_cons_self
  have hold : (oldCatalog.relation transferSchema.table).or
      (([transferSchema].flatMap Ddl.tableStatements).findSome?
        (plainDb.introduces transferSchema.table)) = some (.table oldColumns) := rfl
  rw [hold] at hcolumns
  cases hcolumns
  have hvalue := hall ⟨"value", .uint 256, false⟩ (by decide)
  exact absurd hvalue (by decide)

end Migrator

end Topic0
