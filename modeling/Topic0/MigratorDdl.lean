import Topic0.SchemaModel
import Topic0.SharedModel

/-! The DDL of a typed table, statement by statement: create, add missing columns, indexes, foreign
keys. A statement stands for its SQL text; every one of them is guarded by `IF NOT EXISTS`. -/

namespace Topic0

/-- A column of a `CREATE TABLE`. -/
structure DeclaredColumn where
  name : String
  ty : PgType
  notNull : Bool
  deriving DecidableEq, Repr

inductive Statement where
  | createTable (table : String) (columns : List DeclaredColumn) (primaryKey : List String)
  | addColumn (table column : String) (ty : PgType)
  | createIndex (name table : String) (columns includes : List String)
  /-- The guarded `receipts_tx_fk` of the receipts to their transactions. -/
  | receiptsForeignKey
  deriving DecidableEq, Repr

namespace Ddl

/-- Declared key columns, else the standard ones. -/
def pk (schema : EventSchema) : List String :=
  if schema.pkColumns.isEmpty then EventSchema.eventPk else schema.pkColumns

/-- Columns every typed table is created with; the receipts have no `idx`. -/
def metaColumns (table : String) : List DeclaredColumn :=
  [⟨"chain_id", .bigint, true⟩, ⟨"height", .bigint, true⟩, ⟨"block_hash", .bytea, true⟩,
    ⟨"block_time", .timestamptz, false⟩, ⟨"tx_id", .bytea, true⟩] ++
  if tableHasIdx table then [⟨"idx", .bigint, true⟩] else []

def createTable (schema : EventSchema) : Statement :=
  .createTable schema.table
    (metaColumns schema.table ++ schema.columns.map fun c => ⟨c.name, pgType c.ty, false⟩) (pk schema)

def addColumns (schema : EventSchema) : List Statement :=
  schema.columns.map fun c => .addColumn schema.table c.name (pgType c.ty)

/-- The join key of the aux tables, unless the primary key leads with it, and one index for each
indexed parameter. -/
def createIndexes (schema : EventSchema) : List Statement :=
  let joinKey := if (pk schema)[0]? = some "chain_id" ∧ (pk schema)[1]? = some "tx_id" then []
    else [Statement.createIndex (schema.table ++ "_tx") schema.table ["chain_id", "tx_id"] []]
  joinKey ++ schema.indexedPositions.filterMap fun pos =>
    (schema.columns[pos]?).map fun c =>
      .createIndex (schema.table ++ "_" ++ c.name) schema.table ["chain_id", c.name, "height"] ["idx"]

def foreignKeys (schema : EventSchema) : List Statement :=
  if schema.table = receiptsTable then [.receiptsForeignKey] else []

/-- `table_statements`: all DDL of one table, in the order it is applied. -/
def tableStatements (schema : EventSchema) : List Statement :=
  createTable schema :: (addColumns schema ++ createIndexes schema ++ foreignKeys schema)

end Ddl

end Topic0
