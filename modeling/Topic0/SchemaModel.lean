import Mathlib.Tactic

/-! The typed-table schema between the ABI and the database: logical column types, columns and
tables, and the one mapping of column types to Postgres that the writer of DDL and the reader
share. -/

namespace Topic0

/-- Logical column types. -/
inductive ColumnType where
  | address
  | uint (bits : Nat)
  | int (bits : Nat)
  | bool
  | bytes
  | utf8
  | json
  | int64
  | timestamp
  deriving DecidableEq, Repr

/-- One decoded column. `indexedHash` marks an indexed dynamic parameter, of which only the hash is
stored. -/
structure ColumnDef where
  name : String
  ty : ColumnType
  indexedHash : Bool
  deriving DecidableEq, Repr

/-- A typed table: routing selector, columns and primary key. -/
structure EventSchema where
  table : String
  event : String
  topic0 : Option String
  columns : List ColumnDef
  indexedPositions : List Nat
  pkColumns : List String
  deriving DecidableEq, Repr

/-- Standard primary key of an event table. -/
def EventSchema.eventPk : List String := ["chain_id", "height", "idx"]

/-- Column types of the database: those the indexer declares, with `numeric` for `numeric(78,0)`,
and whatever else a live column may have. -/
inductive PgType where
  | bytea
  | numeric
  | boolean
  | text
  | jsonb
  | bigint
  | timestamptz
  | other (name : String)
  deriving DecidableEq, Repr

/-- `pg_type`: the DDL type of a column. -/
def pgType : ColumnType → PgType
  | .address | .bytes => .bytea
  | .uint _ | .int _ => .numeric
  | .bool => .boolean
  | .utf8 => .text
  | .json => .jsonb
  | .int64 => .bigint
  | .timestamp => .timestamptz

end Topic0
