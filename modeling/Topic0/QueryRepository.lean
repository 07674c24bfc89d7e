import Topic0.BaseDecimal
import Topic0.BaseKeyset
import Topic0.SchemaModel
import Topic0.StoreTables
import Mathlib.Data.Prod.Lex

/-! The read side: a query specification against one table, validated, bound and run as one `SELECT`
with optional joins of the aux tables, paged by a cursor over `(height, idx)`. How the database
compares a column with a bound value, and which texts it can cast, are parameters; a row of the
result stands for its JSON text. -/

namespace Topic0

inductive FilterOp where
  | eq
  | ne
  | gt
  | gte
  | lt
  | lte
  deriving DecidableEq, Repr

/-- A comparison of a column with a raw value. -/
structure Filter where
  column : String
  op : FilterOp
  value : String
  deriving DecidableEq, Repr

inductive SortDir where
  | asc
  | desc
  deriving DecidableEq, Repr

/-- `Sort`, which no statement reads: rows come in the order of their cursor. -/
structure SortColumn where
  column : String
  dir : SortDir
  deriving DecidableEq, Repr

structure Cursor where
  text : String
  deriving DecidableEq, Repr

structure QuerySpec where
  table : String
  filters : List Filter
  sort : List SortColumn
  first : Nat
  after : Option Cursor
  includeTx : Bool
  includeReceipt : Bool
  descending : Bool
  deriving DecidableEq, Repr

structure Page (α : Type) where
  items : List α
  endCursor : Option Cursor
  hasNext : Bool
  deriving DecidableEq, Repr

inductive QueryError where
  | sqlx (message : String)
  | invalid (message : String)
  deriving DecidableEq, Repr

def QueryError.toDomain : QueryError → DomainError
  | .invalid message => .invalid message
  | .sqlx message => .storage ("database error: " ++ message)

/-- How a call can end without a result: an error value, or a panic. -/
inductive Fault (ε : Type) where
  | error (e : ε)
  | panic
  deriving DecidableEq, Repr

def Fault.map {ε ε' : Type} (f : ε → ε') : Fault ε → Fault ε'
  | .error e => .error (f e)
  | .panic => .panic

section Hex

def hexDigit (b : UInt8) : Option UInt8 :=
  if 48 ≤ b ∧ b ≤ 57 then some (b - 48)
  else if 97 ≤ b ∧ b ≤ 102 then some (b - 87)
  else if 65 ≤ b ∧ b ≤ 70 then some (b - 55)
  else none

/-- `u8::from_str_radix(pair, 16)`: a leading plus is a sign. -/
def hexByte (a b : UInt8) : Option UInt8 :=
  if a = 43 then hexDigit b
  else do
    let hi ← hexDigit a
    let lo ← hexDigit b
    some (16 * hi + lo)

/-- The byte continues a character, so that no slice may start at it. -/
def continuesChar (b : UInt8) : Bool := decide (128 ≤ b ∧ b < 192)

/-- Pairs of bytes up to the first that is not hex; slicing inside a character panics. -/
def hexPairs : List UInt8 → Except (Fault QueryError) (Option (List UInt8))
  | a :: b :: rest =>
      if rest.head?.any continuesChar then .error .panic
      else
        match hexByte a b with
        | none => .ok none
        | some byte => do
            let bytes ← hexPairs rest
            .ok (bytes.map fun tail => byte :: tail)
  | _ => .ok (some [])

/-- `hex_decode`: an optional `0x`, then an even number of bytes. -/
def hexDecode (text : String) : Except (Fault QueryError) (Option (List UInt8)) :=
  let bytes := match text.toUTF8.toList with
    | 48 :: 120 :: rest => rest
    | bytes => bytes
  if bytes.length % 2 = 0 then hexPairs bytes else .ok none

end Hex

/-- A typed bind value. -/
inductive Bind where
  | int (value : Int)
  | bytes (value : List UInt8)
  | bool (value : Bool)
  | text (value : String)
  deriving DecidableEq, Repr

/-- Columns every typed table has. -/
def metaColType : String → Option ColumnType
  | "chain_id" | "height" | "idx" => some .int64
  | "block_time" => some .timestamp
  | "block_hash" | "tx_id" => some .bytes
  | _ => none

/-- The cast a bound placeholder needs. -/
def castSuffix : ColumnType → String
  | .uint _ | .int _ => "::numeric"
  | .timestamp => "::timestamptz"
  | .json => "::jsonb"
  | _ => ""

/-- `i64::from_str`. -/
def parseI64 (text : List Char) : Option Int := Decimal.parse (-2 ^ 63) (2 ^ 63 - 1) text

def parseBool : String → Option Bool
  | "true" => some true
  | "false" => some false
  | _ => none

def invalid {α : Type} (message : String) : Except (Fault QueryError) α :=
  .error (.error (.invalid message))

def bindValue (ty : ColumnType) (raw : String) : Except (Fault QueryError) (String × Bind) :=
  match ty with
  | .int64 =>
      match parseI64 raw.toList with
      | some value => .ok (castSuffix ty, .int value)
      | none => invalid "expected an integer"
  | .bool =>
      match parseBool raw with
      | some value => .ok (castSuffix ty, .bool value)
      | none => invalid "expected a boolean"
  | .address | .bytes => do
      match ← hexDecode raw with
      | some value => .ok (castSuffix ty, .bytes value)
      | none => invalid "expected 0x-hex bytes"
  | .uint _ | .int _ | .timestamp | .utf8 => .ok (castSuffix ty, .text raw)
  | .json => invalid "jsonb columns are not filterable"

def formatCursor (height idx : Int) : Cursor :=
  ⟨String.ofList (Decimal.format height ++ ':' :: Decimal.format idx)⟩

/-- `split_once`: the text before and after the first separator. -/
def splitOnce (separator : Char) : List Char → Option (List Char × List Char)
  | [] => none
  | c :: rest =>
      if c = separator then some ([], rest)
      else (splitOnce separator rest).map fun parts => (c :: parts.1, parts.2)

def parseCursor (cursor : Cursor) : Except (Fault QueryError) (Int × Int) :=
  match splitOnce ':' cursor.text.toList with
  | none => invalid "bad cursor"
  | some (height, idx) =>
      match parseI64 height, parseI64 idx with
      | some h, some i => .ok (h, i)
      | _, _ => invalid "bad cursor"

/-- One `t."column" op $n::cast` of a `WHERE` clause. -/
structure Condition where
  column : String
  op : FilterOp
  cast : String
  bind : Bind
  deriving DecidableEq, Repr

/-- What the database decides: how a stored row compares, and whether a statement with these
conditions fails because a bound text cannot be cast. -/
structure Postgres where
  compares : Condition → EventRow → Bool
  castError : List Condition → Option String

/-- A `u64` in a `bigint` column. -/
@[irreducible] def bigint (n : Nat) : Int := Int.bmod n (2 ^ 64)

/-- What rows are ordered by; row-wise comparison is lexicographic. -/
def rowKey (row : EventRow) : Int ×ₗ Int := toLex (bigint row.height, bigint row.index)

/-- A result row with its embedded aux rows. -/
structure Joined where
  row : EventRow
  transaction : Option EventRow
  receipt : Option EventRow
  deriving DecidableEq, Repr

/-- `ORDER BY t.height, t.idx`, or both descending. -/
def rowLe (descending : Bool) (a b : Joined) : Prop :=
  if descending then rowKey b.row ≤ rowKey a.row else rowKey a.row ≤ rowKey b.row

/-- The aux rows of a row's transaction. -/
def sameTx (aux : List EventRow) (row : EventRow) : List EventRow :=
  aux.filter fun a => a.chainId == row.chainId && a.txId == row.txId

/-- A row with each of its aux rows, or without one. -/
def joinRow (aux : List EventRow) (embed : Joined → Option EventRow → Joined) (j : Joined) :
    List Joined :=
  match sameTx aux j.row with
  | [] => [embed j none]
  | hits => hits.map fun a => embed j (some a)

/-- `LEFT JOIN aux ON aux.chain_id = t.chain_id AND aux.tx_id = t.tx_id`. -/
def leftJoin (aux : List EventRow) (embed : Joined → Option EventRow → Joined)
    (rows : List Joined) : List Joined :=
  rows.flatMap (joinRow aux embed)

structure Select where
  table : String
  joinTx : Bool
  joinReceipt : Bool
  conds : List Condition
  keyset : Option (Int × Int)
  descending : Bool
  limit : Nat
  deriving DecidableEq, Repr

section Run

variable {layout : String → PkColumns} (pg : Postgres) (store : Store layout)

/-- The rows of the `FROM` clause. -/
def Select.source (sel : Select) : List Joined :=
  let rows := (store.typed sel.table).rows.map fun row => (⟨row, none, none⟩ : Joined)
  let rows := if sel.joinTx then
      leftJoin (store.typed transactionsTable).rows (fun j tx => { j with transaction := tx }) rows
    else rows
  if sel.joinReceipt then
    leftJoin (store.typed receiptsTable).rows (fun j rc => { j with receipt := rc }) rows
  else rows

/-- The `WHERE` clause: the filters, and the tuple comparison with the cursor. -/
def Select.satisfied (sel : Select) (j : Joined) : Bool :=
  sel.conds.all (fun cond => pg.compares cond j.row) &&
    sel.keyset.all fun c => decide (if sel.descending then rowKey j.row < toLex c
      else toLex c < rowKey j.row)

def Select.run (sel : Select) (order : Keyset.Sorter (rowLe sel.descending)) :
    Except QueryError (List Joined) :=
  match pg.castError sel.conds with
  | some message => .error (.sqlx message)
  | none => .ok ((order.sort ((sel.source store).filter (sel.satisfied pg))).take sel.limit)

end Run

/-- Table names with their decoded columns. -/
structure PgEventQueryRepository where
  tables : String → Option (List (String × ColumnType))

namespace PgEventQueryRepository

/-- A later schema of the same table replaces an earlier one. -/
def new (schemas : List EventSchema) : PgEventQueryRepository where
  tables table := (schemas.reverse.find? fun s => s.table == table).map fun s =>
    s.columns.map fun c => (c.name, c.ty)

def colType (repo : PgEventQueryRepository) (table col : String) : Option ColumnType :=
  (metaColType col).or ((repo.tables table).bind fun cols => cols.lookup col)

def validateTable (repo : PgEventQueryRepository) (spec : QuerySpec) :
    Except (Fault DomainError) String :=
  if !isValidIdent spec.table then .error (.error (.invalid ("bad table name: " ++ spec.table)))
  else if !tableHasIdx spec.table then
    .error (.error (.invalid "receipts are queried via their transaction, not standalone"))
  else if (repo.tables spec.table).isNone then
    .error (.error (.invalid ("unknown table '" ++ spec.table ++ "'")))
  else .ok spec.table

def buildFilters (repo : PgEventQueryRepository) (table : String) (filters : List Filter) :
    Except (Fault DomainError) (List Condition) :=
  filters.mapM fun f =>
    match repo.colType table f.column with
    | none => .error (.error (.invalid ("unknown filter column '" ++ f.column ++ "'")))
    | some ty =>
        match bindValue ty f.value with
        | .error e => .error (e.map QueryError.toDomain)
        | .ok (cast, bind) => .ok ⟨f.column, f.op, cast, bind⟩

/-- `first.clamp(1, 1000)`. -/
def clampFirst (first : Nat) : Nat := max 1 (min first 1000)

/-- The cursor of the specification, if it has one. -/
def parseAfter (after : Option Cursor) : Except (Fault DomainError) (Option (Int × Int)) :=
  match after with
  | none => .ok none
  | some cursor =>
      match parseCursor cursor with
      | .error e => .error (e.map QueryError.toDomain)
      | .ok key => .ok (some key)

variable {layout : String → PkColumns}

def select (repo : PgEventQueryRepository) (spec : QuerySpec) (table : String)
    (conds : List Condition) (after : Option (Int × Int)) : Select where
  table := table
  joinTx := !auxTables.contains table && spec.includeTx && (repo.tables transactionsTable).isSome
  joinReceipt :=
    !auxTables.contains table && spec.includeReceipt && (repo.tables receiptsTable).isSome
  conds := conds
  keyset := after
  descending := spec.descending
  limit := clampFirst spec.first + 1

/-- The page of the fetched rows: one row more than asked for signals a next page. -/
def pageOf (first : Nat) (rows : List Joined) : Page Joined :=
  let hasNext := decide (first < rows.length)
  { items := rows.take first
    endCursor := if hasNext then
        (rows.take first).getLast?.map fun j =>
          formatCursor (bigint j.row.height) (bigint j.row.index)
      else none
    hasNext := hasNext }

def query (repo : PgEventQueryRepository) (pg : Postgres) (store : Store layout) (spec : QuerySpec)
    (order : Keyset.Sorter (rowLe spec.descending)) : Except (Fault DomainError) (Page Joined) := do
  let table ← repo.validateTable spec
  let conds ← repo.buildFilters table spec.filters
  let after ← parseAfter spec.after
  match (repo.select spec table conds after).run pg store order with
  | .error e => .error (.error e.toDomain)
  | .ok rows => .ok (pageOf (clampFirst spec.first) rows)

/-- The rows of a table that satisfy the conditions. -/
def matching (pg : Postgres) (store : Store layout) (table : String) (conds : List Condition) :
    List EventRow :=
  (store.typed table).rows.filter fun row => conds.all fun cond => pg.compares cond row

def count (repo : PgEventQueryRepository) (pg : Postgres) (store : Store layout)
    (spec : QuerySpec) : Except (Fault DomainError) Nat := do
  let table ← repo.validateTable spec
  let conds ← repo.buildFilters table spec.filters
  match pg.castError conds with
  | some message => .error (.error (QueryError.sqlx message).toDomain)
  | none => .ok (matching pg store table conds).length

/-- Query, and follow the cursor while there is a next page; `none` when the fuel runs out. Each
execution has its own order among ties. -/
def followPages (repo : PgEventQueryRepository) (pg : Postgres) (store : Store layout)
    (spec : QuerySpec) (order : Nat → Keyset.Sorter (rowLe spec.descending)) :
    Nat → Nat → Option Cursor → Except (Fault DomainError) (Option (List (List Joined)))
  | 0, _, _ => .ok none
  | fuel + 1, n, after => do
      let page ← repo.query pg store { spec with after := after } (order n)
      if page.hasNext then do
        let rest ← followPages repo pg store spec order fuel (n + 1) page.endCursor
        .ok (rest.map fun pages => page.items :: pages)
      else .ok (some [page.items])

end PgEventQueryRepository

end Topic0
