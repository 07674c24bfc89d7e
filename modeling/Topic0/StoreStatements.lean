import Topic0.QueryRepository
import Topic0.StoreFraming
import Topic0.StoreTables

/-! The `INSERT` statements of the batch writers. A statement is pushed to a query builder piece by
piece: text, and values that become its bind parameters. Typed rows are grouped by the list of their
field names and written tuple by tuple, raw records and blocks with a fixed list of columns; all of
them in chunks that keep the number of bind parameters below what the wire protocol counts. -/

namespace Topic0

/-- A value handed over as a bind parameter. -/
inductive SqlValue where
  | int (value : Int)
  | optInt (value : Option Int)
  | bytes (value : List UInt8)
  | bool (value : Bool)
  | text (value : String)
  deriving DecidableEq, Repr

/-- What has been pushed to a builder: characters of the statement, and bind parameters. -/
abbrev QueryBuilder := List (Char ⊕ SqlValue)

namespace QueryBuilder

/-- The characters of a text. -/
def text (sql : String) : QueryBuilder := sql.toList.map .inl

def push (qb : QueryBuilder) (sql : String) : QueryBuilder := qb ++ text sql

def pushBind (qb : QueryBuilder) (value : SqlValue) : QueryBuilder := qb ++ [.inr value]

/-- The bind parameters, in order. -/
def binds (qb : QueryBuilder) : List SqlValue := qb.filterMap Sum.getRight?

end QueryBuilder

open QueryBuilder Emit

/-- A value of a tuple. -/
inductive Expr where
  | bind (value : SqlValue)
  | toTimestamp (value : SqlValue)
  | cast (value : SqlValue) (type : String)
  | null
  deriving DecidableEq, Repr

def Expr.render : Expr → QueryBuilder
  | .bind value => [.inr value]
  | .toTimestamp value => text "to_timestamp(" ++ .inr value :: text ")"
  | .cast value type => text "CAST(" ++ .inr value :: (text " AS " ++ (text type ++ text ")"))
  | .null => text "NULL"

/-- One statement: its columns, of which those named by fields are quoted, and a tuple a row. -/
structure Insert where
  table : String
  fixed : List String
  fields : List String
  tuples : List (List Expr)
  conflict : String

namespace Insert

def columns (s : Insert) : List String := s.fixed ++ s.fields

def renderTuple (tuple : List Expr) : QueryBuilder :=
  text "(" ++ (separated (text ", ") (tuple.map Expr.render) ++ text ")")

def renderColumns (s : Insert) : QueryBuilder :=
  separated (text ", ") (s.fixed.map text ++ s.fields.map fun name => text "\"" ++ text name ++ text "\"")

/-- The statement as text and bind parameters. -/
def render (s : Insert) : QueryBuilder :=
  text "INSERT INTO " ++ text s.table ++ text " (" ++ s.renderColumns ++ text ") VALUES " ++
    separated (text ", ") (s.tuples.map renderTuple) ++ text s.conflict

/-- The values of a tuple under the columns they stand for. -/
def cells (s : Insert) : List (List (String × Expr)) := s.tuples.map fun tuple => s.columns.zip tuple

end Insert

/-- The statements write each row once: every tuple has one value for each column, its values under
their columns are those of a row, and no statement has more bind parameters than can be counted. -/
structure Writes (statements : List Insert) (rows : List (List (String × Expr))) : Prop where
  aligned : ∀ s ∈ statements, ∀ tuple ∈ s.tuples, tuple.length = s.columns.length
  permutation : (statements.flatMap Insert.cells).Perm rows
  bounded : ∀ s ∈ statements, s.render.binds.length ≤ 65535

namespace EventRepo

/-- `bind_value`: numbers and JSON go over as text and are cast. -/
def bindValue (qb : QueryBuilder) : EventValue → QueryBuilder
  | .address b | .bytes b | .hash b => qb.pushBind (.bytes b)
  | .bool b => qb.pushBind (.bool b)
  | .uint s | .int s => ((qb.push "CAST(").pushBind (.text s)).push " AS numeric)"
  | .string s => qb.pushBind (.text s)
  | .json s => ((qb.push "CAST(").pushBind (.text s)).push " AS jsonb)"

/-- One tuple of a statement. -/
def pushRow (hasIdx : Bool) (qb : QueryBuilder) (row : EventRow) : QueryBuilder :=
  let qb := (qb.push "(").pushBind (.int (bigint row.chainId))
  let qb := (qb.push ", ").pushBind (.int (bigint row.height))
  let qb := (qb.push ", ").pushBind (.bytes row.blockHash.bytes)
  let qb := match row.blockTime with
    | some secs => ((qb.push ", to_timestamp(").pushBind (.int secs)).push ")"
    | none => qb.push ", NULL"
  let qb := (qb.push ", ").pushBind (.bytes row.txId.bytes)
  let qb := if hasIdx then (qb.push ", ").pushBind (.int (bigint row.index)) else qb
  let qb := row.event.fields.foldl (fun qb field => bindValue (qb.push ", ") field.2) qb
  qb.push ")"

/-- One statement for rows of one list of field names. -/
def buildInsert (table : String) (part : List String × List EventRow) : QueryBuilder :=
  let hasIdx := tableHasIdx table
  let qb := (push [] "INSERT INTO ").push table
  let qb := qb.push " (chain_id, height, block_hash, block_time, tx_id"
  let qb := if hasIdx then qb.push ", idx" else qb
  let qb := part.1.foldl (fun qb name => ((qb.push ", \"").push name).push "\"") qb
  let qb := qb.push ") VALUES "
  let qb : QueryBuilder := (part.2.foldl (separateStep (text ", ") (pushRow hasIdx)) (qb, true)).1
  qb.push " ON CONFLICT DO NOTHING"

/-- The statements of `upsert_batch_tx`, as far as no identifier is unsafe. -/
def upsertStatements (table : String) (rows : List EventRow) : Except DbError (List QueryBuilder) := do
  let _ ← safeIdent table
  (upsertParts table rows).mapM fun part => do
    let _ ← part.1.mapM safeIdent
    .ok (buildInsert table part)

end EventRepo

/-- `push_values`: a tuple of bind parameters a row. -/
def QueryBuilder.pushValues {α : Type} (qb : QueryBuilder) (rows : List α)
    (bindRow : α → List SqlValue) : QueryBuilder :=
  (rows.foldl (separateStep (text ", ") fun qb row =>
    push ((bindRow row).foldl (separateStep (text ", ") pushBind) (push qb "(", true)).1 ")")
      (qb.push "VALUES ", true)).1

namespace RawRecordRepo

def bindRow (r : RawRecord) : List SqlValue :=
  [.int (bigint r.chainId), .int (bigint r.height), .int (bigint r.index), .bytes r.blockHash.bytes,
    .bytes r.address.bytes, .bytes (frameSelectors r.selectors), .bytes r.data, .bytes r.txId.bytes,
    .int (bigint r.txIndex), .optInt (r.innerIndex.map bigint)]

/-- The statements of `insert_batch_tx`. -/
def insertStatements (records : List RawRecord) : List QueryBuilder :=
  (Rows.chunks (chunkRows rawCols) records).map fun chunk =>
    (((push [] ("INSERT INTO raw_records (chain_id, height, idx, block_hash, address, " ++
        "selectors, data, tx_id, tx_index, inner_index) ")).pushValues chunk bindRow).push
      " ON CONFLICT (chain_id, height, idx) DO NOTHING")

end RawRecordRepo

namespace BlockRepo

def bindRow (b : BlockMeta) : List SqlValue :=
  [.int (bigint b.chainId), .int (bigint b.height), .bytes b.hash.bytes, .bytes b.parentHash.bytes,
    .int b.time]

/-- The statements of the blocks' `upsert_batch_tx`. -/
def upsertStatements (blocks : List BlockMeta) : List QueryBuilder :=
  (Rows.chunks (chunkRows blockCols) blocks).map fun chunk =>
    (((push [] "INSERT INTO blocks (chain_id, height, hash, parent_hash, time) ").pushValues
      chunk bindRow).push (" ON CONFLICT (chain_id, height) DO UPDATE SET hash = EXCLUDED.hash, " ++
        "parent_hash = EXCLUDED.parent_hash, time = EXCLUDED.time"))

end BlockRepo

section Rows

/-- What a field's value is written as. -/
def valueExpr : EventValue → Expr
  | .address b | .bytes b | .hash b => .bind (.bytes b)
  | .bool b => .bind (.bool b)
  | .uint s | .int s => .cast (.text s) "numeric"
  | .string s => .bind (.text s)
  | .json s => .cast (.text s) "jsonb"

/-- A typed row: its values under the names of their columns. -/
def EventRow.cells (table : String) (row : EventRow) : List (String × Expr) :=
  [("chain_id", .bind (.int (bigint row.chainId))), ("height", .bind (.int (bigint row.height))),
    ("block_hash", .bind (.bytes row.blockHash.bytes)),
    ("block_time", row.blockTime.elim .null fun secs => .toTimestamp (.int secs)),
    ("tx_id", .bind (.bytes row.txId.bytes))] ++
  (if tableHasIdx table then [("idx", .bind (.int (bigint row.index)))] else []) ++
  row.event.fields.map fun field => (field.1, valueExpr field.2)

def RawRecord.cells (r : RawRecord) : List (String × Expr) :=
  [("chain_id", .bind (.int (bigint r.chainId))), ("height", .bind (.int (bigint r.height))),
    ("idx", .bind (.int (bigint r.index))), ("block_hash", .bind (.bytes r.blockHash.bytes)),
    ("address", .bind (.bytes r.address.bytes)),
    ("selectors", .bind (.bytes (frameSelectors r.selectors))), ("data", .bind (.bytes r.data)),
    ("tx_id", .bind (.bytes r.txId.bytes)), ("tx_index", .bind (.int (bigint r.txIndex))),
    ("inner_index", .bind (.optInt (r.innerIndex.map bigint)))]

def BlockMeta.cells (b : BlockMeta) : List (String × Expr) :=
  [("chain_id", .bind (.int (bigint b.chainId))), ("height", .bind (.int (bigint b.height))),
    ("hash", .bind (.bytes b.hash.bytes)), ("parent_hash", .bind (.bytes b.parentHash.bytes)),
    ("time", .bind (.int b.time))]

end Rows

section Binds

theorem binds_append (qb qb' : QueryBuilder) : binds (qb ++ qb') = binds qb ++ binds qb' :=
  List.filterMap_append

theorem binds_bind (value : SqlValue) (qb : QueryBuilder) :
    binds (.inr value :: qb) = value :: binds qb := rfl

theorem binds_text (sql : String) : binds (text sql) = [] := by
  rw [binds, text, List.filterMap_map]
  exact List.filterMap_eq_nil_iff.mpr fun _ _ => rfl

/-- The separators of a list hold no bind parameter. -/
theorem binds_separated (sql : String) (pieces : List QueryBuilder) :
    binds (separated (text sql) pieces) = pieces.flatMap binds := by
  have htail : ∀ pieces : List QueryBuilder,
      binds (pieces.flatMap fun p => text sql ++ p) = pieces.flatMap binds := by
    intro pieces
    induction pieces with
    | nil => rfl
    | cons piece pieces ih =>
        rw [List.flatMap_cons, binds_append, ih, binds_append, binds_text, List.nil_append,
          List.flatMap_cons]
  cases pieces with
  | nil => rfl
  | cons piece pieces => rw [separated, binds_append, htail, List.flatMap_cons]

theorem length_binds_expr (e : Expr) : (binds e.render).length ≤ 1 := by
  cases e with
  | bind value => exact le_rfl
  | toTimestamp value =>
      rw [Expr.render, binds_append, binds_text, binds_bind, binds_text]
      exact le_rfl
  | cast value type =>
      rw [Expr.render, binds_append, binds_text, binds_bind, binds_append, binds_append, binds_text,
        binds_text, binds_text]
      exact le_rfl
  | null =>
      rw [Expr.render, binds_text]
      exact Nat.zero_le 1

theorem length_flatMap_le {α : Type} {f : α → List SqlValue} {bound : Nat} {as : List α}
    (h : ∀ a ∈ as, (f a).length ≤ bound) : (as.flatMap f).length ≤ as.length * bound := by
  calc (as.flatMap f).length
      = (as.map fun a => (f a).length).sum := List.length_flatMap
    _ ≤ (as.map fun a => (f a).length).length • bound :=
        List.sum_le_card_nsmul _ _ (List.forall_mem_map.mpr h)
    _ = as.length * bound := by rw [List.length_map, smul_eq_mul]

/-- A tuple has at most one bind parameter for each of its values. -/
theorem length_binds_tuple (tuple : List Expr) :
    (binds (Insert.renderTuple tuple)).length ≤ tuple.length := by
  rw [Insert.renderTuple, binds_append, binds_append, binds_text, binds_text, binds_separated,
    List.flatMap_map, List.nil_append, List.append_nil]
  have hle : (tuple.flatMap fun e => binds e.render).length ≤ tuple.length * 1 :=
    length_flatMap_le fun e _ => length_binds_expr e
  rwa [Nat.mul_one] at hle

/-- A statement has at most one bind parameter for each of its tuples and columns. -/
theorem length_binds_insert {s : Insert}
    (h : ∀ tuple ∈ s.tuples, tuple.length = s.columns.length) :
    s.render.binds.length ≤ s.tuples.length * s.columns.length := by
  have hcolumns : binds s.renderColumns = [] := by
    rw [Insert.renderColumns, binds_separated]
    apply List.flatMap_eq_nil_iff.mpr
    intro piece hpiece
    rcases List.mem_append.mp hpiece with hpiece | hpiece
    · obtain ⟨name, -, rfl⟩ := List.mem_map.mp hpiece
      exact binds_text name
    · obtain ⟨name, -, rfl⟩ := List.mem_map.mp hpiece
      rw [binds_append, binds_append, binds_text, binds_text]
      rfl
  simp only [Insert.render, binds_append, binds_text, binds_separated, hcolumns, List.nil_append,
    List.append_nil, List.flatMap_map]
  apply length_flatMap_le
  intro tuple htuple
  rw [← h tuple htuple]
  exact length_binds_tuple tuple

end Binds

section Parts

/-- Rows in chunks of their number of columns stay below the cap. -/
theorem mul_le_of_chunk {cols n : Nat} (hpos : 0 < cols) (hcols : cols ≤ 65535)
    (hn : n ≤ chunkRows cols) : n * cols ≤ 65535 := by
  have hquot : 1 ≤ 65535 / cols := (Nat.one_le_div_iff hpos).mpr hcols
  have hmax : max cols 1 = cols := max_eq_left hpos
  rw [chunkRows, hmax, max_eq_left hquot] at hn
  exact (Nat.mul_le_mul_right cols hn).trans (Nat.div_mul_le_self 65535 cols)

/-- Statements that are made of parts of the rows, each under its own columns, write the rows. -/
theorem writes_map {ι : Type} {parts : List ι} {statement : ι → Insert}
    {rows : List (List (String × Expr))} (cells : ι → List (List (String × Expr)))
    (htuples : ∀ part, (statement part).tuples = (cells part).map fun row => row.map Prod.snd)
    (hnames : ∀ part ∈ parts, ∀ row ∈ cells part, row.map Prod.fst = (statement part).columns)
    (hbound : ∀ part ∈ parts, (cells part).length * (statement part).columns.length ≤ 65535)
    (hperm : (parts.flatMap cells).Perm rows) : Writes (parts.map statement) rows := by
  have haligned : ∀ part ∈ parts, ∀ tuple ∈ (statement part).tuples,
      tuple.length = (statement part).columns.length := by
    intro part hpart tuple htuple
    rw [htuples] at htuple
    obtain ⟨row, hrow, rfl⟩ := List.mem_map.mp htuple
    rw [← hnames part hpart row hrow, List.length_map, List.length_map]
  refine ⟨?_, ?_, ?_⟩
  · intro s hs
    obtain ⟨part, hpart, rfl⟩ := List.mem_map.mp hs
    exact haligned part hpart
  · have hcells : ∀ part ∈ parts, (statement part).cells = cells part := by
      intro part hpart
      rw [Insert.cells, htuples, List.map_map]
      refine (List.map_congr_left ?_).trans (List.map_id _)
      intro row hrow
      show (statement part).columns.zip (row.map Prod.snd) = row
      rw [← hnames part hpart row hrow, List.zip_map']
      exact List.map_id row
    rw [List.flatMap_map, List.flatMap_congr hcells]
    exact hperm
  · intro s hs
    obtain ⟨part, hpart, rfl⟩ := List.mem_map.mp hs
    refine (length_binds_insert (haligned part hpart)).trans ?_
    rw [htuples, List.length_map]
    exact hbound part hpart

end Parts

section Events

variable {table : String}

@[simp] theorem render_bind (value : SqlValue) : (Expr.bind value).render = [.inr value] := rfl

@[simp] theorem render_null : Expr.null.render = text "NULL" := rfl

@[simp] theorem render_toTimestamp (value : SqlValue) :
    (Expr.toTimestamp value).render = text "to_timestamp(" ++ .inr value :: text ")" := rfl

/-- Columns every row of a table has. -/
def fixedColumns (table : String) : List String :=
  ["chain_id", "height", "block_hash", "block_time", "tx_id"] ++
    if tableHasIdx table then ["idx"] else []

def insertOf (table : String) (part : List String × List EventRow) : Insert where
  table := table
  fixed := fixedColumns table
  fields := part.1
  tuples := part.2.map fun row => (row.cells table).map Prod.snd
  conflict := " ON CONFLICT DO NOTHING"

theorem bindValue_eq (qb : QueryBuilder) (v : EventValue) :
    EventRepo.bindValue qb v = qb ++ (valueExpr v).render := by
  have hnumeric : text " AS numeric)" = text " AS " ++ (text "numeric" ++ text ")") := rfl
  have hjsonb : text " AS jsonb)" = text " AS " ++ (text "jsonb" ++ text ")") := rfl
  cases v with
  | address b => rfl
  | uint s => simp [EventRepo.bindValue, valueExpr, Expr.render, push, pushBind, hnumeric]
  | int s => simp [EventRepo.bindValue, valueExpr, Expr.render, push, pushBind, hnumeric]
  | bool b => rfl
  | bytes b => rfl
  | string s => rfl
  | hash b => rfl
  | json s => simp [EventRepo.bindValue, valueExpr, Expr.render, push, pushBind, hjsonb]

theorem pushFields_eq (qb : QueryBuilder) (fields : List (String × EventValue)) :
    fields.foldl (fun qb field => EventRepo.bindValue (push qb ", ") field.2) qb =
      qb ++ (fields.map fun field => (valueExpr field.2).render).flatMap fun p => text ", " ++ p := by
  have happends : ∀ field : String × EventValue,
      Appends (fun qb => EventRepo.bindValue (push qb ", ") field.2)
        (text ", " ++ (valueExpr field.2).render) := by
    intro field qb
    show EventRepo.bindValue (push qb ", ") field.2 = _
    rw [bindValue_eq, push, List.append_assoc]
  rw [List.flatMap_map]
  exact appends_foldl happends fields qb

/-- What is pushed for a row is its tuple. -/
theorem pushRow_eq (qb : QueryBuilder) (row : EventRow) :
    EventRepo.pushRow (tableHasIdx table) qb row =
      qb ++ Insert.renderTuple ((row.cells table).map Prod.snd) := by
  have htimestamp : text ", to_timestamp(" = text ", " ++ text "to_timestamp(" := rfl
  have hnull : text ", NULL" = text ", " ++ text "NULL" := rfl
  simp only [EventRepo.pushRow, EventRow.cells, pushFields_eq]
  cases row.blockTime with
  | none =>
      cases tableHasIdx table with
      | false => simp [push, pushBind, Insert.renderTuple, separated, Function.comp_def, hnull]
      | true => simp [push, pushBind, Insert.renderTuple, separated, Function.comp_def, hnull]
  | some secs =>
      cases tableHasIdx table with
      | false => simp [push, pushBind, Insert.renderTuple, separated, Function.comp_def, htimestamp]
      | true => simp [push, pushBind, Insert.renderTuple, separated, Function.comp_def, htimestamp]

theorem pushNames_eq (qb : QueryBuilder) (names : List String) :
    names.foldl (fun qb name => push (push (push qb ", \"") name) "\"") qb =
      qb ++ (names.map fun name => text "\"" ++ text name ++ text "\"").flatMap fun p =>
        text ", " ++ p := by
  have hquote : text ", \"" = text ", " ++ text "\"" := rfl
  have happends : ∀ name : String,
      Appends (fun qb => push (push (push qb ", \"") name) "\"")
        (text ", " ++ (text "\"" ++ text name ++ text "\"")) := by
    intro name qb
    simp only [push, hquote, List.append_assoc]
  rw [List.flatMap_map]
  exact appends_foldl happends names qb

/-- The columns in the order they are pushed. -/
theorem renderColumns_insertOf (table : String) (part : List String × List EventRow) :
    text " (" ++ (insertOf table part).renderColumns =
      text " (chain_id, height, block_hash, block_time, tx_id" ++
        ((if tableHasIdx table then text ", idx" else []) ++
          (part.1.map fun name => text "\"" ++ text name ++ text "\"").flatMap fun p =>
            text ", " ++ p) := by
  have hfixed : text " (chain_id, height, block_hash, block_time, tx_id" = text " (" ++
      separated (text ", ") (["chain_id", "height", "block_hash", "block_time", "tx_id"].map text) :=
    rfl
  have hidx : text ", idx" = text ", " ++ text "idx" := rfl
  rw [Insert.renderColumns, insertOf, fixedColumns, List.map_append, List.append_assoc,
    separated_append _ (by simp), hfixed, List.append_assoc]
  cases tableHasIdx table with
  | false => rfl
  | true => simp [hidx]

/-- A built statement is the statement of its rows. -/
theorem buildInsert_eq (table : String) (part : List String × List EventRow) :
    EventRepo.buildInsert table part = (insertOf table part).render := by
  have hrows : ∀ row : EventRow, Appends (fun qb => EventRepo.pushRow (tableHasIdx table) qb row)
      (Insert.renderTuple ((row.cells table).map Prod.snd)) := by
    intro row qb
    exact pushRow_eq qb row
  have hpart : ∀ qb : QueryBuilder, (part.2.foldl (separateStep (text ", ")
      (EventRepo.pushRow (tableHasIdx table))) (qb, true)).1 =
        qb ++ separated (text ", ") ((insertOf table part).tuples.map Insert.renderTuple) := by
    intro qb
    rw [insertOf, List.map_map]
    exact appends_separateStep hrows part.2 qb
  have hidx : ∀ qb : QueryBuilder, (if tableHasIdx table then push qb ", idx" else qb) =
      qb ++ if tableHasIdx table then text ", idx" else [] := by
    intro qb
    cases tableHasIdx table with
    | false => exact (List.append_nil qb).symm
    | true => rfl
  have hcolumns := renderColumns_insertOf table part
  simp only [EventRepo.buildInsert, hpart, pushNames_eq, hidx]
  simp only [Insert.render, push, List.nil_append, List.append_assoc]
  rw [← List.append_assoc (text " (")]
  simp only [hcolumns, List.append_assoc]
  rfl

end Events

section Values

theorem foldl_pushBind (values : List SqlValue) (qb : QueryBuilder) :
    (values.foldl (separateStep (text ", ") pushBind) (qb, true)).1 =
      qb ++ separated (text ", ") ((values.map Expr.bind).map Expr.render) := by
  have happends : ∀ value, Appends (fun qb => pushBind qb value) (Expr.bind value).render := by
    intro value qb
    rfl
  rw [List.map_map]
  exact appends_separateStep happends values qb

/-- What `push_values` pushes are the tuples of the rows. -/
theorem pushValues_eq {α : Type} (qb : QueryBuilder) (rows : List α) (bindRow : α → List SqlValue) :
    qb.pushValues rows bindRow = qb ++ (text "VALUES " ++ separated (text ", ")
      (rows.map fun row => Insert.renderTuple ((bindRow row).map Expr.bind))) := by
  have happends : ∀ row, Appends (fun qb =>
      push ((bindRow row).foldl (separateStep (text ", ") pushBind) (push qb "(", true)).1 ")")
        (Insert.renderTuple ((bindRow row).map Expr.bind)) := by
    intro row qb
    simp only [foldl_pushBind, push, Insert.renderTuple, List.append_assoc]
  rw [QueryBuilder.pushValues, ← List.append_assoc]
  exact appends_separateStep happends rows (qb.push "VALUES ")

end Values

/-- The statement of rows whose values are all bound. -/
def insertValues {α : Type} (table : String) (columns : List String) (conflict : String)
    (bindRow : α → List SqlValue) (rows : List α) : Insert where
  table := table
  fixed := columns
  fields := []
  tuples := rows.map fun row => (bindRow row).map Expr.bind
  conflict := conflict

section Batches

/-- The head of a statement with a fixed list of columns, as it is written out. -/
def Heads (head table : String) (columns : List String) : Prop :=
  text head = text "INSERT INTO " ++ (text table ++ (text " (" ++
    (separated (text ", ") (columns.map text) ++ text ") ")))

theorem pushValues_insert {α : Type} {head table : String} {columns : List String}
    (hhead : Heads head table columns) (conflict : String) (bindRow : α → List SqlValue)
    (rows : List α) :
    push ((push [] head).pushValues rows bindRow) conflict =
      (insertValues table columns conflict bindRow rows).render := by
  have hvalues : text ") VALUES " = text ") " ++ text "VALUES " := rfl
  rw [pushValues_eq]
  simp only [push, Insert.render, Insert.renderColumns, insertValues, List.map_nil, List.append_nil,
    List.map_map, List.nil_append, hvalues, List.append_assoc]
  rw [hhead]
  simp only [List.append_assoc]
  rfl

/-- A list in chunks of a fixed list of columns is written whole. -/
theorem exists_writes_chunks {α : Type} {head table conflict : String} {columns : List String}
    {bindRow : α → List SqlValue} {cells : α → List (String × Expr)}
    (hhead : Heads head table columns) (hpos : 0 < columns.length) (hcap : columns.length ≤ 65535)
    (hnames : ∀ row, (cells row).map Prod.fst = columns)
    (hvalues : ∀ row, (cells row).map Prod.snd = (bindRow row).map Expr.bind) (rows : List α) :
    ∃ statements, ((Rows.chunks (chunkRows columns.length) rows).map fun chunk =>
        push ((push [] head).pushValues chunk bindRow) conflict) = statements.map Insert.render ∧
      Writes statements (rows.map cells) := by
  refine ⟨(Rows.chunks (chunkRows columns.length) rows).map
    (insertValues table columns conflict bindRow), ?_, ?_⟩
  · rw [List.map_map]
    exact List.map_congr_left fun chunk _ => pushValues_insert hhead conflict bindRow chunk
  · apply writes_map fun chunk => chunk.map cells
    · intro chunk
      rw [List.map_map]
      exact List.map_congr_left fun row _ => (hvalues row).symm
    · intro chunk hchunk row hrow
      obtain ⟨row, -, rfl⟩ := List.mem_map.mp hrow
      rw [hnames, Insert.columns, insertValues, List.append_nil]
    · intro chunk hchunk
      rw [List.length_map, Insert.columns, insertValues, List.append_nil]
      exact mul_le_of_chunk hpos hcap (Rows.length_of_mem_chunks hchunk)
    · rw [← List.map_flatMap, List.flatMap_id', Rows.flatten_chunks (chunkRows_pos _)]

theorem upsertStatements_ok {table : String} {rows : List EventRow}
    (htable : isValidIdent table = true)
    (hnames : ∀ row ∈ rows, ∀ name ∈ EventRepo.signature row, isValidIdent name = true) :
    EventRepo.upsertStatements table rows =
      .ok (((EventRepo.upsertParts table rows).map (insertOf table)).map Insert.render) := by
  have hparts : ∀ part ∈ EventRepo.upsertParts table rows, (do
      let _ ← part.1.mapM safeIdent
      .ok (EventRepo.buildInsert table part) : Except DbError QueryBuilder) =
        .ok ((insertOf table part).render) := by
    intro part hpart
    obtain ⟨⟨row, hrow, hsignature⟩, -⟩ := EventRepo.mem_upsertParts hpart
    rw [EventRepo.mapM_safeIdent (hsignature ▸ hnames row hrow), ← buildInsert_eq]
    rfl
  rw [EventRepo.upsertStatements, safeIdent, if_pos htable]
  show (EventRepo.upsertParts table rows).mapM _ = _
  rw [Rows.mapM_eq_map hparts, List.map_map]
  rfl

theorem names_cells (table : String) (row : EventRow) :
    (row.cells table).map Prod.fst = fixedColumns table ++ EventRepo.signature row := by
  rw [EventRow.cells, EventRepo.signature, fixedColumns]
  cases tableHasIdx table with
  | false => simp [Function.comp_def]
  | true => simp [Function.comp_def]

/-- The statements of a batch of typed rows write the batch. -/
theorem writes_upsertParts {table : String} {rows : List EventRow}
    (hfields : ∀ row ∈ rows, row.event.fields.length ≤ 65529) :
    Writes ((EventRepo.upsertParts table rows).map (insertOf table))
      (rows.map (EventRow.cells table)) := by
  have hcolumns : ∀ part, (insertOf table part).columns = fixedColumns table ++ part.1 := by
    intro part
    rfl
  have hfixed : (fixedColumns table).length = if tableHasIdx table then 6 else 5 := by
    rw [fixedColumns]
    cases tableHasIdx table with
    | false => rfl
    | true => rfl
  apply writes_map fun part => part.2.map (EventRow.cells table)
  · intro part
    rw [List.map_map]
    rfl
  · intro part hpart cells hcells
    obtain ⟨row, hrow, rfl⟩ := List.mem_map.mp hcells
    rw [names_cells, EventRepo.signature_of_mem_upsertParts hpart hrow, hcolumns]
  · intro part hpart
    obtain ⟨⟨row, hrow, hsignature⟩, -⟩ := EventRepo.mem_upsertParts hpart
    have hlength : part.1.length ≤ 65529 := by
      rw [hsignature, EventRepo.signature, List.length_map]
      exact hfields row hrow
    rw [List.length_map, hcolumns, List.length_append, hfixed]
    apply mul_le_of_chunk
    · split
      · omega
      · omega
    · split
      · omega
      · omega
    · exact EventRepo.length_of_mem_upsertParts hpart
  · rw [← List.map_flatMap]
    exact (EventRepo.upsertParts_perm table rows).map _

theorem writes_records (records : List RawRecord) : ∃ statements,
    RawRecordRepo.insertStatements records = statements.map Insert.render ∧
      Writes statements (records.map RawRecord.cells) := by
  have hhead : Heads ("INSERT INTO raw_records (chain_id, height, idx, block_hash, address, " ++
        "selectors, data, tx_id, tx_index, inner_index) ")
      "raw_records" ["chain_id", "height", "idx", "block_hash", "address", "selectors", "data",
        "tx_id", "tx_index", "inner_index"] := by
    unfold Heads
    decide +kernel
  exact exists_writes_chunks hhead (by decide) (by decide) (fun _ => rfl) (fun _ => rfl) records

theorem writes_blocks (blocks : List BlockMeta) : ∃ statements,
    BlockRepo.upsertStatements blocks = statements.map Insert.render ∧
      Writes statements (blocks.map BlockMeta.cells) := by
  have hhead : Heads "INSERT INTO blocks (chain_id, height, hash, parent_hash, time) " "blocks"
      ["chain_id", "height", "hash", "parent_hash", "time"] := by
    unfold Heads
    decide +kernel
  exact exists_writes_chunks hhead (by decide) (by decide) (fun _ => rfl) (fun _ => rfl) blocks

end Batches

/-- The statements of each batch writer write its rows, each once. -/
theorem batches_written :
    (∀ table rows, isValidIdent table = true →
      (∀ row ∈ rows, ∀ name ∈ EventRepo.signature row, isValidIdent name = true) →
      (∀ row ∈ rows, row.event.fields.length ≤ 65529) →
      ∃ statements, EventRepo.upsertStatements table rows = .ok (statements.map Insert.render) ∧
        Writes statements (rows.map (EventRow.cells table))) ∧
    (∀ records, ∃ statements,
      RawRecordRepo.insertStatements records = statements.map Insert.render ∧
        Writes statements (records.map RawRecord.cells)) ∧
    ∀ blocks, ∃ statements,
      BlockRepo.upsertStatements blocks = statements.map Insert.render ∧
        Writes statements (blocks.map BlockMeta.cells) := by
  refine ⟨?_, writes_records, writes_blocks⟩
  intro table rows htable hnames hfields
  exact ⟨_, upsertStatements_ok htable hnames, writes_upsertParts hfields⟩

/-- Two transfers of the token and, between them, a transaction that creates a contract: it has no
recipient. -/
def mixedTransactions : List EventRow :=
  [⟨1, 7, ⟨[1]⟩, some 1700000000, ⟨[2]⟩, 0, ⟨transactionsTable,
    [("from_addr", .address [3]), ("to_addr", .address [4]), ("value", .uint "5")]⟩⟩,
  ⟨1, 7, ⟨[1]⟩, none, ⟨[5]⟩, 1, ⟨transactionsTable,
    [("from_addr", .address [3]), ("value", .uint "0")]⟩⟩,
  ⟨1, 8, ⟨[6]⟩, some 1700000012, ⟨[7]⟩, 0, ⟨transactionsTable,
    [("from_addr", .address [8]), ("to_addr", .address [4]), ("value", .uint "9")]⟩⟩]

/-- The rows of one signature share a statement, whatever stands between them. -/
theorem batches_written_mixed_transactions :
    ∃ statements, EventRepo.upsertStatements transactionsTable mixedTransactions =
        .ok (statements.map Insert.render) ∧ statements.length = 2 ∧
      Writes statements (mixedTransactions.map (EventRow.cells transactionsTable)) := by
  obtain ⟨statements, hok, hwrites⟩ := batches_written.1 transactionsTable mixedTransactions
    (by decide +kernel) (by decide +kernel) (by decide)
  refine ⟨statements, hok, ?_, hwrites⟩
  have hlength : (EventRepo.upsertStatements transactionsTable mixedTransactions).toOption.map
      List.length = some 2 := by decide +kernel
  rw [hok] at hlength
  simpa [Except.toOption] using hlength

end Topic0
