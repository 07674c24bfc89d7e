import Topic0.AbiJson
import Topic0.AbiWritable
import Topic0.QueryConnection

/-! What the read API shows of a row, and what can be asked with it. A column is projected to JSON by
its type, the JSON is rendered as a GraphQL scalar, and a client that writes the scalar back as the
value of a `where` filter has it parsed and bound by the same type. For every type but JSON, which is
not filterable, the bound value is the stored one, so that the filter selects exactly the rows that
show what it was taken from. -/

namespace Topic0

namespace Graphql

/-- A value of a row's JSON object. A `jsonb` column is embedded with its text. -/
inductive RowJson where
  | null
  | bool (value : Bool)
  | number (value : Int)
  | string (text : String)
  | json (text : String)
  deriving DecidableEq, Repr

/-- A GraphQL scalar. -/
inductive GqlValue where
  | boolean (value : Bool)
  | string (text : String)
  | json (text : String)
  deriving DecidableEq, Repr

/-- How the database prints an instant and reads one: what it prints it reads back. -/
structure Clock where
  print : Int → String
  read : String → Option Int
  read_print : ∀ t, read (print t) = some t

/-- What a column holds, by the type of the database. -/
inductive Cell where
  | bytea (bytes : List UInt8)
  | numeric (value : Int)
  | boolean (value : Bool)
  | text (value : String)
  | jsonb (text : String)
  | bigint (value : Int)
  | timestamptz (value : Int)
  deriving DecidableEq, Repr

/-- A number as the database prints it. -/
def decimal (n : Int) : String := String.ofList (Decimal.format n)

/-- The value of the expression a decoded value is bound as. -/
def cellOf : EventValue → Option Cell
  | .address bytes | .bytes bytes | .hash bytes => some (.bytea bytes)
  | .uint digits | .int digits => (Decimal.parseInt digits.toList).map .numeric
  | .bool value => some (.boolean value)
  | .string value => some (.text value)
  | .json text => some (.jsonb text)

/-- What a row holds under a column's name. -/
def cell (row : EventRow) : String → Option Cell
  | "chain_id" => some (.bigint (bigint row.chainId))
  | "height" => some (.bigint (bigint row.height))
  | "idx" => some (.bigint (bigint row.index))
  | "block_hash" => some (.bytea row.blockHash.bytes)
  | "tx_id" => some (.bytea row.txId.bytes)
  | "block_time" => row.blockTime.map .timestamptz
  | name => (row.field name).bind cellOf

section Show

variable (clock : Clock)

/-- The value of a column in JSON: `0x` and hex digits, decimal text, or as it is. -/
def Cell.project : Cell → RowJson
  | .bytea bytes => .string ("0x" ++ hexEncode bytes)
  | .numeric n => .string (decimal n)
  | .boolean value => .bool value
  | .text value => .string value
  | .jsonb value => .json value
  | .bigint n => .number n
  | .timestamptz t => .string (clock.print t)

def projected (row : EventRow) (name : String) : RowJson :=
  ((cell row name).map (Cell.project clock)).getD .null

/-- The keys of `row_json`, in the order they are built. -/
def rowKeys (schema : EventSchema) : List String :=
  ["chain_id", "height", "block_hash", "block_time", "tx_id"] ++
    (if tableHasIdx schema.table then ["idx"] else []) ++ schema.columns.map ColumnDef.name

/-- `row_json`: the object of a row. -/
def rowValues (schema : EventSchema) (row : EventRow) : List (String × RowJson) :=
  (rowKeys schema).map fun name => (name, projected clock row name)

/-- The last value of a key is the one that stays. -/
def rowValue (schema : EventSchema) (row : EventRow) (key : String) : Option RowJson :=
  ((rowValues clock schema row).reverse.find? fun entry => entry.1 == key).map Prod.snd

/-- `Json::to_string` -/
def RowJson.render : RowJson → String
  | .null => "null"
  | .bool value => if value then "true" else "false"
  | .number n => decimal n
  | .string text => String.ofList (JsonValue.string text).render
  | .json text => text

/-- `to_gql` -/
def toGql (ty : ColumnType) (value : RowJson) : GqlValue :=
  match ty with
  | .bool => .boolean (match value with | .bool b => b | _ => false)
  | .json => .json value.render
  | _ => .string (match value with | .string text => text | other => other.render)

/-- `json_field`: nothing for a column that is null. -/
def shown (schema : EventSchema) (row : EventRow) (name : String) (ty : ColumnType) :
    Option GqlValue :=
  match rowValue clock schema row name with
  | none | some .null => none
  | some value => some (toGql ty value)

end Show

/-- A scalar as the text of a filter. -/
def GqlValue.literal : GqlValue → String
  | .boolean value => if value then "true" else "false"
  | .string text => text
  | .json text => text

/-- The value a bound placeholder with its cast stands for. -/
def boundCell (clock : Clock) : String → Bind → Option Cell
  | "::numeric", .text value => (Decimal.parseInt value.toList).map .numeric
  | "::timestamptz", .text value => (clock.read value).map .timestamptz
  | "", .int value => some (.bigint value)
  | "", .bytes value => some (.bytea value)
  | "", .bool value => some (.boolean value)
  | "", .text value => some (.text value)
  | _, _ => none

def Cell.pgType : Cell → PgType
  | .bytea _ => .bytea
  | .numeric _ => .numeric
  | .boolean _ => .boolean
  | .text _ => .text
  | .jsonb _ => .jsonb
  | .bigint _ => .bigint
  | .timestamptz _ => .timestamptz

/-- `=` holds of equal values of one type, and never of a null. -/
def ComparesEqual (clock : Clock) (pg : Postgres) : Prop :=
  ∀ row column cast bind bound, boundCell clock cast bind = some bound →
    (∀ c, cell row column = some c → c.pgType = bound.pgType) →
    pg.compares ⟨column, .eq, cast, bind⟩ row = decide (cell row column = some bound)

/-- Every value is of its column's type: the database takes no other. -/
def TypedRow (schema : EventSchema) (row : EventRow) : Prop :=
  ∀ col ∈ schema.columns, ∀ value, row.field col.name = some value →
    EventRepo.valueType value = pgType col.ty

/-- What the decoder can store is typed. -/
theorem typedRow_of_fieldsStored {schema : EventSchema} {inputs : List EventParam}
    {topics : List Hash} {d : DecodedEvent} (hnodup : (schema.columns.map ColumnDef.name).Nodup)
    (h : FieldsStored inputs schema.columns topics d.fields) (raw : RawRecord) :
    TypedRow schema (AbiIndex.rowOfRecord raw d) := by
  show ∀ col ∈ schema.columns, ∀ value, d.fields.lookup col.name = some value → _
  generalize schema.columns = cols at h hnodup
  generalize d.fields = fields at h
  induction inputs generalizing cols topics fields with
  | nil =>
      cases cols with
      | nil => exact nofun
      | cons col cols => cases h
  | cons p ps ih =>
      cases cols with
      | nil => cases h
      | cons col cols =>
          cases fields with
          | nil => cases h
          | cons field fields =>
              obtain ⟨⟨hname, htype⟩, -, hrest⟩ := h
              rw [List.map_cons, List.nodup_cons] at hnodup
              intro other hother value hvalue
              rw [List.lookup_cons] at hvalue
              rcases List.mem_cons.mp hother with rfl | hother
              · rw [hname, beq_self_eq_true] at hvalue
                cases hvalue
                exact htype
              · have hne : (other.name == field.1) = false := by
                  rw [beq_eq_false_iff_ne, hname]
                  intro heq
                  exact hnodup.1 (heq ▸ List.mem_map_of_mem hother)
                rw [hne] at hvalue
                exact ih cols hnodup.2 fields hrest other hother value hvalue

section RoundTrip

variable {clock : Clock}

theorem parseInt_decimal (n : Int) : Decimal.parseInt (decimal n).toList = some n := by
  rw [decimal, String.toList_ofList, Decimal.parseInt_format]

/-- What is shown of a value, bound again by the type of its column, is the value. -/
theorem bindValue_shown {ty : ColumnType} (hty : ty ≠ .json) {c : Cell} (h : c.pgType = pgType ty)
    (hint : ∀ n, c = .bigint n → InBigint n) :
    ∃ bind, bindValue ty (toGql ty (c.project clock)).literal = .ok (castSuffix ty, bind) ∧
      boundCell clock (castSuffix ty) bind = some c := by
  cases ty with
  | json => exact absurd rfl hty
  | address | bytes =>
      cases c <;> cases h
      rename_i bytes
      refine ⟨.bytes bytes, ?_, rfl⟩
      show bindValue _ ("0x" ++ hexEncode bytes) = _
      rw [bindValue, (hexDecode_hexEncode bytes).2]
      rfl
  | uint bits | int bits =>
      cases c <;> cases h
      rename_i n
      refine ⟨.text (decimal n), rfl, ?_⟩
      show (Decimal.parseInt (decimal n).toList).map Cell.numeric = _
      rw [parseInt_decimal]
      rfl
  | bool =>
      cases c <;> cases h
      rename_i value
      exact ⟨.bool value, by cases value <;> rfl, rfl⟩
  | utf8 =>
      cases c <;> cases h
      exact ⟨_, rfl, rfl⟩
  | int64 =>
      cases c <;> cases h
      rename_i n
      have hn := hint n rfl
      refine ⟨.int n, ?_, rfl⟩
      exact bindValue_eqFilter hn "" .eq
  | timestamp =>
      cases c <;> cases h
      rename_i t
      refine ⟨.text (clock.print t), rfl, ?_⟩
      show (clock.read (clock.print t)).map Cell.timestamptz = _
      rw [clock.read_print]
      rfl

end RoundTrip

section Columns

variable {clock : Clock} {injected : List String} {schema : EventSchema} {row : EventRow}
  {name : String} {ty : ColumnType}

theorem inBigint_of_cell {n : Int} (h : cell row name = some (.bigint n)) : InBigint n := by
  unfold cell at h
  split at h
  · cases h
    exact inBigint_bigint _
  · cases h
    exact inBigint_bigint _
  · cases h
    exact inBigint_bigint _
  · cases h
  · cases h
  · obtain ⟨t, -, heq⟩ := Option.map_eq_some_iff.mp h
    cases heq
  · obtain ⟨value, -, hvalue⟩ := Option.bind_eq_some_iff.mp h
    cases value with
    | uint digits =>
        obtain ⟨m, -, heq⟩ := Option.map_eq_some_iff.mp hvalue
        cases heq
    | int digits =>
        obtain ⟨m, -, heq⟩ := Option.map_eq_some_iff.mp hvalue
        cases heq
    | address _ | bool _ | bytes _ | string _ | hash _ | json _ => cases hvalue

theorem pgType_cellOf {value : EventValue} {c : Cell} (h : cellOf value = some c) :
    c.pgType = EventRepo.valueType value := by
  cases value with
  | uint digits | int digits =>
      obtain ⟨m, -, rfl⟩ := Option.map_eq_some_iff.mp h
      rfl
  | address _ | bool _ | bytes _ | string _ | hash _ | json _ =>
      cases h
      rfl

theorem cell_of_not_meta (h : name ∉ metaNames) : cell row name = (row.field name).bind cellOf := by
  unfold cell
  split <;> first | rfl | exact absurd (by decide) h

theorem metaColType_of_not_meta (h : name ∉ metaNames) : metaColType name = none := by
  unfold metaColType
  split <;> first | rfl | exact absurd (by decide) h

theorem rowKeys_eq (schema : EventSchema) :
    rowKeys schema = (Ddl.metaColumns schema.table).map DeclaredColumn.name ++
      schema.columns.map ColumnDef.name := by
  rw [rowKeys, Ddl.metaColumns]
  cases tableHasIdx schema.table <;> rfl

theorem nodup_rowKeys (h : Writable injected schema) : (rowKeys schema).Nodup := by
  have hsub := names_metaColumns schema.table
  have hnodup : metaNames.Nodup := by decide
  rw [rowKeys_eq]
  refine List.nodup_append.mpr ⟨hnodup.sublist hsub, h.distinct, ?_⟩
  intro a ha b hb heq
  obtain ⟨c, hc, rfl⟩ := List.mem_map.mp hb
  exact h.no_meta c hc (heq ▸ hsub.subset ha)

theorem rowValue_eq (h : Writable injected schema) (hname : name ∈ rowKeys schema) :
    rowValue clock schema row name = some (projected clock row name) := by
  have hnodup : ((rowValues clock schema row).map Prod.fst).Nodup := by
    rw [rowValues, List.map_map]
    exact (List.map_id _).symm ▸ nodup_rowKeys h
  have hentry : (name, projected clock row name) ∈ rowValues clock schema row :=
    List.mem_map_of_mem hname
  rw [rowValue, Unordered.find?_reverse_of_nodup hnodup, Unordered.find?_of_nodup hnodup hentry]
  rfl

/-- What is shown of a column is what it holds. -/
theorem shown_eq (h : Writable injected schema) (hname : name ∈ rowKeys schema) :
    shown clock schema row name ty = (cell row name).map fun c => toGql ty (c.project clock) := by
  rw [shown, rowValue_eq h hname, projected]
  cases cell row name with
  | none => rfl
  | some c => cases c <;> rfl

variable {isEvent nonNull : Bool} {hasType : String → Bool}

/-- The scalar fields of a row type: a column of every table, or a decoded one. -/
theorem mem_rowFields (h : RowField.json name ty nonNull ∈ rowFields schema isEvent hasType) :
    name ∈ rowKeys schema ∧
      (metaColType name = some ty ∨ ∃ col ∈ schema.columns, col.name = name ∧ col.ty = ty) := by
  have hnested : ∀ (b : Bool) (field type : String),
      RowField.json name ty nonNull ∉ if b then [RowField.nested field type] else [] := by
    intro b field type
    cases b <;> simp
  rw [rowFields, List.mem_append, or_iff_left (hnested _ _ _), List.mem_append,
    or_iff_left (hnested _ _ _), List.mem_append, List.mem_append] at h
  rw [rowKeys, List.mem_append, List.mem_append]
  rcases h with (h | h) | h
  · simp only [List.mem_cons, List.not_mem_nil, or_false, RowField.json.injEq] at h
    rcases h with ⟨rfl, rfl, -⟩ | ⟨rfl, rfl, -⟩ | ⟨rfl, rfl, -⟩ | ⟨rfl, rfl, -⟩ | ⟨rfl, rfl, -⟩ <;>
      exact ⟨.inl (.inl (by decide)), .inl rfl⟩
  · split at h
    · rename_i hidx
      cases List.mem_singleton.mp h
      rw [if_pos hidx]
      exact ⟨.inl (.inr (by decide)), .inl rfl⟩
    · cases h
  · obtain ⟨col, hcol, heq⟩ := List.mem_map.mp h
    cases heq
    exact ⟨.inr (List.mem_map_of_mem hcol), .inr ⟨col, hcol, rfl, rfl⟩⟩

theorem pgType_of_metaColType (hmeta : metaColType name = some ty) {c : Cell}
    (h : cell row name = some c) : c.pgType = pgType ty := by
  unfold metaColType at hmeta
  split at hmeta
  · cases hmeta
    cases h
    rfl
  · cases hmeta
    cases h
    rfl
  · cases hmeta
    cases h
    rfl
  · cases hmeta
    obtain ⟨t, -, rfl⟩ := Option.map_eq_some_iff.mp h
    rfl
  · cases hmeta
    cases h
    rfl
  · cases hmeta
    cases h
    rfl
  · cases hmeta

/-- What a typed row holds under a field is of the field's type. -/
theorem pgType_of_cell (hwritable : Writable injected schema) (hrow : TypedRow schema row)
    (hfield : RowField.json name ty nonNull ∈ rowFields schema isEvent hasType) {c : Cell}
    (h : cell row name = some c) : c.pgType = pgType ty := by
  obtain ⟨-, hmeta | ⟨col, hcol, rfl, rfl⟩⟩ := mem_rowFields hfield
  · exact pgType_of_metaColType hmeta h
  · rw [cell_of_not_meta (hwritable.no_meta col hcol)] at h
    obtain ⟨value, hvalue, hc⟩ := Option.bind_eq_some_iff.mp h
    exact (pgType_cellOf hc).trans (hrow col hcol value hvalue)

end Columns

section Selects

variable {clock : Clock} {injected : List String} {schema : EventSchema} {schemas : List EventSchema}

theorem lookup_of_nodup {cols : List ColumnDef} (hnodup : (cols.map ColumnDef.name).Nodup)
    {col : ColumnDef} (h : col ∈ cols) :
    (cols.map fun c => (c.name, c.ty)).lookup col.name = some col.ty := by
  induction cols with
  | nil => cases h
  | cons c cols ih =>
      rw [List.map_cons, List.nodup_cons] at hnodup
      rw [List.map_cons, List.lookup_cons]
      rcases List.mem_cons.mp h with rfl | h
      · rw [beq_self_eq_true]
      · have hne : (col.name == c.name) = false := by
          rw [beq_eq_false_iff_ne]
          intro heq
          exact hnodup.1 (heq ▸ List.mem_map_of_mem h)
        rw [hne]
        exact ih hnodup.2 h

theorem colType_of_field (hwritable : Writable injected schema)
    (hlast : (schemas.reverse.find? fun s => s.table == schema.table) = some schema) {name : String}
    {ty : ColumnType} {isEvent nonNull : Bool} {hasType : String → Bool}
    (hfield : RowField.json name ty nonNull ∈ rowFields schema isEvent hasType) :
    (PgEventQueryRepository.new schemas).colType schema.table name = some ty := by
  have htables : (PgEventQueryRepository.new schemas).tables schema.table =
      some (schema.columns.map fun c => (c.name, c.ty)) := by
    show (schemas.reverse.find? fun s => s.table == schema.table).map _ = _
    rw [hlast]
    rfl
  rw [PgEventQueryRepository.colType, htables, Option.bind_some]
  obtain ⟨-, hmeta | ⟨col, hcol, rfl, rfl⟩⟩ := mem_rowFields hfield
  · rw [hmeta]
    rfl
  · rw [metaColType_of_not_meta (hwritable.no_meta col hcol), Option.none_or]
    exact lookup_of_nodup hwritable.distinct hcol

variable {layout : String → PkColumns} {store : Store layout} {pg : Postgres}

/-- The filter a value is written back into selects the rows that show the value. -/
theorem shown_value_selects (hwritable : Writable injected schema)
    (hlast : (schemas.reverse.find? fun s => s.table == schema.table) = some schema)
    (hpg : ComparesEqual clock pg)
    (htyped : ∀ row ∈ (store.typed schema.table).rows, TypedRow schema row)
    {name : String} {ty : ColumnType} {isEvent nonNull : Bool} {hasType : String → Bool}
    (hfield : RowField.json name ty nonNull ∈ rowFields schema isEvent hasType) (hty : ty ≠ .json)
    {row : EventRow} (hrow : row ∈ (store.typed schema.table).rows) {value : GqlValue}
    (hshown : shown clock schema row name ty = some value) :
    ∃ cond, (PgEventQueryRepository.new schemas).buildFilters schema.table
        [⟨name, .eq, value.literal⟩] = .ok [cond] ∧
      PgEventQueryRepository.matching pg store schema.table [cond] =
        (store.typed schema.table).rows.filter fun other =>
          decide (shown clock schema other name ty = some value) := by
  have hkey := (mem_rowFields hfield).1
  rw [shown_eq hwritable hkey] at hshown
  obtain ⟨c, hc, rfl⟩ := Option.map_eq_some_iff.mp hshown
  have hbound : ∀ {other : EventRow}, other ∈ (store.typed schema.table).rows → ∀ {d : Cell},
      cell other name = some d → ∃ bind,
        bindValue ty (toGql ty (d.project clock)).literal = .ok (castSuffix ty, bind) ∧
          boundCell clock (castSuffix ty) bind = some d := by
    intro other hother d hd
    apply bindValue_shown hty (pgType_of_cell hwritable (htyped other hother) hfield hd)
    intro n hn
    exact inBigint_of_cell (hn ▸ hd)
  obtain ⟨bind, hbind, hcell⟩ := hbound hrow hc
  refine ⟨⟨name, .eq, castSuffix ty, bind⟩, ?_, ?_⟩
  · rw [PgEventQueryRepository.buildFilters, List.mapM_cons, List.mapM_nil]
    simp only [colType_of_field hwritable hlast hfield, hbind]
    rfl
  · apply List.filter_congr
    intro other hother
    have htype : ∀ d, cell other name = some d → d.pgType = c.pgType := by
      intro d hd
      rw [pgType_of_cell hwritable (htyped other hother) hfield hd,
        pgType_of_cell hwritable (htyped row hrow) hfield hc]
    rw [List.all_cons, List.all_nil, Bool.and_true,
      hpg other name (castSuffix ty) bind c hcell htype, decide_eq_decide, shown_eq hwritable hkey,
      Option.map_eq_some_iff]
    constructor
    · intro hsame
      exact ⟨c, hsame, rfl⟩
    · rintro ⟨d, hd, heq⟩
      -- both are bound to the value of the one text
      obtain ⟨bind', hbind', hcell'⟩ := hbound hother hd
      rw [heq, hbind] at hbind'
      cases hbind'
      rw [hd, ← hcell', hcell]

end Selects

/-- Equality of cells, with instants printed as numbers of seconds. -/
def secondsClock : Clock := ⟨decimal, fun text => Decimal.parseInt text.toList, parseInt_decimal⟩

def cellComparison : Postgres where
  compares cond row :=
    match boundCell secondsClock cond.cast cond.bind with
    | some bound => decide (cond.op = .eq) && decide (cell row cond.column = some bound)
    | none => false
  castError _ := none

def amountSchema : EventSchema :=
  ⟨transferTable, "Transfer", some "0xddf2", [⟨"value", .uint 256, false⟩], [], EventSchema.eventPk⟩

/-- Transfers of 100, 7 and 100. -/
def amounts : Store eventLayout :=
  EventRepo.insertRows Store.empty transferTable
    [⟨1, 5, ⟨[7]⟩, none, ⟨[7]⟩, 0, ⟨transferTable, [("value", .uint "100")]⟩⟩,
      ⟨1, 5, ⟨[7]⟩, none, ⟨[8]⟩, 1, ⟨transferTable, [("value", .uint "7")]⟩⟩,
      ⟨1, 6, ⟨[9]⟩, none, ⟨[9]⟩, 0, ⟨transferTable, [("value", .uint "100")]⟩⟩]

theorem shown_value_selects_amount : ∃ cond,
    (PgEventQueryRepository.new [amountSchema]).buildFilters transferTable
      [⟨"value", .eq, "100"⟩] = .ok [cond] ∧
    (PgEventQueryRepository.matching cellComparison amounts transferTable [cond]).map
      EventRow.height = [5, 6] := by
  have hwritable : Writable injectedKeys amountSchema :=
    ⟨by decide +kernel, by decide +kernel, by decide, by decide, by decide⟩
  have hpg : ComparesEqual secondsClock cellComparison := by
    intro row column cast bind bound hbound _
    simp only [cellComparison, hbound, decide_true, Bool.true_and]
  have htyped : ∀ row ∈ (amounts.typed amountSchema.table).rows, TypedRow amountSchema row := by
    have hall : (amounts.typed amountSchema.table).rows.all (fun row =>
        amountSchema.columns.all fun col =>
          (row.field col.name).all fun value =>
            decide (EventRepo.valueType value = pgType col.ty)) = true := by decide +kernel
    intro row hrow col hcol value hvalue
    have hcell := List.all_eq_true.mp (List.all_eq_true.mp hall row hrow) col hcol
    rw [hvalue, Option.all_some] at hcell
    exact of_decide_eq_true hcell
  obtain ⟨row, hrow, hshown⟩ : ∃ row ∈ (amounts.typed amountSchema.table).rows,
      shown secondsClock amountSchema row "value" (.uint 256) = some (.string "100") := by
    decide +kernel
  have hlast : ([amountSchema].reverse.find? fun s => s.table == amountSchema.table) =
      some amountSchema := rfl
  have hfield : RowField.json "value" (.uint 256) false ∈
      rowFields amountSchema true fun _ => false := by decide +kernel
  obtain ⟨cond, hcond, hmatching⟩ := shown_value_selects hwritable hlast hpg htyped hfield
    (by decide) hrow hshown
  refine ⟨cond, hcond, ?_⟩
  rw [show transferTable = amountSchema.table from rfl, hmatching]
  decide +kernel

end Graphql

end Topic0
