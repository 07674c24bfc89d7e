import Topic0.AbiRouting
import Topic0.BaseOrder
import Topic0.MigratorPreflight

/-! The schemas on the two sides. The migrator applies every schema of every chain, so that a table
gets the columns of all schemas that name it. The reader keeps one schema for a table, the first it
reads, and the schemas come out of hash maps. A table of several schemas is therefore read with the
columns of whichever comes first; all its columns are read exactly when each schema that can come
first has them all. -/

namespace Topic0

open Unordered

namespace Enrichment

def auxPk : List String := ["chain_id", "tx_id"]

/-- `aux_schemas`: the two aux tables. -/
def auxSchemas : List EventSchema :=
  [{ table := transactionsTable
     event := "Transaction"
     topic0 := none
     columns := [⟨"from_addr", .address, false⟩, ⟨"to_addr", .address, false⟩,
       ⟨"value", .uint 256, false⟩, ⟨"input", .bytes, false⟩, ⟨"gas", .uint 256, false⟩,
       ⟨"gas_price", .uint 256, false⟩, ⟨"nonce", .uint 256, false⟩]
     indexedPositions := []
     pkColumns := auxPk },
   { table := receiptsTable
     event := "Receipt"
     topic0 := none
     columns := [⟨"status", .bool, false⟩, ⟨"gas_used", .uint 256, false⟩,
       ⟨"effective_gas_price", .uint 256, false⟩, ⟨"contract_address", .address, false⟩]
     indexedPositions := []
     pkColumns := auxPk }]

end Enrichment

/-- `EvmDecoder::schemas`: of the events, of the calls and of the aux tables. -/
def AbiMaps.sources (maps : AbiMaps) : List (Source EventSchema) :=
  [.map maps.schemas, .map maps.callSchemas, .list Enrichment.auxSchemas]

/-- The schemas of a configuration, chain by chain. -/
def configSources (alloy : Alloy) (chains : List (List ContractSpec)) :
    Except DecodeError (List (Source EventSchema)) := do
  let maps ← chains.mapM (AbiMaps.build alloy)
  .ok (maps.flatMap AbiMaps.sources)

/-- The reader's schemas: one for each table name, the first. -/
def querySchemas (read : List EventSchema) : List EventSchema :=
  keepFirst EventSchema.table [] read

namespace Graphql

/-- A field of a row's type: a column, or an embedded row. -/
inductive RowField where
  | json (name : String) (ty : ColumnType) (nonNull : Bool)
  | nested (name type : String)
  deriving DecidableEq, Repr

def RowField.name : RowField → String
  | .json name _ _ => name
  | .nested name _ => name

def RowField.column? : RowField → Option String
  | .json name _ _ => some name
  | .nested _ _ => none

/-- `Object::field`, which panics on a name that is taken. -/
def addField (fields : List RowField) (field : RowField) : Option (List RowField) :=
  if fields.any (fun f => f.name == field.name) then none else some (fields ++ [field])

/-- The fields of a table's row type, in the order they are added. -/
def rowFields (schema : EventSchema) (isEvent : Bool) (hasType : String → Bool) : List RowField :=
  [RowField.json "chain_id" .int64 true, .json "height" .int64 true, .json "block_hash" .bytes true,
    .json "block_time" .timestamp false, .json "tx_id" .bytes true] ++
  (if tableHasIdx schema.table then [RowField.json "idx" .int64 true] else []) ++
  (schema.columns.map fun c => RowField.json c.name c.ty false) ++
  (if isEvent && hasType transactionsTable then [RowField.nested "transaction" transactionsTable]
    else []) ++
  if isEvent && hasType receiptsTable then [RowField.nested "receipt" receiptsTable] else []

def rowObject (schema : EventSchema) (isEvent : Bool) (hasType : String → Bool) :
    Option (List RowField) :=
  (rowFields schema isEvent hasType).foldlM addField []

/-- The row type `build_schema` registers for a schema. -/
def rowType (schemas : List EventSchema) (schema : EventSchema) : Option (List RowField) :=
  rowObject schema schema.topic0.isSome fun table => schemas.any fun s => s.table == table

theorem rowObject_eq_some {schema : EventSchema} {isEvent : Bool} {hasType : String → Bool}
    {fields : List RowField} (h : rowObject schema isEvent hasType = some fields) :
    fields = rowFields schema isEvent hasType := by
  have hfold : ∀ (more start : List RowField) {fields : List RowField},
      more.foldlM addField start = some fields → fields = start ++ more := by
    intro more
    induction more with
    | nil =>
        intro start fields h
        cases h
        rw [List.append_nil]
    | cons field more ih =>
        intro start fields h
        rw [List.foldlM_cons] at h
        obtain ⟨next, hnext, hrest⟩ := Option.bind_eq_some_iff.mp h
        unfold addField at hnext
        split at hnext
        · cases hnext
        · cases hnext
          rw [ih _ hrest, List.append_assoc]
          rfl
  exact hfold _ [] h

/-- No two fields may have one name. -/
theorem isSome_foldlM_addField {more start : List RowField}
    (hstart : (start.map RowField.name).Nodup) :
    (more.foldlM addField start).isSome = true ↔ ((start ++ more).map RowField.name).Nodup := by
  induction more generalizing start with
  | nil =>
      rw [List.append_nil]
      exact ⟨fun _ => hstart, fun _ => rfl⟩
  | cons field more ih =>
      rw [List.foldlM_cons, addField]
      split
      · rename_i htaken
        obtain ⟨f, hf, hname⟩ := List.any_eq_true.mp htaken
        refine ⟨nofun, fun hnodup => ?_⟩
        rw [List.map_append, List.nodup_append] at hnodup
        exact absurd (eq_of_beq hname) (hnodup.2.2 _ (List.mem_map_of_mem hf) _ List.mem_cons_self)
      · rename_i hfree
        have hnext : ((start ++ [field]).map RowField.name).Nodup := by
          rw [List.map_append, List.map_singleton, List.nodup_append]
          refine ⟨hstart, List.nodup_singleton _, ?_⟩
          rintro _ hmem _ hfield rfl
          obtain ⟨f, hf, hname⟩ := List.mem_map.mp hmem
          rw [List.mem_singleton.mp hfield] at hname
          exact hfree (List.any_eq_true.mpr ⟨f, hf, beq_iff_eq.mpr hname⟩)
        rw [Option.bind_eq_bind, Option.bind_some, ih hnext, List.append_assoc]
        rfl

end Graphql

/-- A statement gives a table a column. -/
def Statement.Declares (table name : String) : Statement → Prop
  | .createTable t columns _ => t = table ∧ ∃ c ∈ columns, c.name = name
  | .addColumn t column _ => t = table ∧ column = name
  | .createIndex _ _ _ _ => False
  | .receiptsForeignKey => False

/-- The schemas give a table a column. -/
def Migrated (desired : List EventSchema) (table name : String) : Prop :=
  ∃ stmt ∈ desired.flatMap Ddl.tableStatements, stmt.Declares table name

/-- The columns of a schema's table, as the schema has them. -/
def EventSchema.columnNames (schema : EventSchema) : List String :=
  (Ddl.metaColumns schema.table).map DeclaredColumn.name ++ schema.columns.map ColumnDef.name

/-- The names a row type gives its fields: of the columns, and of the rows embedded in an event. -/
def EventSchema.fieldNames (schema : EventSchema) : List String :=
  schema.columnNames ++ if schema.topic0.isSome then ["transaction", "receipt"] else []

/-- Rows of a table are read with the columns it is migrated to have: they are projected, they can
be filtered by where the table can be queried, and its row type can be made and has them. -/
structure ReadsColumns (schemas desired : List EventSchema) (table : String) : Prop where
  projected : ∀ name, (((PgEventQueryRepository.new schemas).tables table).isSome = true ∧
    name ∈ (PgEventQueryRepository.new schemas).projected table) ↔ Migrated desired table name
  filterable : tableHasIdx table = true → ∀ name,
    (((PgEventQueryRepository.new schemas).tables table).isSome = true ∧
      ((PgEventQueryRepository.new schemas).colType table name).isSome = true) ↔
      Migrated desired table name
  typed : ∀ schema ∈ schemas, schema.table = table → ∃ fields,
    Graphql.rowType schemas schema = some fields ∧
    ∀ name, name ∈ fields.filterMap Graphql.RowField.column? ↔ Migrated desired table name

/-- Every column of every table is read, in whichever order the reader and the migrator go through
the hash maps. -/
def EveryColumnRead (alloy : Alloy) (chains : List (List ContractSpec)) : Prop :=
  ∀ sources, configSources alloy chains = .ok sources → ∀ read desired, Reads sources read →
    Reads sources desired → ∀ table, ReadsColumns (querySchemas read) desired table

/-- Each schema that can be the first of its table has the columns of all others, and no two fields
of its row type have one name. -/
def FirstsComplete (alloy : Alloy) (chains : List (List ContractSpec)) : Prop :=
  ∀ sources, configSources alloy chains = .ok sources → ∀ table,
    ∀ first ∈ firsts (fun s => s.table == table) sources, first.fieldNames.Nodup ∧
    ∀ other ∈ entries sources, other.table = table →
    ∀ name ∈ other.columnNames, name ∈ first.columnNames

section Columns

/-- Only the creation of a table and the addition of its columns declare a column. -/
theorem columnNames_of_declares {schema : EventSchema} {stmt : Statement} {table name : String}
    (hstmt : stmt ∈ Ddl.tableStatements schema) (hdeclares : stmt.Declares table name) :
    schema.table = table ∧ name ∈ schema.columnNames := by
  rcases List.mem_cons.mp hstmt with rfl | hstmt
  · obtain ⟨htable, c, hc, rfl⟩ := hdeclares
    refine ⟨htable, ?_⟩
    rcases List.mem_append.mp hc with hc | hc
    · exact List.mem_append_left _ (List.mem_map.mpr ⟨c, hc, rfl⟩)
    · obtain ⟨column, hcolumn, rfl⟩ := List.mem_map.mp hc
      exact List.mem_append_right _ (List.mem_map.mpr ⟨column, hcolumn, rfl⟩)
  rcases List.mem_append.mp hstmt with hstmt | hstmt
  · rcases List.mem_append.mp hstmt with hstmt | hstmt
    · obtain ⟨column, hcolumn, rfl⟩ := List.mem_map.mp hstmt
      obtain ⟨htable, rfl⟩ := hdeclares
      exact ⟨htable, List.mem_append_right _ (List.mem_map.mpr ⟨column, hcolumn, rfl⟩)⟩
    · rcases List.mem_append.mp hstmt with hstmt | hstmt
      · split at hstmt
        · exact absurd hstmt List.not_mem_nil
        · rw [List.mem_singleton.mp hstmt] at hdeclares
          cases hdeclares
      · obtain ⟨pos, -, hpos⟩ := List.mem_filterMap.mp hstmt
        obtain ⟨column, -, rfl⟩ := Option.map_eq_some_iff.mp hpos
        cases hdeclares
  · unfold Ddl.foreignKeys at hstmt
    split at hstmt
    · rw [List.mem_singleton.mp hstmt] at hdeclares
      cases hdeclares
    · exact absurd hstmt List.not_mem_nil

theorem declares_createTable {schema : EventSchema} {name : String}
    (h : name ∈ schema.columnNames) : (Ddl.createTable schema).Declares schema.table name := by
  refine ⟨rfl, ?_⟩
  rcases List.mem_append.mp h with h | h
  · obtain ⟨c, hc, rfl⟩ := List.mem_map.mp h
    exact ⟨c, List.mem_append_left _ hc, rfl⟩
  · obtain ⟨column, hcolumn, rfl⟩ := List.mem_map.mp h
    exact ⟨_, List.mem_append_right _ (List.mem_map.mpr ⟨column, hcolumn, rfl⟩), rfl⟩

theorem declares_tableStatements {schema : EventSchema} {table name : String} :
    (∃ stmt ∈ Ddl.tableStatements schema, stmt.Declares table name) ↔
      schema.table = table ∧ name ∈ schema.columnNames := by
  constructor
  · intro h
    obtain ⟨stmt, hstmt, hdeclares⟩ := h
    exact columnNames_of_declares hstmt hdeclares
  · intro h
    obtain ⟨rfl, hname⟩ := h
    exact ⟨Ddl.createTable schema, List.mem_cons_self, declares_createTable hname⟩

/-- A table is migrated to the columns of all its schemas. -/
theorem migrated_iff {desired : List EventSchema} {table name : String} :
    Migrated desired table name ↔
      ∃ schema ∈ desired, schema.table = table ∧ name ∈ schema.columnNames := by
  constructor
  · intro h
    obtain ⟨stmt, hstmt, hdeclares⟩ := h
    obtain ⟨schema, hschema, hmem⟩ := List.mem_flatMap.mp hstmt
    exact ⟨schema, hschema, declares_tableStatements.mp ⟨stmt, hmem, hdeclares⟩⟩
  · intro h
    obtain ⟨schema, hschema, hcolumn⟩ := h
    obtain ⟨stmt, hmem, hdeclares⟩ := declares_tableStatements.mpr hcolumn
    exact ⟨stmt, List.mem_flatMap.mpr ⟨schema, hschema, hmem⟩, hdeclares⟩

variable {read : List EventSchema} {table : String}

/-- The reader knows a table by the first schema it has read of it. -/
theorem tables_querySchemas (read : List EventSchema) (table : String) :
    (PgEventQueryRepository.new (querySchemas read)).tables table =
      (read.find? fun s => s.table == table).map fun s => s.columns.map fun c => (c.name, c.ty) := by
  have hkept : (querySchemas read).find? (fun s => s.table == table) =
      read.find? fun s => s.table == table := find?_keepFirst List.not_mem_nil read
  have hnodup : ((querySchemas read).map EventSchema.table).Nodup := nodup_keepFirst [] read
  have hreverse := find?_reverse_of_nodup hnodup table
  rw [PgEventQueryRepository.new, ← hkept]
  exact congrArg (Option.map _) hreverse

theorem table_of_find? {first : EventSchema}
    (h : (read.find? fun s => s.table == table) = some first) : first.table = table :=
  beq_iff_eq.mp (List.find?_some (p := fun s : EventSchema => s.table == table) h)

theorem find?_of_mem_querySchemas {schema : EventSchema} (h : schema ∈ querySchemas read)
    (htable : schema.table = table) : (read.find? fun s => s.table == table) = some schema := by
  have hkept : (querySchemas read).find? (fun s => s.table == table) =
      read.find? fun s => s.table == table := find?_keepFirst List.not_mem_nil read
  rw [← hkept, ← htable]
  exact find?_of_nodup (nodup_keepFirst [] read) h

theorem metaColType_isSome {name : String} (h : tableHasIdx table = true) :
    (metaColType name).isSome = true ↔ name ∈ (Ddl.metaColumns table).map DeclaredColumn.name := by
  rw [Ddl.metaColumns, if_pos h]
  constructor
  · intro hsome
    unfold metaColType at hsome
    split at hsome <;> first | decide | cases hsome
  · intro hmem
    simp only [List.cons_append, List.nil_append, List.map_cons, List.map_nil, List.mem_cons,
      List.not_mem_nil, or_false] at hmem
    rcases hmem with rfl | rfl | rfl | rfl | rfl | rfl <;> rfl

theorem isSome_lookup {cols : List ColumnDef} {name : String} :
    ((cols.map fun c => (c.name, c.ty)).lookup name).isSome = true ↔
      name ∈ cols.map ColumnDef.name := by
  induction cols with
  | nil => simp
  | cons c cols ih =>
      rw [List.map_cons, List.map_cons, List.lookup_cons, List.mem_cons]
      cases hname : name == c.name with
      | true => simp [beq_iff_eq.mp hname]
      | false =>
          have hne : name ≠ c.name := by simpa using hname
          rw [or_iff_right hne]
          exact ih

/-- The columns of a row type are those of its schema. -/
theorem mem_columns_rowType {schemas : List EventSchema} {schema : EventSchema}
    {fields : List Graphql.RowField} (h : Graphql.rowType schemas schema = some fields)
    {name : String} :
    name ∈ fields.filterMap Graphql.RowField.column? ↔ name ∈ schema.columnNames := by
  rw [Graphql.rowObject_eq_some h, Graphql.rowFields, EventSchema.columnNames, Ddl.metaColumns]
  have hcolumns : (schema.columns.map fun c => Graphql.RowField.json c.name c.ty false).filterMap
      Graphql.RowField.column? = schema.columns.map ColumnDef.name := by
    rw [List.filterMap_map, ← List.filterMap_eq_map]
    rfl
  have hnested : ∀ (b : Bool) (field type : String),
      ((if b then [Graphql.RowField.nested field type] else []).filterMap
        Graphql.RowField.column?) = [] := by
    intro b field type
    cases b <;> rfl
  rw [List.filterMap_append, List.filterMap_append, List.filterMap_append, List.filterMap_append,
    hcolumns, hnested, hnested, List.append_nil, List.append_nil, List.map_append]
  cases tableHasIdx schema.table <;> rfl

/-- With the aux tables among the schemas, a row type can be made of distinct names. -/
theorem isSome_rowType {schemas : List EventSchema}
    (haux : ∀ schema ∈ Enrichment.auxSchemas, (schemas.any fun s => s.table == schema.table) = true)
    (schema : EventSchema) :
    (Graphql.rowType schemas schema).isSome = true ↔ schema.fieldNames.Nodup := by
  have htransactions : (schemas.any fun s => s.table == transactionsTable) = true :=
    haux _ List.mem_cons_self
  have hreceipts : (schemas.any fun s => s.table == receiptsTable) = true :=
    haux _ (List.mem_cons_of_mem _ List.mem_cons_self)
  have hnames : ∀ isEvent : Bool, ((Graphql.rowFields schema isEvent fun table =>
      schemas.any fun s => s.table == table).map Graphql.RowField.name) =
      schema.columnNames ++ if isEvent then ["transaction", "receipt"] else [] := by
    intro isEvent
    rw [Graphql.rowFields, htransactions, hreceipts, EventSchema.columnNames, Ddl.metaColumns]
    simp only [List.map_append, List.map_map, List.append_assoc]
    cases tableHasIdx schema.table <;> cases isEvent <;> rfl
  have hstart : (([] : List Graphql.RowField).map Graphql.RowField.name).Nodup := List.nodup_nil
  rw [Graphql.rowType, Graphql.rowObject, Graphql.isSome_foldlM_addField hstart, List.nil_append,
    hnames, EventSchema.fieldNames]

/-- The first schema of a table is the one its row type is made for. -/
theorem mem_querySchemas_of_find? {first : EventSchema}
    (h : (read.find? fun s => s.table == table) = some first) : first ∈ querySchemas read := by
  have hkept : (querySchemas read).find? (fun s => s.table == table) =
      read.find? fun s => s.table == table := find?_keepFirst List.not_mem_nil read
  rw [← hkept] at h
  exact List.mem_of_find?_eq_some h

/-- The reader has a schema of every table it has read one of. -/
theorem any_querySchemas {schema : EventSchema} (h : schema ∈ read) :
    ((querySchemas read).any fun s => s.table == schema.table) = true := by
  have hsome : (read.find? fun s => s.table == schema.table).isSome = true := by
    rw [List.find?_isSome]
    exact ⟨schema, h, beq_self_eq_true _⟩
  obtain ⟨first, hfirst⟩ := Option.isSome_iff_exists.mp hsome
  exact List.any_eq_true.mpr
    ⟨first, mem_querySchemas_of_find? hfirst, beq_iff_eq.mpr (table_of_find? hfirst)⟩

/-- All columns of a table are read when they are those of the schema read first, and its row type
can be made. -/
theorem readsColumns_iff {desired : List EventSchema}
    (haux : ∀ s ∈ read, Enrichment.auxSchemas ⊆ read) :
    ReadsColumns (querySchemas read) desired table ↔
      (∀ first, (read.find? fun s => s.table == table) = some first → first.fieldNames.Nodup) ∧
      ∀ name, (∃ first, (read.find? fun s => s.table == table) = some first ∧
        name ∈ first.columnNames) ↔ Migrated desired table name := by
  have hprojected : ∀ name, (((PgEventQueryRepository.new (querySchemas read)).tables table).isSome =
      true ∧ name ∈ (PgEventQueryRepository.new (querySchemas read)).projected table) ↔
      ∃ first, (read.find? fun s => s.table == table) = some first ∧ name ∈ first.columnNames := by
    intro name
    rw [PgEventQueryRepository.projected, tables_querySchemas]
    cases hfind : read.find? fun s => s.table == table with
    | none => simp
    | some first =>
        simp [EventSchema.columnNames, table_of_find? hfind]
  have htyped : ∀ first, (read.find? fun s => s.table == table) = some first →
      ((Graphql.rowType (querySchemas read) first).isSome = true ↔ first.fieldNames.Nodup) := by
    intro first hfind
    have hread := haux first (List.mem_of_find?_eq_some hfind)
    exact isSome_rowType (fun s hs => any_querySchemas (hread hs)) first
  constructor
  · intro h
    refine ⟨fun first hfind => ?_, fun name => ?_⟩
    · obtain ⟨fields, hfields, -⟩ :=
        h.typed first (mem_querySchemas_of_find? hfind) (table_of_find? hfind)
      exact (htyped first hfind).mp (Option.isSome_of_eq_some hfields)
    · rw [← hprojected]
      exact h.projected name
  · rintro ⟨hnodup, h⟩
    refine ⟨fun name => (hprojected name).trans (h name), ?_, ?_⟩
    · intro hidx name
      rw [← h name, PgEventQueryRepository.colType, tables_querySchemas]
      cases hfind : read.find? fun s => s.table == table with
      | none => simp
      | some first =>
          rw [Option.map_some, Option.isSome_some, Option.bind_some, Option.isSome_or,
            Bool.or_eq_true, metaColType_isSome hidx, isSome_lookup]
          simp [EventSchema.columnNames, table_of_find? hfind]
    · intro schema hschema htable
      have hfind := find?_of_mem_querySchemas hschema htable
      obtain ⟨fields, hfields⟩ := Option.isSome_iff_exists.mp
        ((htyped schema hfind).mpr (hnodup schema hfind))
      refine ⟨fields, hfields, fun name => ?_⟩
      rw [mem_columns_rowType hfields, ← h name, hfind]
      simp

variable {alloy : Alloy} {chains : List (List ContractSpec)}

/-- Every chain's decoder has the aux schemas. -/
theorem auxSchemas_of_read {sources : List (Source EventSchema)}
    (hsources : configSources alloy chains = .ok sources) (hread : Reads sources read) :
    ∀ s ∈ read, Enrichment.auxSchemas ⊆ read := by
  rw [configSources, Rows.bind_eq_ok] at hsources
  obtain ⟨maps, -, heq⟩ := hsources
  cases heq
  intro s hs aux haux
  obtain ⟨source, hsource, -⟩ := List.mem_flatMap.mp (hread.mem_iff.mp hs)
  obtain ⟨chain, hchain, -⟩ := List.mem_flatMap.mp hsource
  have hlist : Source.list Enrichment.auxSchemas ∈ maps.flatMap AbiMaps.sources :=
    List.mem_flatMap.mpr ⟨chain, hchain, List.mem_cons_of_mem _ (List.mem_cons_of_mem _
      List.mem_cons_self)⟩
  exact hread.mem_iff.mpr (List.mem_flatMap.mpr ⟨_, hlist, haux⟩)

/-- A schema that can come first comes first in some order. -/
theorem firstsComplete_of_read (h : EveryColumnRead alloy chains) : FirstsComplete alloy chains := by
  intro sources hsources table first hfirst
  obtain ⟨read, hread, hfind⟩ := exists_reads_find? hfirst
  obtain ⟨hnodup, hcolumns⟩ := (readsColumns_iff (auxSchemas_of_read hsources hread)).mp
    (h sources hsources read read hread hread table)
  refine ⟨hnodup first hfind, fun other hother htable name hname => ?_⟩
  have hmigrated : Migrated read table name :=
    migrated_iff.mpr ⟨other, hread.mem_iff.mpr hother, htable, hname⟩
  obtain ⟨kept, hkept, hmem⟩ := (hcolumns name).mpr hmigrated
  rw [hfind, Option.some.injEq] at hkept
  rw [hkept]
  exact hmem

theorem read_of_firstsComplete (h : FirstsComplete alloy chains) : EveryColumnRead alloy chains := by
  intro sources hsources read desired hread hdesired table
  apply (readsColumns_iff (auxSchemas_of_read hsources hread)).mpr
  refine ⟨fun first hfind => (h sources hsources table first (hread.mem_firsts hfind)).1, ?_⟩
  intro name
  rw [migrated_iff]
  constructor
  · intro hfirst
    obtain ⟨first, hfind, hname⟩ := hfirst
    have hmem := hread.mem_iff.mp (List.mem_of_find?_eq_some hfind)
    exact ⟨first, hdesired.mem_iff.mpr hmem, table_of_find? hfind, hname⟩
  · intro hother
    obtain ⟨other, hother, htable, hname⟩ := hother
    have hmem := hdesired.mem_iff.mp hother
    have hsome : (read.find? fun s => s.table == table).isSome = true := by
      rw [List.find?_isSome]
      exact ⟨other, hread.mem_iff.mpr hmem, beq_iff_eq.mpr htable⟩
    obtain ⟨first, hfind⟩ := Option.isSome_iff_exists.mp hsome
    exact ⟨first, hfind, (h sources hsources table first (hread.mem_firsts hfind)).2 other hmem
      htable name hname⟩

end Columns

section TableOverride

/-- `Approval(address indexed owner, address indexed spender, uint256 value)`. -/
def erc20Approval : AbiEvent where
  name := "Approval"
  inputs := [⟨"address", "owner", true⟩, ⟨"address", "spender", true⟩, ⟨"uint256", "value", false⟩]
  anonymous := false
  name_ident := by decide

def approvalSelector : Hash :=
  ⟨[0x8c, 0x5b, 0xe1, 0xe5, 0xeb, 0xec, 0x7d, 0x5b, 0xd1, 0x4f, 0x71, 0x42, 0x7d, 0x1e, 0x84, 0xf3,
    0xdd, 0x03, 0x14, 0xc0, 0xf7, 0xb2, 0x29, 0x1e, 0x5b, 0x20, 0x0a, 0xc8, 0xc7, 0xc3, 0xb9, 0x25]⟩

@[irreducible] def tokenJson : String :=
  "[\x7b\"type\":\"event\",\"name\":\"Transfer\",\"anonymous\":false,\"inputs\":[" ++
  "\x7b\"name\":\"from\",\"type\":\"address\",\"indexed\":true\x7d," ++
  "\x7b\"name\":\"to\",\"type\":\"address\",\"indexed\":true\x7d," ++
  "\x7b\"name\":\"value\",\"type\":\"uint256\",\"indexed\":false\x7d]\x7d," ++
  "\x7b\"type\":\"event\",\"name\":\"Approval\",\"anonymous\":false,\"inputs\":[" ++
  "\x7b\"name\":\"owner\",\"type\":\"address\",\"indexed\":true\x7d," ++
  "\x7b\"name\":\"spender\",\"type\":\"address\",\"indexed\":true\x7d," ++
  "\x7b\"name\":\"value\",\"type\":\"uint256\",\"indexed\":false\x7d]\x7d]"

/-- The library on this file. -/
def tokenAlloy : Alloy where
  parse text :=
    if text = tokenJson then .ok ⟨[erc20Transfer, erc20Approval], []⟩
    else .error "expected value at line 1 column 1"
  eventSelector event :=
    if event.name = "Transfer" then transferSelector
    else if event.name = "Approval" then approvalSelector
    else word 0
  functionSelector _ := [0, 0, 0, 0]
  decodeLogParts _ _ _ := .error "topic list length mismatch"
  abiDecodeInput _ _ := .error "buffer overrun while deserializing"
  eventSelector_length event := by
    split
    · rfl
    · split <;> rfl

/-- Both events of a token into one table of its own. -/
def tokenSpec : ContractSpec :=
  ⟨tokenJson, ["Transfer", "Approval"], [], ⟨List.replicate 20 3⟩, "erc20", some "usdc_token"⟩

theorem parse_token :
    tokenAlloy.parse tokenSpec.abiJson = .ok ⟨[erc20Transfer, erc20Approval], []⟩ := if_pos rfl

variable {alloy : Alloy}

/-- An event listed last under its selector has its schema in the index. -/
theorem mem_schemas_of_last {specs : List ContractSpec} {maps : AbiMaps}
    (h : AbiMaps.build alloy specs = .ok maps) {topic : Hash} {last : ContractSpec × AbiEvent}
    (hlast : (underTopic alloy specs topic).getLast? = some last) :
    (eventEntry alloy last.1 last.2).2.schema ∈ maps.schemas := by
  have hfind := find?_byTopic0 h topic
  rw [hlast, Option.map_some] at hfind
  obtain ⟨hmem, -⟩ := Keyed.Table.find?_eq_some.mp hfind
  exact List.mem_map.mpr ⟨_, hmem, rfl⟩

end TableOverride

end Topic0
