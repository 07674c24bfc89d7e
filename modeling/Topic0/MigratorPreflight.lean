import Topic0.AbiValues
import Topic0.MigratorDeliver
import Topic0.QueryRepository

/-! The schema check a service makes before it starts. It asks whether every configured table is
there and nothing about their columns, while the writer names the columns of the decoded rows and
the reader those of its projections. So a table that an earlier configuration left without a column,
or with another type, passes; the check is sound exactly when no such table is there. -/

namespace Topic0

open Keyed

namespace Migrator

def isInSync (live : Catalog) (desired : List EventSchema) : Bool :=
  desired.all fun schema => live.tableExists schema.table

def outOfSync : String := "schema out of sync with config; run `indexer migrate`"

/-- The boot preflight of the data-path commands. -/
def preflight (live : Catalog) (desired : List EventSchema) : Except String Unit :=
  if !isInSync live desired then .error outOfSync else .ok ()

end Migrator

namespace EventRepo

/-- What a row gives the meta columns; a block time it does not have is written as `NULL`. -/
def metaAssigns (table : String) (row : EventRow) : List (String × Option PgType) :=
  [("chain_id", some .bigint), ("height", some .bigint), ("block_hash", some .bytea),
    ("block_time", row.blockTime.map fun _ => .timestamptz), ("tx_id", some .bytea)] ++
  if tableHasIdx table then [("idx", some .bigint)] else []

/-- The columns an `INSERT` of a row names, with the types of what it binds to them. -/
def assigns (table : String) (row : EventRow) : List (String × Option PgType) :=
  metaAssigns table row ++ row.event.fields.map fun field => (field.1, some (valueType field.2))

/-- The `INSERT` statements of a batch, each with its rows, up to the first unsafe identifier. -/
def inserts (table : String) (rows : List EventRow) : List (List EventRow) :=
  if isValidIdent table then
    ((upsertParts table rows).takeWhile fun part => part.1.all isValidIdent).map Prod.snd
  else []

/-- Only safe identifiers get into a statement. -/
theorem of_mem_inserts {table : String} {rows part : List EventRow} (h : part ∈ inserts table rows) :
    isValidIdent table = true ∧
      ∀ row ∈ part, row ∈ rows ∧ ∀ name ∈ signature row, isValidIdent name = true := by
  unfold inserts at h
  split at h
  · rename_i htable
    refine ⟨htable, fun row hrow => ?_⟩
    obtain ⟨group, hgroup, rfl⟩ := List.mem_map.mp h
    have hnames := List.mem_takeWhile_imp
      (p := fun part : List String × List EventRow => part.1.all isValidIdent) hgroup
    have hpart := (List.takeWhile_prefix _).subset hgroup
    refine ⟨(mem_upsertParts hpart).2 row hrow, ?_⟩
    rw [signature_of_mem_upsertParts hpart hrow]
    exact List.all_eq_true.mp hnames
  · exact absurd h List.not_mem_nil

/-- A row with safe identifiers is written. -/
theorem exists_insert {table : String} {row : EventRow} (htable : isValidIdent table = true)
    (hnames : ∀ name ∈ signature row, isValidIdent name = true) :
    ∃ part ∈ inserts table [row], row ∈ part := by
  have hmem : row ∈ (upsertParts table [row]).flatMap Prod.snd :=
    (upsertParts_perm table [row]).mem_iff.mpr List.mem_cons_self
  obtain ⟨part, hpart, hrow⟩ := List.mem_flatMap.mp hmem
  have hall : (upsertParts table [row]).takeWhile (fun part => part.1.all isValidIdent) =
      upsertParts table [row] := by
    rw [List.takeWhile_eq_self_iff]
    intro part hpart
    obtain ⟨⟨row', hrow', hsignature⟩, -⟩ := mem_upsertParts hpart
    rw [List.mem_singleton.mp hrow'] at hsignature
    rw [hsignature]
    exact List.all_eq_true.mpr hnames
  refine ⟨part.2, ?_, hrow⟩
  rw [inserts, if_pos htable, hall]
  exact List.mem_map_of_mem hpart

end EventRepo

namespace PgEventQueryRepository

/-- `row_json`: the columns a table's rows are projected to. -/
def projected (repo : PgEventQueryRepository) (table : String) : List String :=
  (Ddl.metaColumns table).map DeclaredColumn.name ++
    ((repo.tables table).getD []).map Prod.fst

/-- The columns of the main table and of the joined ones that a `SELECT` names. Its projection, its
order and its cursor name those of the table, and so do its conditions, which are all that a count
has. -/
def referenced (repo : PgEventQueryRepository) (sel : Select) : List (String × String) :=
  (repo.projected sel.table ++ sel.conds.map Condition.column).map (fun name => (sel.table, name)) ++
  (if sel.joinTx then (repo.projected transactionsTable).map fun name => (transactionsTable, name)
    else []) ++
  if sel.joinReceipt then (repo.projected receiptsTable).map fun name => (receiptsTable, name) else []

section Referenced

variable {repo : PgEventQueryRepository} {sel : Select} {name : String}

theorem mem_referenced_main (h : name ∈ repo.projected sel.table) :
    (sel.table, name) ∈ repo.referenced sel := by
  apply List.mem_append_left
  apply List.mem_append_left
  exact List.mem_map.mpr ⟨name, List.mem_append_left _ h, rfl⟩

theorem mem_referenced_receipt (hjoin : sel.joinReceipt = true)
    (h : name ∈ repo.projected receiptsTable) : (receiptsTable, name) ∈ repo.referenced sel := by
  apply List.mem_append_right
  rw [if_pos hjoin]
  exact List.mem_map.mpr ⟨name, h, rfl⟩

end Referenced

end PgEventQueryRepository

/-- The columns a name can be read by. -/
def Catalog.readable (c : Catalog) (name : String) : Option Columns :=
  match c.relation name with
  | some (.table columns) | some (.view columns) => some columns
  | _ => none

/-- Some decoded value is of the type. -/
def ColumnType.written : ColumnType → Bool
  | .int64 | .timestamp => false
  | _ => true

theorem exists_value_iff (ty : ColumnType) :
    (∃ value, EventRepo.valueType value = pgType ty) ↔ ty.written = true := by
  constructor
  · intro ⟨value, hvalue⟩
    cases ty with
    | int64 => cases value <;> cases hvalue
    | timestamp => cases value <;> cases hvalue
    | _ => rfl
  · intro h
    cases ty with
    | address => exact ⟨.address [], rfl⟩
    | uint bits => exact ⟨.uint "0", rfl⟩
    | int bits => exact ⟨.int "0", rfl⟩
    | bool => exact ⟨.bool true, rfl⟩
    | bytes => exact ⟨.bytes [], rfl⟩
    | utf8 => exact ⟨.string "", rfl⟩
    | json => exact ⟨.json "null", rfl⟩
    | int64 => cases h
    | timestamp => cases h

namespace Migrator

section Statements

variable (live : Catalog) (desired : List EventSchema)

/-- A row of a schema: its fields are columns of the schema, with values of their types. Optional
ones may be missing. -/
def RowOf (schema : EventSchema) (row : EventRow) : Prop :=
  row.event.table = schema.table ∧ ∀ field ∈ row.event.fields, ∃ col ∈ schema.columns, Stored col field

/-- Every `INSERT` of rows of the desired schemas is into a table and names columns of it, of the
types of what it binds. -/
def InsertsExist : Prop :=
  ∀ schema ∈ desired, ∀ rows, (∀ row ∈ rows, RowOf schema row) →
    ∀ part ∈ EventRepo.inserts schema.table rows, ∀ row ∈ part,
      ∃ columns, live.relation schema.table = some (.table columns) ∧
        ∀ a ∈ EventRepo.assigns schema.table row, ∃ ty, (a.1, ty) ∈ columns ∧
          ∀ ty', a.2 = some ty' → ty' = ty

/-- Every `SELECT` a reader builds names columns that are there. -/
def SelectsExist (live : Catalog) (repo : PgEventQueryRepository) : Prop :=
  ∀ spec table conds after, repo.validateTable spec = .ok table →
    repo.buildFilters table spec.filters = .ok conds →
    PgEventQueryRepository.parseAfter spec.after = .ok after →
    ∀ ref ∈ repo.referenced (repo.select spec table conds after),
      ∃ columns ty, live.readable ref.1 = some columns ∧ (ref.2, ty) ∈ columns

/-- The schema a reader knows for its table, which it reads by itself or, if it is that of the
receipts, joined to some other table. -/
def ReadFrom (schema : EventSchema) : Prop :=
  (desired.reverse.find? fun s => s.table == schema.table) = some schema ∧
    (tableHasIdx schema.table = true ∨
      ∃ s ∈ desired, isValidIdent s.table = true ∧ s.table ∉ auxTables)

/-- The live table has what the schema needs: the meta columns, every column that can be written
with its type, and every column that is read. -/
def Provided (schema : EventSchema) : Prop :=
  ∃ columns, live.relation schema.table = some (.table columns) ∧
    (∀ m ∈ Ddl.metaColumns schema.table, (m.name, m.ty) ∈ columns) ∧
    (∀ col ∈ schema.columns, isValidIdent col.name = true → col.ty.written = true →
      (col.name, pgType col.ty) ∈ columns) ∧
    (ReadFrom desired schema → ∀ col ∈ schema.columns, ∃ ty, (col.name, ty) ∈ columns)

/-- The preflight lets a service start only if its statements name what is there; otherwise it
refuses. -/
def PreflightSound : Prop :=
  (isInSync live desired = true → InsertsExist live desired ∧ SelectsExist live (.new desired)) ∧
    (¬(InsertsExist live desired ∧ SelectsExist live (.new desired)) →
      isInSync live desired = false ∧ preflight live desired = .error outOfSync)

end Statements

section Write

variable {live : Catalog} {desired : List EventSchema}

/-- A meta column is assigned a value of the type it is declared with, or `NULL`. -/
theorem metaAssigns_eq (table : String) (row : EventRow) :
    EventRepo.metaAssigns table row = (Ddl.metaColumns table).map fun m =>
      (m.name, if m.name = "block_time" then row.blockTime.map fun _ => m.ty else some m.ty) := by
  unfold EventRepo.metaAssigns Ddl.metaColumns
  cases tableHasIdx table with
  | true => simp
  | false => simp

theorem mem_metaAssigns {table : String} {row : EventRow} {a : String × Option PgType}
    (h : a ∈ EventRepo.metaAssigns table row) :
    ∃ m ∈ Ddl.metaColumns table, m.name = a.1 ∧ ∀ ty, a.2 = some ty → ty = m.ty := by
  rw [metaAssigns_eq] at h
  obtain ⟨m, hm, rfl⟩ := List.mem_map.mp h
  refine ⟨m, hm, rfl, fun ty hty => ?_⟩
  simp only at hty
  split at hty
  · obtain ⟨_, -, rfl⟩ := Option.map_eq_some_iff.mp hty
    rfl
  · cases hty
    rfl

theorem insertsExist_of_provided
    (h : ∀ schema ∈ desired, isValidIdent schema.table = true → Provided live desired schema) :
    InsertsExist live desired := by
  intro schema hschema rows hrows part hpart row hrow
  obtain ⟨htable, hsafe⟩ := EventRepo.of_mem_inserts hpart
  obtain ⟨hmem, hnames⟩ := hsafe row hrow
  obtain ⟨columns, hcolumns, hmeta, hwritten, -⟩ := h schema hschema htable
  refine ⟨columns, hcolumns, fun a ha => ?_⟩
  rcases List.mem_append.mp ha with ha | ha
  · obtain ⟨m, hm, hname, htype⟩ := mem_metaAssigns ha
    exact ⟨m.ty, hname ▸ hmeta m hm, htype⟩
  · obtain ⟨field, hfield, rfl⟩ := List.mem_map.mp ha
    obtain ⟨col, hcol, hname, htype⟩ := (hrows row hmem).2 field hfield
    have hident : isValidIdent col.name = true := by
      rw [← hname]
      exact hnames field.1 (List.mem_map_of_mem hfield)
    refine ⟨pgType col.ty, ?_, fun ty hty => ?_⟩
    · rw [hname]
      exact hwritten col hcol hident ((exists_value_iff col.ty).mp ⟨field.2, htype⟩)
    · cases hty
      exact htype

/-- A row of a table with the given fields. -/
def rowWith (table : String) (fields : List (String × EventValue)) : EventRow :=
  ⟨1, 1, ⟨[]⟩, some 0, ⟨[]⟩, 0, ⟨table, fields⟩⟩

/-- The statements that can be written show which columns the table has. -/
theorem written_of_insertsExist (h : InsertsExist live desired) {schema : EventSchema}
    (hschema : schema ∈ desired) (htable : isValidIdent schema.table = true) :
    ∃ columns, live.relation schema.table = some (.table columns) ∧
      (∀ m ∈ Ddl.metaColumns schema.table, (m.name, m.ty) ∈ columns) ∧
      ∀ col ∈ schema.columns, isValidIdent col.name = true → col.ty.written = true →
        (col.name, pgType col.ty) ∈ columns := by
  have hinsert : ∀ fields : List (String × EventValue),
      (∀ field ∈ fields, isValidIdent field.1 = true ∧ ∃ col ∈ schema.columns, Stored col field) →
      ∃ columns, live.relation schema.table = some (.table columns) ∧
        ∀ a ∈ EventRepo.assigns schema.table (rowWith schema.table fields), ∀ ty, a.2 = some ty →
          (a.1, ty) ∈ columns := by
    intro fields hfields
    have hnames : ∀ name ∈ EventRepo.signature (rowWith schema.table fields),
        isValidIdent name = true := by
      intro name hname
      obtain ⟨field, hfield, rfl⟩ := List.mem_map.mp hname
      exact (hfields field hfield).1
    obtain ⟨part, hpart, hrow⟩ := EventRepo.exists_insert htable hnames
    have hof : ∀ row ∈ [rowWith schema.table fields], RowOf schema row :=
      List.forall_mem_singleton.mpr ⟨rfl, fun field hfield => (hfields field hfield).2⟩
    obtain ⟨columns, hcolumns, hall⟩ := h schema hschema _ hof part hpart _ hrow
    refine ⟨columns, hcolumns, fun a ha ty hty => ?_⟩
    obtain ⟨ty', hmem, hsame⟩ := hall a ha
    rw [hsame ty hty]
    exact hmem
  obtain ⟨columns, hcolumns, hmetas⟩ := hinsert [] fun _ hfield => absurd hfield List.not_mem_nil
  refine ⟨columns, hcolumns, fun m hm => ?_, fun col hcol hident hwritten => ?_⟩
  · refine hmetas (m.name, some m.ty) (List.mem_append_left _ ?_) m.ty rfl
    rw [metaAssigns_eq, List.mem_map]
    exact ⟨m, hm, by simp [rowWith]⟩
  · obtain ⟨value, hvalue⟩ := (exists_value_iff col.ty).mpr hwritten
    obtain ⟨columns', hcolumns', hall⟩ := hinsert [(col.name, value)]
      (List.forall_mem_singleton.mpr ⟨hident, col, hcol, rfl, hvalue⟩)
    rw [hcolumns] at hcolumns'
    cases hcolumns'
    refine hall (col.name, some (pgType col.ty)) (List.mem_append_right _ ?_) _ rfl
    rw [← hvalue]
    exact List.mem_cons_self

end Write

section Read

variable {live : Catalog} {desired : List EventSchema}

/-- The reader knows a table by the schema that was listed last for it. -/
theorem tables_new {table : String} {cols : List (String × ColumnType)}
    (h : (PgEventQueryRepository.new desired).tables table = some cols) :
    ∃ schema ∈ desired, schema.table = table ∧
      (desired.reverse.find? fun s => s.table == schema.table) = some schema ∧
      cols = schema.columns.map fun c => (c.name, c.ty) := by
  obtain ⟨schema, hfind, rfl⟩ := Option.map_eq_some_iff.mp h
  have htable := List.find?_some hfind
  rw [beq_iff_eq] at htable
  refine ⟨schema, List.mem_reverse.mp (List.mem_of_find?_eq_some hfind), htable, ?_, rfl⟩
  rw [htable]
  exact hfind

theorem exists_tables_new {schema : EventSchema} (h : schema ∈ desired) :
    ∃ cols, (PgEventQueryRepository.new desired).tables schema.table = some cols := by
  have hsome : (desired.reverse.find? fun s => s.table == schema.table).isSome := by
    rw [List.find?_isSome]
    exact ⟨schema, List.mem_reverse.mpr h, beq_self_eq_true _⟩
  obtain ⟨last, hlast⟩ := Option.isSome_iff_exists.mp hsome
  exact ⟨_, Option.map_eq_some_iff.mpr ⟨last, hlast, rfl⟩⟩

/-- The columns a provided table is projected to are there. -/
theorem projected_of_provided {table : String} {cols : List (String × ColumnType)}
    (h : ∀ schema ∈ desired, isValidIdent schema.table = true → Provided live desired schema)
    (hcols : (PgEventQueryRepository.new desired).tables table = some cols)
    (htable : isValidIdent table = true)
    (hread : tableHasIdx table = true ∨
      ∃ s ∈ desired, isValidIdent s.table = true ∧ s.table ∉ auxTables) :
    ∃ columns, live.readable table = some columns ∧
      ∀ name ∈ (PgEventQueryRepository.new desired).projected table, ∃ ty, (name, ty) ∈ columns := by
  obtain ⟨schema, hschema, rfl, hlast, rfl⟩ := tables_new hcols
  obtain ⟨columns, hcolumns, hmeta, -, hall⟩ := h schema hschema htable
  refine ⟨columns, by rw [Catalog.readable, hcolumns], fun name hname => ?_⟩
  rw [PgEventQueryRepository.projected, hcols] at hname
  rcases List.mem_append.mp hname with hname | hname
  · obtain ⟨m, hm, rfl⟩ := List.mem_map.mp hname
    exact ⟨m.ty, hmeta m hm⟩
  · obtain ⟨pair, hpair, rfl⟩ := List.mem_map.mp hname
    obtain ⟨col, hcol, rfl⟩ := List.mem_map.mp hpair
    exact hall ⟨hlast, hread⟩ col hcol

theorem validateTable_ok {repo : PgEventQueryRepository} {spec : QuerySpec} {table : String} :
    repo.validateTable spec = .ok table ↔
      spec.table = table ∧ isValidIdent table = true ∧ tableHasIdx table = true ∧
        ∃ cols, repo.tables table = some cols := by
  unfold PgEventQueryRepository.validateTable
  cases hident : isValidIdent spec.table with
  | false =>
      constructor
      · exact nofun
      · intro ⟨htable, hvalid, _⟩
        rw [← htable, hident] at hvalid
        cases hvalid
  | true =>
      cases hidx : tableHasIdx spec.table with
      | false =>
          constructor
          · exact nofun
          · intro ⟨htable, _, hhas, _⟩
            rw [← htable, hidx] at hhas
            cases hhas
      | true =>
          cases hcols : repo.tables spec.table with
          | none =>
              constructor
              · exact nofun
              · intro ⟨htable, _, _, cols, hsome⟩
                rw [← htable, hcols] at hsome
                cases hsome
          | some cols =>
              constructor
              · intro h
                cases h
                exact ⟨rfl, hident, hidx, cols, hcols⟩
              · intro ⟨htable, _⟩
                rw [← htable]
                rfl

/-- A filter is on a meta column or on one of the table's. -/
theorem column_of_buildFilters {repo : PgEventQueryRepository} {table : String}
    {filters : List Filter} {conds : List Condition} (hidx : tableHasIdx table = true)
    (h : repo.buildFilters table filters = .ok conds) {cond : Condition} (hcond : cond ∈ conds) :
    cond.column ∈ repo.projected table := by
  obtain ⟨f, -, hf⟩ := (Rows.mem_mapM_ok h).mp hcond
  split at hf
  · cases hf
  · rename_i ty hty
    split at hf
    · cases hf
    · cases hf
      unfold PgEventQueryRepository.projected
      rcases Option.or_eq_some_iff.mp hty with hmeta | ⟨-, hcols⟩
      · apply List.mem_append_left
        unfold metaColType at hmeta
        rw [Ddl.metaColumns, hidx]
        split at hmeta <;> simp_all
      · apply List.mem_append_right
        obtain ⟨cols, hsome, hlookup⟩ := Option.bind_eq_some_iff.mp hcols
        obtain ⟨before, rest, rfl, -⟩ := List.lookup_eq_some_iff.mp hlookup
        rw [hsome]
        simp

theorem selectsExist_of_provided
    (h : ∀ schema ∈ desired, isValidIdent schema.table = true → Provided live desired schema) :
    SelectsExist live (.new desired) := by
  intro spec table conds after htable hconds _ ref href
  obtain ⟨-, hident, hidx, cols, hcols⟩ := validateTable_ok.mp htable
  obtain ⟨schema, hschema, hname, -⟩ := tables_new hcols
  have hjoined : auxTables.contains table = false → ∀ aux, isValidIdent aux = true →
      ((PgEventQueryRepository.new desired).tables aux).isSome →
      ∀ name ∈ (PgEventQueryRepository.new desired).projected aux, ∃ columns ty,
        live.readable aux = some columns ∧ (name, ty) ∈ columns := by
    intro hplain aux haux hsome name hmem
    obtain ⟨auxCols, hauxCols⟩ := Option.isSome_iff_exists.mp hsome
    have hother : table ∉ auxTables := by
      intro hmem
      rw [List.contains_iff_mem.mpr hmem] at hplain
      cases hplain
    obtain ⟨columns, hcolumns, hall⟩ := projected_of_provided h hauxCols haux
      (.inr ⟨schema, hschema, hname.symm ▸ hident, hname.symm ▸ hother⟩)
    obtain ⟨ty, hty⟩ := hall name hmem
    exact ⟨columns, ty, hcolumns, hty⟩
  rcases List.mem_append.mp href with href | hreceipt
  · rcases List.mem_append.mp href with hmain | htx
    · obtain ⟨columns, hcolumns, hall⟩ := projected_of_provided h hcols hident (.inl hidx)
      obtain ⟨name, hmem, rfl⟩ := List.mem_map.mp hmain
      have hprojected : name ∈ (PgEventQueryRepository.new desired).projected table := by
        rcases List.mem_append.mp hmem with hmem | hmem
        · exact hmem
        · obtain ⟨cond, hcond, rfl⟩ := List.mem_map.mp hmem
          exact column_of_buildFilters hidx hconds hcond
      obtain ⟨ty, hty⟩ := hall name hprojected
      exact ⟨columns, ty, hcolumns, hty⟩
    · split at htx
      · rename_i hjoin
        simp only [PgEventQueryRepository.select, Bool.and_eq_true, Bool.not_eq_true'] at hjoin
        obtain ⟨name, hmem, rfl⟩ := List.mem_map.mp htx
        exact hjoined hjoin.1.1 transactionsTable (by decide) hjoin.2 name hmem
      · exact absurd htx List.not_mem_nil
  · split at hreceipt
    · rename_i hjoin
      simp only [PgEventQueryRepository.select, Bool.and_eq_true, Bool.not_eq_true'] at hjoin
      obtain ⟨name, hmem, rfl⟩ := List.mem_map.mp hreceipt
      exact hjoined hjoin.1.1 receiptsTable (by decide) hjoin.2 name hmem
    · exact absurd hreceipt List.not_mem_nil

/-- A query of a table, with the receipts where they are asked for. -/
def specOf (table : String) (includeReceipt : Bool) : QuerySpec :=
  ⟨table, [], [], 1, none, false, includeReceipt, false⟩

/-- The statements that can be read show which columns the table has. -/
theorem read_of_selectsExist (h : SelectsExist live (.new desired)) {schema : EventSchema}
    (htable : isValidIdent schema.table = true) (hread : ReadFrom desired schema) {col : ColumnDef}
    (hcol : col ∈ schema.columns) :
    ∃ columns ty, live.readable schema.table = some columns ∧ (col.name, ty) ∈ columns := by
  obtain ⟨hlast, hqueried⟩ := hread
  have hcols : (PgEventQueryRepository.new desired).tables schema.table =
      some (schema.columns.map fun c => (c.name, c.ty)) :=
    Option.map_eq_some_iff.mpr ⟨schema, hlast, rfl⟩
  have hprojected : col.name ∈ (PgEventQueryRepository.new desired).projected schema.table := by
    rw [PgEventQueryRepository.projected, hcols, Option.getD_some, List.map_map]
    exact List.mem_append_right _ (List.mem_map.mpr ⟨col, hcol, rfl⟩)
  cases hidx : tableHasIdx schema.table with
  | true =>
      have hvalid : (PgEventQueryRepository.new desired).validateTable (specOf schema.table false) =
          .ok schema.table := validateTable_ok.mpr ⟨rfl, htable, hidx, _, hcols⟩
      exact h (specOf schema.table false) schema.table [] none hvalid rfl rfl
        (schema.table, col.name) (PgEventQueryRepository.mem_referenced_main hprojected)
  | false =>
      -- the receipts, which only a join reads
      have hreceipts : schema.table = receiptsTable := by
        simpa [tableHasIdx] using hidx
      obtain hself | ⟨other, hother, hident, haux⟩ := hqueried
      · rw [hidx] at hself
        cases hself
      · have hotherIdx : tableHasIdx other.table = true := by
          rw [tableHasIdx, bne_iff_ne]
          intro heq
          exact haux (heq ▸ by decide)
        have hvalid : (PgEventQueryRepository.new desired).validateTable (specOf other.table true) =
            .ok other.table :=
          validateTable_ok.mpr ⟨rfl, hident, hotherIdx, exists_tables_new hother⟩
        have hjoin : ((PgEventQueryRepository.new desired).select (specOf other.table true)
            other.table [] none).joinReceipt = true := by
          rw [hreceipts] at hcols
          simp only [PgEventQueryRepository.select, specOf, hcols, Option.isSome_some, Bool.and_true,
            Bool.not_eq_true', List.contains_eq_mem, decide_eq_false_iff_not]
          exact haux
        rw [hreceipts] at hprojected ⊢
        exact h (specOf other.table true) other.table [] none hvalid rfl rfl
          (receiptsTable, col.name) (PgEventQueryRepository.mem_referenced_receipt hjoin hprojected)

end Read

section Sound

variable {live : Catalog} {desired : List EventSchema}

/-- The statements name what is there exactly when every table they can name is provided. -/
theorem statements_exist_iff :
    InsertsExist live desired ∧ SelectsExist live (.new desired) ↔
      ∀ schema ∈ desired, isValidIdent schema.table = true → Provided live desired schema := by
  constructor
  · intro ⟨hinserts, hselects⟩ schema hschema htable
    obtain ⟨columns, hcolumns, hmeta, hwritten⟩ := written_of_insertsExist hinserts hschema htable
    refine ⟨columns, hcolumns, hmeta, hwritten, fun hread col hcol => ?_⟩
    obtain ⟨columns', ty, hreadable, hmem⟩ := read_of_selectsExist hselects htable hread hcol
    rw [Catalog.readable, hcolumns, Option.some.injEq] at hreadable
    exact ⟨ty, hreadable ▸ hmem⟩
  · intro h
    exact ⟨insertsExist_of_provided h, selectsExist_of_provided h⟩

theorem preflight_refuses (h : isInSync live desired = false) :
    preflight live desired = .error outOfSync := by
  rw [preflight, h]
  rfl

/-- The preflight is sound exactly when a desired table is missing, so that it refuses, or every
desired table is provided with its columns. -/
theorem preflightSound_iff_provided (live : Catalog) (desired : List EventSchema) :
    PreflightSound live desired ↔
      (∃ schema ∈ desired, live.tableExists schema.table = false) ∨
        ∀ schema ∈ desired, isValidIdent schema.table = true → Provided live desired schema := by
  have hsync : isInSync live desired = false ↔
      ∃ schema ∈ desired, live.tableExists schema.table = false := by
    simp [isInSync]
  rw [← hsync, ← statements_exist_iff]
  constructor
  · intro ⟨hsound, _⟩
    cases h : isInSync live desired with
    | false => exact .inl rfl
    | true => exact .inr (hsound h)
  · intro h
    rcases h with hmissing | hall
    · refine ⟨fun htrue => ?_, fun _ => ⟨hmissing, preflight_refuses hmissing⟩⟩
      rw [hmissing] at htrue
      cases htrue
    · exact ⟨fun _ => hall, fun hnot => absurd hall hnot⟩

end Sound

/-- The transfers' table as a configuration without `value` left it. -/
def staleCatalog : Catalog where
  relation name := if name = "evt_erc20_transfer" then
      some (.table ⟨[("chain_id", .bigint), ("height", .bigint), ("block_hash", .bytea),
        ("block_time", .timestamptz), ("tx_id", .bytea), ("idx", .bigint), ("from", .bytea),
        ("to", .bytea)], by decide⟩)
    else none
  receiptsTxFk := false

/-- The service starts, and every insert of a transfer names a column that is not there. -/
theorem not_preflightSound_missing_column :
    ¬∀ (live : Catalog) (desired : List EventSchema), PreflightSound live desired := by
  intro hevery
  have hstatements := (hevery staleCatalog [transferSchema]).1 rfl
  obtain ⟨columns, hcolumns, -, hwritten, -⟩ :=
    statements_exist_iff.mp hstatements transferSchema List.mem_cons_self (by decide)
  have hvalue := hwritten ⟨"value", .uint 256, false⟩ (by decide) (by decide) rfl
  cases hcolumns
  exact absurd hvalue (by decide)

end Migrator

end Topic0
