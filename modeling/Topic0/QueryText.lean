import Topic0.BaseCoding
import Topic0.BaseTemplate
import Topic0.MigratorPreflight

/-! The statements of the read side as text. A query is assembled by concatenation: the projection
of the table and of the joined ones, the conditions of the filters, the keyset comparison, the order
and the limit. Filter values and cursors become binds and leave nothing in the text but the numbers
of their placeholders. -/

namespace Topic0

open Coding (text)
open Template

/-- `json_projection`: the expression that projects a column to its lossless JSON form. -/
def jsonProjection (ref : List Char) (name : String) : ColumnType → List Char
  | .address | .bytes => text "'0x' || encode(" ++ ref ++ text ".\"" ++ name.toList ++
      text "\", 'hex')"
  | .uint _ | .int _ => ref ++ text ".\"" ++ name.toList ++ text "\"::text"
  | _ => ref ++ text ".\"" ++ name.toList ++ text "\""

/-- `row_json`: the JSON object of a table's row. -/
def rowJson (ref : List Char) (cols : List (String × ColumnType)) (hasIdx : Bool) : List Char :=
  let parts :=
    [text "'chain_id', " ++ ref ++ text ".chain_id",
      text "'height', " ++ ref ++ text ".height",
      text "'block_hash', '0x' || encode(" ++ ref ++ text ".block_hash, 'hex')",
      text "'block_time', " ++ ref ++ text ".block_time",
      text "'tx_id', '0x' || encode(" ++ ref ++ text ".tx_id, 'hex')"] ++
    (if hasIdx then [text "'idx', " ++ ref ++ text ".idx"] else []) ++
    cols.map fun col => text "'" ++ col.1.toList ++ text "', " ++ jsonProjection ref col.1 col.2
  text "jsonb_build_object(" ++ (text ", ").intercalate parts ++ text ")"

def opSql : FilterOp → String
  | .eq => "="
  | .ne => "<>"
  | .gt => ">"
  | .gte => ">="
  | .lt => "<"
  | .lte => "<="

/-- The `n`-th condition of a `WHERE` clause, which has the `n`-th placeholder. -/
def Condition.sql (n : Nat) (cond : Condition) : List Char :=
  text "t.\"" ++ cond.column.toList ++ text "\" " ++ text (opSql cond.op) ++ text " " ++
    placeholder n ++ cond.cast.toList

/-- The conditions of the filters; placeholders start at `$1`. -/
def filterSql (conds : List Condition) : List (List Char) :=
  conds.zipIdx.map fun cond => cond.1.sql (cond.2 + 1)

/-- The comparison with the cursor, whose placeholders follow those of the filters. -/
def keysetSql (descending : Bool) (n : Nat) : List Char :=
  text "(t.height, t.idx) " ++ text (if descending then "<" else ">") ++ text " (" ++
    placeholder n ++ text ", " ++ placeholder (n + 1) ++ text ")"

def whereSql (conds : List (List Char)) : List Char :=
  if conds.isEmpty then [] else text " WHERE " ++ (text " AND ").intercalate conds

/-- `LEFT JOIN` of an aux table. -/
def joinSql (aux ref : String) : List Char :=
  text " LEFT JOIN " ++ text aux ++ text " " ++ text ref ++ text " ON " ++ text ref ++
    text ".chain_id = t.chain_id AND " ++ text ref ++ text ".tx_id = t.tx_id"

/-- The JSON of a joined row under its key, null where there is none. -/
def nestedSql (key ref : String) (row : List Char) : List Char :=
  text "'" ++ text key ++ text "', CASE WHEN " ++ text ref ++
    text ".tx_id IS NULL THEN NULL ELSE " ++ row ++ text " END"

namespace Select

/-- The filters' conditions, then the cursor's. -/
def condsSql (sel : Select) : List (List Char) :=
  filterSql sel.conds ++
    if sel.keyset.isSome then [keysetSql sel.descending (sel.conds.length + 1)] else []

/-- The filters' values, then the height and the index of the cursor. -/
def binds (sel : Select) : List Bind :=
  sel.conds.map Condition.bind ++
    sel.keyset.elim [] fun cursor => [.int cursor.1, .int cursor.2]

end Select

namespace PgEventQueryRepository

/-- The columns a table is known with. -/
def columns (repo : PgEventQueryRepository) (table : String) : List (String × ColumnType) :=
  (repo.tables table).getD []

/-- The joined tables of a statement: name, ref and key of the embedded object. -/
def joined (sel : Select) : List (String × String × String) :=
  (if sel.joinTx then [(transactionsTable, "tx", "transaction")] else []) ++
    if sel.joinReceipt then [(receiptsTable, "rc", "receipt")] else []

/-- The projection of a row with its embedded rows. -/
def projectionSql (repo : PgEventQueryRepository) (sel : Select) : List Char :=
  let row := rowJson (text "t") (repo.columns sel.table) true
  let nested := (joined sel).map fun aux =>
    nestedSql aux.2.2 aux.2.1 (rowJson (text aux.2.1) (repo.columns aux.1) (tableHasIdx aux.1))
  if nested.isEmpty then row
  else row ++ text " || jsonb_build_object(" ++ (text ", ").intercalate nested ++ text ")"

def orderSql (descending : Bool) : String :=
  if descending then "t.height DESC, t.idx DESC" else "t.height, t.idx"

/-- The text of a query; one row more than asked for signals a next page. -/
def selectSql (repo : PgEventQueryRepository) (sel : Select) : List Char :=
  text "SELECT (" ++ repo.projectionSql sel ++ text ")::text AS j, t.height, t.idx FROM " ++
    sel.table.toList ++ text " t" ++ (joined sel).flatMap (fun aux => joinSql aux.1 aux.2.1) ++
    whereSql sel.condsSql ++ text " ORDER BY " ++ text (orderSql sel.descending) ++
    text " LIMIT " ++ Nat.toDigits 10 sel.limit

/-- The text of a count. -/
def countSelectSql (table : String) (conds : List Condition) : List Char :=
  text "SELECT count(*) FROM " ++ table.toList ++ text " t" ++ whereSql (filterSql conds)

/-- What `query` sends: the text and its binds. -/
def querySql (repo : PgEventQueryRepository) (spec : QuerySpec) :
    Except (Fault DomainError) (List Char × List Bind) := do
  let table ← repo.validateTable spec
  let conds ← repo.buildFilters table spec.filters
  let after ← parseAfter spec.after
  let sel := repo.select spec table conds after
  .ok (repo.selectSql sel, sel.binds)

/-- What `count` sends. -/
def countSql (repo : PgEventQueryRepository) (spec : QuerySpec) :
    Except (Fault DomainError) (List Char × List Bind) := do
  let table ← repo.validateTable spec
  let conds ← repo.buildFilters table spec.filters
  .ok (countSelectSql table conds, conds.map Condition.bind)

/-- The condition of a filter: its column and operator, and its value with the column's type. -/
def Typed (repo : PgEventQueryRepository) (table : String) (f : Filter) (cond : Condition) : Prop :=
  cond.column = f.column ∧ cond.op = f.op ∧ ∃ ty, repo.colType table f.column = some ty ∧
    bindValue ty f.value = .ok (cond.cast, cond.bind)

section Filters

variable {repo : PgEventQueryRepository} {table : String}

theorem typed_of_buildFilters {filters : List Filter} {conds : List Condition}
    (h : repo.buildFilters table filters = .ok conds) : List.Forall₂ (repo.Typed table) filters conds := by
  induction filters generalizing conds with
  | nil =>
      cases h
      exact .nil
  | cons f filters ih =>
      rw [buildFilters, List.mapM_cons, Rows.bind_eq_ok] at h
      obtain ⟨cond, hcond, h⟩ := h
      rw [Rows.bind_eq_ok] at h
      obtain ⟨rest, hrest, heq⟩ := h
      cases heq
      refine .cons ?_ (ih hrest)
      split at hcond
      · cases hcond
      rename_i ty hty
      split at hcond
      · cases hcond
      rename_i cast bind hbind
      cases hcond
      exact ⟨rfl, rfl, ty, hty, hbind⟩

theorem cast_of_bindValue {ty : ColumnType} {raw cast : String} {bind : Bind}
    (h : bindValue ty raw = .ok (cast, bind)) : cast = castSuffix ty := by
  cases ty with
  | int64 =>
      simp only [bindValue] at h
      split at h
      · cases h
        rfl
      · cases h
  | bool =>
      simp only [bindValue] at h
      split at h
      · cases h
        rfl
      · cases h
  | address =>
      simp only [bindValue, Rows.bind_eq_ok] at h
      obtain ⟨bytes, -, h⟩ := h
      split at h
      · cases h
        rfl
      · cases h
  | bytes =>
      simp only [bindValue, Rows.bind_eq_ok] at h
      obtain ⟨bytes, -, h⟩ := h
      split at h
      · cases h
        rfl
      · cases h
  | json => cases h
  | uint bits =>
      cases h
      rfl
  | int bits =>
      cases h
      rfl
  | timestamp =>
      cases h
      rfl
  | utf8 =>
      cases h
      rfl

/-- The part of a condition that is in the text. -/
def shape (cond : Condition) : String × FilterOp × String := (cond.column, cond.op, cond.cast)

/-- The text of a condition is that of its filter's column and operator. -/
theorem shape_of_typed {filters : List Filter} {conds : List Condition}
    (h : List.Forall₂ (repo.Typed table) filters conds) :
    conds.map shape = (filters.map fun f => (f.column, f.op)).map fun p =>
      (p.1, p.2, ((repo.colType table p.1).map castSuffix).getD "") := by
  induction h with
  | nil => rfl
  | cons hcond hrest ih =>
      obtain ⟨hcolumn, hop, ty, hty, hbind⟩ := hcond
      rw [List.map_cons, List.map_cons, List.map_cons, ih, shape, hcolumn, hop, hty,
        cast_of_bindValue hbind]
      rfl

theorem filterSql_congr {conds conds' : List Condition} (h : conds.map shape = conds'.map shape) :
    filterSql conds = filterSql conds' := by
  have hshape : ∀ conds : List Condition, filterSql conds =
      (conds.map shape).zipIdx.map fun p =>
        text "t.\"" ++ p.1.1.toList ++ text "\" " ++ text (opSql p.1.2.1) ++ text " " ++
          placeholder (p.2 + 1) ++ p.1.2.2.toList := by
    intro conds
    rw [List.zipIdx_map, List.map_map]
    rfl
  rw [hshape, hshape, h]

end Filters

section Plain

theorem plain_text {literal : String} (h : (text literal).all (fun c => c != '$') = true) :
    Plain (text literal) := by
  intro c hc
  exact bne_iff_ne.mp (List.all_eq_true.mp h c hc)

/-- A safe identifier has no dollar sign. -/
theorem plain_of_isValidIdent {name : String} (h : isValidIdent name = true) : Plain name.toList := by
  rw [isValidIdent, Bool.and_eq_true, Bool.and_eq_true, List.all_eq_true] at h
  intro c hc heq
  have hsafe := h.1.2 c hc
  rw [heq] at hsafe
  exact absurd hsafe (by decide)

theorem plain_castSuffix (ty : ColumnType) : Plain (castSuffix ty).toList := by
  have h : (castSuffix ty).toList.all (fun c => c != '$') = true := by
    unfold castSuffix
    split <;> decide
  intro c hc
  exact bne_iff_ne.mp (List.all_eq_true.mp h c hc)

theorem noDigit_castSuffix (ty : ColumnType) : NoDigit (castSuffix ty).toList := by
  have h : (castSuffix ty).toList.head?.all (fun c => !c.isDigit) = true := by
    unfold castSuffix
    split <;> decide
  intro c hc
  rw [hc, Option.all_some, Bool.not_eq_true'] at h
  exact h

theorem plain_opSql (op : FilterOp) : Plain (text (opSql op)) := by
  apply plain_text
  cases op <;> decide

theorem plain_jsonProjection {ref : List Char} (href : Plain ref) {name : String}
    (hname : isValidIdent name = true) (ty : ColumnType) : Plain (jsonProjection ref name ty) := by
  have hcol := plain_of_isValidIdent hname
  unfold jsonProjection
  split <;> simp (disch := decide) only [plain_append_iff, plain_text, href, hcol, and_self]

/-- A table's projection has no dollar sign. -/
theorem plain_rowJson {ref : List Char} (href : Plain ref) {cols : List (String × ColumnType)}
    (hcols : ∀ col ∈ cols, isValidIdent col.1 = true) (hasIdx : Bool) :
    Plain (rowJson ref cols hasIdx) := by
  have hsep : Plain (text ", ") := plain_text (by decide)
  unfold rowJson
  simp (disch := decide) only [plain_append_iff, plain_text, and_true, true_and]
  apply hsep.intercalate
  intro part hpart
  simp only [List.mem_append, List.mem_cons, List.not_mem_nil, or_false, List.mem_map] at hpart
  rcases hpart with (hmeta | hidx) | ⟨col, hcol, rfl⟩
  · rcases hmeta with rfl | rfl | rfl | rfl | rfl <;>
      simp (disch := decide) only [plain_append_iff, plain_text, href, and_self]
  · split at hidx
    · rw [List.mem_singleton.mp hidx]
      simp (disch := decide) only [plain_append_iff, plain_text, href, and_self]
    · exact absurd hidx List.not_mem_nil
  · have hname := plain_of_isValidIdent (hcols col hcol)
    have hprojection := plain_jsonProjection href (hcols col hcol) col.2
    simp (disch := decide) only [plain_append_iff, plain_text, hname, hprojection, and_self]

/-- Identifiers throughout: the tables a repository knows and their columns. -/
def SafeNames (schemas : List EventSchema) : Prop :=
  ∀ schema ∈ schemas, isValidIdent schema.table = true ∧
    ∀ col ∈ schema.columns, isValidIdent col.name = true

theorem isValidIdent_columns {schemas : List EventSchema} (h : SafeNames schemas) (table : String) :
    ∀ col ∈ (PgEventQueryRepository.new schemas).columns table, isValidIdent col.1 = true := by
  intro col hcol
  unfold columns at hcol
  cases htables : (PgEventQueryRepository.new schemas).tables table with
  | none =>
      rw [htables] at hcol
      exact absurd hcol List.not_mem_nil
  | some cols =>
      rw [htables, Option.getD_some] at hcol
      obtain ⟨schema, hschema, -, -, rfl⟩ := Migrator.tables_new htables
      obtain ⟨c, hc, rfl⟩ := List.mem_map.mp hcol
      exact (h schema hschema).2 c hc

theorem mem_joined {sel : Select} {aux : String × String × String} (h : aux ∈ joined sel) :
    aux = (transactionsTable, "tx", "transaction") ∨ aux = (receiptsTable, "rc", "receipt") := by
  unfold joined at h
  rcases List.mem_append.mp h with h | h
  · split at h
    · exact .inl (List.mem_singleton.mp h)
    · exact absurd h List.not_mem_nil
  · split at h
    · exact .inr (List.mem_singleton.mp h)
    · exact absurd h List.not_mem_nil

/-- The projection of a joined table under its key. -/
theorem plain_nestedSql {schemas : List EventSchema} (h : SafeNames schemas) {sel : Select}
    {aux : String × String × String} (haux : aux ∈ joined sel) :
    Plain (nestedSql aux.2.2 aux.2.1 (rowJson (text aux.2.1)
      ((PgEventQueryRepository.new schemas).columns aux.1) (tableHasIdx aux.1))) := by
  have hcols := isValidIdent_columns h aux.1
  have htx : Plain (text "tx") := plain_text (by decide)
  have hrc : Plain (text "rc") := plain_text (by decide)
  rcases mem_joined haux with rfl | rfl
  · simp (disch := decide) only [nestedSql, plain_append_iff, plain_text, true_and, and_true]
    exact plain_rowJson htx hcols _
  · simp (disch := decide) only [nestedSql, plain_append_iff, plain_text, true_and, and_true]
    exact plain_rowJson hrc hcols _

theorem plain_projectionSql {schemas : List EventSchema} (h : SafeNames schemas) (sel : Select) :
    Plain ((PgEventQueryRepository.new schemas).projectionSql sel) := by
  have ht : Plain (text "t") := plain_text (by decide)
  have hsep : Plain (text ", ") := plain_text (by decide)
  have hrow := plain_rowJson ht (isValidIdent_columns h sel.table) true
  unfold projectionSql
  dsimp only
  split
  · exact hrow
  · simp (disch := decide) only [plain_append_iff, plain_text, hrow, and_true, true_and]
    apply hsep.intercalate
    intro part hpart
    obtain ⟨aux, haux, rfl⟩ := List.mem_map.mp hpart
    exact plain_nestedSql h haux

theorem plain_joins (sel : Select) :
    Plain ((joined sel).flatMap fun aux => joinSql aux.1 aux.2.1) := by
  intro c hc
  obtain ⟨aux, haux, hc⟩ := List.mem_flatMap.mp hc
  have hjoin : Plain (joinSql aux.1 aux.2.1) := by
    rcases mem_joined haux with rfl | rfl
    · simp (disch := decide) only [joinSql, plain_append_iff, plain_text, and_self]
    · simp (disch := decide) only [joinSql, plain_append_iff, plain_text, and_self]
  exact hjoin c hc

end Plain

section Placeholders

/-- The condition has one placeholder, its number. -/
theorem carries_condition {cond : Condition} (hcolumn : isValidIdent cond.column = true)
    {ty : ColumnType} (hcast : cond.cast = castSuffix ty) (n : Nat) :
    Carries (cond.sql n) [n] ∧ NoDigit (cond.sql n) := by
  have hcol := plain_of_isValidIdent hcolumn
  have hop := plain_opSql cond.op
  have hcastPlain := plain_castSuffix ty
  have hcastDigit := noDigit_castSuffix ty
  rw [← hcast] at hcastPlain hcastDigit
  have hhead : Plain (text "t.\"" ++ cond.column.toList ++ text "\" " ++ text (opSql cond.op) ++
      text " ") := by
    simp (disch := decide) only [plain_append_iff, plain_text, hcol, hop, and_self]
  have hplaceholder : NoDigit (placeholder n) := by
    intro c hc
    cases hc
    decide
  constructor
  · exact (hhead.carries.append (carries_placeholder n) hplaceholder).append hcastPlain.carries
      hcastDigit
  · intro c hc
    cases hc
    decide

theorem carries_keyset (descending : Bool) (n : Nat) :
    Carries (keysetSql descending n) [n, n + 1] ∧ NoDigit (keysetSql descending n) := by
  have hhead : Plain (text "(t.height, t.idx) " ++ text (if descending then "<" else ">") ++
      text " (") := by
    cases descending <;> simp (disch := decide) only [plain_append_iff, plain_text, and_self]
  have hcomma : Plain (text ", ") := plain_text (by decide)
  have hclose : Plain (text ")") := plain_text (by decide)
  have hmark : ∀ m, NoDigit (placeholder m) := by
    intro m c hc
    cases hc
    decide
  have hnodigit : ∀ literal : String, (text literal).head?.all (fun c => !c.isDigit) = true →
      NoDigit (text literal) := by
    intro literal h c hc
    rw [hc, Option.all_some, Bool.not_eq_true'] at h
    exact h
  constructor
  · exact (((hhead.carries.append (carries_placeholder n) (hmark n)).append hcomma.carries
      (hnodigit ", " (by decide))).append (carries_placeholder (n + 1)) (hmark (n + 1))).append
        hclose.carries (hnodigit ")" (by decide))
  · intro c hc
    cases hc
    decide

/-- Conditions as `build_filters` makes them. -/
def WellFormed (conds : List Condition) : Prop :=
  ∀ cond ∈ conds, isValidIdent cond.column = true ∧ ∃ ty, cond.cast = castSuffix ty

/-- The conditions of a statement, each with its placeholders. -/
def numbered (sel : Select) : List (List Char × List Nat) :=
  (sel.conds.zipIdx.map fun cond => (cond.1.sql (cond.2 + 1), [cond.2 + 1])) ++
    if sel.keyset.isSome then
      [(keysetSql sel.descending (sel.conds.length + 1),
        [sel.conds.length + 1, sel.conds.length + 1 + 1])]
    else []

theorem numbered_fst (sel : Select) : (numbered sel).map Prod.fst = sel.condsSql := by
  unfold numbered Select.condsSql filterSql
  rw [List.map_append, List.map_map]
  cases sel.keyset <;> rfl

theorem flatMap_zipIdx_succ (conds : List Condition) (k : Nat) :
    (conds.zipIdx k).flatMap (fun cond => [cond.2 + 1]) = List.range' (k + 1) conds.length := by
  induction conds generalizing k with
  | nil => rfl
  | cons cond conds ih =>
      rw [List.zipIdx_cons, List.flatMap_cons, ih, List.length_cons, List.range'_succ,
        List.singleton_append]

/-- Every bind has one placeholder, in their order. -/
theorem numbered_snd (sel : Select) :
    (numbered sel).flatMap Prod.snd = List.range' 1 sel.binds.length := by
  have hfilters : (sel.conds.zipIdx.map fun cond => (cond.1.sql (cond.2 + 1), [cond.2 + 1])).flatMap
      Prod.snd = List.range' 1 sel.conds.length := by
    rw [List.flatMap_map]
    exact flatMap_zipIdx_succ sel.conds 0
  unfold numbered Select.binds
  rw [List.flatMap_append, hfilters]
  cases sel.keyset with
  | none => simp
  | some cursor =>
      have hlength : (sel.conds.map Condition.bind ++ [Bind.int cursor.1, .int cursor.2]).length =
          sel.conds.length + 2 := by simp
      simp only [Option.isSome_some, if_true, Option.elim_some, hlength]
      rw [← List.range'_append_1, Nat.add_comm 1]
      rfl

theorem carries_numbered {sel : Select} (h : WellFormed sel.conds) :
    ∀ p ∈ numbered sel, Carries p.1 p.2 ∧ NoDigit p.1 := by
  intro p hp
  rcases List.mem_append.mp hp with hp | hp
  · obtain ⟨⟨cond, i⟩, hcond, rfl⟩ := List.mem_map.mp hp
    obtain ⟨hcolumn, ty, hcast⟩ := h cond (List.fst_mem_of_mem_zipIdx hcond)
    exact carries_condition hcolumn hcast (i + 1)
  · split at hp
    · rw [List.mem_singleton.mp hp]
      exact carries_keyset _ _
    · exact absurd hp List.not_mem_nil

/-- The `WHERE` clause of a statement has the placeholders of its binds. -/
theorem carries_whereSql {sel : Select} (h : WellFormed sel.conds) :
    Carries (whereSql sel.condsSql) (List.range' 1 sel.binds.length) ∧
      NoDigit (whereSql sel.condsSql) := by
  have hand : Plain (text " AND ") := plain_text (by decide)
  have hwhere : Plain (text " WHERE ") := plain_text (by decide)
  have hmark : NoDigit (text " AND ") := by
    intro c hc
    cases hc
    decide
  obtain ⟨hcarries, hdigit⟩ := Carries.intercalate hand hmark
    (fun p hp => (carries_numbered h p hp).1) fun p hp => (carries_numbered h p hp).2
  rw [numbered_fst, numbered_snd] at hcarries
  rw [numbered_fst] at hdigit
  unfold whereSql
  split
  · rename_i hempty
    have hnil : (numbered sel).flatMap Prod.snd = [] := by
      have hnumbered : numbered sel = [] := by
        rw [← List.map_eq_nil_iff, numbered_fst]
        exact List.isEmpty_iff.mp hempty
      rw [hnumbered]
      rfl
    rw [← numbered_snd, hnil]
    refine ⟨fun rest _ => rfl, fun c hc => ?_⟩
    cases hc
  · refine ⟨?_, ?_⟩
    · exact hwhere.carries.append hcarries hdigit
    · intro c hc
      cases hc
      decide

/-- The placeholders of a query are those of its binds, each once and in order. -/
theorem placeholders_selectSql {schemas : List EventSchema} (h : SafeNames schemas) {sel : Select}
    (htable : isValidIdent sel.table = true) (hconds : WellFormed sel.conds) :
    placeholders ((PgEventQueryRepository.new schemas).selectSql sel) =
      List.range' 1 sel.binds.length := by
  obtain ⟨hcarries, hdigit⟩ := carries_whereSql hconds
  have hprojection := plain_projectionSql h sel
  have hjoins := plain_joins sel
  have hname := plain_of_isValidIdent htable
  have horder : Plain (text (orderSql sel.descending)) := by
    unfold orderSql
    split <;> exact plain_text (by decide)
  have hlimit := plain_toDigits sel.limit
  have hhead : Plain (text "SELECT (" ++ (PgEventQueryRepository.new schemas).projectionSql sel ++
      text ")::text AS j, t.height, t.idx FROM " ++ sel.table.toList ++ text " t" ++
      (joined sel).flatMap fun aux => joinSql aux.1 aux.2.1) := by
    simp (disch := decide) only [plain_append_iff, plain_text, hprojection, hjoins, hname, and_self]
  have htail : Plain (text " ORDER BY " ++ (text (orderSql sel.descending) ++
      (text " LIMIT " ++ Nat.toDigits 10 sel.limit))) := by
    simp (disch := decide) only [plain_append_iff, plain_text, horder, hlimit, and_self]
  have hstart : NoDigit (text " ORDER BY " ++ (text (orderSql sel.descending) ++
      (text " LIMIT " ++ Nat.toDigits 10 sel.limit))) := by
    intro c hc
    cases hc
    decide
  have hall := (hhead.carries.append hcarries hdigit).append htail.carries hstart
  rw [List.nil_append, List.append_nil] at hall
  unfold selectSql
  rw [List.append_assoc (_ ++ _) (text " LIMIT "), List.append_assoc (_ ++ _) (text (orderSql _)),
    List.append_assoc (_ ++ _) (text " ORDER BY ")]
  exact hall.placeholders_eq

end Placeholders

/-- A table's column: one of the meta columns, or declared by a schema of the table. -/
def Declared (schemas : List EventSchema) (table name : String) : Prop :=
  (metaColType name).isSome = true ∨ ∃ schema ∈ schemas, schema.table = table ∧
    ∃ col ∈ schema.columns, col.name = name

section Accepted

variable {schemas : List EventSchema}

theorem declared_of_colType {table name : String} {ty : ColumnType}
    (h : (PgEventQueryRepository.new schemas).colType table name = some ty) :
    Declared schemas table name := by
  rcases Option.or_eq_some_iff.mp h with hmeta | ⟨-, hcols⟩
  · exact .inl (Option.isSome_of_eq_some hmeta)
  · obtain ⟨cols, htables, hlookup⟩ := Option.bind_eq_some_iff.mp hcols
    obtain ⟨schema, hschema, htable, -, rfl⟩ := Migrator.tables_new htables
    obtain ⟨before, rest, hsplit, -⟩ := List.lookup_eq_some_iff.mp hlookup
    have hmem : (name, ty) ∈ schema.columns.map fun c => (c.name, c.ty) := by
      rw [hsplit]
      simp
    obtain ⟨col, hcol, heq⟩ := List.mem_map.mp hmem
    exact .inr ⟨schema, hschema, htable, col, hcol, (Prod.mk.inj heq).1⟩

theorem isValidIdent_of_declared (h : SafeNames schemas) {table name : String}
    (hname : Declared schemas table name) : isValidIdent name = true := by
  rcases hname with hmeta | ⟨schema, hschema, -, col, hcol, rfl⟩
  · unfold metaColType at hmeta
    split at hmeta <;> first | decide +kernel | cases hmeta
  · exact (h schema hschema).2 col hcol

/-- What an accepted query was assembled from. -/
theorem querySql_ok {repo : PgEventQueryRepository} {spec : QuerySpec} {sql : List Char}
    {binds : List Bind} (h : repo.querySql spec = .ok (sql, binds)) :
    ∃ conds after, repo.validateTable spec = .ok spec.table ∧
      repo.buildFilters spec.table spec.filters = .ok conds ∧ parseAfter spec.after = .ok after ∧
      sql = repo.selectSql (repo.select spec spec.table conds after) ∧
      binds = (repo.select spec spec.table conds after).binds := by
  rw [querySql, Rows.bind_eq_ok] at h
  obtain ⟨table, htable, h⟩ := h
  rw [Rows.bind_eq_ok] at h
  obtain ⟨conds, hconds, h⟩ := h
  rw [Rows.bind_eq_ok] at h
  obtain ⟨after, hafter, heq⟩ := h
  cases heq
  obtain ⟨rfl, -⟩ := Migrator.validateTable_ok.mp htable
  exact ⟨conds, after, htable, hconds, hafter, rfl, rfl⟩

/-- A query that returns a page has sent a statement. -/
theorem exists_querySql_of_query {layout : String → PkColumns} {repo : PgEventQueryRepository}
    {pg : Postgres} {store : Store layout} {spec : QuerySpec}
    {order : Keyset.Sorter (rowLe spec.descending)} {page : Page Joined}
    (h : repo.query pg store spec order = .ok page) :
    ∃ sql binds, repo.querySql spec = .ok (sql, binds) := by
  rw [query, Rows.bind_eq_ok] at h
  obtain ⟨table, htable, h⟩ := h
  rw [Rows.bind_eq_ok] at h
  obtain ⟨conds, hconds, h⟩ := h
  rw [Rows.bind_eq_ok] at h
  obtain ⟨after, hafter, -⟩ := h
  refine ⟨repo.selectSql (repo.select spec table conds after),
    (repo.select spec table conds after).binds, ?_⟩
  rw [querySql, Rows.bind_eq_ok]
  refine ⟨table, htable, ?_⟩
  rw [Rows.bind_eq_ok]
  refine ⟨conds, hconds, ?_⟩
  rw [Rows.bind_eq_ok]
  exact ⟨after, hafter, rfl⟩

theorem isSome_of_parseAfter {after : Option Cursor} {key : Option (Int × Int)}
    (h : parseAfter after = .ok key) : key.isSome = after.isSome := by
  cases after with
  | none =>
      cases h
      rfl
  | some cursor =>
      simp only [parseAfter] at h
      split at h
      · cases h
      · cases h
        rfl

theorem wellFormed_of_typed (h : SafeNames schemas) {table : String} {filters : List Filter}
    {conds : List Condition}
    (hconds : List.Forall₂ ((PgEventQueryRepository.new schemas).Typed table) filters conds) :
    WellFormed conds := by
  induction hconds with
  | nil =>
      intro cond hcond
      exact absurd hcond List.not_mem_nil
  | cons hfirst hrest ih =>
      obtain ⟨hcolumn, -, ty, hty, hbind⟩ := hfirst
      intro cond hcond
      rcases List.mem_cons.mp hcond with rfl | hcond
      · refine ⟨?_, ty, cast_of_bindValue hbind⟩
        rw [hcolumn]
        exact isValidIdent_of_declared h (declared_of_colType hty)
      · exact ih cond hcond

theorem declared_of_typed {table : String} {filters : List Filter} {conds : List Condition}
    (hconds : List.Forall₂ ((PgEventQueryRepository.new schemas).Typed table) filters conds) :
    ∀ f ∈ filters, Declared schemas table f.column := by
  induction hconds with
  | nil =>
      intro f hf
      exact absurd hf List.not_mem_nil
  | cons hfirst hrest ih =>
      obtain ⟨-, -, ty, hty, -⟩ := hfirst
      intro f hf
      rcases List.mem_cons.mp hf with rfl | hf
      · exact declared_of_colType hty
      · exact ih f hf

/-- Two specifications that ask the same with other values. -/
structure SameShape (spec spec' : QuerySpec) : Prop where
  table : spec.table = spec'.table
  first : spec.first = spec'.first
  descending : spec.descending = spec'.descending
  includeTx : spec.includeTx = spec'.includeTx
  includeReceipt : spec.includeReceipt = spec'.includeReceipt
  after : spec.after.isSome = spec'.after.isSome
  filters : (spec.filters.map fun f => (f.column, f.op)) =
    spec'.filters.map fun f => (f.column, f.op)

theorem selectSql_congr {repo : PgEventQueryRepository} {sel sel' : Select}
    (htable : sel.table = sel'.table) (hjoined : joined sel = joined sel')
    (hconds : sel.condsSql = sel'.condsSql) (hdescending : sel.descending = sel'.descending)
    (hlimit : sel.limit = sel'.limit) : repo.selectSql sel = repo.selectSql sel' := by
  have hprojection : repo.projectionSql sel = repo.projectionSql sel' := by
    unfold projectionSql
    rw [htable, hjoined]
  unfold selectSql
  rw [hprojection, htable, hjoined, hconds, hdescending, hlimit]

/-- The text of a statement shows no value and no cursor. -/
theorem selectSql_of_sameShape {repo : PgEventQueryRepository} {spec spec' : QuerySpec}
    (h : SameShape spec spec') {conds conds' : List Condition} {after after' : Option (Int × Int)}
    (hconds : List.Forall₂ (repo.Typed spec.table) spec.filters conds)
    (hconds' : List.Forall₂ (repo.Typed spec'.table) spec'.filters conds')
    (hafter : parseAfter spec.after = .ok after) (hafter' : parseAfter spec'.after = .ok after') :
    repo.selectSql (repo.select spec spec.table conds after) =
      repo.selectSql (repo.select spec' spec'.table conds' after') := by
  have hshape : conds.map shape = conds'.map shape := by
    rw [shape_of_typed hconds, shape_of_typed hconds', h.filters, h.table]
  have hfilters := filterSql_congr hshape
  have hlength : conds.length = conds'.length := by
    simpa using congrArg List.length hshape
  have hsome : after.isSome = after'.isSome := by
    rw [isSome_of_parseAfter hafter, isSome_of_parseAfter hafter', h.after]
  apply selectSql_congr
  · exact h.table
  · unfold joined select
    dsimp only
    rw [h.table, h.includeTx, h.includeReceipt]
  · unfold Select.condsSql select
    dsimp only
    rw [hfilters, hlength, hsome, h.descending]
  · exact h.descending
  · show clampFirst spec.first + 1 = clampFirst spec'.first + 1
    rw [h.first]

/-- Nothing of the values reaches the text: statements of one shape have one text, its placeholders
are `$1` to `$n` for `n` binds, the binds are the typed values of the filters and then the cursor,
every filtered column is declared, and a count has the same clause without the cursor. -/
theorem values_only_in_binds (hnames : SafeNames schemas) :
    (∀ spec spec' sql sql' binds binds', SameShape spec spec' →
      (new schemas).querySql spec = .ok (sql, binds) →
      (new schemas).querySql spec' = .ok (sql', binds') → sql = sql') ∧
    ∀ spec sql binds, (new schemas).querySql spec = .ok (sql, binds) →
      placeholders sql = List.range' 1 binds.length ∧
      (∀ f ∈ spec.filters, Declared schemas spec.table f.column) ∧
      ∃ sel : Select, sql = (new schemas).selectSql sel ∧
        List.Forall₂ ((new schemas).Typed spec.table) spec.filters sel.conds ∧
        parseAfter spec.after = .ok sel.keyset ∧
        binds = sel.conds.map Condition.bind ++
          sel.keyset.elim [] (fun cursor => [.int cursor.1, .int cursor.2]) ∧
        (new schemas).countSql spec = .ok (text "SELECT count(*) FROM " ++ spec.table.toList ++
          text " t" ++ whereSql { sel with keyset := none }.condsSql,
          { sel with keyset := none }.binds) := by
  constructor
  · intro spec spec' sql sql' binds binds' hsame h h'
    obtain ⟨conds, after, -, hconds, hafter, rfl, -⟩ := querySql_ok h
    obtain ⟨conds', after', -, hconds', hafter', rfl, -⟩ := querySql_ok h'
    exact selectSql_of_sameShape hsame (typed_of_buildFilters hconds) (typed_of_buildFilters hconds')
      hafter hafter'
  · intro spec sql binds h
    obtain ⟨conds, after, htable, hconds, hafter, rfl, rfl⟩ := querySql_ok h
    have htyped := typed_of_buildFilters hconds
    obtain ⟨-, hident, -⟩ := Migrator.validateTable_ok.mp htable
    refine ⟨?_, declared_of_typed htyped, (new schemas).select spec spec.table conds after, rfl,
      htyped, hafter, rfl, ?_⟩
    · exact placeholders_selectSql hnames hident (wellFormed_of_typed hnames htyped)
    · rw [countSql, Rows.bind_eq_ok]
      refine ⟨spec.table, htable, ?_⟩
      rw [Rows.bind_eq_ok]
      refine ⟨conds, hconds, ?_⟩
      show Except.ok (_, conds.map Condition.bind) =
        Except.ok (_ ++ whereSql (filterSql conds ++ []), conds.map Condition.bind ++ [])
      rw [List.append_nil, List.append_nil]
      rfl

end Accepted

theorem exists_sql_of_binds {repo : PgEventQueryRepository} {spec : QuerySpec} {binds : List Bind}
    (h : (repo.querySql spec).map Prod.snd = .ok binds) :
    ∃ sql, repo.querySql spec = .ok (sql, binds) := by
  cases hsql : repo.querySql spec with
  | error e =>
      rw [hsql] at h
      cases h
  | ok sent =>
      rw [hsql] at h
      cases h
      exact ⟨sent.1, rfl⟩

/-- The transfers to an address above a value, past a cursor. -/
def transfersTo (address value cursor : String) : QuerySpec :=
  ⟨"evt_erc20_transfer", [⟨"to", .eq, address⟩, ⟨"value", .gt, value⟩], [], 10, some ⟨cursor⟩, false,
    false, true⟩

theorem values_only_in_binds_transfers : ∃ sql,
    (new [Migrator.transferSchema]).querySql (transfersTo "0xab" "7" "5:1") =
      .ok (sql, [.bytes [0xab], .text "7", .int 5, .int 1]) ∧
    (new [Migrator.transferSchema]).querySql (transfersTo "0xcd" "0' OR '1'='1" "2:0") =
      .ok (sql, [.bytes [0xcd], .text "0' OR '1'='1", .int 2, .int 0]) ∧
    placeholders sql = [1, 2, 3, 4] := by
  have hnames : SafeNames [Migrator.transferSchema] := by
    intro schema hschema
    rw [List.mem_singleton.mp hschema]
    decide +kernel
  have hone : ((new [Migrator.transferSchema]).querySql (transfersTo "0xab" "7" "5:1")).map Prod.snd =
      .ok [.bytes [0xab], .text "7", .int 5, .int 1] := by decide +kernel
  have htwo : ((new [Migrator.transferSchema]).querySql
      (transfersTo "0xcd" "0' OR '1'='1" "2:0")).map Prod.snd =
      .ok [.bytes [0xcd], .text "0' OR '1'='1", .int 2, .int 0] := by decide +kernel
  obtain ⟨sql, hsql⟩ := exists_sql_of_binds hone
  obtain ⟨sql', hsql'⟩ := exists_sql_of_binds htwo
  obtain ⟨hshape, hevery⟩ := values_only_in_binds hnames
  have hasked : SameShape (transfersTo "0xab" "7" "5:1") (transfersTo "0xcd" "0' OR '1'='1" "2:0") :=
    ⟨rfl, rfl, rfl, rfl, rfl, rfl, rfl⟩
  have hsame := hshape _ _ _ _ _ _ hasked hsql hsql'
  refine ⟨sql, hsql, ?_, (hevery _ _ _ hsql).1⟩
  rw [hsame]
  exact hsql'

end PgEventQueryRepository

end Topic0
