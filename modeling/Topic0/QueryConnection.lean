import Topic0.MigratorPreflight
import Topic0.QueryPaging
import Topic0.QuerySchemas
import Topic0.StoreBigint

/-! The connections the read API answers with. A query field lowers its arguments to filters and to
one `QuerySpec`, and a connection shows the page that comes back with a cursor to the next one. Rows
of one chain in an event table differ in their position, so a client that names the chain and follows
`endCursor` is shown the rows its arguments select in one order, each once and with its transaction
and receipt, whatever it asks for at a time; and every page counts them alike. -/

namespace Topic0.Graphql

open PgEventQueryRepository

/-- A `FilterInput` of the `where` argument. -/
structure FilterInput where
  column : String
  op : Option String
  value : String

/-- `parse_op`, of the name of an `Op`. -/
def parseOp : String → FilterOp
  | "NE" => .ne
  | "GT" => .gt
  | "GTE" => .gte
  | "LT" => .lt
  | "LTE" => .lte
  | _ => .eq

def FilterInput.lower (input : FilterInput) : Filter :=
  ⟨input.column, (input.op.map parseOp).getD .eq, input.value⟩

/-- The arguments of a query field. Integers are `i64`. -/
structure QueryArgs where
  first : Option Int
  after : Option String
  chainId : Option Int
  fromHeight : Option Int
  toHeight : Option Int
  orderBy : Option String
  whereArg : List FilterInput

/-- The nested objects selected under `nodes`. -/
structure LookAhead where
  transaction : Bool
  receipt : Bool

/-- `eq_filter`. -/
def eqFilter (column : String) (op : FilterOp) (value : Int) : Filter :=
  ⟨column, op, String.ofList (Decimal.format value)⟩

namespace QueryArgs

/-- The typed shortcuts: column, operator and value. -/
def shortcuts (args : QueryArgs) : List (String × FilterOp × Int) :=
  (args.chainId.map fun c => ("chain_id", .eq, c)).toList ++
    (args.fromHeight.map fun h => ("height", .gte, h)).toList ++
    (args.toHeight.map fun h => ("height", .lte, h)).toList

def filters (args : QueryArgs) : List Filter :=
  (args.shortcuts.map fun s => eqFilter s.1 s.2.1 s.2.2) ++ args.whereArg.map FilterInput.lower

/-- `unwrap_or(100).max(1) as u32`. -/
def pageSize (args : QueryArgs) : Nat := (max (args.first.getD 100) 1).toNat % 2 ^ 32

@[reducible] def descending (args : QueryArgs) : Bool := args.orderBy == some "DESC"

@[reducible] def spec (args : QueryArgs) (table : String) (isEvent : Bool) (look : LookAhead) : QuerySpec where
  table := table
  filters := args.filters
  sort := []
  first := args.pageSize
  after := args.after.map Cursor.mk
  includeTx := isEvent && look.transaction
  includeReceipt := isEvent && look.receipt
  descending := args.descending

end QueryArgs

/-- One page with what `totalCount` needs. -/
structure ConnData where
  rows : List Joined
  endCursor : Option String
  hasNext : Bool
  spec : QuerySpec

/-- The query fields of the root type: a table, and whether it is an event's. -/
def queryFields (schemas : List EventSchema) : List (String × Bool) :=
  (schemas.filter fun s => tableHasIdx s.table).map fun s => (s.table, s.topic0.isSome)

variable {layout : String → PkColumns} (repo : PgEventQueryRepository) (pg : Postgres)
  (store : Store layout)

def queryField (table : String) (isEvent : Bool) (args : QueryArgs) (look : LookAhead)
    (order : Keyset.Sorter (rowLe args.descending)) : Except (Fault DomainError) ConnData := do
  let page ← repo.query pg store (args.spec table isEvent look) order
  .ok ⟨page.items, page.endCursor.map Cursor.text, page.hasNext, args.spec table isEvent look⟩

/-- Resolved when it is selected. -/
def totalCount (conn : ConnData) : Except (Fault DomainError) String :=
  (repo.count pg store conn.spec).map toString

/-- A client that passes `endCursor` as `after` as long as there is a next page; `none` when the fuel
runs out. -/
def followConnections (table : String) (isEvent : Bool) (args : QueryArgs) (look : LookAhead)
    (order : Nat → Keyset.Sorter (rowLe args.descending)) :
    Nat → Nat → Option String → Except (Fault DomainError) (Option (List ConnData))
  | 0, _, _ => .ok none
  | fuel + 1, n, after => do
      let conn ← queryField repo pg store table isEvent { args with after := after } look (order n)
      if conn.hasNext then do
        let rest ← followConnections table isEvent args look order fuel (n + 1) conn.endCursor
        .ok (rest.map fun conns => conn :: conns)
      else .ok (some [conn])

/-- The integer columns every table has. -/
def metaInt (row : EventRow) : String → Option Int
  | "chain_id" => some (bigint row.chainId)
  | "height" => some (bigint row.height)
  | "idx" => some (bigint row.index)
  | _ => none

def holds : FilterOp → Int → Int → Bool
  | .eq, a, b => decide (a = b)
  | .ne, a, b => decide (a ≠ b)
  | .gt, a, b => decide (b < a)
  | .gte, a, b => decide (b ≤ a)
  | .lt, a, b => decide (a < b)
  | .lte, a, b => decide (a ≤ b)

/-- `bigint` columns compare as integers. -/
def ComparesIntegers (pg : Postgres) : Prop :=
  ∀ column op value row n, metaInt row column = some n →
    pg.compares ⟨column, op, castSuffix .int64, .int value⟩ row = holds op n value

/-- The row is in the chain and between the heights of the arguments and satisfies `where`. -/
def QueryArgs.selects (args : QueryArgs) (conds : List Condition) (row : EventRow) : Bool :=
  args.chainId.all (fun c => decide (bigint row.chainId = c)) &&
    args.fromHeight.all (fun h => decide (h ≤ bigint row.height)) &&
    args.toHeight.all (fun h => decide (bigint row.height ≤ h)) &&
    conds.all fun cond => pg.compares cond row

/-- The row with the aux rows of its transaction that were selected. -/
def embed (spec : QuerySpec) (row : EventRow) : Joined :=
  let sel := repo.select spec spec.table [] none
  let hit := fun (table : String) => (store.typed table).rows.find? fun a =>
    a.chainId == row.chainId && a.txId == row.txId
  { row := row
    transaction := if sel.joinTx then hit transactionsTable else none
    receipt := if sel.joinReceipt then hit receiptsTable else none }

/-- What the arguments select, in the order they ask for. -/
def listing (table : String) (isEvent : Bool) (args : QueryArgs) (look : LookAhead)
    (conds : List Condition) : List Joined :=
  ((((store.typed table).rows.filter (args.selects pg conds)).map
    (embed repo store (args.spec table isEvent look))).insertionSort (rowLe args.descending))

structure RowFits (row : EventRow) : Prop where
  chainId : row.chainId < 2 ^ 64
  height : row.height < 2 ^ 64
  index : row.index < 2 ^ 64

section Joins

variable {repo} {store}

theorem joinRow_eq {aux : List EventRow} (hunique : UniqueTx aux)
    (embed : Joined → Option EventRow → Joined) (j : Joined) :
    joinRow aux embed j = [embed j (aux.find? fun a =>
      a.chainId == j.row.chainId && a.txId == j.row.txId)] := by
  have hlen := length_sameTx_le_one hunique j.row
  rw [← List.head?_filter]
  show _ = [embed j (sameTx aux j.row).head?]
  rw [joinRow]
  cases hhits : sameTx aux j.row with
  | nil => rfl
  | cons a rest =>
      rw [hhits, List.length_cons] at hlen
      obtain rfl : rest = [] := List.length_eq_zero_iff.mp (by omega)
      rfl

/-- A join on a unique key embeds into each row. -/
theorem joinIf_eq {aux : List EventRow} (hunique : UniqueTx aux)
    (embed : Joined → Option EventRow → Joined) (join : Bool) (rows : List Joined) :
    (if join then leftJoin aux embed rows else rows) = rows.map fun j =>
      if join then embed j (aux.find? fun a =>
        a.chainId == j.row.chainId && a.txId == j.row.txId) else j := by
  have hrow : joinRow aux embed = fun j => [embed j (aux.find? fun a =>
      a.chainId == j.row.chainId && a.txId == j.row.txId)] := by
    funext j
    exact joinRow_eq hunique embed j
  cases join with
  | false => exact (List.map_id rows).symm
  | true =>
      rw [if_pos rfl, leftJoin, hrow]
      exact List.flatMap_pure_eq_map _ rows

/-- The joined rows are the rows of the table, each with what was selected. -/
theorem source_eq (hlayout : AuxLayout layout) (spec : QuerySpec) (conds : List Condition) :
    (repo.select spec spec.table conds none).source store =
      (store.typed spec.table).rows.map (embed repo store spec) := by
  have htx := joinIf_eq (uniqueTx_typed store hlayout.transactions)
    (fun j tx => { j with transaction := tx }) (repo.select spec spec.table conds none).joinTx
  have hreceipt := joinIf_eq (uniqueTx_typed store hlayout.receipts)
    (fun j rc => { j with receipt := rc }) (repo.select spec spec.table conds none).joinReceipt
  rw [Select.source]
  simp only [htx, hreceipt, List.map_map]
  apply List.map_congr_left
  intro row _
  show _ = Joined.mk row (if (repo.select spec spec.table conds none).joinTx then _ else none)
    (if (repo.select spec spec.table conds none).joinReceipt then _ else none)
  cases (repo.select spec spec.table conds none).joinTx <;>
    cases (repo.select spec spec.table conds none).joinReceipt <;> rfl

theorem base_eq (hlayout : AuxLayout layout) (spec : QuerySpec) (conds : List Condition) :
    base repo pg store spec spec.table conds =
      (matching pg store spec.table conds).map (embed repo store spec) := by
  rw [base, source_eq hlayout, List.filter_map]
  rfl

end Joins

section Arguments

variable {repo} {pg}

/-- The condition a typed shortcut is lowered to. -/
def shortcutCondition (s : String × FilterOp × Int) : Condition :=
  ⟨s.1, s.2.1, castSuffix .int64, .int s.2.2⟩

theorem bindValue_eqFilter {value : Int} (h : InBigint value) (column : String) (op : FilterOp) :
    bindValue .int64 (eqFilter column op value).value = .ok (castSuffix .int64, .int value) := by
  rw [bindValue, eqFilter, String.toList_ofList, parseI64, Decimal.parse_format h.1 h.2]

theorem colType_shortcut {args : QueryArgs} {s : String × FilterOp × Int} (h : s ∈ args.shortcuts)
    (table : String) : repo.colType table s.1 = some .int64 := by
  simp only [QueryArgs.shortcuts, List.mem_append, Option.mem_toList, Option.map_eq_some_iff] at h
  obtain (⟨c, -, rfl⟩ | ⟨c, -, rfl⟩) | ⟨c, -, rfl⟩ := h <;> rfl

/-- The filters of a query field are accepted where those of `where` are. -/
theorem buildFilters_filters {args : QueryArgs} {table : String} {conds : List Condition}
    (hargs : ∀ s ∈ args.shortcuts, InBigint s.2.2)
    (hwhere : repo.buildFilters table (args.whereArg.map FilterInput.lower) = .ok conds) :
    repo.buildFilters table args.filters = .ok (args.shortcuts.map shortcutCondition ++ conds) := by
  have hshortcuts : repo.buildFilters table
      (args.shortcuts.map fun s => eqFilter s.1 s.2.1 s.2.2) =
      .ok (args.shortcuts.map shortcutCondition) := by
    rw [buildFilters, List.mapM_map]
    apply Rows.mapM_eq_map
    intro s hs
    simp only [Function.comp_apply]
    rw [show (eqFilter s.1 s.2.1 s.2.2).column = s.1 from rfl, colType_shortcut hs]
    simp only [bindValue_eqFilter (hargs s hs)]
    rfl
  rw [buildFilters] at hshortcuts hwhere ⊢
  rw [QueryArgs.filters, List.mapM_append, hshortcuts, hwhere]
  rfl

/-- A row satisfies the conditions of the arguments when the arguments select it. -/
theorem all_shortcuts (hpg : ComparesIntegers pg) (args : QueryArgs) (conds : List Condition)
    (row : EventRow) :
    ((args.shortcuts.map shortcutCondition ++ conds).all fun cond => pg.compares cond row) =
      args.selects pg conds row := by
  have hchain : ∀ c, pg.compares (shortcutCondition ("chain_id", .eq, c)) row =
      decide (bigint row.chainId = c) := by
    intro c
    exact hpg "chain_id" .eq c row (bigint row.chainId) (by simp only [metaInt])
  have hfrom : ∀ c, pg.compares (shortcutCondition ("height", .gte, c)) row =
      decide (c ≤ bigint row.height) := by
    intro c
    exact hpg "height" .gte c row (bigint row.height) (by simp only [metaInt])
  have hto : ∀ c, pg.compares (shortcutCondition ("height", .lte, c)) row =
      decide (bigint row.height ≤ c) := by
    intro c
    exact hpg "height" .lte c row (bigint row.height) (by simp only [metaInt])
  rw [QueryArgs.selects, QueryArgs.shortcuts, List.all_append]
  congr 1
  rw [List.map_append, List.map_append, List.all_append, List.all_append]
  congr 1
  · congr 1
    · cases args.chainId with
      | none => rfl
      | some c =>
          rw [Option.map_some, Option.toList_some, List.map_singleton, List.all_cons, List.all_nil,
            Bool.and_true, Option.all_some]
          exact hchain c
    · cases args.fromHeight with
      | none => rfl
      | some c =>
          rw [Option.map_some, Option.toList_some, List.map_singleton, List.all_cons, List.all_nil,
            Bool.and_true, Option.all_some]
          exact hfrom c
  · cases args.toHeight with
    | none => rfl
    | some c =>
        rw [Option.map_some, Option.toList_some, List.map_singleton, List.all_cons, List.all_nil,
          Bool.and_true, Option.all_some]
        exact hto c

end Arguments

section Unique

variable {store}

/-- Rows of one chain differ in their position. -/
theorem nodup_rowPair {table : String} (hevent : layout table = .event)
    (hfits : ∀ row ∈ (store.typed table).rows, RowFits row) {rows : List EventRow}
    (hsub : rows.Sublist (store.typed table).rows) {c : Int}
    (hchain : ∀ row ∈ rows, bigint row.chainId = c) : (rows.map rowPair).Nodup := by
  have hkeys : rows.Pairwise fun a b =>
      EventRow.primaryKey (layout table) a ≠ EventRow.primaryKey (layout table) b :=
    (List.pairwise_map.mp (store.typed table).nodup).sublist hsub
  refine List.pairwise_map.mpr (hkeys.imp_of_mem ?_)
  intro a b ha hb hne heq
  have hfa := hfits a (hsub.subset ha)
  have hfb := hfits b (hsub.subset hb)
  simp only [rowPair, Prod.mk.injEq, bigint_inj hfa.height hfb.height,
    bigint_inj hfa.index hfb.index] at heq
  have hsame : a.chainId = b.chainId :=
    (bigint_inj hfa.chainId hfb.chainId).mp ((hchain a ha).trans (hchain b hb).symm)
  apply hne
  rw [hevent, EventRow.primaryKey, EventRow.primaryKey, hsame, heq.1, heq.2]

/-- Rows with different keys have one order along them. -/
theorem eq_of_sorted (descending : Bool) {a b : List Joined} (hperm : a.Perm b)
    (hnodup : (b.map fun j => rowPair j.row).Nodup) (ha : a.Pairwise (rowLe descending))
    (hb : b.Pairwise (rowLe descending)) : a = b := by
  apply hperm.eq_of_pairwise _ ha hb
  intro x y hx hy hxy hyx
  apply List.inj_on_of_nodup_map hnodup (hperm.subset hx) hy
  have hkey : rowKey x.row = rowKey y.row := by
    cases descending with
    | false => exact le_antisymm (α := Int ×ₗ Int) hxy hyx
    | true => exact le_antisymm (α := Int ×ₗ Int) hyx hxy
  exact toLex.injective hkey

end Unique

section Follow

variable {repo} {pg} {store} {table : String} {isEvent : Bool} {args : QueryArgs} {look : LookAhead}

/-- The pages of the connections are the pages of the repository. -/
theorem exists_connections {order : Nat → Keyset.Sorter (rowLe args.descending)} {fuel n : Nat}
    {after : Option String} {pages : List (List Joined)}
    (h : repo.followPages pg store (args.spec table isEvent look) order fuel n
      (after.map Cursor.mk) = .ok (some pages)) :
    ∃ conns, followConnections repo pg store table isEvent args look order fuel n after =
        .ok (some conns) ∧ conns.map ConnData.rows = pages ∧
      ∀ conn ∈ conns, conn.spec.table = table ∧ conn.spec.filters = args.filters := by
  induction fuel generalizing n after pages with
  | zero => cases h
  | succ fuel ih =>
      rw [followPages, Rows.bind_eq_ok] at h
      obtain ⟨page, hpage, h⟩ := h
      obtain ⟨conn, hconn, hrows, hcursor, hnext, hspec⟩ : ∃ conn, queryField repo pg store table
          isEvent { args with after := after } look (order n) = .ok conn ∧ conn.rows = page.items ∧
          conn.endCursor.map Cursor.mk = page.endCursor ∧ conn.hasNext = page.hasNext ∧
          conn.spec.table = table ∧ conn.spec.filters = args.filters := by
        refine ⟨⟨page.items, page.endCursor.map Cursor.text, page.hasNext,
          { args with after := after }.spec table isEvent look⟩, ?_, rfl, ?_, rfl, rfl, rfl⟩
        · rw [queryField, Rows.bind_eq_ok]
          exact ⟨page, hpage, rfl⟩
        · cases page.endCursor <;> rfl
      cases hmore : page.hasNext with
      | false =>
          rw [hmore, if_neg Bool.false_ne_true] at h
          cases h
          refine ⟨[conn], ?_, by rw [List.map_singleton, hrows], ?_⟩
          · rw [followConnections, Rows.bind_eq_ok]
            refine ⟨conn, hconn, ?_⟩
            rw [hnext, hmore, if_neg Bool.false_ne_true]
          · intro other hother
            rw [List.mem_singleton.mp hother]
            exact hspec
      | true =>
          rw [hmore, if_pos rfl, Rows.bind_eq_ok] at h
          obtain ⟨rest, hrest, h⟩ := h
          obtain ⟨more, rfl, rfl⟩ := Option.map_eq_some_iff.mp (Except.ok.inj h)
          rw [← hcursor] at hrest
          obtain ⟨conns, hconns, rfl, hspecs⟩ := ih hrest
          refine ⟨conn :: conns, ?_, by rw [List.map_cons, hrows], ?_⟩
          · rw [followConnections, Rows.bind_eq_ok]
            refine ⟨conn, hconn, ?_⟩
            rw [hnext, hmore, if_pos rfl, hconns]
            rfl
          · exact List.forall_mem_cons.mpr ⟨hspec, hspecs⟩

/-- A query field is of a table the repository knows. -/
theorem validateTable_of_field {schemas : List EventSchema}
    (hfield : (table, isEvent) ∈ queryFields schemas) (hname : isValidIdent table = true)
    {spec : QuerySpec} (hspec : spec.table = table) :
    (PgEventQueryRepository.new schemas).validateTable spec = .ok table := by
  obtain ⟨schema, hmem, heq⟩ := List.mem_map.mp hfield
  obtain ⟨hschema, hidx⟩ := List.mem_filter.mp hmem
  cases heq
  exact Migrator.validateTable_ok.mpr ⟨hspec, hname, hidx, Migrator.exists_tables_new hschema⟩

theorem matching_eq (hpg : ComparesIntegers pg) (conds : List Condition) :
    matching pg store table (args.shortcuts.map shortcutCondition ++ conds) =
      (store.typed table).rows.filter (args.selects pg conds) := by
  apply List.filter_congr
  intro row _
  exact all_shortcuts hpg args conds row

theorem map_row_embed (spec : QuerySpec) (rows : List EventRow) :
    (rows.map (embed repo store spec)).map (fun j => rowPair j.row) = rows.map rowPair := by
  rw [List.map_map]
  rfl

end Follow

section Followed

variable {repo} {pg} {store}

/-- Where the selected rows differ in their position, following the cursors lists them in order. -/
theorem followed_of_nodup (hlayout : AuxLayout layout) {spec : QuerySpec} {conds : List Condition}
    (hvalid : repo.validateTable spec = .ok spec.table)
    (hfilters : repo.buildFilters spec.table spec.filters = .ok conds)
    (hcast : pg.castError conds = none)
    (hnodup : ((matching pg store spec.table conds).map rowPair).Nodup)
    (order : Nat → Keyset.Sorter (rowLe spec.descending)) :
    ∃ fuel pages, repo.followPages pg store spec order fuel 0 none = .ok (some pages) ∧
      pages.flatten = ((matching pg store spec.table conds).map
        (embed repo store spec)).insertionSort (rowLe spec.descending) := by
  obtain ⟨fuel, pages, hpages⟩ : ∃ fuel pages, repo.followPages pg store spec order fuel 0 none =
      .ok (some pages) := exists_followPages hvalid hfilters hcast order
  obtain ⟨κ, _, ⟨dir⟩⟩ := exists_direction spec.descending
  have hlists := lists_of_followPages dir hvalid hfilters hcast hpages
  have hperm : pages.flatten.Perm (base repo pg store spec spec.table conds) := by
    refine hlists.perm_iff.mpr (Keyset.noSplit_of_nodup (clampFirst_pos _) ?_)
    rw [keys_base hlayout dir]
    exact ((List.perm_insertionSort _ _).nodup_iff.mpr hnodup).map dir.injective
  rw [base_eq pg hlayout] at hperm
  refine ⟨fuel, pages, hpages, eq_of_sorted spec.descending
    (hperm.trans (List.perm_insertionSort _ _).symm) ?_ ?_ ?_⟩
  · rw [((List.perm_insertionSort _ _).map _).nodup_iff, map_row_embed]
    exact hnodup
  · exact hlists.sorted.imp fun hle => (dir.le_iff _ _).mpr hle
  · exact (rowSorter spec.descending).sorted _

end Followed

/-- A query of one chain over an event table, with filters the repository and the database take. -/
structure ChainQuery (layout : String → PkColumns) (schemas : List EventSchema) (pg : Postgres)
    (table : String) (isEvent : Bool) (args : QueryArgs) (conds : List Condition) : Prop where
  field : (table, isEvent) ∈ queryFields schemas
  named : isValidIdent table = true
  event : layout table = .event
  comparesIntegers : ComparesIntegers pg
  chain : ∃ c, args.chainId = some c
  integers : ∀ s ∈ args.shortcuts, InBigint s.2.2
  accepted : (PgEventQueryRepository.new schemas).buildFilters table
    (args.whereArg.map FilterInput.lower) = .ok conds
  castable : pg.castError (args.shortcuts.map shortcutCondition ++ conds) = none

section Chain

variable {pg} {store} {schemas : List EventSchema} {table : String} {isEvent : Bool}
  {args : QueryArgs} {conds : List Condition}
  (h : ChainQuery layout schemas pg table isEvent args conds)
  (hfits : ∀ row ∈ (store.typed table).rows, RowFits row)

include h hfits

theorem ChainQuery.nodup_selected :
    (((store.typed table).rows.filter (args.selects pg conds)).map rowPair).Nodup := by
  obtain ⟨c, hc⟩ := h.chain
  apply nodup_rowPair h.event hfits List.filter_sublist
  intro row hrow
  have hselected := (List.mem_filter.mp hrow).2
  rw [QueryArgs.selects, hc, Option.all_some, Bool.and_eq_true, Bool.and_eq_true, Bool.and_eq_true,
    decide_eq_true_eq] at hselected
  exact hselected.1.1.1

/-- A client that names the chain and follows `endCursor` is shown what its arguments select, each row
once and in order, and every page says how many there are. -/
theorem pages_of_chain (hlayout : AuxLayout layout) (look : LookAhead)
    (order : Nat → Keyset.Sorter (rowLe args.descending)) :
    ∃ fuel conns, followConnections (PgEventQueryRepository.new schemas) pg store table isEvent args
        look order fuel 0 none = .ok (some conns) ∧
      conns.flatMap ConnData.rows =
        listing (PgEventQueryRepository.new schemas) pg store table isEvent args look conds ∧
      ∀ conn ∈ conns, totalCount (PgEventQueryRepository.new schemas) pg store conn =
        .ok (toString (conns.flatMap ConnData.rows).length) := by
  have hvalid : ∀ {spec : QuerySpec}, spec.table = table →
      (PgEventQueryRepository.new schemas).validateTable spec = .ok table :=
    fun hspec => validateTable_of_field h.field h.named hspec
  have hfilters := buildFilters_filters h.integers h.accepted
  have hmatching : matching pg store table (args.shortcuts.map shortcutCondition ++ conds) = _ :=
    matching_eq h.comparesIntegers conds
  obtain ⟨fuel, pages, hpages, hlisted⟩ := @followed_of_nodup _ _ pg store hlayout
    (args.spec table isEvent look) _ (hvalid rfl) hfilters h.castable
    (hmatching ▸ h.nodup_selected hfits) order
  obtain ⟨conns, hconns, rfl, hspecs⟩ := @exists_connections layout _ pg store
    table isEvent args look order fuel 0 none pages hpages
  have hflat : conns.flatMap ConnData.rows =
      listing (PgEventQueryRepository.new schemas) pg store table isEvent args look conds := by
    rw [List.flatMap_def, hlisted, listing, ← hmatching]
  refine ⟨fuel, conns, hconns, hflat, ?_⟩
  intro conn hconn
  obtain ⟨htable, hsame⟩ := hspecs conn hconn
  have hcount := @count_eq _ store _ pg conn.spec _ _ (hvalid htable) (hsame ▸ hfilters) h.castable
  rw [totalCount, hcount, hflat, listing, List.length_insertionSort, List.length_map, ← hmatching]
  rfl

end Chain

/-- The transfer table of two chains, with the transaction of one of its rows. -/
def sharedTransfers : Store eventLayout :=
  EventRepo.insertRows sharedTable transactionsTable
    [⟨1, 6, ⟨[9]⟩, none, ⟨[9]⟩, 0, ⟨transactionsTable, []⟩⟩]

def transferSchemas : List EventSchema :=
  ⟨transferTable, "Transfer", some "0xddf2", [⟨"value", .bytes, false⟩], [], EventSchema.eventPk⟩ ::
    Enrichment.auxSchemas

/-- Integer columns only. -/
def integerComparison : Postgres where
  compares cond row :=
    match metaInt row cond.column, cond.bind with
    | some n, .int value => holds cond.op n value
    | _, _ => false
  castError _ := none

/-- Chain 1, the newest first, one row a page. -/
def newestFirst : QueryArgs := ⟨some 1, none, some 1, none, none, some "DESC", []⟩

theorem chainQuery_newestFirst :
    ChainQuery eventLayout transferSchemas integerComparison transferTable true newestFirst [] where
  field := by decide +kernel
  named := by decide +kernel
  event := rfl
  comparesIntegers := by
    intro column op value row n hn
    simp only [integerComparison, hn]
  chain := ⟨1, rfl⟩
  integers := by
    intro s hs
    rw [List.mem_singleton.mp hs]
    exact ⟨by decide, by decide⟩
  accepted := rfl
  castable := rfl

theorem rowFits_of_all {rows : List EventRow} (hall : rows.all (fun row =>
    decide (row.chainId < 2 ^ 64 ∧ row.height < 2 ^ 64 ∧ row.index < 2 ^ 64)) = true) :
    ∀ row ∈ rows, RowFits row := by
  intro row hrow
  obtain ⟨hchain, hheight, hindex⟩ := of_decide_eq_true (List.all_eq_true.mp hall row hrow)
  exact ⟨hchain, hheight, hindex⟩

theorem pages_of_chain_newest_first : ∃ conns : List ConnData,
    (conns.flatMap ConnData.rows).map (fun j => (j.row.height, j.transaction.isSome)) =
      [(6, true), (5, false)] ∧
    ∀ conn ∈ conns, totalCount (PgEventQueryRepository.new transferSchemas) integerComparison
      sharedTransfers conn = .ok (toString 2) := by
  have hfits : ∀ row ∈ (sharedTransfers.typed transferTable).rows, RowFits row :=
    rowFits_of_all (by decide +kernel)
  obtain ⟨fuel, conns, -, hlisted, htotal⟩ := pages_of_chain chainQuery_newestFirst hfits
    auxLayout_eventLayout ⟨true, false⟩ fun _ => rowSorter true
  have hrows : ((listing (PgEventQueryRepository.new transferSchemas) integerComparison
      sharedTransfers transferTable true newestFirst ⟨true, false⟩ []).map fun j =>
      (j.row.height, j.transaction.isSome)) = [(6, true), (5, false)] := by decide +kernel
  refine ⟨conns, by rw [hlisted, hrows], ?_⟩
  intro conn hconn
  have hlength : (conns.flatMap ConnData.rows).length = 2 := by
    rw [hlisted, ← List.length_map fun j : Joined => (j.row.height, j.transaction.isSome), hrows]
    rfl
  rw [htotal conn hconn, hlength]

end Topic0.Graphql
