import Topic0.BaseKeysetWalk
import Topic0.QueryConnection

/-! Following `endCursor` while the tables change. The read API takes each page from the tables as
they are when it is asked for, and workers write and reorg checks delete in between. A client that
names the chain is shown no position twice and none out of order, sees each row as it stood when its
page was taken, and misses nothing that was there all along. -/

namespace Topic0.Graphql

open PgEventQueryRepository

variable {layout : String → PkColumns}

/-- At most so many requests of a client that follows `endCursor`, the `n`-th one answered from the
tables of that time. -/
def followLive (repo : PgEventQueryRepository) (pg : Postgres) (stores : Nat → Store layout)
    (table : String) (isEvent : Bool) (args : QueryArgs) (look : LookAhead)
    (order : Nat → Keyset.Sorter (rowLe args.descending)) :
    Nat → Nat → Option String → Except (Fault DomainError) (List ConnData)
  | 0, _, _ => .ok []
  | requests + 1, n, after => do
      let conn ← queryField repo pg (stores n) table isEvent { args with after := after } look
        (order n)
      if conn.hasNext then do
        let rest ← followLive repo pg stores table isEvent args look order requests (n + 1)
          conn.endCursor
        .ok (conn :: rest)
      else .ok [conn]

/-- Strictly before, in the order that was asked for. -/
def rowLt (descending : Bool) (a b : Joined) : Prop :=
  if descending then rowKey b.row < rowKey a.row else rowKey a.row < rowKey b.row

/-- The pages have come to the position, or to the end. -/
def CameTo (descending : Bool) (conns : List ConnData) (position : Int × Int) : Prop :=
  ∃ conn ∈ conns.getLast?, conn.hasNext = false ∨ ∃ j ∈ conn.rows,
    if descending then rowKey j.row ≤ toLex position else toLex position ≤ rowKey j.row

section Pages

variable {repo : PgEventQueryRepository} {pg : Postgres} {table : String} {isEvent : Bool}
  {args : QueryArgs} {look : LookAhead} {conds : List Condition} {κ : Type} [LinearOrder κ]
  (dir : Direction (args.spec table isEvent look).descending κ)

/-- The cursor of a page as a client sends it back. -/
def sentBack (after : Option (Int × Int)) : Option String := after.map fun c => (printCursor c).text

/-- The rows of a table that a query field pages through. -/
def paged (repo : PgEventQueryRepository) (pg : Postgres) (store : Store layout) (table : String)
    (isEvent : Bool) (args : QueryArgs) (look : LookAhead) (conds : List Condition) : List Joined :=
  base repo pg store (args.spec table isEvent look) table conds

variable (htable : repo.validateTable (args.spec table isEvent look) = .ok table)
  (hfilters : repo.buildFilters table args.filters = .ok conds) (hcast : pg.castError conds = none)

include htable hfilters hcast

/-- A request is answered with a page of the rows, and its `endCursor` is that of the page. -/
theorem exists_queryField (store : Store layout) (order : Keyset.Sorter (rowLe args.descending))
    {after : Option (Int × Int)} (hafter : ∀ c, after = some c → InBigint c.1 ∧ InBigint c.2)
    {p : Keyset.Page Joined κ} (hp : p = Keyset.page dir.rowKey (dir.sorter order)
      (clampFirst args.pageSize) (paged repo pg store table isEvent args look conds)
      (after.map dir.key)) :
    ∃ conn next, queryField repo pg store table isEvent { args with after := sentBack after } look
        order = .ok conn ∧
      (conn.spec.table = table ∧ conn.spec.filters = args.filters) ∧
      conn.rows = p.items ∧ conn.hasNext = p.hasNext ∧ conn.endCursor = sentBack next ∧
      p.endCursor = next.map dir.key ∧ ∀ c, next = some c → InBigint c.1 ∧ InBigint c.2 := by
  have hquery := @query_eq_pageOf _ store _ pg (args.spec table isEvent look) _ _ _ _ dir htable
    hfilters hcast order after hafter
  generalize hrows : fetched repo pg store (args.spec table isEvent look) table conds dir order after =
    rows at hquery
  have hpage : p = ⟨rows.take (clampFirst args.pageSize),
      if decide (clampFirst args.pageSize < rows.length) then
        (rows.take (clampFirst args.pageSize)).getLast?.map dir.rowKey else none,
      decide (clampFirst args.pageSize < rows.length)⟩ := by
    rw [hp, ← hrows]
    rfl
  refine ⟨⟨(pageOf (clampFirst args.pageSize) rows).items,
      (pageOf (clampFirst args.pageSize) rows).endCursor.map Cursor.text,
      (pageOf (clampFirst args.pageSize) rows).hasNext,
      { args with after := sentBack after }.spec table isEvent look⟩,
    if decide (clampFirst args.pageSize < rows.length) then
      (rows.take (clampFirst args.pageSize)).getLast?.map fun j => rowPair j.row else none,
    ?_, ⟨rfl, rfl⟩, ?_, ?_, ?_, ?_, ?_⟩
  · rw [queryField, Rows.bind_eq_ok]
    refine ⟨pageOf (clampFirst args.pageSize) rows, ?_, rfl⟩
    -- the cursor sent back is the one the query is stated with
    cases after with
    | none => exact hquery
    | some c => exact hquery
  · rw [hpage]
    rfl
  · rw [hpage]
    rfl
  · show (pageOf (clampFirst args.pageSize) rows).endCursor.map Cursor.text = _
    rw [pageOf]
    split
    · rw [sentBack, Option.map_map, Option.map_map]
      rfl
    · rfl
  · rw [hpage]
    show (if decide (clampFirst args.pageSize < rows.length) then _ else none) = _
    split
    · rw [Option.map_map]
      rfl
    · rfl
  · intro c hc
    split at hc
    · obtain ⟨j, -, rfl⟩ := Option.map_eq_some_iff.mp hc
      exact ⟨inBigint_bigint j.row.height, inBigint_bigint j.row.index⟩
    · cases hc

/-- The requests are a walk over the rows of their times. -/
theorem exists_followLive (stores : Nat → Store layout)
    (order : Nat → Keyset.Sorter (rowLe args.descending)) (requests n : Nat)
    (after : Option (Int × Int)) (hafter : ∀ c, after = some c → InBigint c.1 ∧ InBigint c.2) :
    ∃ conns, followLive repo pg stores table isEvent args look order requests n (sentBack after) =
        .ok conns ∧
      (∀ conn ∈ conns, conn.spec.table = table ∧ conn.spec.filters = args.filters) ∧
      conns.map (fun conn => (conn.rows, conn.hasNext)) =
        (Keyset.walk dir.rowKey (fun n => dir.sorter (order n)) (clampFirst args.pageSize)
          (fun n => paged repo pg (stores n) table isEvent args look conds) requests n
          (after.map dir.key)).map fun p => (p.items, p.hasNext) := by
  induction requests generalizing n after with
  | zero => exact ⟨[], rfl, fun conn hconn => absurd hconn List.not_mem_nil, rfl⟩
  | succ requests ih =>
      generalize hp : Keyset.page dir.rowKey (dir.sorter (order n)) (clampFirst args.pageSize)
        (paged repo pg (stores n) table isEvent args look conds) (after.map dir.key) = p
      obtain ⟨conn, next, hconn, hspec, hrows, hnext, hcursor, hkey, hbounds⟩ :=
        exists_queryField dir htable hfilters hcast (stores n)
          (order n) hafter hp.symm
      rw [Keyset.walk, hp]
      cases hmore : p.hasNext with
      | false =>
          refine ⟨[conn], ?_, ?_, ?_⟩
          · rw [followLive, Rows.bind_eq_ok]
            refine ⟨conn, hconn, ?_⟩
            rw [hnext, hmore, if_neg Bool.false_ne_true]
          · intro other hother
            rw [List.mem_singleton.mp hother]
            exact hspec
          · rw [if_neg Bool.false_ne_true, List.map_singleton, List.map_singleton, hrows, hnext]
      | true =>
          obtain ⟨conns, hconns, hspecs, hpages⟩ := ih (n + 1) next hbounds
          refine ⟨conn :: conns, ?_, List.forall_mem_cons.mpr ⟨hspec, hspecs⟩, ?_⟩
          · rw [followLive, Rows.bind_eq_ok]
            refine ⟨conn, hconn, ?_⟩
            rw [hnext, hmore, if_pos rfl, hcursor, hconns]
            rfl
          · rw [if_pos rfl, hkey, List.map_cons, List.map_cons, hrows, hnext, hpages]

end Pages

section Shown

variable {schemas : List EventSchema} {pg : Postgres} {stores : Nat → Store layout} {table : String}
  {isEvent : Bool} {args : QueryArgs} {look : LookAhead} {conds : List Condition}

/-- What is shown to a client that names the chain, however the tables change between its requests. -/
structure ShownLive (schemas : List EventSchema) (pg : Postgres) (stores : Nat → Store layout)
    (table : String) (isEvent : Bool) (args : QueryArgs) (look : LookAhead) (conds : List Condition)
    (conns : List ConnData) : Prop where
  ordered : (conns.flatMap ConnData.rows).Pairwise (rowLt args.descending)
  /-- Each row as it stood when its page was taken. -/
  current : ∀ n conn, conns[n]? = some conn → ∀ j ∈ conn.rows,
    j.row ∈ (stores n).typed table ∧ args.selects pg conds j.row = true ∧
      j = embed (PgEventQueryRepository.new schemas) (stores n) (args.spec table isEvent look) j.row
  /-- Nothing is missed that was selected at every request. -/
  lasting : ∀ position, (∀ n, n < conns.length → ∃ row ∈ (stores n).typed table,
      args.selects pg conds row = true ∧ rowPair row = position) →
    CameTo args.descending conns position → ∃ j ∈ conns.flatMap ConnData.rows, rowPair j.row = position

/-- A field pages through the rows its arguments select. -/
theorem paged_eq (h : ChainQuery layout schemas pg table isEvent args conds)
    (hlayout : AuxLayout layout) (store : Store layout) :
    paged (PgEventQueryRepository.new schemas) pg store table isEvent args look
        (args.shortcuts.map shortcutCondition ++ conds) =
      ((store.typed table).rows.filter (args.selects pg conds)).map
        (embed (PgEventQueryRepository.new schemas) store (args.spec table isEvent look)) := by
  rw [paged, ← matching_eq h.comparesIntegers conds]
  exact base_eq pg hlayout (args.spec table isEvent look) _

variable (h : ChainQuery layout schemas pg table isEvent args conds)
  {κ : Type} [LinearOrder κ] (dir : Direction (args.spec table isEvent look).descending κ)

include h

theorem shownLive_of_walk (hlayout : AuxLayout layout) {pages : List (Keyset.Page Joined κ)}
    {conns : List ConnData}
    (hshows : Keyset.WalkShows dir.rowKey
      (fun n => paged (PgEventQueryRepository.new schemas) pg (stores n) table isEvent args look
        (args.shortcuts.map shortcutCondition ++ conds)) 0 none pages)
    (heq : conns.map (fun conn => (conn.rows, conn.hasNext)) =
      pages.map fun p => (p.items, p.hasNext)) :
    ShownLive schemas pg stores table isEvent args look conds conns := by
  have hflat : conns.flatMap ConnData.rows = pages.flatMap Keyset.Page.items := by
    rw [List.flatMap_def, List.flatMap_def]
    have hfst := congrArg (List.map Prod.fst) heq
    rw [List.map_map, List.map_map] at hfst
    exact congrArg List.flatten hfst
  have hlength : conns.length = pages.length := by
    rw [← List.length_map (fun conn : ConnData => (conn.rows, conn.hasNext)), heq, List.length_map]
  refine ⟨?_, ?_, ?_⟩
  · rw [hflat]
    exact hshows.sorted.imp fun hlt => (dir.lt_iff _ _).mpr hlt
  · intro n conn hconn j hj
    have hat := congrArg (fun l => l[n]?) heq
    simp only [List.getElem?_map, hconn, Option.map_some] at hat
    obtain ⟨p, hp, hpair⟩ := Option.map_eq_some_iff.mp hat.symm
    obtain ⟨hitems, -⟩ := Prod.mk.inj hpair
    obtain ⟨hin, -⟩ := hshows.taken n p hp j (hitems ▸ hj)
    rw [Nat.zero_add, paged_eq h hlayout] at hin
    obtain ⟨row, hrow, rfl⟩ := List.mem_map.mp hin
    obtain ⟨hstored, hselected⟩ := List.mem_filter.mp hrow
    exact ⟨hstored, hselected, rfl⟩
  · intro position hpresent hcame
    have hrows : ∀ n, n < pages.length → ∃ j ∈ paged (PgEventQueryRepository.new schemas) pg
        (stores (0 + n)) table isEvent args look (args.shortcuts.map shortcutCondition ++ conds),
        dir.rowKey j = dir.key position := by
      intro n hn
      obtain ⟨row, hrow, hselected, hposition⟩ := hpresent n (hlength ▸ hn)
      refine ⟨embed (PgEventQueryRepository.new schemas) (stores n) (args.spec table isEvent look) row,
        ?_, congrArg dir.key hposition⟩
      rw [Nat.zero_add, paged_eq h hlayout]
      exact List.mem_map_of_mem (List.mem_filter.mpr ⟨hrow, hselected⟩)
    have hreached : Keyset.Reached dir.rowKey pages (dir.key position) := by
      obtain ⟨conn, hconn, hcome⟩ := hcame
      have hlast := congrArg List.getLast? heq
      rw [List.getLast?_map, List.getLast?_map, Option.mem_def.mp hconn, Option.map_some] at hlast
      obtain ⟨p, hp, hpair⟩ := Option.map_eq_some_iff.mp hlast.symm
      obtain ⟨hitems, hnext⟩ := Prod.mk.inj hpair
      refine ⟨p, hp, ?_⟩
      rcases hcome with hend | ⟨j, hj, hle⟩
      · exact .inl (hnext.trans hend)
      · exact .inr ⟨j, hitems ▸ hj, (dir.le_iff _ _).mp hle⟩
    obtain ⟨j, hj, hkey⟩ := hshows.covers (dir.key position) nofun hrows hreached
    exact ⟨j, hflat ▸ hj, dir.injective hkey⟩

theorem exists_shownLive (hlayout : AuxLayout layout)
    (hfits : ∀ n, ∀ row ∈ ((stores n).typed table).rows, RowFits row) (look : LookAhead)
    (order : Nat → Keyset.Sorter (rowLe args.descending)) (requests : Nat) :
    ∃ conns, followLive (PgEventQueryRepository.new schemas) pg stores table isEvent args look order
        requests 0 none = .ok conns ∧
      (∀ conn ∈ conns, conn.spec.table = table ∧ conn.spec.filters = args.filters) ∧
      ShownLive schemas pg stores table isEvent args look conds conns := by
  obtain ⟨κ, _, ⟨dir⟩⟩ := exists_direction (args.spec table isEvent look).descending
  have hvalid : (PgEventQueryRepository.new schemas).validateTable (args.spec table isEvent look) =
      .ok table := validateTable_of_field h.field h.named rfl
  have hfilters := buildFilters_filters h.integers h.accepted
  obtain ⟨conns, hconns, hspecs, hpages⟩ := exists_followLive dir hvalid hfilters h.castable stores
    order requests 0 none nofun
  refine ⟨conns, hconns, hspecs, shownLive_of_walk h dir hlayout
    (Keyset.walk_shows _ (clampFirst_pos _) ?_ requests 0 none) hpages⟩
  intro n
  rw [paged_eq h hlayout, List.map_map]
  show ((((stores n).typed table).rows.filter (args.selects pg conds)).map
    (dir.key ∘ rowPair)).Nodup
  rw [← List.map_map]
  exact (h.nodup_selected (hfits n)).map dir.injective

end Shown

/-- A new transfer at height 7 and a late one at height 4. -/
def moreTransfers : Store eventLayout :=
  EventRepo.insertRows sharedTransfers transferTable
    [⟨1, 7, ⟨[3]⟩, none, ⟨[3]⟩, 0, ⟨transferTable, []⟩⟩,
      ⟨1, 4, ⟨[2]⟩, none, ⟨[2]⟩, 0, ⟨transferTable, []⟩⟩]

/-- They arrive after the first request. -/
def arriving : Nat → Store eventLayout
  | 0 => sharedTransfers
  | _ + 1 => moreTransfers

end Topic0.Graphql
