import Topic0.QueryRepository
import Topic0.DecodeRange

/-! Paging through a query. The cursor is the pair `(height, idx)`, which is not a key of a table
shared by several chains: where a page ends between two rows with one pair, the next page starts
after both. Following the cursors is keyset paging over the joined rows, in either direction. -/

namespace Topic0

open Keyed PgEventQueryRepository

/-- A value a `bigint` column can hold. -/
def InBigint (n : Int) : Prop := -2 ^ 63 ≤ n ∧ n ≤ 2 ^ 63 - 1

theorem inBigint_bigint (n : Nat) : InBigint (bigint n) := by
  have hpos : 0 < 2 ^ 64 := Nat.two_pow_pos 64
  have hlo := Int.le_bmod (x := (n : Int)) hpos
  have hhi := Int.bmod_lt (x := (n : Int)) hpos
  unfold InBigint bigint
  norm_num at hlo hhi ⊢
  omega

section Cursor

theorem splitOnce_append {c : Char} {before after : List Char} (h : c ∉ before) :
    splitOnce c (before ++ c :: after) = some (before, after) := by
  induction before with
  | nil => rw [List.nil_append, splitOnce, if_pos rfl]
  | cons x before ih =>
      obtain ⟨hne, hrest⟩ := not_or.mp (List.mem_cons.not.mp h)
      rw [List.cons_append, splitOnce, if_neg (Ne.symm hne), ih hrest]
      rfl

/-- A cursor read back is the pair it was made of. -/
theorem parseCursor_formatCursor {h i : Int} (hh : InBigint h) (hi : InBigint i) :
    parseCursor (formatCursor h i) = .ok (h, i) := by
  have hcolon : ':' ∉ Decimal.format h := by
    intro hmem
    rcases Decimal.of_mem_format hmem with heq | hdigit
    · exact absurd heq (by decide)
    · exact absurd hdigit (by decide)
  rw [parseCursor, formatCursor, String.toList_ofList, splitOnce_append hcolon]
  simp only [parseI64, Decimal.parse_format hh.1 hh.2, Decimal.parse_format hi.1 hi.2]

end Cursor

/-- The columns a row is ordered by. -/
def rowPair (row : EventRow) : Int × Int := (bigint row.height, bigint row.index)

/-- The pairs of the rows, in the order of the query. -/
def orderedKeys (descending : Bool) (rows : List EventRow) : List (Int × Int) :=
  (rows.map rowPair).insertionSort fun a b =>
    if descending then toLex b ≤ toLex a else toLex a ≤ toLex b

/-- Cursor pairs as keys of the linear order a query runs along. -/
structure Direction (descending : Bool) (κ : Type) [LinearOrder κ] where
  key : Int × Int → κ
  injective : Function.Injective key
  le_iff : ∀ a b, (if descending then toLex b ≤ toLex a else toLex a ≤ toLex b) ↔ key a ≤ key b
  lt_iff : ∀ a b, (if descending then toLex b < toLex a else toLex a < toLex b) ↔ key a < key b

def Direction.ascending : Direction false (Int ×ₗ Int) where
  key := toLex
  injective := toLex.injective
  le_iff _ _ := Iff.rfl
  lt_iff _ _ := Iff.rfl

def Direction.descending : Direction true (Int ×ₗ Int)ᵒᵈ where
  key pair := OrderDual.toDual (toLex pair)
  injective := OrderDual.toDual.injective.comp toLex.injective
  le_iff _ _ := Iff.rfl
  lt_iff _ _ := Iff.rfl

theorem exists_direction (descending : Bool) :
    ∃ (κ : Type) (_ : LinearOrder κ), Nonempty (Direction descending κ) := by
  cases descending with
  | false => exact ⟨_, _, ⟨Direction.ascending⟩⟩
  | true => exact ⟨_, _, ⟨Direction.descending⟩⟩

section Joins

/-- No two rows have the same chain and transaction. -/
def UniqueTx (rows : List EventRow) : Prop :=
  (rows.map fun row => (row.chainId, row.txId)).Nodup

theorem length_sameTx_le_one {aux : List EventRow} (hunique : UniqueTx aux) (row : EventRow) :
    (sameTx aux row).length ≤ 1 := by
  have hpairwise : (sameTx aux row).Pairwise
      fun a b => (a.chainId, a.txId) ≠ (b.chainId, b.txId) :=
    (List.pairwise_map.mp hunique).sublist List.filter_sublist
  have hkey : ∀ a ∈ sameTx aux row, (a.chainId, a.txId) = (row.chainId, row.txId) := by
    intro a ha
    simpa using (List.mem_filter.mp ha).2
  cases hhits : sameTx aux row with
  | nil => exact Nat.zero_le _
  | cons a rest =>
      cases rest with
      | nil => exact Nat.le_refl _
      | cons b rest =>
          rw [hhits] at hpairwise hkey
          have hne := List.rel_of_pairwise_cons hpairwise List.mem_cons_self
          have ha := hkey a List.mem_cons_self
          have hb := hkey b (List.mem_cons_of_mem _ List.mem_cons_self)
          exact absurd (ha.trans hb.symm) hne

theorem map_row_joinRow {aux : List EventRow} (hunique : UniqueTx aux)
    {embed : Joined → Option EventRow → Joined} (hembed : ∀ j a, (embed j a).row = j.row)
    (j : Joined) : (joinRow aux embed j).map Joined.row = [j.row] := by
  have hlen := length_sameTx_le_one hunique j.row
  rw [joinRow]
  split
  · rw [List.map_singleton, hembed]
  · rename_i hne
    obtain ⟨a, hone⟩ : ∃ a, sameTx aux j.row = [a] := by
      rw [← List.length_eq_one_iff]
      have hpos := List.length_pos_iff.mpr hne
      omega
    rw [hone, List.map_singleton, List.map_singleton, hembed]

/-- A join on a unique key neither drops nor repeats a row. -/
theorem map_row_leftJoin {aux : List EventRow} (hunique : UniqueTx aux)
    {embed : Joined → Option EventRow → Joined} (hembed : ∀ j a, (embed j a).row = j.row)
    (rows : List Joined) : (leftJoin aux embed rows).map Joined.row = rows.map Joined.row := by
  rw [leftJoin, List.map_flatMap]
  induction rows with
  | nil => rfl
  | cons j rows ih =>
      rw [List.flatMap_cons, map_row_joinRow hunique hembed, ih]
      rfl

end Joins

variable {layout : String → PkColumns} {store : Store layout}

theorem uniqueTx_typed (store : Store layout) {table : String} (h : layout table = .aux) :
    UniqueTx (store.typed table).rows := by
  refine List.pairwise_map.mpr ((List.pairwise_map.mp (store.typed table).nodup).imp ?_)
  intro a b hne heq
  simp only [Prod.mk.injEq] at heq
  apply hne
  rw [h, EventRow.primaryKey, EventRow.primaryKey, heq.1, heq.2]

theorem map_row_joinIf {aux : List EventRow} (hunique : UniqueTx aux)
    (embed : Joined → Option EventRow → Joined) (hembed : ∀ j a, (embed j a).row = j.row)
    (join : Bool) (rows : List Joined) :
    (if join then leftJoin aux embed rows else rows).map Joined.row = rows.map Joined.row := by
  split
  · exact map_row_leftJoin hunique hembed rows
  · rfl

/-- The joins leave one row for each row of the table. -/
theorem Select.map_row_source (hlayout : AuxLayout layout) (sel : Select) :
    (sel.source store).map Joined.row = (store.typed sel.table).rows := by
  have hreceipt := map_row_joinIf (uniqueTx_typed store hlayout.receipts)
    (fun j rc => { j with receipt := rc }) (fun _ _ => rfl) sel.joinReceipt
  have htx := map_row_joinIf (uniqueTx_typed store hlayout.transactions)
    (fun j tx => { j with transaction := tx }) (fun _ _ => rfl) sel.joinTx
  calc (sel.source store).map Joined.row
      = _ := hreceipt _
    _ = _ := htx _
    _ = (store.typed sel.table).rows := by rw [List.map_map]; exact List.map_id _

section Follow

variable {repo : PgEventQueryRepository} {pg : Postgres} {spec : QuerySpec} {table : String}
  {conds : List Condition}

/-- The joined rows that satisfy the filters, whatever the cursor. -/
def base (repo : PgEventQueryRepository) (pg : Postgres) (store : Store layout) (spec : QuerySpec)
    (table : String) (conds : List Condition) : List Joined :=
  ((repo.select spec table conds none).source store).filter fun j =>
    conds.all fun cond => pg.compares cond j.row

theorem map_row_base (hlayout : AuxLayout layout) :
    (base repo pg store spec table conds).map Joined.row = matching pg store table conds := by
  have hrows : ((repo.select spec table conds none).source store).map Joined.row =
      (store.typed table).rows := Select.map_row_source hlayout _
  rw [base, matching, ← hrows, List.filter_map]
  rfl

variable {κ : Type} [LinearOrder κ] (dir : Direction spec.descending κ)

def Direction.rowKey (j : Joined) : κ := dir.key (rowPair j.row)

def Direction.sorter (order : Keyset.Sorter (rowLe spec.descending)) :
    Keyset.Sorter fun a b => dir.rowKey a ≤ dir.rowKey b :=
  order.imp fun _ _ => (dir.le_iff _ _).mp

/-- The tuple comparison of the `WHERE` clause keeps the rows past the cursor. -/
theorem filter_satisfied (after : Option (Int × Int)) :
    ((repo.select spec table conds after).source store).filter
        ((repo.select spec table conds after).satisfied pg) =
      (base repo pg store spec table conds).filter
        (Keyset.past dir.rowKey (after.map dir.key)) := by
  rw [base, List.filter_filter]
  congr 1
  funext j
  rw [Select.satisfied, Bool.and_comm]
  congr 1
  cases after with
  | none => rfl
  | some c => exact decide_eq_decide.mpr (dir.lt_iff c (rowPair j.row))

def printCursor (c : Int × Int) : Cursor := formatCursor c.1 c.2

theorem parseAfter_printCursor {after : Option (Int × Int)} (h : ∀ c, after = some c → InBigint c.1 ∧ InBigint c.2) :
    parseAfter (after.map printCursor) = .ok after := by
  cases after with
  | none => rfl
  | some c =>
      obtain ⟨hheight, hidx⟩ := h c rfl
      rw [Option.map_some, parseAfter, printCursor, parseCursor_formatCursor hheight hidx]

theorem clampFirst_pos (first : Nat) : 0 < clampFirst first := by
  unfold clampFirst
  omega

/-- The rows a page fetches. -/
def fetched (repo : PgEventQueryRepository) (pg : Postgres) (store : Store layout) (spec : QuerySpec)
    (table : String) (conds : List Condition) (dir : Direction spec.descending κ)
    (order : Keyset.Sorter (rowLe spec.descending)) (after : Option (Int × Int)) : List Joined :=
  (order.sort ((base repo pg store spec table conds).filter
    (Keyset.past dir.rowKey (after.map dir.key)))).take (clampFirst spec.first + 1)

section Accepted

variable (htable : repo.validateTable spec = .ok table)
  (hfilters : repo.buildFilters table spec.filters = .ok conds) (hcast : pg.castError conds = none)

include htable hfilters hcast

theorem count_eq : repo.count pg store spec = .ok (matching pg store table conds).length := by
  rw [count, Rows.bind_eq_ok]
  refine ⟨table, htable, Rows.bind_eq_ok.mpr ⟨conds, hfilters, ?_⟩⟩
  rw [hcast]

/-- A query with accepted filters answers with the page of what it fetches. -/
theorem query_eq_pageOf (order : Keyset.Sorter (rowLe spec.descending)) {after : Option (Int × Int)}
    (hafter : ∀ c, after = some c → InBigint c.1 ∧ InBigint c.2) :
    repo.query pg store { spec with after := after.map printCursor } order =
      .ok (pageOf (clampFirst spec.first)
        (fetched repo pg store spec table conds dir order after)) := by
  have hvalid : repo.validateTable { spec with after := after.map printCursor } = .ok table := htable
  have hrun : (repo.select { spec with after := after.map printCursor } table conds after).run pg
      store order = .ok (fetched repo pg store spec table conds dir order after) := by
    have hcasts : pg.castError (repo.select { spec with after := after.map printCursor } table conds
        after).conds = none := hcast
    unfold Select.run
    rw [hcasts]
    exact congrArg (fun rows => Except.ok ((order.sort rows).take (clampFirst spec.first + 1)))
      (filter_satisfied dir after)
  rw [query, Rows.bind_eq_ok]
  refine ⟨table, hvalid, Rows.bind_eq_ok.mpr ⟨conds, hfilters, ?_⟩⟩
  rw [Rows.bind_eq_ok]
  refine ⟨after, parseAfter_printCursor hafter, ?_⟩
  rw [hrun]

/-- Following the printed cursors is following the keys. -/
theorem followPages_eq_follow (order : Nat → Keyset.Sorter (rowLe spec.descending)) (fuel n : Nat)
    (after : Option (Int × Int)) (hafter : ∀ c, after = some c → InBigint c.1 ∧ InBigint c.2) :
    repo.followPages pg store spec order fuel n (after.map printCursor) =
      .ok (Keyset.follow dir.rowKey (fun n => dir.sorter (order n)) (clampFirst spec.first)
        (base repo pg store spec table conds) fuel n (after.map dir.key)) := by
  induction fuel generalizing n after with
  | zero => rfl
  | succ fuel ih =>
      rw [followPages, query_eq_pageOf dir htable hfilters hcast (order n) hafter, Keyset.follow]
      show (if (pageOf _ _).hasNext then _ else _) = _
      generalize hrows : fetched repo pg store spec table conds dir (order n) after = rows
      have hpage : Keyset.page dir.rowKey (dir.sorter (order n)) (clampFirst spec.first)
          (base repo pg store spec table conds) (after.map dir.key) =
          ⟨rows.take (clampFirst spec.first), if decide (clampFirst spec.first < rows.length) then
            (rows.take (clampFirst spec.first)).getLast?.map dir.rowKey else none,
            decide (clampFirst spec.first < rows.length)⟩ := by
        rw [← hrows]
        rfl
      rw [hpage]
      simp only [pageOf]
      split
      · rename_i hnext
        -- both cursors are the pair of the last row of the page
        generalize hlast : (rows.take (clampFirst spec.first)).getLast?.map
          (fun j => rowPair j.row) = last
        have hprinted : (rows.take (clampFirst spec.first)).getLast?.map (fun j =>
            formatCursor (bigint j.row.height) (bigint j.row.index)) = last.map printCursor := by
          rw [← hlast, Option.map_map]
          rfl
        have hkey : (rows.take (clampFirst spec.first)).getLast?.map dir.rowKey =
            last.map dir.key := by
          rw [← hlast, Option.map_map]
          rfl
        have hbounds : ∀ c, last = some c → InBigint c.1 ∧ InBigint c.2 := by
          intro c hc
          rw [hc, Option.map_eq_some_iff] at hlast
          obtain ⟨j, -, rfl⟩ := hlast
          exact ⟨inBigint_bigint j.row.height, inBigint_bigint j.row.index⟩
        rw [hprinted, hkey, ih (n + 1) last hbounds]
        rfl
      · rfl

theorem lists_of_followPages {order : Nat → Keyset.Sorter (rowLe spec.descending)} {fuel : Nat}
    {pages : List (List Joined)}
    (h : repo.followPages pg store spec order fuel 0 none = .ok (some pages)) :
    Keyset.Lists dir.rowKey (clampFirst spec.first) (base repo pg store spec table conds) pages := by
  have hfollow : repo.followPages pg store spec order fuel 0 none = _ :=
    followPages_eq_follow dir htable hfilters hcast order fuel 0 none nofun
  rw [hfollow] at h
  have hlists := Keyset.lists_of_follow _ (clampFirst_pos spec.first) (Except.ok.inj h)
  have hall : (base repo pg store spec table conds).filter
      (Keyset.past dir.rowKey (Option.map dir.key none)) = base repo pg store spec table conds :=
    List.filter_eq_self.mpr fun _ _ => rfl
  rwa [hall] at hlists

/-- The last page is reached, whatever order each page chooses among ties. -/
theorem exists_followPages (order : Nat → Keyset.Sorter (rowLe spec.descending)) :
    ∃ fuel pages, repo.followPages pg store spec order fuel 0 none = .ok (some pages) := by
  obtain ⟨κ, _, ⟨dir⟩⟩ := exists_direction spec.descending
  obtain ⟨pages, hpages⟩ := Keyset.exists_follow (fun n => dir.sorter (order n))
    (clampFirst_pos spec.first) (base repo pg store spec table conds)
    ((base repo pg store spec table conds).length + 1) 0 none
    (Nat.lt_succ_of_le (List.length_filter_le _ _))
  exact ⟨_, pages, (followPages_eq_follow dir htable hfilters hcast order _ 0 none nofun).trans
    (congrArg Except.ok hpages)⟩

end Accepted

end Follow

/-- The pages followed from the start are the matching rows, each once, in order, as many as
`count` says. -/
def ListsExactly (repo : PgEventQueryRepository) (pg : Postgres) (store : Store layout)
    (spec : QuerySpec) (order : Nat → Keyset.Sorter (rowLe spec.descending)) (table : String)
    (conds : List Condition) : Prop :=
  ∃ fuel pages, repo.followPages pg store spec order fuel 0 none = .ok (some pages) ∧
    (pages.flatten.map Joined.row).Perm (matching pg store table conds) ∧
    pages.flatten.Pairwise (rowLe spec.descending) ∧
    repo.count pg store spec = .ok pages.flatten.length

section Exact

variable {repo : PgEventQueryRepository} {pg : Postgres} {spec : QuerySpec} {table : String}
  {conds : List Condition} (hlayout : AuxLayout layout)
  (htable : repo.validateTable spec = .ok table)
  (hfilters : repo.buildFilters table spec.filters = .ok conds) (hcast : pg.castError conds = none)

include hlayout

theorem keys_base {κ : Type} [LinearOrder κ] (dir : Direction spec.descending κ) :
    Keyset.keys dir.rowKey (base repo pg store spec table conds) =
      (orderedKeys spec.descending (matching pg store table conds)).map dir.key := by
  rw [Keyset.keys, orderedKeys, List.map_insertionSort _ _ _ _ fun a _ b _ => dir.le_iff a b,
    ← map_row_base hlayout, List.map_map, List.map_map]
  rfl

include htable hfilters hcast

theorem listsExactly_iff_of_direction {κ : Type} [LinearOrder κ] (dir : Direction spec.descending κ)
    (order : Nat → Keyset.Sorter (rowLe spec.descending)) :
    ListsExactly repo pg store spec order table conds ↔
      Keyset.NoSplit (clampFirst spec.first)
        (orderedKeys spec.descending (matching pg store table conds)) := by
  have hrows : (base repo pg store spec table conds).map Joined.row =
      matching pg store table conds := map_row_base hlayout
  have hsplit : Keyset.NoSplit (clampFirst spec.first)
      (Keyset.keys dir.rowKey (base repo pg store spec table conds)) ↔
      Keyset.NoSplit (clampFirst spec.first)
        (orderedKeys spec.descending (matching pg store table conds)) := by
    rw [keys_base hlayout dir, Keyset.noSplit_map dir.injective]
  constructor
  · rintro ⟨fuel, pages, hpages, hperm, -, -⟩
    have hlists := lists_of_followPages dir htable hfilters hcast hpages
    refine hsplit.mp (hlists.complete_iff.mp ?_)
    calc pages.flatten.length
        = (pages.flatten.map Joined.row).length := (List.length_map _).symm
      _ = (matching pg store table conds).length := hperm.length_eq
      _ = (base repo pg store spec table conds).length := by rw [← hrows, List.length_map]
  · intro hno
    obtain ⟨fuel, pages, hpages⟩ : ∃ fuel pages, repo.followPages pg store spec order fuel 0 none =
        .ok (some pages) := exists_followPages htable hfilters hcast order
    have hlists := lists_of_followPages dir htable hfilters hcast hpages
    have hperm := hlists.perm_iff.mpr (hsplit.mpr hno)
    refine ⟨fuel, pages, hpages, hrows ▸ hperm.map Joined.row, ?_, ?_⟩
    · exact hlists.sorted.imp fun h => (dir.le_iff _ _).mpr h
    · rw [count_eq htable hfilters hcast, ← hrows, List.length_map, hperm.length_eq]

/-- Following the cursors lists the matching rows exactly when no page ends between two of them with
the same `(height, idx)`. -/
theorem listsExactly_iff_noSplit (order : Nat → Keyset.Sorter (rowLe spec.descending)) :
    ListsExactly repo pg store spec order table conds ↔
      Keyset.NoSplit (clampFirst spec.first)
        (orderedKeys spec.descending (matching pg store table conds)) := by
  obtain ⟨κ, _, ⟨dir⟩⟩ := exists_direction spec.descending
  exact listsExactly_iff_of_direction hlayout htable hfilters hcast dir order

end Exact

instance (descending : Bool) : DecidableRel (rowLe descending) := fun a b =>
  inferInstanceAs (Decidable (if descending then rowKey b.row ≤ rowKey a.row
    else rowKey a.row ≤ rowKey b.row))

theorem rowLe_total (descending : Bool) (a b : Joined) :
    rowLe descending a b ∨ rowLe descending b a := by
  cases descending with
  | false => exact le_total (rowKey a.row) (rowKey b.row)
  | true => exact le_total (rowKey b.row) (rowKey a.row)

theorem rowLe_trans {descending : Bool} {a b c : Joined} (hab : rowLe descending a b)
    (hbc : rowLe descending b c) : rowLe descending a c := by
  cases descending with
  | false => exact le_trans (α := Int ×ₗ Int) hab hbc
  | true => exact le_trans (α := Int ×ₗ Int) hbc hab

/-- Ties in the order of the table. -/
def rowSorter (descending : Bool) : Keyset.Sorter (rowLe descending) where
  sort rows := rows.insertionSort (rowLe descending)
  perm := List.perm_insertionSort _
  sorted := by
    have : Std.Total (rowLe descending) := ⟨rowLe_total descending⟩
    have : IsTrans Joined (rowLe descending) := ⟨fun _ _ _ => rowLe_trans⟩
    exact List.pairwise_insertionSort _

/-- A transfer table shared by chains 1 and 2, with a row of each at the same position. -/
def sharedTable : Store eventLayout :=
  EventRepo.insertRows Store.empty transferTable
    [⟨1, 5, ⟨[7]⟩, none, ⟨[7]⟩, 0, ⟨transferTable, []⟩⟩,
      ⟨2, 5, ⟨[8]⟩, none, ⟨[8]⟩, 0, ⟨transferTable, []⟩⟩,
      ⟨1, 6, ⟨[9]⟩, none, ⟨[9]⟩, 0, ⟨transferTable, []⟩⟩]

def transferRepo : PgEventQueryRepository :=
  PgEventQueryRepository.new
    [⟨transferTable, "Transfer", none, [⟨"value", .bytes, false⟩], [], EventSchema.eventPk⟩]

/-- The comparison of `chain_id` with an integer. -/
def chainComparison : Postgres where
  compares cond row :=
    match cond.column, cond.op, cond.bind with
    | "chain_id", .eq, .int value => decide (bigint row.chainId = value)
    | _, _, _ => false
  castError _ := none

/-- One row a page, ascending. -/
def transferSpec (filters : List Filter) : QuerySpec :=
  ⟨transferTable, filters, [], 1, none, true, true, false⟩

theorem listsExactly_one_chain :
    ListsExactly transferRepo chainComparison sharedTable
      (transferSpec [⟨"chain_id", .eq, "1"⟩]) (fun _ => rowSorter false) transferTable
      [⟨"chain_id", .eq, "", .int 1⟩] := by
  refine (listsExactly_iff_noSplit auxLayout_eventLayout (by decide +kernel) (by decide +kernel) rfl
    _).mpr ?_
  have hkeys : orderedKeys false (matching chainComparison sharedTable transferTable
      [⟨"chain_id", .eq, "", .int 1⟩]) = [(5, 0), (6, 0)] := by decide +kernel
  show Keyset.NoSplit 1 (orderedKeys false (matching chainComparison sharedTable transferTable
    [⟨"chain_id", .eq, "", .int 1⟩]))
  rw [hkeys]
  intro k hlt
  have hk : k = 0 := by
    simp only [List.length_cons, List.length_nil] at hlt
    omega
  subst hk
  decide

/-- Page 1 ends at the row of one chain; the row of the other is not past its cursor. -/
theorem shared_row_skipped :
    ¬∀ order : Nat → Keyset.Sorter (rowLe false),
      ListsExactly transferRepo chainComparison sharedTable (transferSpec []) order transferTable
        [] := by
  intro hevery
  have hsplit := (listsExactly_iff_of_direction auxLayout_eventLayout (by decide +kernel) rfl rfl
    Direction.ascending _).mp (hevery fun _ => rowSorter false)
  have hkeys : orderedKeys false (matching chainComparison sharedTable transferTable []) =
      [(5, 0), (5, 0), (6, 0)] := by decide +kernel
  have hfirst : Keyset.NoSplit 1 (orderedKeys false (matching chainComparison sharedTable
    transferTable [])) := hsplit
  rw [hkeys] at hfirst
  exact hfirst 0 (by decide) rfl

end Topic0
