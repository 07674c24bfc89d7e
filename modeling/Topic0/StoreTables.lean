import Topic0.BaseGroup
import Topic0.StoreQueue
import Mathlib.Data.String.Basic
import Mathlib.Data.List.Lex

/-! The database and the write statements of the repositories. `layout` says with which primary
key each typed table was created; the receipts' foreign key is checked on insert and cascades on
delete. -/

namespace Topic0

open Keyed

inductive DbError where
  | sqlx (message : String)
  | encode (message : String)
  deriving DecidableEq, Repr

def DbError.toDomain : DbError → DomainError
  | .sqlx message => .storage ("database error: " ++ message)
  | .encode message => .storage ("encode error: " ++ message)

/-- Everything the indexer persists. -/
structure Store (layout : String → PkColumns) where
  rawRecords : Table RawRecord.key
  blocks : Table BlockMeta.key
  typed : (table : String) → Table (EventRow.primaryKey (layout table))
  cursors : ChainId → Option (Nat × Hash)
  workQueue : WorkQueue

variable {layout : String → PkColumns}

def Store.empty : Store layout :=
  ⟨Table.empty, Table.empty, fun _ => Table.empty, fun _ => none, WorkQueue.empty⟩

/-- What a transaction that only writes typed tables leaves alone. -/
structure SameButTyped (store store' : Store layout) : Prop where
  rawRecords : store'.rawRecords = store.rawRecords
  blocks : store'.blocks = store.blocks
  cursors : store'.cursors = store.cursors
  workQueue : store'.workQueue = store.workQueue

theorem SameButTyped.trans {a b c : Store layout} (hab : SameButTyped a b)
    (hbc : SameButTyped b c) : SameButTyped a c :=
  ⟨hbc.rawRecords.trans hab.rawRecords, hbc.blocks.trans hab.blocks,
    hbc.cursors.trans hab.cursors, hbc.workQueue.trans hab.workQueue⟩

def safeIdent (name : String) : Except DbError String :=
  if isValidIdent name then .ok name else .error (.encode ("unsafe identifier: " ++ name))

/-- Rows per statement under the cap of 65535 bind parameters. -/
def chunkRows (cols : Nat) : Nat := max (65535 / max cols 1) 1

theorem chunkRows_pos (cols : Nat) : 0 < chunkRows cols := by
  rw [chunkRows]
  omega

namespace RawRecordRepo

def rawCols : Nat := 10

/-- Raw records are immutable: a conflicting insert keeps the stored row. -/
def insertBatchTx (store : Store layout) (records : List RawRecord) : Store layout :=
  { store with
    rawRecords := (Rows.chunks (chunkRows rawCols) records).foldl
      (fun table part => table.insertAll part) store.rawRecords }

def inRange (chain : ChainId) (lo hi : Nat) (r : RawRecord) : Bool :=
  r.chainId == chain && decide (lo ≤ r.height) && decide (r.height ≤ hi)

/-- `ORDER BY height, idx`, both of which the primary key makes a strict order on one chain. -/
def range (store : Store layout) (chain : ChainId) (lo hi : Nat) : List RawRecord :=
  (store.rawRecords.rows.filter (inRange chain lo hi)).insertionSort
    fun a b => a.height < b.height ∨ (a.height = b.height ∧ a.index ≤ b.index)

def deleteFromHeightTx (store : Store layout) (chain : ChainId) (lo : Nat) : Store layout :=
  { store with
    rawRecords := store.rawRecords.delete fun r => r.chainId == chain && decide (lo ≤ r.height) }

theorem insertBatchTx_eq (store : Store layout) (records : List RawRecord) :
    insertBatchTx store records =
      { store with rawRecords := store.rawRecords.insertAll records } := by
  rw [insertBatchTx]
  congr 1
  exact Rows.foldl_chunks (chunkRows_pos _) _ _ _

theorem mem_range {store : Store layout} {chain : ChainId} {lo hi : Nat} {r : RawRecord} :
    r ∈ range store chain lo hi ↔
      r ∈ store.rawRecords ∧ r.chainId = chain ∧ lo ≤ r.height ∧ r.height ≤ hi := by
  rw [range, List.mem_insertionSort, List.mem_filter]
  simp only [inRange, Bool.and_eq_true, beq_iff_eq, decide_eq_true_eq, and_assoc]
  exact Iff.rfl

end RawRecordRepo

namespace BlockRepo

def blockCols : Nat := 5

/-- One statement may not update a row twice. -/
def upsertPart (store : Store layout) (part : List BlockMeta) : Except DbError (Store layout) :=
  if (part.map BlockMeta.key).Nodup then
    .ok { store with blocks := store.blocks.upsertAll part }
  else .error (.sqlx "ON CONFLICT DO UPDATE command cannot affect row a second time")

def upsertBatchTx (store : Store layout) (blocks : List BlockMeta) :
    Except DbError (Store layout) :=
  (Rows.chunks (chunkRows blockCols) blocks).foldlM upsertPart store

def get (store : Store layout) (chain : ChainId) (height : Nat) : Option BlockMeta :=
  store.blocks.find? (chain, height)

/-- `SELECT max(height) FROM blocks WHERE chain_id = $1`. -/
def maxHeight (store : Store layout) (chain : ChainId) : Option Nat :=
  ((store.blocks.rows.filter fun b => b.chainId == chain).map BlockMeta.height).max?

def times (store : Store layout) (chain : ChainId) (lo hi : Nat) : List (Nat × Int) :=
  (store.blocks.rows.filter fun b =>
    b.chainId == chain && decide (lo ≤ b.height) && decide (b.height ≤ hi)).map
      fun b => (b.height, b.time)

def deleteFromHeightTx (store : Store layout) (chain : ChainId) (lo : Nat) : Store layout :=
  { store with
    blocks := store.blocks.delete fun b => b.chainId == chain && decide (lo ≤ b.height) }

theorem upsertParts_ok (parts : List (List BlockMeta)) {store store' : Store layout}
    (h : parts.foldlM upsertPart store = .ok store') :
    store' = { store with blocks := store.blocks.upsertAll parts.flatten } := by
  induction parts generalizing store with
  | nil =>
      cases h
      rfl
  | cons part parts ih =>
      rw [List.foldlM_cons, Rows.bind_eq_ok] at h
      obtain ⟨next, hnext, hrest⟩ := h
      rw [upsertPart] at hnext
      split at hnext
      · cases hnext
        rw [ih hrest, List.flatten_cons, Table.upsertAll_append]
      · cases hnext

/-- A successful upsert wrote exactly the given blocks over whatever was stored. -/
theorem upsertBatchTx_ok {store store' : Store layout} {blocks : List BlockMeta}
    (h : upsertBatchTx store blocks = .ok store') :
    store' = { store with blocks := store.blocks.upsertAll blocks } := by
  have hparts := upsertParts_ok _ h
  rwa [Rows.flatten_chunks (chunkRows_pos _)] at hparts

theorem upsertBatchTx_of_nodup (store : Store layout) {blocks : List BlockMeta}
    (hnodup : (blocks.map BlockMeta.key).Nodup) :
    upsertBatchTx store blocks = .ok { store with blocks := store.blocks.upsertAll blocks } := by
  have hflat := Rows.flatten_chunks (chunkRows_pos blockCols) blocks
  have hpart : ∀ part ∈ Rows.chunks (chunkRows blockCols) blocks,
      (part.map BlockMeta.key).Nodup := by
    intro part hpart
    refine hnodup.sublist (List.Sublist.map _ ?_)
    rw [← hflat]
    exact List.sublist_flatten_of_mem hpart
  obtain ⟨store', hstore', -⟩ := Rows.exists_foldlM_ok upsertPart (fun _ => True)
    (Rows.chunks (chunkRows blockCols) blocks) (s := store)
    (fun part hmem store _ => ⟨_, if_pos (hpart part hmem), trivial⟩) trivial
  have hok : upsertBatchTx store blocks = .ok store' := hstore'
  rw [hok, upsertBatchTx_ok hok]

theorem maxHeight_eq_some {store : Store layout} {chain : ChainId} {tip : Nat} :
    maxHeight store chain = some tip ↔
      (∃ b ∈ store.blocks, b.chainId = chain ∧ b.height = tip) ∧
        ∀ b ∈ store.blocks, b.chainId = chain → b.height ≤ tip := by
  rw [maxHeight, List.max?_eq_some_iff]
  simp only [List.mem_map, List.mem_filter, beq_iff_eq, and_assoc, forall_exists_index, and_imp,
    Table.mem_def]
  refine and_congr_right fun _ => ⟨fun h b hb hc => h _ b hb hc rfl, ?_⟩
  rintro h _ b hb hc rfl
  exact h b hb hc

theorem maxHeight_eq_none {store : Store layout} {chain : ChainId} :
    maxHeight store chain = none ↔ ∀ b ∈ store.blocks, b.chainId ≠ chain := by
  simp [maxHeight, Table.mem_def]

end BlockRepo

namespace EventRepo

def signature (row : EventRow) : List String := row.event.fields.map Prod.fst

/-- The `INSERT` statements of one batch: rows grouped by column signature, each group chunked. -/
def upsertParts (table : String) (rows : List EventRow) : List (List String × List EventRow) :=
  (Rows.buckets signature rows).flatMap fun group =>
    let cols := (if tableHasIdx table then 6 else 5) + group.1.length
    (Rows.chunks (chunkRows cols) group.2).map fun part => (group.1, part)

/-- Some row of a receipts insert that is not dropped as a conflict refers to no transaction. -/
def violatesForeignKey (store : Store layout) (table : String) (part : List EventRow) : Bool :=
  table == receiptsTable && part.any fun row =>
    ((store.typed table).find? (row.primaryKey (layout table))).isNone &&
      !(store.typed transactionsTable).rows.any fun tx =>
        tx.chainId == row.chainId && tx.txId == row.txId

/-- `INSERT … ON CONFLICT DO NOTHING` into a typed table. -/
def insertRows (store : Store layout) (table : String) (rows : List EventRow) : Store layout :=
  { store with typed := Function.update store.typed table ((store.typed table).insertAll rows) }

def insertPart (table : String) (store : Store layout) (part : List String × List EventRow) :
    Except DbError (Store layout) := do
  let _ ← part.1.mapM safeIdent
  if violatesForeignKey store table part.2 then
    .error (.sqlx ("insert or update on table \"receipts\" violates foreign key constraint " ++
      "\"receipts_tx_fk\""))
  else .ok (insertRows store table part.2)

def upsertBatchTx (store : Store layout) (table : String) (rows : List EventRow) :
    Except DbError (Store layout) := do
  let _ ← safeIdent table
  (upsertParts table rows).foldlM (insertPart table) store

/-- The batch in its own transaction, with the number of rows it added. -/
def upsertBatch (store : Store layout) (table : String) (rows : List EventRow) :
    Except DomainError (Store layout × Nat) :=
  match upsertBatchTx store table rows with
  | .error e => .error e.toDomain
  | .ok store' =>
      .ok (store', (store'.typed table).rows.length - (store.typed table).rows.length)

def atOrAbove (chain : ChainId) (lo : Nat) (row : EventRow) : Bool :=
  row.chainId == chain && decide (lo ≤ row.height)

/-- `ON DELETE CASCADE` of the receipts' foreign key. -/
def cascade (store : Store layout) (gone : List EventRow) : Store layout :=
  { store with
    typed := Function.update store.typed receiptsTable
      ((store.typed receiptsTable).delete fun receipt =>
        gone.any fun tx => tx.chainId == receipt.chainId && tx.txId == receipt.txId) }

def deleteFromHeightTx (store : Store layout) (table : String) (chain : ChainId) (lo : Nat) :
    Except DbError (Store layout) := do
  let _ ← safeIdent table
  let gone := (store.typed table).rows.filter (atOrAbove chain lo)
  let rest : Store layout := { store with
    typed := Function.update store.typed table ((store.typed table).delete (atOrAbove chain lo)) }
  .ok (if table = transactionsTable then cascade rest gone else rest)

theorem upsertParts_perm (table : String) (rows : List EventRow) :
    ((upsertParts table rows).flatMap Prod.snd).Perm rows := by
  have heq : (upsertParts table rows).flatMap Prod.snd =
      (Rows.buckets signature rows).flatMap Prod.snd := by
    rw [upsertParts, List.flatMap_assoc]
    congr 1
    funext group
    rw [List.flatMap_map]
    exact List.flatMap_id.trans (Rows.flatten_chunks (chunkRows_pos _) _)
  rw [heq]
  exact Rows.flatMap_buckets _ _

@[simp] theorem insertRows_typed_self (store : Store layout) (table : String)
    (rows : List EventRow) :
    (insertRows store table rows).typed table = (store.typed table).insertAll rows :=
  Function.update_self ..

@[simp] theorem insertRows_typed_of_ne (store : Store layout) {table t : String} (h : t ≠ table)
    (rows : List EventRow) : (insertRows store table rows).typed t = store.typed t :=
  Function.update_of_ne h ..

theorem insertRows_same (store : Store layout) (table : String) (rows : List EventRow) :
    SameButTyped store (insertRows store table rows) := ⟨rfl, rfl, rfl, rfl⟩

theorem insertRows_append (store : Store layout) (table : String) (rows rows' : List EventRow) :
    insertRows (insertRows store table rows) table rows' =
      insertRows store table (rows ++ rows') := by
  simp only [insertRows, Function.update_self, Function.update_idem, Table.insertAll_append]

theorem insertPart_ok {table : String} {store store' : Store layout}
    {part : List String × List EventRow} (h : insertPart table store part = .ok store') :
    store' = insertRows store table part.2 := by
  rw [insertPart, Rows.bind_eq_ok] at h
  obtain ⟨_, -, h⟩ := h
  split at h
  · cases h
  · cases h
    rfl

theorem insertParts_ok {table : String} (parts : List (List String × List EventRow))
    {store store' : Store layout} (h : parts.foldlM (insertPart table) store = .ok store') :
    store' = insertRows store table (parts.flatMap Prod.snd) := by
  induction parts generalizing store with
  | nil =>
      cases h
      simp [insertRows]
  | cons part parts ih =>
      rw [List.foldlM_cons, Rows.bind_eq_ok] at h
      obtain ⟨next, hnext, hrest⟩ := h
      rw [ih hrest, insertPart_ok hnext, insertRows_append, List.flatMap_cons]

/-- A successful batch inserted its rows, in the order of the statements, into its own table. -/
theorem upsertBatchTx_ok {store store' : Store layout} {table : String} {rows : List EventRow}
    (h : upsertBatchTx store table rows = .ok store') :
    ∃ order, order.Perm rows ∧ store' = insertRows store table order := by
  rw [upsertBatchTx, Rows.bind_eq_ok] at h
  obtain ⟨_, -, h⟩ := h
  exact ⟨_, upsertParts_perm table rows, insertParts_ok _ h⟩

theorem mapM_safeIdent {names : List String} (h : ∀ name ∈ names, isValidIdent name = true) :
    names.mapM safeIdent = .ok names := by
  have hsafe : ∀ name ∈ names, safeIdent name = .ok (id name) := by
    intro name hname
    exact if_pos (h name hname)
  rw [Rows.mapM_eq_map hsafe, List.map_id]
  rfl

/-- A statement's column list is the signature of the rows it writes. -/
theorem mem_upsertParts {table : String} {rows : List EventRow}
    {part : List String × List EventRow} (hpart : part ∈ upsertParts table rows) :
    (∃ row ∈ rows, part.1 = signature row) ∧ ∀ row ∈ part.2, row ∈ rows := by
  rw [upsertParts, List.mem_flatMap] at hpart
  obtain ⟨group, hgroup, hpart⟩ := hpart
  obtain ⟨rowsPart, hchunk, rfl⟩ := List.mem_map.mp hpart
  have hflat := Rows.flatten_chunks
    (chunkRows_pos ((if tableHasIdx table then 6 else 5) + group.1.length)) group.2
  have hne : group.2 ≠ [] := by
    intro hnil
    rw [hnil] at hchunk
    exact List.not_mem_nil hchunk
  obtain ⟨row, hrow⟩ := List.exists_mem_of_ne_nil _ hne
  refine ⟨⟨row, Rows.mem_buckets.mpr ⟨group, hgroup, hrow⟩, ?_⟩, fun r hr => ?_⟩
  · exact (Rows.keyed_buckets group hgroup row hrow).symm
  · refine Rows.mem_buckets.mpr ⟨group, hgroup, ?_⟩
    rw [← hflat]
    exact List.mem_flatten.mpr ⟨rowsPart, hchunk, hr⟩

theorem signature_of_mem_upsertParts {table : String} {rows : List EventRow}
    {part : List String × List EventRow} (hpart : part ∈ upsertParts table rows) {row : EventRow}
    (hrow : row ∈ part.2) : signature row = part.1 := by
  rw [upsertParts, List.mem_flatMap] at hpart
  obtain ⟨group, hgroup, hpart⟩ := hpart
  obtain ⟨chunk, hchunk, rfl⟩ := List.mem_map.mp hpart
  have hflat := Rows.flatten_chunks
    (chunkRows_pos ((if tableHasIdx table then 6 else 5) + group.1.length)) group.2
  refine Rows.keyed_buckets group hgroup row ?_
  rw [← hflat]
  exact List.mem_flatten.mpr ⟨chunk, hchunk, hrow⟩

theorem length_of_mem_upsertParts {table : String} {rows : List EventRow}
    {part : List String × List EventRow} (hpart : part ∈ upsertParts table rows) :
    part.2.length ≤ chunkRows ((if tableHasIdx table then 6 else 5) + part.1.length) := by
  rw [upsertParts, List.mem_flatMap] at hpart
  obtain ⟨group, -, hpart⟩ := hpart
  obtain ⟨chunk, hchunk, rfl⟩ := List.mem_map.mp hpart
  exact Rows.length_of_mem_chunks hchunk

/-- The row's transaction is stored. -/
def HasTransaction (store : Store layout) (row : EventRow) : Prop :=
  ∃ tx ∈ store.typed transactionsTable, tx.chainId = row.chainId ∧ tx.txId = row.txId

theorem not_violatesForeignKey {store : Store layout} {table : String} {part : List EventRow}
    (hfk : table = receiptsTable → ∀ row ∈ part, HasTransaction store row) :
    violatesForeignKey store table part = false := by
  by_cases htable : table = receiptsTable
  · have hany : (part.any fun row =>
        ((store.typed table).find? (row.primaryKey (layout table))).isNone &&
          !(store.typed transactionsTable).rows.any fun tx =>
            tx.chainId == row.chainId && tx.txId == row.txId) = false := by
      rw [List.any_eq_false]
      intro row hrow hbad
      obtain ⟨tx, htx, hchain, hid⟩ := hfk htable row hrow
      rw [Bool.and_eq_true, Bool.not_eq_true', List.any_eq_false] at hbad
      exact hbad.2 tx htx (by simp [hchain, hid])
    rw [violatesForeignKey, hany, Bool.and_false]
  · simp [violatesForeignKey, htable]

theorem exists_upsertBatchTx_ok {store : Store layout} {table : String} {rows : List EventRow}
    (htable : isValidIdent table = true)
    (hnames : ∀ row ∈ rows, ∀ name ∈ signature row, isValidIdent name = true)
    (hfk : table = receiptsTable → ∀ row ∈ rows, HasTransaction store row) :
    ∃ store', upsertBatchTx store table rows = .ok store' := by
  have hparts := Rows.exists_foldlM_ok (insertPart table)
    (fun s => table = receiptsTable → ∀ row ∈ rows, HasTransaction s row)
    (upsertParts table rows) (s := store) ?_ hfk
  · obtain ⟨store', hstore', -⟩ := hparts
    refine ⟨store', ?_⟩
    rw [upsertBatchTx, safeIdent, if_pos htable]
    exact hstore'
  · intro part hpart s hs
    obtain ⟨⟨row, hrow, hsig⟩, hrows⟩ := mem_upsertParts hpart
    refine ⟨insertRows s table part.2, ?_, fun htab r hr => ?_⟩
    · have hident : part.1.mapM safeIdent = .ok part.1 := mapM_safeIdent (hsig ▸ hnames row hrow)
      rw [insertPart, hident]
      exact if_neg (by rw [not_violatesForeignKey fun ht r hr => hs ht r (hrows r hr)]; decide)
    · obtain ⟨tx, htx, hkey⟩ := hs htab r hr
      refine ⟨tx, ?_, hkey⟩
      rwa [insertRows_typed_of_ne _ (by rw [htab]; decide)]

/-- The receipt's transaction is one of those a delete from height `lo` removes. -/
def Orphaned (store : Store layout) (chain : ChainId) (lo : Nat) (row : EventRow) : Prop :=
  ∃ tx ∈ store.typed transactionsTable,
    atOrAbove chain lo tx = true ∧ tx.chainId = row.chainId ∧ tx.txId = row.txId

theorem deleteFromHeightTx_ok {store store' : Store layout} {table : String} {chain : ChainId}
    {lo : Nat} (h : deleteFromHeightTx store table chain lo = .ok store') :
    SameButTyped store store' ∧ ∀ t row, row ∈ store'.typed t ↔
      row ∈ store.typed t ∧ ¬(t = table ∧ atOrAbove chain lo row = true) ∧
        ¬(t = receiptsTable ∧ table = transactionsTable ∧ Orphaned store chain lo row) := by
  rw [deleteFromHeightTx, Rows.bind_eq_ok] at h
  obtain ⟨_, -, h⟩ := h
  cases h
  by_cases htx : table = transactionsTable
  · subst htx
    simp only [if_true]
    refine ⟨⟨rfl, rfl, rfl, rfl⟩, fun t row => ?_⟩
    by_cases hr : t = receiptsTable
    · subst hr
      have hne : receiptsTable ≠ transactionsTable := by decide
      simp only [cascade, Function.update_self, Function.update_of_ne hne]
      rw [Table.mem_delete]
      simp only [List.any_eq_false, List.mem_filter, Bool.and_eq_true, beq_iff_eq, Orphaned, hne,
        false_and, not_false_eq_true, true_and, not_exists, and_imp, not_and]
      exact Iff.rfl
    · simp only [cascade, Function.update_of_ne hr, hr, false_and, not_false_eq_true, and_true]
      by_cases ht : t = transactionsTable
      · subst ht
        simp
      · simp [ht]
  · simp only [htx, if_false, false_and, and_false, not_false_eq_true, and_true]
    refine ⟨⟨rfl, rfl, rfl, rfl⟩, fun t row => ?_⟩
    by_cases ht : t = table
    · subst ht
      simp
    · simp [ht]

end EventRepo

namespace CursorRepo

/-- The checkpoint is overwritten whatever it was. -/
def advanceInTx (store : Store layout) (chain : ChainId) (last : Nat) (lastHash : Hash) :
    Store layout :=
  { store with cursors := Function.update store.cursors chain (some (last, lastHash)) }

@[simp] theorem advanceInTx_cursors (store : Store layout) (chain : ChainId) (last : Nat)
    (lastHash : Hash) :
    (advanceInTx store chain last lastHash).cursors chain = some (last, lastHash) :=
  Function.update_self ..

/-- `UPDATE cursors SET last_height = $2, last_hash = ''`: no row appears where there was none. -/
def rewindInTx (store : Store layout) (chain : ChainId) (last : Nat) : Store layout :=
  { store with
    cursors := Function.update store.cursors chain
      ((store.cursors chain).map fun _ => (last, ⟨[]⟩)) }

end CursorRepo

end Topic0
