import Topic0.BaseSimulation
import Topic0.BaseSlice
import Topic0.DecodeResync

/-! One database, many chains. Every table is keyed by the chain first, every batch, rollback and
decode is of one chain, and every statement of it selects by `chain_id`. So the writes of the other
chains cannot be seen from a chain: each of its writes succeeds or fails, and each of its reads
answers, as on a database that it has to itself. -/

namespace Topic0.Chains

open Keyed Transition

variable {layout : String → PkColumns} {chain : ChainId} {s t : Store layout}

/-- Two stores hold the same of the chain. The queue is shared by the chains. -/
structure Alike (chain : ChainId) (s t : Store layout) : Prop where
  rawRecords : s.rawRecords.slice (fun r => r.chainId == chain) =
    t.rawRecords.slice fun r => r.chainId == chain
  blocks : s.blocks.slice (fun b => b.chainId == chain) = t.blocks.slice fun b => b.chainId == chain
  typed : ∀ table, (s.typed table).slice (fun row => row.chainId == chain) =
    (t.typed table).slice fun row => row.chainId == chain
  cursor : s.cursors chain = t.cursors chain

theorem Alike.mem_rawRecords {s t : Store layout} (h : Alike chain s t) {r : RawRecord}
    (hr : r.chainId = chain) : r ∈ s.rawRecords ↔ r ∈ t.rawRecords := by
  have hslice : ∀ raw : Table RawRecord.key,
      r ∈ raw.slice (fun r => r.chainId == chain) ↔ r ∈ raw :=
    fun raw => Table.mem_slice (p := fun r : RawRecord => r.chainId == chain) (beq_iff_eq.mpr hr)
  rw [← hslice s.rawRecords, h.rawRecords, hslice]

theorem Alike.refl (s : Store layout) : Alike chain s s := ⟨rfl, rfl, fun _ => rfl, rfl⟩

theorem Alike.trans {a b c : Store layout} (hab : Alike chain a b) (hbc : Alike chain b c) :
    Alike chain a c :=
  ⟨hab.rawRecords.trans hbc.rawRecords, hab.blocks.trans hbc.blocks,
    fun table => (hab.typed table).trans (hbc.typed table), hab.cursor.trans hbc.cursor⟩

/-- Everything in the batch is of the chain. -/
structure OfChain (chain : ChainId) (batch : IngestBatch) : Prop where
  rawRecords : ∀ r ∈ batch.rawRecords, r.chainId = chain
  blockMetas : ∀ b ∈ batch.blockMetas, b.chainId = chain
  enrichment : ∀ row ∈ batch.enrichment, row.chainId = chain
  cursor : ∀ c ∈ batch.advanceCursor, c.1 = chain

/-- The writes of the program, and whatever the workers do to the queue. -/
inductive Write where
  | commit (chain : ChainId) (batch : IngestBatch) (h : OfChain chain batch)
  | rollback (chain : ChainId) (lo : Nat) (tables : List String)
  | upsert (chain : ChainId) (table : String) (rows : List EventRow) (h : ∀ row ∈ rows, row.chainId = chain)
  | advance (chain : ChainId) (last : Nat) (lastHash : Hash)
  | queue (workQueue : WorkQueue)

def Write.isOf (chain : ChainId) : Write → Bool
  | .commit c _ _ | .rollback c _ _ | .upsert c _ _ _ | .advance c _ _ => c == chain
  | .queue _ => false

def perform (s : Store layout) : Write → Except DomainError (Store layout)
  | .commit _ batch _ => UnitOfWork.commitIngest s batch
  | .rollback c lo tables => UnitOfWork.rollbackTo s c lo tables
  | .upsert _ table rows _ => (EventRepo.upsertBatch s table rows).map Prod.fst
  | .advance c last lastHash => .ok (CursorRepo.advanceInTx s c last lastHash)
  | .queue workQueue => .ok { s with workQueue := workQueue }

/-- A write that fails leaves the store as it was. -/
def step (s : Store layout) (w : Write) : Store layout × Except DomainError Unit :=
  match perform s w with
  | .ok s' => (s', .ok ())
  | .error e => (s, .error e)

section Keys

theorem onKey_raw : Table.OnKey RawRecord.key fun r => r.chainId == chain := by
  intro x y hkey
  rw [RawRecord.key, RawRecord.key, Prod.mk.injEq] at hkey
  show (x.chainId == chain) = (y.chainId == chain)
  rw [hkey.1]

theorem onKey_block : Table.OnKey BlockMeta.key fun b => b.chainId == chain := by
  intro x y hkey
  rw [BlockMeta.key, BlockMeta.key, Prod.mk.injEq] at hkey
  show (x.chainId == chain) = (y.chainId == chain)
  rw [hkey.1]

theorem chainId_of_primaryKey {columns : PkColumns} {x y : EventRow}
    (hkey : x.primaryKey columns = y.primaryKey columns) : x.chainId = y.chainId := by
  cases columns with
  | event =>
      rw [EventRow.primaryKey, EventRow.primaryKey, PrimaryKey.event.injEq] at hkey
      exact hkey.1
  | aux =>
      rw [EventRow.primaryKey, EventRow.primaryKey, PrimaryKey.aux.injEq] at hkey
      exact hkey.1

theorem onKey_typed (columns : PkColumns) :
    Table.OnKey (EventRow.primaryKey columns) fun row => row.chainId == chain := by
  intro x y hkey
  show (x.chainId == chain) = (y.chainId == chain)
  rw [chainId_of_primaryKey hkey]

end Keys

theorem mem_of_mem_enrichmentOrder {enrichment : List EventRow} {group : String × List EventRow}
    (hgroup : group ∈ UnitOfWork.enrichmentOrder enrichment) {row : EventRow} (hrow : row ∈ group.2) :
    row ∈ enrichment := by
  have hbucket : group ∈ Rows.buckets (fun row : EventRow => row.event.table) enrichment := by
    rw [UnitOfWork.enrichmentOrder, List.mem_append, List.mem_filter, List.mem_filter] at hgroup
    rcases hgroup with hgroup | hgroup
    · exact hgroup.1
    · exact hgroup.1
  exact Rows.mem_buckets.mpr ⟨group, hbucket, hrow⟩

section Seen

variable (h : Alike chain s t)

include h

theorem alike_insertRaw (records : List RawRecord) :
    Alike chain (RawRecordRepo.insertBatchTx s records) (RawRecordRepo.insertBatchTx t records) := by
  rw [RawRecordRepo.insertBatchTx_eq, RawRecordRepo.insertBatchTx_eq]
  refine ⟨?_, h.blocks, h.typed, h.cursor⟩
  show (s.rawRecords.insertAll records).slice _ = (t.rawRecords.insertAll records).slice _
  rw [Table.slice_insertAll onKey_raw, Table.slice_insertAll onKey_raw, h.rawRecords]

theorem sameOutcome_upsertBlocks (blocks : List BlockMeta) :
    SameOutcome (Alike chain) (BlockRepo.upsertBatchTx s blocks) (BlockRepo.upsertBatchTx t blocks) := by
  apply SameOutcome.foldlM _ _ h
  intro part _ a b hab
  rw [BlockRepo.upsertPart, BlockRepo.upsertPart]
  split
  · apply SameOutcome.ok
    refine ⟨hab.rawRecords, ?_, hab.typed, hab.cursor⟩
    show (a.blocks.upsertAll part).slice _ = (b.blocks.upsertAll part).slice _
    rw [Table.slice_upsertAll onKey_block, Table.slice_upsertAll onKey_block, hab.blocks]
  · exact .error _

/-- A change of one table that acts on the chain's rows by themselves. -/
theorem alike_update (table : String)
    (f : Table (EventRow.primaryKey (layout table)) → Table (EventRow.primaryKey (layout table)))
    (hf : ∀ a b : Table (EventRow.primaryKey (layout table)),
      a.slice (fun row => row.chainId == chain) = b.slice (fun row => row.chainId == chain) →
      (f a).slice (fun row => row.chainId == chain) = (f b).slice fun row => row.chainId == chain) :
    Alike chain { s with typed := Function.update s.typed table (f (s.typed table)) }
      { t with typed := Function.update t.typed table (f (t.typed table)) } := by
  refine ⟨h.rawRecords, h.blocks, ?_, h.cursor⟩
  intro name
  by_cases hname : name = table
  · subst hname
    simp only [Function.update_self]
    exact hf _ _ (h.typed name)
  · simp only [Function.update_of_ne hname]
    exact h.typed name

theorem alike_insertRows (table : String) (rows : List EventRow) :
    Alike chain (EventRepo.insertRows s table rows) (EventRepo.insertRows t table rows) := by
  apply alike_update h table fun held => held.insertAll rows
  intro a b hab
  rw [Table.slice_insertAll (onKey_typed _), Table.slice_insertAll (onKey_typed _), hab]

theorem alike_cascade (gone : List EventRow) :
    Alike chain (EventRepo.cascade s gone) (EventRepo.cascade t gone) := by
  apply alike_update h receiptsTable fun held => held.delete fun receipt =>
    gone.any fun tx => tx.chainId == receipt.chainId && tx.txId == receipt.txId
  intro a b hab
  rw [Table.slice_delete, Table.slice_delete, hab]

/-- A receipt is checked against the transactions of its own chain. -/
theorem violatesForeignKey_eq (table : String) {rows : List EventRow}
    (hrows : ∀ row ∈ rows, row.chainId = chain) :
    EventRepo.violatesForeignKey s table rows = EventRepo.violatesForeignKey t table rows := by
  have hfind : ∀ row ∈ rows, (s.typed table).find? (row.primaryKey (layout table)) =
      (t.typed table).find? (row.primaryKey (layout table)) := by
    intro row hrow
    have hkey : ∀ r : EventRow, r.primaryKey (layout table) = row.primaryKey (layout table) →
        (r.chainId == chain) = true := by
      intro r hr
      rw [chainId_of_primaryKey hr, hrows row hrow, beq_self_eq_true]
    rw [← Table.find?_slice hkey, h.typed table, Table.find?_slice hkey]
  have hany : ∀ row ∈ rows, ((s.typed transactionsTable).rows.any fun tx =>
      tx.chainId == row.chainId && tx.txId == row.txId) =
      (t.typed transactionsTable).rows.any fun tx =>
        tx.chainId == row.chainId && tx.txId == row.txId := by
    intro row hrow
    have hchain : ∀ tx : EventRow, (tx.chainId == row.chainId && tx.txId == row.txId) = true →
        (tx.chainId == chain) = true := by
      intro tx htx
      rw [Bool.and_eq_true, hrows row hrow] at htx
      exact htx.1
    rw [← Table.any_slice hchain, h.typed transactionsTable, Table.any_slice hchain]
  rw [EventRepo.violatesForeignKey, EventRepo.violatesForeignKey]
  congr 1
  rw [Bool.eq_iff_iff, List.any_eq_true, List.any_eq_true]
  apply exists_congr
  intro row
  apply and_congr_right
  intro hrow
  rw [hfind row hrow, hany row hrow]

theorem sameOutcome_upsertTyped (table : String) {rows : List EventRow}
    (hrows : ∀ row ∈ rows, row.chainId = chain) :
    SameOutcome (Alike chain) (EventRepo.upsertBatchTx s table rows)
      (EventRepo.upsertBatchTx t table rows) := by
  rw [EventRepo.upsertBatchTx, EventRepo.upsertBatchTx]
  apply SameOutcome.bind (R := Eq) (SameOutcome.self _)
  intro _ _ _
  apply SameOutcome.foldlM _ _ h
  intro part hpart a b hab
  have hof : ∀ row ∈ part.2, row.chainId = chain := by
    intro row hrow
    exact hrows row ((EventRepo.mem_upsertParts hpart).2 row hrow)
  rw [EventRepo.insertPart, EventRepo.insertPart, violatesForeignKey_eq hab table hof]
  apply SameOutcome.bind (R := Eq) (SameOutcome.self _)
  intro _ _ _
  split
  · exact .error _
  · exact .ok (alike_insertRows hab table part.2)

theorem sameOutcome_upsert (table : String) {rows : List EventRow}
    (hrows : ∀ row ∈ rows, row.chainId = chain) :
    SameOutcome (Alike chain) ((EventRepo.upsertBatch s table rows).map Prod.fst)
      ((EventRepo.upsertBatch t table rows).map Prod.fst) := by
  have hwritten := sameOutcome_upsertTyped h table hrows
  rw [EventRepo.upsertBatch, EventRepo.upsertBatch]
  generalize EventRepo.upsertBatchTx s table rows = x at hwritten ⊢
  generalize EventRepo.upsertBatchTx t table rows = y at hwritten ⊢
  cases hwritten with
  | ok hR => exact .ok hR
  | error e => exact .error e.toDomain

/-- The transactions a delete takes away, and with them the receipts it cascades to, are its own. -/
theorem sameOutcome_deleteTyped (table : String) (lo : Nat) :
    SameOutcome (Alike chain) (EventRepo.deleteFromHeightTx s table chain lo)
      (EventRepo.deleteFromHeightTx t table chain lo) := by
  rw [EventRepo.deleteFromHeightTx, EventRepo.deleteFromHeightTx]
  apply SameOutcome.bind (R := Eq) (SameOutcome.self _)
  intro _ _ _
  have habove : ∀ row : EventRow, EventRepo.atOrAbove chain lo row = true →
      (row.chainId == chain) = true := by
    intro row hrow
    rw [EventRepo.atOrAbove, Bool.and_eq_true] at hrow
    exact hrow.1
  have hgone : (s.typed table).rows.filter (EventRepo.atOrAbove chain lo) =
      (t.typed table).rows.filter (EventRepo.atOrAbove chain lo) := by
    rw [← Table.filter_slice habove, h.typed table, Table.filter_slice habove]
  have hrest := alike_update h table (fun held => held.delete (EventRepo.atOrAbove chain lo)) (by
    intro a b hab
    rw [Table.slice_delete, Table.slice_delete, hab])
  apply SameOutcome.ok
  rw [hgone]
  split
  · exact alike_cascade hrest _
  · exact hrest

theorem alike_deleteRaw (lo : Nat) : Alike chain (RawRecordRepo.deleteFromHeightTx s chain lo)
    (RawRecordRepo.deleteFromHeightTx t chain lo) := by
  refine ⟨?_, h.blocks, h.typed, h.cursor⟩
  show (s.rawRecords.delete _).slice _ = (t.rawRecords.delete _).slice _
  rw [Table.slice_delete, Table.slice_delete, h.rawRecords]

theorem alike_deleteBlocks (lo : Nat) : Alike chain (BlockRepo.deleteFromHeightTx s chain lo)
    (BlockRepo.deleteFromHeightTx t chain lo) := by
  refine ⟨h.rawRecords, ?_, h.typed, h.cursor⟩
  show (s.blocks.delete _).slice _ = (t.blocks.delete _).slice _
  rw [Table.slice_delete, Table.slice_delete, h.blocks]

theorem alike_rewind (last : Nat) : Alike chain (CursorRepo.rewindInTx s chain last)
    (CursorRepo.rewindInTx t chain last) := by
  refine ⟨h.rawRecords, h.blocks, h.typed, ?_⟩
  simp only [CursorRepo.rewindInTx, Function.update_self, h.cursor]

theorem alike_advance (last : Nat) (lastHash : Hash) :
    Alike chain (CursorRepo.advanceInTx s chain last lastHash)
      (CursorRepo.advanceInTx t chain last lastHash) := by
  refine ⟨h.rawRecords, h.blocks, h.typed, ?_⟩
  rw [CursorRepo.advanceInTx_cursors, CursorRepo.advanceInTx_cursors]

theorem sameOutcome_commit {batch : IngestBatch} (hbatch : OfChain chain batch) :
    SameOutcome (Alike chain) (UnitOfWork.commitIngest s batch) (UnitOfWork.commitIngest t batch) := by
  apply SameOutcome.mapError
  unfold UnitOfWork.commitTx
  apply (sameOutcome_upsertBlocks (alike_insertRaw h batch.rawRecords) batch.blockMetas).bind
  intro a b hab
  apply SameOutcome.bind (R := Alike chain)
  · apply SameOutcome.foldlM _ _ hab
    intro group hgroup a b hab
    apply sameOutcome_upsertTyped hab
    intro row hrow
    exact hbatch.enrichment row (mem_of_mem_enrichmentOrder hgroup hrow)
  · intro a b hab
    apply SameOutcome.ok
    have hqueued : ∀ queue queue' : WorkQueue,
        Alike chain { a with workQueue := queue } { b with workQueue := queue' } := fun _ _ =>
      ⟨hab.rawRecords, hab.blocks, hab.typed, hab.cursor⟩
    cases hcursor : batch.advanceCursor with
    | none =>
        cases batch.enqueue with
        | none => exact hab
        | some item => exact hqueued _ _
    | some cursor =>
        obtain ⟨c, last, lastHash⟩ := cursor
        obtain rfl : c = chain := hbatch.cursor _ hcursor
        cases batch.enqueue with
        | none => exact alike_advance hab last lastHash
        | some item => exact alike_advance (hqueued _ _) last lastHash

theorem sameOutcome_rollback (lo : Nat) (tables : List String) :
    SameOutcome (Alike chain) (UnitOfWork.rollbackTo s chain lo tables)
      (UnitOfWork.rollbackTo t chain lo tables) := by
  apply SameOutcome.mapError
  unfold UnitOfWork.rollbackTx
  apply SameOutcome.bind (R := Alike chain)
  · apply SameOutcome.foldlM _ _ h
    intro table _ a b hab
    exact sameOutcome_deleteTyped hab table lo
  · intro a b hab
    apply SameOutcome.ok
    exact alike_rewind (alike_deleteBlocks (alike_deleteRaw hab lo) lo) (lo - 1)

end Seen

section Unseen

variable {other : ChainId} (hne : other ≠ chain)

include hne

theorem filter_other {ρ : Type} (chainId : ρ → ChainId) {rows : List ρ}
    (hrows : ∀ r ∈ rows, chainId r = other) : (rows.filter fun r => chainId r == chain) = [] := by
  rw [List.filter_eq_nil_iff]
  intro r hr
  rw [hrows r hr, beq_iff_eq]
  exact hne

theorem unseen_commit {batch : IngestBatch} (hbatch : OfChain other batch) {s s' : Store layout}
    (h : UnitOfWork.commitIngest s batch = .ok s') : Alike chain s' s := by
  have hcommitted := UnitOfWork.commitIngest_ok h
  constructor
  · rw [hcommitted.rawRecords, Table.slice_insertAll onKey_raw,
      filter_other hne RawRecord.chainId hbatch.rawRecords, Table.insertAll_nil]
  · rw [hcommitted.blocks, Table.slice_upsertAll onKey_block,
      filter_other hne BlockMeta.chainId hbatch.blockMetas, Table.upsertAll_nil]
  · intro table
    obtain ⟨order, hperm, htyped⟩ := hcommitted.typed table
    have horder : ∀ row ∈ order, row.chainId = other := by
      intro row hrow
      exact hbatch.enrichment row (List.mem_filter.mp (hperm.mem_iff.mp hrow)).1
    rw [htyped, Table.slice_insertAll (onKey_typed _), filter_other hne EventRow.chainId horder,
      Table.insertAll_nil]
  · rw [hcommitted.cursors]
    cases hcursor : batch.advanceCursor with
    | none => rfl
    | some cursor =>
        have hother := hbatch.cursor cursor hcursor
        exact Function.update_of_ne (fun heq => hne (hother.symm.trans heq.symm)) _ _

theorem unseen_upsert {table : String} {rows : List EventRow}
    (hrows : ∀ row ∈ rows, row.chainId = other) {s s' : Store layout}
    (h : EventRepo.upsertBatchTx s table rows = .ok s') : Alike chain s' s := by
  obtain ⟨order, hperm, rfl⟩ := EventRepo.upsertBatchTx_ok h
  refine ⟨rfl, rfl, ?_, rfl⟩
  intro name
  by_cases hname : name = table
  · subst hname
    have horder : ∀ row ∈ order, row.chainId = other := by
      intro row hrow
      exact hrows row (hperm.mem_iff.mp hrow)
    rw [EventRepo.insertRows_typed_self, Table.slice_insertAll (onKey_typed _),
      filter_other hne EventRow.chainId horder, Table.insertAll_nil]
  · rw [EventRepo.insertRows_typed_of_ne _ hname]

omit hne in
theorem unseen_update (s : Store layout) (table : String)
    (f : Table (EventRow.primaryKey (layout table)) → Table (EventRow.primaryKey (layout table)))
    (hf : (f (s.typed table)).slice (fun row => row.chainId == chain) =
      (s.typed table).slice fun row => row.chainId == chain) :
    Alike chain { s with typed := Function.update s.typed table (f (s.typed table)) } s := by
  refine ⟨rfl, rfl, ?_, rfl⟩
  intro name
  by_cases hname : name = table
  · subst hname
    simp only [Function.update_self]
    exact hf
  · simp only [Function.update_of_ne hname]

theorem unseen_deleteTyped {table : String} {lo : Nat} {s s' : Store layout}
    (h : EventRepo.deleteFromHeightTx s table other lo = .ok s') : Alike chain s' s := by
  rw [EventRepo.deleteFromHeightTx, Rows.bind_eq_ok] at h
  obtain ⟨_, -, h⟩ := h
  cases h
  have hrest := @unseen_update layout chain s table
    (fun held => held.delete (EventRepo.atOrAbove other lo)) (by
      apply Table.slice_delete_of_disjoint
      intro row hrow
      rw [EventRepo.atOrAbove, eq_of_beq hrow, beq_false_of_ne hne.symm, Bool.false_and])
  split
  · refine Alike.trans ?_ hrest
    apply unseen_update _ receiptsTable fun held => held.delete fun receipt =>
      ((s.typed table).rows.filter (EventRepo.atOrAbove other lo)).any fun tx =>
        tx.chainId == receipt.chainId && tx.txId == receipt.txId
    apply Table.slice_delete_of_disjoint
    intro receipt hreceipt
    rw [List.any_eq_false]
    intro tx htx hmatch
    rw [Bool.and_eq_true, beq_iff_eq] at hmatch
    have habove := (List.mem_filter.mp htx).2
    rw [EventRepo.atOrAbove, Bool.and_eq_true, beq_iff_eq] at habove
    exact hne (habove.1.symm.trans (hmatch.1.trans (eq_of_beq hreceipt)))
  · exact hrest

theorem unseen_rollback {lo : Nat} {tables : List String} {s s' : Store layout}
    (h : UnitOfWork.rollbackTo s other lo tables = .ok s') : Alike chain s' s := by
  have htx : UnitOfWork.rollbackTx s other lo tables = .ok s' := Rows.mapError_eq_ok.mp h
  rw [UnitOfWork.rollbackTx, Rows.bind_eq_ok] at htx
  obtain ⟨cleared, hcleared, heq⟩ := htx
  have hkept : Alike chain cleared s :=
    rel_of_foldlM_ok Alike.refl (fun _ _ _ hab hbc => hab.trans hbc) tables
      (fun _ _ _ _ hstep => unseen_deleteTyped hne hstep) hcleared
  cases heq
  refine Alike.trans (b := cleared) ⟨?_, ?_, fun _ => rfl, ?_⟩ hkept
  · apply Table.slice_delete_of_disjoint
    intro r hr
    rw [eq_of_beq hr, beq_false_of_ne hne.symm, Bool.false_and]
  · apply Table.slice_delete_of_disjoint
    intro b hb
    rw [eq_of_beq hb, beq_false_of_ne hne.symm, Bool.false_and]
  · exact Function.update_of_ne hne.symm _ _

end Unseen

theorem unseen_perform {w : Write} (hother : w.isOf chain = false) {s s' : Store layout}
    (h : perform s w = .ok s') : Alike chain s' s := by
  cases w with
  | commit c batch hbatch => exact unseen_commit (ne_of_beq_false hother) hbatch h
  | rollback c lo tables => exact unseen_rollback (ne_of_beq_false hother) h
  | upsert c table rows hrows =>
      rw [perform, EventRepo.upsertBatch] at h
      cases hwritten : EventRepo.upsertBatchTx s table rows with
      | error e =>
          rw [hwritten] at h
          cases h
      | ok written =>
          rw [hwritten] at h
          cases h
          exact unseen_upsert (ne_of_beq_false hother) hrows hwritten
  | advance c last lastHash =>
      cases h
      exact ⟨rfl, rfl, fun _ => rfl, Function.update_of_ne (ne_of_beq_false hother).symm _ _⟩
  | queue workQueue =>
      cases h
      exact ⟨rfl, rfl, fun _ => rfl, rfl⟩

theorem step_eq_of_sameOutcome {w : Write} (h : SameOutcome (Alike chain) (perform s w) (perform t w))
    (hst : Alike chain s t) :
    Alike chain (step s w).1 (step t w).1 ∧ (step s w).2 = (step t w).2 := by
  rw [step, step]
  generalize perform s w = x at h ⊢
  generalize perform t w = y at h ⊢
  cases h with
  | ok hR => exact ⟨hR, rfl⟩
  | error e => exact ⟨hst, rfl⟩

/-- Seen from one chain, the writes of the others are not there. -/
theorem unwinding (layout : String → PkColumns) (chain : ChainId) :
    Unwinding (@step layout) (Write.isOf chain) (Alike chain) where
  consistent s t w h hmine := by
    apply step_eq_of_sameOutcome _ h
    cases w with
    | commit c batch hbatch =>
        obtain rfl := eq_of_beq hmine
        exact sameOutcome_commit h hbatch
    | rollback c lo tables =>
        obtain rfl := eq_of_beq hmine
        exact sameOutcome_rollback h lo tables
    | upsert c table rows hrows =>
        obtain rfl := eq_of_beq hmine
        exact sameOutcome_upsert h table hrows
    | advance c last lastHash =>
        obtain rfl := eq_of_beq hmine
        exact .ok (alike_advance h last lastHash)
    | queue workQueue => exact absurd hmine Bool.false_ne_true
  unseen s t w h hother := by
    refine Alike.trans ?_ h
    rw [step]
    cases hperform : perform s w with
    | error e => exact Alike.refl s
    | ok s' => exact unseen_perform hother hperform

/-- Every read that names the chain. -/
structure SameReads (chain : ChainId) (s t : Store layout) : Prop where
  range : ∀ lo hi, RawRecordRepo.range s chain lo hi = RawRecordRepo.range t chain lo hi
  get : ∀ height, BlockRepo.get s chain height = BlockRepo.get t chain height
  times : ∀ lo hi, BlockRepo.times s chain lo hi = BlockRepo.times t chain lo hi
  maxHeight : BlockRepo.maxHeight s chain = BlockRepo.maxHeight t chain
  cursor : s.cursors chain = t.cursors chain
  typed : ∀ table, (s.typed table).rows.filter (fun row => row.chainId == chain) =
    (t.typed table).rows.filter fun row => row.chainId == chain
  decoded : ∀ order decoder raw times,
    decodedTables order decoder s chain raw times = decodedTables order decoder t chain raw times

theorem sameReads_of_alike (h : Alike chain s t) : SameReads chain s t where
  range lo hi := by
    have hchain : ∀ r : RawRecord, RawRecordRepo.inRange chain lo hi r = true →
        (r.chainId == chain) = true := by
      intro r hr
      rw [RawRecordRepo.inRange, Bool.and_eq_true, Bool.and_eq_true] at hr
      exact hr.1.1
    rw [RawRecordRepo.range, RawRecordRepo.range, ← Table.filter_slice hchain, h.rawRecords,
      Table.filter_slice hchain]
  get height := by
    have hchain : ∀ b : BlockMeta, b.key = (chain, height) → (b.chainId == chain) = true := by
      intro b hb
      rw [BlockMeta.key, Prod.mk.injEq] at hb
      rw [hb.1, beq_self_eq_true]
    rw [BlockRepo.get, BlockRepo.get, ← Table.find?_slice hchain, h.blocks, Table.find?_slice hchain]
  times lo hi := by
    have hchain : ∀ b : BlockMeta, (b.chainId == chain && decide (lo ≤ b.height) &&
        decide (b.height ≤ hi)) = true → (b.chainId == chain) = true := by
      intro b hb
      rw [Bool.and_eq_true, Bool.and_eq_true] at hb
      exact hb.1.1
    rw [BlockRepo.times, BlockRepo.times, ← Table.filter_slice hchain, h.blocks,
      Table.filter_slice hchain]
  maxHeight := by
    have hrows : s.blocks.rows.filter (fun b => b.chainId == chain) =
        t.blocks.rows.filter fun b => b.chainId == chain := congrArg Table.rows h.blocks
    rw [BlockRepo.maxHeight, BlockRepo.maxHeight, hrows]
  cursor := h.cursor
  typed table := congrArg Table.rows (h.typed table)
  decoded order decoder raw times := by
    have hchain : ∀ tx : EventRow, (tx.chainId == chain && raw.any fun r => r.txId == tx.txId) = true →
        (tx.chainId == chain) = true := by
      intro tx htx
      rw [Bool.and_eq_true] at htx
      exact htx.1
    have htxs : matchedTransactions s chain raw = matchedTransactions t chain raw := by
      rw [matchedTransactions, matchedTransactions, ← Table.filter_slice hchain,
        h.typed transactionsTable, Table.filter_slice hchain]
    rw [decodedTables, decodedTables, decodeCalls, decodeCalls, htxs]

section Program

/-- What the source fetched for a range of the chain is committed as one write of it. -/
theorem ofChain_ingestBatch {c : Chain} {lo hi : Nat} {fetched : FetchedRange}
    (h : Serves c lo hi fetched) (epoch : Epoch) (advanceCursor : Bool) :
    OfChain c.id (IngestionService.ingestBatch c.id fetched epoch advanceCursor) where
  rawRecords r hr := by
    obtain ⟨b, -, hlog⟩ := List.mem_flatMap.mp (h.records.mem_iff.mp hr)
    exact (c.logs_at b r hlog).1
  blockMetas b hb := by
    obtain ⟨height, -, hblock⟩ := List.mem_flatMap.mp (h.blockMetas.mem_iff.mp hb)
    rw [(Chain.mem_blocksAt.mp hblock).2]
    exact (c.block_at height).1
  enrichment row hrow := by
    obtain ⟨height, -, hrow⟩ := List.mem_flatMap.mp (h.enrichment.mem_iff.mp hrow)
    rcases List.mem_append.mp hrow with htx | hreceipt
    · obtain ⟨tx, -, rfl⟩ := Chain.mem_transactionsAt.mp htx
      rfl
    · obtain ⟨tx, -, f, -, rfl⟩ := Chain.mem_receiptsAt.mp hreceipt
      rfl
  cursor cursor hcursor := by
    cases advanceCursor with
    | false => cases hcursor
    | true =>
        cases hcursor
        rfl

theorem chainId_of_decodedTables {order : Order} {decoder : AbiIndex} {raw : List RawRecord}
    {times : List (Nat × Int)} {tables : List (String × List EventRow)}
    (hraw : ∀ r ∈ raw, r.chainId = chain)
    (h : decodedTables order decoder s chain raw times = .ok tables)
    {group : String × List EventRow} (hgroup : group ∈ tables) {row : EventRow}
    (hrow : row ∈ group.2) : row.chainId = chain := by
  have hmem : row ∈ (tables.filter fun g => g.1 = group.1).flatMap Prod.snd :=
    List.mem_flatMap.mpr ⟨group, List.mem_filter.mpr ⟨hgroup, decide_eq_true rfl⟩, hrow⟩
  obtain ⟨d, hdecoded, -, rfl⟩ := (mem_decodedTables h).mp hmem
  show d.chainId = chain
  rcases hdecoded with ⟨r, hr, hd⟩ | ⟨tx, -, htx, -, calldata, hcalldata, hd⟩
  · obtain ⟨event, rfl⟩ := AbiIndex.decode_ok hd
    exact hraw r hr
  · obtain ⟨event, rfl⟩ := AbiIndex.decodeCall_ok hd
    exact (calldataRow_ok hcalldata).1.trans htx

theorem exists_writes_of_tables (tables : List (String × List EventRow)) {s s' : Store layout}
    {n n' : Nat} (hrows : ∀ group ∈ tables, ∀ row ∈ group.2, row.chainId = chain)
    (h : tables.foldlM (fun (written : Store layout × Nat) group => do
      let (store, m) ← EventRepo.upsertBatch written.1 group.1 group.2
      .ok (store, written.2 + m)) (s, n) = .ok (s', n')) :
    ∃ writes : List Write, (∀ w ∈ writes, w.isOf chain = true) ∧ after step s writes = s' := by
  induction tables generalizing s n with
  | nil =>
      cases h
      exact ⟨[], fun w hw => absurd hw List.not_mem_nil, rfl⟩
  | cons group tables ih =>
      obtain ⟨written, m, hwritten, hrest⟩ := upsertTables_cons h
      have hgroup := hrows group List.mem_cons_self
      obtain ⟨writes, hof, hafter⟩ := ih (fun g hg => hrows g (List.mem_cons_of_mem _ hg)) hrest
      refine ⟨.upsert chain group.1 group.2 hgroup :: writes, ?_, ?_⟩
      · rw [List.forall_mem_cons]
        exact ⟨beq_self_eq_true chain, hof⟩
      · rw [← hafter, after, List.foldl_cons, step, perform, hwritten]
        rfl

/-- A decode of a range of the chain is a run of writes of it. -/
theorem exists_writes_of_decodeRange {order : Order} {decoder : AbiIndex} {lo hi n : Nat}
    {s s' : Store layout} (h : decodeRange order decoder s chain lo hi = .ok (s', n)) :
    ∃ writes : List Write, (∀ w ∈ writes, w.isOf chain = true) ∧ after step s writes = s' := by
  rw [decodeRange, Rows.bind_eq_ok] at h
  obtain ⟨tables, htables, hwritten⟩ := h
  apply exists_writes_of_tables tables _ hwritten
  intro group hgroup row hrow
  apply chainId_of_decodedTables _ htables hgroup hrow
  intro r hr
  exact (RawRecordRepo.mem_range.mp hr).2.1

end Program

/-- Whatever the other chains write in between, and whatever becomes of the queue, a chain's commits,
rollbacks, decodes and checkpoints succeed or fail, with the same errors, and its reads answer, as in
the run of that chain's writes by themselves. -/
theorem alone_of_shared (s : Store layout) (chain : ChainId) (writes : List Write) :
    SameReads chain (after step s writes) (after step s (writes.filter (Write.isOf chain))) ∧
      answers step (Write.isOf chain) s writes =
        answers step (Write.isOf chain) s (writes.filter (Write.isOf chain)) := by
  obtain ⟨halike, hanswers⟩ := (unwinding layout chain).purge (Alike.refl s) writes
  exact ⟨sameReads_of_alike halike, hanswers⟩

end Topic0.Chains
