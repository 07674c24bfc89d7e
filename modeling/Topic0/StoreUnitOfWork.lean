import Topic0.StoreTables

/-! The two atomic writes of the indexer: committing an ingested range and rolling back a reorged
one. Each is one transaction, so a failing statement leaves the store as it was. -/

namespace Topic0

open Keyed

variable {layout : String → PkColumns}

namespace UnitOfWork

/-- Enrichment rows by aux table, the receipts last: their transactions must exist first. -/
def enrichmentOrder (enrichment : List EventRow) : List (String × List EventRow) :=
  let byTable := Rows.buckets (fun row : EventRow => row.event.table) enrichment
  byTable.filter (fun group => group.1 != receiptsTable) ++
    byTable.filter fun group => group.1 == receiptsTable

def commitTx (store : Store layout) (batch : IngestBatch) : Except DbError (Store layout) := do
  let store := RawRecordRepo.insertBatchTx store batch.rawRecords
  let store ← BlockRepo.upsertBatchTx store batch.blockMetas
  let store ← (enrichmentOrder batch.enrichment).foldlM
    (fun store group => EventRepo.upsertBatchTx store group.1 group.2) store
  let store := match batch.enqueue with
    | some item => { store with workQueue := store.workQueue.pushInTx item }
    | none => store
  .ok (match batch.advanceCursor with
    | some (chain, last, lastHash) => CursorRepo.advanceInTx store chain last lastHash
    | none => store)

def commitIngest (store : Store layout) (batch : IngestBatch) :
    Except DomainError (Store layout) :=
  (commitTx store batch).mapError DbError.toDomain

def rollbackTx (store : Store layout) (chain : ChainId) (lo : Nat) (tables : List String) :
    Except DbError (Store layout) := do
  let store ← tables.foldlM
    (fun store table => EventRepo.deleteFromHeightTx store table chain lo) store
  let store := RawRecordRepo.deleteFromHeightTx store chain lo
  let store := BlockRepo.deleteFromHeightTx store chain lo
  .ok (CursorRepo.rewindInTx store chain (lo - 1))

def rollbackTo (store : Store layout) (chain : ChainId) (lo : Nat) (tables : List String) :
    Except DomainError (Store layout) :=
  (rollbackTx store chain lo tables).mapError DbError.toDomain

theorem insertGroups_ok (groups : List (String × List EventRow)) {store store' : Store layout}
    (h : groups.foldlM (fun store group => EventRepo.upsertBatchTx store group.1 group.2) store =
      .ok store') :
    SameButTyped store store' ∧ ∀ t, ∃ order,
      order.Perm ((groups.filter fun group => group.1 = t).flatMap Prod.snd) ∧
        store'.typed t = (store.typed t).insertAll order := by
  induction groups generalizing store with
  | nil =>
      cases h
      exact ⟨⟨rfl, rfl, rfl, rfl⟩, fun t => ⟨[], List.Perm.refl _, rfl⟩⟩
  | cons group groups ih =>
      rw [List.foldlM_cons, Rows.bind_eq_ok] at h
      obtain ⟨next, hnext, hrest⟩ := h
      obtain ⟨written, hperm, rfl⟩ := EventRepo.upsertBatchTx_ok hnext
      obtain ⟨hsame, htyped⟩ := ih hrest
      refine ⟨(EventRepo.insertRows_same _ _ _).trans hsame, fun t => ?_⟩
      obtain ⟨order, horder, heq⟩ := htyped t
      by_cases ht : group.1 = t
      · subst ht
        refine ⟨written ++ order, ?_, ?_⟩
        · simpa using hperm.append horder
        · rw [heq, Table.insertAll_append, EventRepo.insertRows_typed_self]
      · refine ⟨order, by simpa [ht] using horder, ?_⟩
        rw [heq, EventRepo.insertRows_typed_of_ne _ (Ne.symm ht)]

theorem enrichmentOrder_perm (enrichment : List EventRow) (t : String) :
    (((enrichmentOrder enrichment).filter fun group => group.1 = t).flatMap Prod.snd).Perm
      (enrichment.filter fun row => row.event.table = t) := by
  refine List.Perm.trans (List.Perm.flatMap_right _ (List.Perm.filter _ ?_))
    (Rows.filter_buckets_perm (fun row : EventRow => row.event.table) enrichment t)
  have hsplit := List.filter_append_perm
    (fun group : String × List EventRow => group.1 != receiptsTable)
    (Rows.buckets (fun row : EventRow => row.event.table) enrichment)
  simpa [enrichmentOrder, bne] using hsplit

/-- What a committed batch did to each part of the store. -/
structure Committed (store store' : Store layout) (batch : IngestBatch) : Prop where
  rawRecords : store'.rawRecords = store.rawRecords.insertAll batch.rawRecords
  blocks : store'.blocks = store.blocks.upsertAll batch.blockMetas
  typed : ∀ t, ∃ order, order.Perm (batch.enrichment.filter fun row => row.event.table = t) ∧
    store'.typed t = (store.typed t).insertAll order
  workQueue : store'.workQueue = match batch.enqueue with
    | some item => store.workQueue.pushInTx item
    | none => store.workQueue
  cursors : store'.cursors = match batch.advanceCursor with
    | some (chain, last, lastHash) => Function.update store.cursors chain (some (last, lastHash))
    | none => store.cursors

theorem commitTx_ok {store store' : Store layout} {batch : IngestBatch}
    (h : commitTx store batch = .ok store') : Committed store store' batch := by
  rw [commitTx, Rows.bind_eq_ok] at h
  obtain ⟨blocked, hblocked, h⟩ := h
  rw [Rows.bind_eq_ok] at h
  obtain ⟨enriched, henriched, h⟩ := h
  obtain ⟨hsame, htyped⟩ := insertGroups_ok _ henriched
  rw [BlockRepo.upsertBatchTx_ok hblocked, RawRecordRepo.insertBatchTx_eq] at hsame htyped
  cases h
  constructor
  · cases batch.advanceCursor <;> cases batch.enqueue <;> exact hsame.rawRecords
  · cases batch.advanceCursor <;> cases batch.enqueue <;> exact hsame.blocks
  · intro t
    obtain ⟨order, hperm, heq⟩ := htyped t
    refine ⟨order, hperm.trans (enrichmentOrder_perm _ t), ?_⟩
    cases batch.advanceCursor <;> cases batch.enqueue <;> exact heq
  · cases batch.advanceCursor <;> cases batch.enqueue <;> simp [CursorRepo.advanceInTx, hsame.workQueue]
  · cases batch.advanceCursor <;> cases batch.enqueue <;> simp [CursorRepo.advanceInTx, hsame.cursors]

theorem commitIngest_ok {store store' : Store layout} {batch : IngestBatch}
    (h : commitIngest store batch = .ok store') : Committed store store' batch := by
  exact commitTx_ok (Rows.mapError_eq_ok.mp h)

theorem exists_upsertGroup_ok (store : Store layout) {enrichment : List EventRow}
    (hidents : ∀ row ∈ enrichment, isValidIdent row.event.table = true ∧
      ∀ name ∈ EventRepo.signature row, isValidIdent name = true)
    {group : String × List EventRow}
    (hgroup : group ∈ Rows.buckets (fun row : EventRow => row.event.table) enrichment)
    (hfk : group.1 = receiptsTable → ∀ row ∈ group.2, EventRepo.HasTransaction store row) :
    ∃ store', EventRepo.upsertBatchTx store group.1 group.2 = .ok store' := by
  have hmem : ∀ row ∈ group.2, row ∈ enrichment :=
    fun row hrow => Rows.mem_buckets.mpr ⟨group, hgroup, hrow⟩
  obtain ⟨row, hrow⟩ := List.exists_mem_of_ne_nil _ (Rows.ne_nil_buckets group hgroup)
  have htable := Rows.keyed_buckets group hgroup row hrow
  exact EventRepo.exists_upsertBatchTx_ok (htable ▸ (hidents row (hmem row hrow)).1)
    (fun r hr => (hidents r (hmem r hr)).2) hfk

/-- After the first half of the enrichment every receipt of the batch has its transaction. -/
theorem hasTransaction_of_parents (hlayout : layout transactionsTable = .aux)
    {enrichment : List EventRow} {store parents : Store layout}
    (h : ((Rows.buckets (fun row : EventRow => row.event.table) enrichment).filter
      fun group => group.1 != receiptsTable).foldlM
        (fun store group => EventRepo.upsertBatchTx store group.1 group.2) store = .ok parents)
    {row tx : EventRow} (htx : tx ∈ enrichment) (hname : tx.event.table = transactionsTable)
    (hchain : tx.chainId = row.chainId) (hid : tx.txId = row.txId) :
    EventRepo.HasTransaction parents row := by
  obtain ⟨order, horder, htyped⟩ := (insertGroups_ok _ h).2 transactionsTable
  obtain ⟨group, hg, hmem⟩ : ∃ group ∈ Rows.buckets (fun row : EventRow => row.event.table) enrichment,
      tx ∈ group.2 := Rows.mem_buckets.mp htx
  have hgname : group.1 = transactionsTable :=
    (Rows.keyed_buckets group hg tx hmem).symm.trans hname
  have hin : tx ∈ order := by
    refine horder.mem_iff.mpr (List.mem_flatMap.mpr ⟨group, ?_, hmem⟩)
    simp only [List.mem_filter, hg, hgname, decide_true, and_true, true_and]
    decide
  obtain ⟨stored, hstored, hkey⟩ := Table.exists_key_insertAll (t := store.typed _) hin
  refine ⟨stored, htyped ▸ hstored, ?_⟩
  simp only [hlayout, EventRow.primaryKey, PrimaryKey.aux.injEq] at hkey
  exact ⟨hkey.1.trans hchain, hkey.2.trans hid⟩

/-- A batch commits when its blocks are distinct, its columns are identifiers and every receipt
comes with its transaction. -/
theorem exists_commitIngest_ok (hlayout : layout transactionsTable = .aux) (store : Store layout)
    (batch : IngestBatch) (hblocks : (batch.blockMetas.map BlockMeta.key).Nodup)
    (hidents : ∀ row ∈ batch.enrichment, isValidIdent row.event.table = true ∧
      ∀ name ∈ EventRepo.signature row, isValidIdent name = true)
    (hfk : ∀ row ∈ batch.enrichment, row.event.table = receiptsTable →
      ∃ tx ∈ batch.enrichment, tx.event.table = transactionsTable ∧
        tx.chainId = row.chainId ∧ tx.txId = row.txId) :
    ∃ store', commitIngest store batch = .ok store' := by
  have hblocked := BlockRepo.upsertBatchTx_of_nodup
    (RawRecordRepo.insertBatchTx store batch.rawRecords) hblocks
  generalize hb : ({ RawRecordRepo.insertBatchTx store batch.rawRecords with
    blocks := (RawRecordRepo.insertBatchTx store batch.rawRecords).blocks.upsertAll
      batch.blockMetas } : Store layout) = blocked at hblocked
  -- parents first: no foreign key is checked
  obtain ⟨parents, hparents, -⟩ := Rows.exists_foldlM_ok
    (fun store group => EventRepo.upsertBatchTx store group.1 group.2) (fun _ => True)
    ((Rows.buckets (fun row : EventRow => row.event.table) batch.enrichment).filter
      fun group => group.1 != receiptsTable) (s := blocked) (by
      intro group hg s _
      obtain ⟨hg, hne⟩ := List.mem_filter.mp hg
      obtain ⟨s', hs'⟩ := exists_upsertGroup_ok s hidents hg
        fun htable => absurd htable (by simpa using hne)
      exact ⟨s', hs', trivial⟩) trivial
  -- then the receipts, whose writes keep the transactions
  obtain ⟨enriched, henriched, -⟩ := Rows.exists_foldlM_ok
    (fun store group => EventRepo.upsertBatchTx store group.1 group.2)
    (fun s => ∀ row ∈ batch.enrichment, row.event.table = receiptsTable →
      EventRepo.HasTransaction s row)
    ((Rows.buckets (fun row : EventRow => row.event.table) batch.enrichment).filter
      fun group => group.1 == receiptsTable) (s := parents) (by
      intro group hg s hs
      obtain ⟨hg, hname⟩ := List.mem_filter.mp hg
      have hname : group.1 = receiptsTable := by simpa using hname
      obtain ⟨s', hs'⟩ := exists_upsertGroup_ok s hidents hg fun _ row hrow =>
        hs row (Rows.mem_buckets.mpr ⟨group, hg, hrow⟩)
          ((Rows.keyed_buckets group hg row hrow).trans hname)
      refine ⟨s', hs', fun row hrow htable => ?_⟩
      obtain ⟨order, -, rfl⟩ := EventRepo.upsertBatchTx_ok hs'
      obtain ⟨tx, htx, hkey⟩ := hs row hrow htable
      refine ⟨tx, ?_, hkey⟩
      rwa [EventRepo.insertRows_typed_of_ne _ (by rw [hname]; decide)]) (by
      intro row hrow htable
      obtain ⟨tx, htx, hname, hchain, hid⟩ := hfk row hrow htable
      exact hasTransaction_of_parents hlayout hparents htx hname hchain hid)
  have henrich : (enrichmentOrder batch.enrichment).foldlM
      (fun store group => EventRepo.upsertBatchTx store group.1 group.2) blocked =
        .ok enriched := by
    rw [enrichmentOrder, List.foldlM_append]
    exact Rows.bind_eq_ok.mpr ⟨parents, hparents, henriched⟩
  have hcommit : ∃ store', commitTx store batch = .ok store' := by
    unfold commitTx
    exact ⟨_, Rows.bind_eq_ok.mpr ⟨blocked, hblocked, Rows.bind_eq_ok.mpr ⟨enriched, henrich, rfl⟩⟩⟩
  obtain ⟨store', hstore'⟩ := hcommit
  exact ⟨store', by rw [commitIngest, hstore']; rfl⟩

/-- What a rollback from height `lo` did to each part of the store. -/
structure RolledBack (store store' : Store layout) (chain : ChainId) (lo : Nat)
    (tables : List String) : Prop where
  rawRecords : ∀ r, r ∈ store'.rawRecords ↔
    r ∈ store.rawRecords ∧ ¬(r.chainId = chain ∧ lo ≤ r.height)
  blocks : ∀ b, b ∈ store'.blocks ↔ b ∈ store.blocks ∧ ¬(b.chainId = chain ∧ lo ≤ b.height)
  typed : ∀ t row, row ∈ store'.typed t ↔
    row ∈ store.typed t ∧ ¬(t ∈ tables ∧ row.chainId = chain ∧ lo ≤ row.height) ∧
      ¬(t = receiptsTable ∧ transactionsTable ∈ tables ∧ EventRepo.Orphaned store chain lo row)
  cursors : store'.cursors = Function.update store.cursors chain
    ((store.cursors chain).map fun _ => (lo - 1, ⟨[]⟩))
  workQueue : store'.workQueue = store.workQueue

theorem deleteTables_ok {chain : ChainId} {lo : Nat} (tables : List String)
    {store store' : Store layout}
    (h : tables.foldlM (fun store table => EventRepo.deleteFromHeightTx store table chain lo)
      store = .ok store') :
    SameButTyped store store' ∧ ∀ t row, row ∈ store'.typed t ↔
      row ∈ store.typed t ∧ ¬(t ∈ tables ∧ EventRepo.atOrAbove chain lo row = true) ∧
        ¬(t = receiptsTable ∧ transactionsTable ∈ tables ∧
          EventRepo.Orphaned store chain lo row) := by
  induction tables generalizing store with
  | nil =>
      cases h
      exact ⟨⟨rfl, rfl, rfl, rfl⟩, by simp⟩
  | cons table tables ih =>
      rw [List.foldlM_cons, Rows.bind_eq_ok] at h
      obtain ⟨next, hnext, hrest⟩ := h
      obtain ⟨hsame, htyped⟩ := EventRepo.deleteFromHeightTx_ok hnext
      obtain ⟨hsame', htyped'⟩ := ih hrest
      refine ⟨hsame.trans hsame', fun t row => ?_⟩
      have hne : transactionsTable ≠ receiptsTable := by decide
      -- what the first delete left of the transactions decides what the later ones cascade to
      have horphan : EventRepo.Orphaned next chain lo row ↔
          table ≠ transactionsTable ∧ EventRepo.Orphaned store chain lo row := by
        simp only [EventRepo.Orphaned, htyped, hne, false_and, not_false_eq_true, and_true]
        constructor
        · rintro ⟨tx, ⟨hmem, hkept⟩, habove, hkey⟩
          exact ⟨fun heq => hkept ⟨heq.symm, habove⟩, tx, hmem, habove, hkey⟩
        · rintro ⟨hother, tx, hmem, habove, hkey⟩
          exact ⟨tx, ⟨hmem, fun hbad => hother hbad.1.symm⟩, habove, hkey⟩
      rw [htyped', htyped, horphan]
      simp only [List.mem_cons]
      by_cases htx : table = transactionsTable
      · simp only [htx, true_or, true_and, ne_eq, not_true, false_and, and_false,
          not_false_eq_true, and_true]
        tauto
      · have htx' : ¬transactionsTable = table := fun h => htx h.symm
        simp only [htx, htx', false_or, ne_eq, not_false_eq_true, true_and, false_and, and_false,
          and_true]
        tauto

theorem rollbackTo_ok {store store' : Store layout} {chain : ChainId} {lo : Nat}
    {tables : List String} (h : rollbackTo store chain lo tables = .ok store') :
    RolledBack store store' chain lo tables := by
  have htx : rollbackTx store chain lo tables = .ok store' := Rows.mapError_eq_ok.mp h
  rw [rollbackTx, Rows.bind_eq_ok] at htx
  obtain ⟨cleared, hcleared, heq⟩ := htx
  obtain ⟨hsame, htyped⟩ := deleteTables_ok tables hcleared
  cases heq
  constructor
  · intro r
    simp only [CursorRepo.rewindInTx, BlockRepo.deleteFromHeightTx,
      RawRecordRepo.deleteFromHeightTx, Table.mem_delete, hsame.rawRecords]
    simp
  · intro b
    simp only [CursorRepo.rewindInTx, BlockRepo.deleteFromHeightTx,
      RawRecordRepo.deleteFromHeightTx, Table.mem_delete, hsame.blocks]
    simp
  · intro t row
    have hrow := htyped t row
    simp only [EventRepo.atOrAbove, Bool.and_eq_true, beq_iff_eq, decide_eq_true_eq] at hrow
    exact hrow
  · simp only [CursorRepo.rewindInTx, BlockRepo.deleteFromHeightTx,
      RawRecordRepo.deleteFromHeightTx, hsame.cursors]
  · exact hsame.workQueue

theorem exists_rollbackTo_ok (store : Store layout) (chain : ChainId) (lo : Nat)
    {tables : List String} (htables : ∀ t ∈ tables, isValidIdent t = true) :
    ∃ store', rollbackTo store chain lo tables = .ok store' := by
  obtain ⟨cleared, hcleared, -⟩ := Rows.exists_foldlM_ok
    (fun store table => EventRepo.deleteFromHeightTx store table chain lo) (fun _ => True) tables
    (s := store) (by
      intro t ht s _
      rw [EventRepo.deleteFromHeightTx, safeIdent, if_pos (htables t ht)]
      exact ⟨_, rfl, trivial⟩) trivial
  have htx : ∃ store', rollbackTx store chain lo tables = .ok store' := by
    unfold rollbackTx
    exact ⟨_, Rows.bind_eq_ok.mpr ⟨cleared, hcleared, rfl⟩⟩
  obtain ⟨store', hstore'⟩ := htx
  exact ⟨store', by rw [rollbackTo, hstore']; rfl⟩

/-- A rollback that did not fail was given identifiers. -/
theorem isValidIdent_of_rollbackTo_ok {store store' : Store layout} {chain : ChainId} {lo : Nat}
    {tables : List String} (h : rollbackTo store chain lo tables = .ok store') :
    ∀ t ∈ tables, isValidIdent t = true := by
  have htx : rollbackTx store chain lo tables = .ok store' := Rows.mapError_eq_ok.mp h
  rw [rollbackTx, Rows.bind_eq_ok] at htx
  obtain ⟨cleared, hcleared, -⟩ := htx
  clear h
  induction tables generalizing store with
  | nil => exact fun t ht => absurd ht List.not_mem_nil
  | cons table tables ih =>
      rw [List.foldlM_cons, Rows.bind_eq_ok] at hcleared
      obtain ⟨next, hnext, hrest⟩ := hcleared
      rw [EventRepo.deleteFromHeightTx, Rows.bind_eq_ok] at hnext
      obtain ⟨name, hname, -⟩ := hnext
      rw [List.forall_mem_cons]
      refine ⟨?_, ih hrest⟩
      by_contra hbad
      rw [safeIdent, if_neg hbad] at hname
      cases hname

end UnitOfWork

end Topic0
