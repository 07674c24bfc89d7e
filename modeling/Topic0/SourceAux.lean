import Topic0.IngestAgreement

/-! The aux data of a range. One block is asked for each height of the records and one receipt for
each transaction, in batches that complete in any order; every answer is kept with what was asked.
A block that is not there ends the fetch. A receipt that is not there is passed over, and so is a
matched transaction that its block does not have. What is returned is complete exactly when the
provider leaves none of them out. -/

namespace Topic0

open Keyed

namespace RpcLogSource

variable {α β : Type}

/-- The batches in an order they can complete in; the items stand in the order of their set. -/
def Completes (maxBatch : Nat) (items : List α) (parts : List (List α)) : Prop :=
  ∃ sorted : List α, sorted.Perm items ∧ parts.Perm (Rows.chunks (max maxBatch 1) sorted)

theorem Completes.perm {maxBatch : Nat} {items : List α} {parts : List (List α)}
    (h : Completes maxBatch items parts) : parts.flatten.Perm items := by
  obtain ⟨sorted, hsorted, hparts⟩ := h
  have hflatten := hparts.flatten
  rw [Rows.flatten_chunks (Nat.lt_of_lt_of_le Nat.one_pos (le_max_right _ _))] at hflatten
  exact hflatten.trans hsorted

/-- Every batch can complete when it is started. -/
theorem exists_completes (maxBatch : Nat) (items : List α) :
    ∃ parts, Completes maxBatch items parts :=
  ⟨Rows.chunks (max maxBatch 1) items, items, .refl items, .refl _⟩

/-- Results as the batches complete; the first that fails ends it. -/
def batchedIn (parts : List (List α)) (answer : α → Except SourceError β) :
    Except SourceError (List (α × β)) := do
  let nested ← parts.mapM fun chunk => batched chunk answer
  .ok nested.flatten

/-- Batches change nothing but the order. -/
theorem batchedIn_eq (parts : List (List α)) (answer : α → Except SourceError β) :
    batchedIn parts answer = batched parts.flatten answer := by
  induction parts with
  | nil => rfl
  | cons chunk parts ih =>
      have hsplit : batched (chunk :: parts).flatten answer = (batched chunk answer).bind
          fun results => (batched parts.flatten answer).bind fun rest => .ok (results ++ rest) := by
        unfold batched
        rw [List.flatten_cons, List.mapM_append]
        rfl
      rw [hsplit, ← ih]
      unfold batchedIn
      rw [List.mapM_cons]
      cases batched chunk answer with
      | error e => rfl
      | ok results =>
          cases parts.mapM fun chunk => batched chunk answer with
          | error e => rfl
          | ok nested => rfl

theorem exists_batched_ok {items : List α} {answer : α → Except SourceError β}
    (h : ∀ a ∈ items, ∃ b, answer a = .ok b) : ∃ results, batched items answer = .ok results := by
  apply Rows.exists_mapM_ok
  intro a ha
  obtain ⟨b, hb⟩ := h a ha
  exact ⟨(a, b), by rw [hb]; rfl⟩

/-- What the provider answers to the aux calls of one range. A block asked for by number has that
number. -/
structure AuxAnswers where
  block : Nat → Except SourceError (Option RpcBlock)
  receipt : Hash → Except SourceError (Option RpcReceipt)
  block_number : ∀ h blk, block h = .ok (some blk) → blk.number = h

def heightsOf (records : List RawRecord) : List Nat := (records.map RawRecord.height).dedup

def txIdsOf (records : List RawRecord) : List Hash := (records.map RawRecord.txId).dedup

/-- `fetch_aux`, with its batches in the order they complete. -/
def fetchAuxIn (chainId : ChainId) (answers : AuxAnswers) (records : List RawRecord)
    (heightParts : List (List Nat)) (txParts : List (List Hash)) : Except DomainError AuxData :=
  (do
    let blocks ← batchedIn heightParts answers.block
    let receipts ← batchedIn txParts answers.receipt
    let aux ← Enrichment.blockAux chainId (txIdsOf records) blocks AuxData.none
    .ok (Enrichment.receiptAux chainId records receipts aux)).mapError SourceError.toDomain

/-- What a provider answers while a range is fetched, as far as its aux data goes. -/
def Rpc.auxAnswers (rpc : Rpc) : AuxAnswers := ⟨rpc.block, rpc.receipt, rpc.block_number⟩

/-- A fetch whose answers return in an order of their own is one whose batches do. -/
theorem fetchAux_eq (chainId : ChainId) (rpc : Rpc) (records : List RawRecord) :
    fetchAux chainId rpc records = fetchAuxIn chainId rpc.auxAnswers records
      [rpc.heightOrder (heightsOf records)] [rpc.txOrder (txIdsOf records)] := by
  rw [fetchAuxIn, batchedIn_eq, batchedIn_eq, List.flatten_singleton, List.flatten_singleton]
  rfl

/-- The provider answers every call, and knows every block. -/
def Answered (answers : AuxAnswers) (records : List RawRecord) : Prop :=
  (∀ h ∈ heightsOf records, ∃ blk, answers.block h = .ok (some blk)) ∧
    ∀ id ∈ txIdsOf records, ∃ rcpt, answers.receipt id = .ok rcpt

/-- The row of a transaction at a position of a block. -/
def txRow (chainId : ChainId) (blk : RpcBlock) (tx : RpcTransaction) (txIndex : Nat) : EventRow :=
  transactionRow chainId blk.number blk.hash tx.txHash
    ⟨tx.sender, txIndex, toString tx.value, tx.input, toString tx.gasLimit, toString tx.nonce,
      tx.toAddr, tx.gasPrice.map toString⟩

/-- The row of a transaction's receipt. -/
def rcptRow (chainId : ChainId) (records : List RawRecord) (txId : Hash) (rcpt : RpcReceipt) :
    EventRow :=
  receiptRow chainId (Enrichment.txLoc records txId).1 (Enrichment.txLoc records txId).2 txId
    ⟨rcpt.status, toString rcpt.gasUsed, toString rcpt.effectiveGasPrice, rcpt.contractAddress⟩

/-- What a fetch found: the blocks of the heights and the answers to the receipts. -/
structure Found (answers : AuxAnswers) (heights : List Nat) (txIds : List Hash)
    (blocks : List (Nat × RpcBlock)) (receipts : List (Hash × Option RpcReceipt)) : Prop where
  heights : blocks.map Prod.fst = heights
  block : ∀ p ∈ blocks, answers.block p.1 = .ok (some p.2)
  txIds : receipts.map Prod.fst = txIds
  receipt : ∀ p ∈ receipts, answers.receipt p.1 = .ok p.2

/-- The aux data of what was found. -/
def auxOf (chainId : ChainId) (records : List RawRecord) (blocks : List (Nat × RpcBlock))
    (receipts : List (Hash × Option RpcReceipt)) : AuxData where
  blockMetas := blocks.map fun p => Enrichment.blockMeta chainId p.2
  enrichment := (blocks.flatMap fun p => Enrichment.blockTransactions chainId (txIdsOf records) p.2) ++
    receipts.filterMap fun p => p.2.map (rcptRow chainId records p.1)

section Found

variable {chainId : ChainId} {answers : AuxAnswers} {records : List RawRecord}
variable {heightParts : List (List Nat)} {txParts : List (List Hash)}

/-- A fetch that returns has found all that it asked for. -/
theorem fetchAuxIn_ok {aux : AuxData}
    (h : fetchAuxIn chainId answers records heightParts txParts = .ok aux) :
    ∃ blocks receipts, Found answers heightParts.flatten txParts.flatten blocks receipts ∧
      aux = auxOf chainId records blocks receipts := by
  have hok := Rows.mapError_eq_ok.mp h
  rw [Rows.bind_eq_ok] at hok
  obtain ⟨blocks, hblocks, hok⟩ := hok
  rw [Rows.bind_eq_ok] at hok
  obtain ⟨receipts, hreceipts, hok⟩ := hok
  rw [Rows.bind_eq_ok] at hok
  obtain ⟨aux', haux, heq⟩ := hok
  rw [batchedIn_eq] at hblocks hreceipts
  obtain ⟨hheights, hblock⟩ := of_batched_ok hblocks
  obtain ⟨htxIds, hreceipt⟩ := of_batched_ok hreceipts
  obtain ⟨found, rfl⟩ := Enrichment.found_of_blockAux haux
  rw [Enrichment.blockAux_found] at haux
  cases haux
  cases heq
  refine ⟨found, receipts, ⟨?_, ?_, htxIds, hreceipt⟩, rfl⟩
  · rw [← hheights, List.map_map]
    rfl
  · intro p hp
    exact hblock (p.1, some p.2) (List.mem_map_of_mem hp)

/-- The provider decides whether a fetch returns, not the order of its batches. -/
theorem exists_fetchAuxIn_ok (chainId : ChainId) (hanswered : Answered answers records)
    (hheights : heightParts.flatten.Perm (heightsOf records))
    (htxIds : txParts.flatten.Perm (txIdsOf records)) :
    ∃ aux, fetchAuxIn chainId answers records heightParts txParts = .ok aux := by
  have hblock : ∀ h ∈ heightParts.flatten, ∃ blk, answers.block h = .ok blk := by
    intro h hh
    obtain ⟨blk, hblk⟩ := hanswered.1 h (hheights.mem_iff.mp hh)
    exact ⟨some blk, hblk⟩
  have hreceipt : ∀ id ∈ txParts.flatten, ∃ rcpt, answers.receipt id = .ok rcpt := by
    intro id hid
    exact hanswered.2 id (htxIds.mem_iff.mp hid)
  obtain ⟨blocks, hblocks⟩ := exists_batched_ok hblock
  obtain ⟨receipts, hreceipts⟩ := exists_batched_ok hreceipt
  -- Every height has its block, so the answers are those of blocks that were found.
  have hfound : blocks ∈ Set.range (List.map fun p : Nat × RpcBlock => (p.1, some p.2)) := by
    obtain ⟨hitems, hblock⟩ := of_batched_ok hblocks
    rw [Set.range_list_map]
    intro p hp
    have hmem : p.1 ∈ heightParts.flatten := hitems ▸ List.mem_map_of_mem hp
    obtain ⟨blk, hblk⟩ := hanswered.1 p.1 (hheights.mem_iff.mp hmem)
    have hanswer := hblock p hp
    rw [hblk, Except.ok.injEq] at hanswer
    exact ⟨(p.1, blk), Prod.ext rfl hanswer⟩
  obtain ⟨found, rfl⟩ := hfound
  refine ⟨auxOf chainId records found receipts, ?_⟩
  rw [fetchAuxIn, batchedIn_eq, batchedIn_eq, hblocks, hreceipts]
  show Except.mapError _ ((Enrichment.blockAux chainId (txIdsOf records)
    (found.map fun p => (p.1, some p.2)) AuxData.none) >>= _) = _
  rw [Enrichment.blockAux_found]
  rfl

/-- A fetch that returns was answered. -/
theorem answered_of_found {heights : List Nat} {txIds : List Hash} {blocks : List (Nat × RpcBlock)}
    {receipts : List (Hash × Option RpcReceipt)} (h : Found answers heights txIds blocks receipts)
    (hheights : heights.Perm (heightsOf records)) (htxIds : txIds.Perm (txIdsOf records)) :
    Answered answers records := by
  constructor
  · intro n hn
    rw [← hheights.mem_iff, ← h.heights] at hn
    obtain ⟨p, hp, rfl⟩ := List.mem_map.mp hn
    exact ⟨p.2, h.block p hp⟩
  · intro id hid
    rw [← htxIds.mem_iff, ← h.txIds] at hid
    obtain ⟨p, hp, rfl⟩ := List.mem_map.mp hid
    exact ⟨p.2, h.receipt p hp⟩

end Found

/-- The rows of an aux table. -/
def rowsOf (aux : AuxData) (table : String) : List EventRow :=
  aux.enrichment.filter fun row => row.event.table = table

/-- Block metas, transactions and receipts, one for each height and for each transaction of the
records, the receipts where the records are; and a commit of them succeeds. -/
structure Complete (chainId : ChainId) (records : List RawRecord) (aux : AuxData) : Prop where
  blockMetas : (aux.blockMetas.map BlockMeta.key).Perm ((heightsOf records).map fun h => (chainId, h))
  transactions : ((rowsOf aux transactionsTable).map EventRow.txId).Perm (txIdsOf records)
  receipts : ((rowsOf aux receiptsTable).map EventRow.txId).Perm (txIdsOf records)
  located : ∀ row ∈ rowsOf aux receiptsTable, ∀ r ∈ records, r.txId = row.txId →
    row.height = r.height ∧ row.blockHash = r.blockHash
  commits : ∀ (layout : String → PkColumns) (store : Store layout) (batch : IngestBatch),
    AuxLayout layout → batch.blockMetas = aux.blockMetas → batch.enrichment = aux.enrichment →
    ∃ store', UnitOfWork.commitIngest store batch = .ok store'

/-- Whatever the size of the batches and the order they complete in, a fetch fails, or its result is
complete and the same. -/
def CompleteOrFails (chainId : ChainId) (answers : AuxAnswers) (records : List RawRecord) : Prop :=
  ∀ maxBatch heightParts txParts aux, Completes maxBatch (heightsOf records) heightParts →
    Completes maxBatch (txIdsOf records) txParts →
    fetchAuxIn chainId answers records heightParts txParts = .ok aux →
    Complete chainId records aux ∧
    ∀ maxBatch' heightParts' txParts', Completes maxBatch' (heightsOf records) heightParts' →
      Completes maxBatch' (txIdsOf records) txParts' →
      ∃ aux', fetchAuxIn chainId answers records heightParts' txParts' = .ok aux' ∧
        aux'.blockMetas.Perm aux.blockMetas ∧ aux'.enrichment.Perm aux.enrichment

/-- The transactions of a block, as it is answered. -/
def blockTxs (answers : AuxAnswers) (h : Nat) : List Hash :=
  match answers.block h with
  | .ok (some blk) => blk.transactions.map RpcTransaction.txHash
  | _ => []

/-- The provider leaves nothing out: each transaction of the records is once in the blocks of their
heights and has a receipt, and its records are of one block. -/
structure NothingMissing (answers : AuxAnswers) (records : List RawRecord) : Prop where
  inBlocks : ∀ id ∈ txIdsOf records, ((heightsOf records).flatMap (blockTxs answers)).count id = 1
  receipts : ∀ id ∈ txIdsOf records, ∃ rcpt, answers.receipt id = .ok (some rcpt)
  onePlace : ∀ r ∈ records, ∀ r' ∈ records, r.txId = r'.txId →
    r.height = r'.height ∧ r.blockHash = r'.blockHash

section Rows

variable {chainId : ChainId} {answers : AuxAnswers} {records : List RawRecord}
variable {heights : List Nat} {txIds : List Hash}
variable {blocks : List (Nat × RpcBlock)} {receipts : List (Hash × Option RpcReceipt)}

theorem blockTransactions_eq (chainId : ChainId) (txIds : List Hash) (blk : RpcBlock) :
    Enrichment.blockTransactions chainId txIds blk =
      blk.transactions.zipIdx.filterMap fun p =>
        if p.1.txHash ∈ txIds then some (txRow chainId blk p.1 p.2) else none := rfl

theorem txId_blockTransactions (chainId : ChainId) (txIds : List Hash) (blk : RpcBlock) :
    (Enrichment.blockTransactions chainId txIds blk).map EventRow.txId =
      (blk.transactions.map RpcTransaction.txHash).filter fun id => id ∈ txIds := by
  have hfrom : ∀ (txs : List RpcTransaction) (k : Nat),
      ((txs.zipIdx k).filterMap fun p =>
        if p.1.txHash ∈ txIds then some (txRow chainId blk p.1 p.2) else none).map EventRow.txId =
      (txs.map RpcTransaction.txHash).filter fun id => id ∈ txIds := by
    intro txs
    induction txs with
    | nil => exact fun _ => rfl
    | cons tx txs ih =>
        intro k
        rw [List.zipIdx_cons, List.map_cons]
        by_cases hmem : tx.txHash ∈ txIds
        · simp only [List.filterMap_cons, hmem, if_true, List.map_cons]
          rw [ih, List.filter_cons_of_pos (by simpa using hmem)]
          rfl
        · simp only [List.filterMap_cons, hmem, if_false]
          rw [ih, List.filter_cons_of_neg (by simpa using hmem)]
  rw [blockTransactions_eq]
  exact hfrom blk.transactions 0

theorem mem_blockTransactions {blk : RpcBlock} {row : EventRow}
    (h : row ∈ Enrichment.blockTransactions chainId txIds blk) :
    ∃ tx i, row = txRow chainId blk tx i := by
  rw [blockTransactions_eq] at h
  obtain ⟨p, -, hp⟩ := List.mem_filterMap.mp h
  split at hp
  · cases hp
    exact ⟨p.1, p.2, rfl⟩
  · cases hp

theorem mem_receiptRows {row : EventRow}
    (h : row ∈ receipts.filterMap fun p => p.2.map (rcptRow chainId records p.1)) :
    ∃ id rcpt, (id, some rcpt) ∈ receipts ∧ row = rcptRow chainId records id rcpt := by
  obtain ⟨p, hp, hrow⟩ := List.mem_filterMap.mp h
  obtain ⟨rcpt, hrcpt, rfl⟩ := Option.map_eq_some_iff.mp hrow
  exact ⟨p.1, rcpt, hrcpt ▸ hp, rfl⟩

theorem mem_auxOf {row : EventRow}
    (h : row ∈ (auxOf chainId records blocks receipts).enrichment) :
    (∃ p ∈ blocks, ∃ tx i, row = txRow chainId p.2 tx i) ∨
      ∃ id rcpt, (id, some rcpt) ∈ receipts ∧ row = rcptRow chainId records id rcpt := by
  rcases List.mem_append.mp h with h | h
  · obtain ⟨p, hp, hrow⟩ := List.mem_flatMap.mp h
    exact .inl ⟨p, hp, mem_blockTransactions hrow⟩
  · exact .inr (mem_receiptRows h)

theorem rowsOf_transactions :
    rowsOf (auxOf chainId records blocks receipts) transactionsTable =
      blocks.flatMap fun p => Enrichment.blockTransactions chainId (txIdsOf records) p.2 := by
  have hkept : ∀ row ∈ blocks.flatMap fun p =>
      Enrichment.blockTransactions chainId (txIdsOf records) p.2,
      decide (row.event.table = transactionsTable) = true := by
    intro row hrow
    obtain ⟨p, -, hp⟩ := List.mem_flatMap.mp hrow
    obtain ⟨tx, i, rfl⟩ := mem_blockTransactions hp
    exact decide_eq_true rfl
  have hdropped : ∀ row ∈ receipts.filterMap fun p => p.2.map (rcptRow chainId records p.1),
      ¬decide (row.event.table = transactionsTable) = true := by
    intro row hrow
    obtain ⟨id, rcpt, -, rfl⟩ := mem_receiptRows hrow
    exact of_decide_eq_true rfl
  rw [rowsOf, auxOf, List.filter_append, List.filter_eq_self.mpr hkept,
    List.filter_eq_nil_iff.mpr hdropped, List.append_nil]

theorem rowsOf_receipts :
    rowsOf (auxOf chainId records blocks receipts) receiptsTable =
      receipts.filterMap fun p => p.2.map (rcptRow chainId records p.1) := by
  have hkept : ∀ row ∈ receipts.filterMap fun p => p.2.map (rcptRow chainId records p.1),
      decide (row.event.table = receiptsTable) = true := by
    intro row hrow
    obtain ⟨id, rcpt, -, rfl⟩ := mem_receiptRows hrow
    exact decide_eq_true rfl
  have hdropped : ∀ row ∈ blocks.flatMap fun p =>
      Enrichment.blockTransactions chainId (txIdsOf records) p.2,
      ¬decide (row.event.table = receiptsTable) = true := by
    intro row hrow
    obtain ⟨p, -, hp⟩ := List.mem_flatMap.mp hrow
    obtain ⟨tx, i, rfl⟩ := mem_blockTransactions hp
    exact of_decide_eq_true rfl
  rw [rowsOf, auxOf, List.filter_append, List.filter_eq_self.mpr hkept,
    List.filter_eq_nil_iff.mpr hdropped, List.nil_append]

/-- The transactions of the rows are the matched ones of the blocks. -/
theorem txId_transactions (h : Found answers heights txIds blocks receipts) :
    (rowsOf (auxOf chainId records blocks receipts) transactionsTable).map EventRow.txId =
      (heights.flatMap (blockTxs answers)).filter fun id => id ∈ txIdsOf records := by
  have hflat : ∀ found : List (Nat × RpcBlock), (∀ p ∈ found, answers.block p.1 = .ok (some p.2)) →
      (found.flatMap fun p => Enrichment.blockTransactions chainId (txIdsOf records) p.2).map
        EventRow.txId =
      ((found.map Prod.fst).flatMap (blockTxs answers)).filter fun id => id ∈ txIdsOf records := by
    intro found
    induction found with
    | nil => exact fun _ => rfl
    | cons p found ih =>
        intro hblock
        rw [List.forall_mem_cons] at hblock
        have htxs : blockTxs answers p.1 = p.2.transactions.map RpcTransaction.txHash := by
          rw [blockTxs, hblock.1]
        rw [List.flatMap_cons, List.map_append, txId_blockTransactions, ih hblock.2, List.map_cons,
          List.flatMap_cons, List.filter_append, htxs]
  rw [rowsOf_transactions, hflat blocks h.block, h.heights]

/-- A row for each transaction, exactly when each is once in the blocks. -/
theorem transactions_perm_iff (chainId : ChainId) (h : Found answers heights txIds blocks receipts)
    (hheights : heights.Perm (heightsOf records)) :
    ((rowsOf (auxOf chainId records blocks receipts) transactionsTable).map EventRow.txId).Perm
        (txIdsOf records) ↔
      ∀ id ∈ txIdsOf records, ((heightsOf records).flatMap (blockTxs answers)).count id = 1 := by
  have hcount : ∀ id, ((heights.flatMap (blockTxs answers)).filter
      fun id => id ∈ txIdsOf records).count id =
      if id ∈ txIdsOf records then ((heightsOf records).flatMap (blockTxs answers)).count id
      else 0 := by
    intro id
    split
    · rename_i hmem
      rw [List.count_filter (by simpa using hmem)]
      exact (hheights.flatMap_right _).count_eq id
    · rename_i hmem
      apply List.count_eq_zero.mpr
      intro hin
      exact hmem (of_decide_eq_true (List.mem_filter.mp hin).2)
  have hnodup : (txIdsOf records).Nodup := List.nodup_dedup _
  rw [txId_transactions h, List.perm_iff_count]
  constructor
  · intro hperm id hid
    have heq := hperm id
    rw [hcount, if_pos hid, List.count_eq_one_of_mem hnodup hid] at heq
    exact heq
  · intro honce id
    rw [hcount]
    split
    · rename_i hid
      rw [honce id hid, List.count_eq_one_of_mem hnodup hid]
    · rename_i hid
      rw [List.count_eq_zero.mpr hid]

theorem txId_receipts :
    (rowsOf (auxOf chainId records blocks receipts) receiptsTable).map EventRow.txId =
      (receipts.filter fun p => p.2.isSome).map Prod.fst := by
  rw [rowsOf_receipts]
  induction receipts with
  | nil => rfl
  | cons p receipts ih =>
      obtain ⟨id, rcpt⟩ := p
      cases rcpt with
      | none => exact ih
      | some rcpt => exact congrArg (List.cons id) ih

/-- A row for each receipt, exactly when the provider has them all. -/
theorem receipts_perm_iff (h : Found answers heights txIds blocks receipts)
    (htxIds : txIds.Perm (txIdsOf records)) :
    ((rowsOf (auxOf chainId records blocks receipts) receiptsTable).map EventRow.txId).Perm
        (txIdsOf records) ↔
      ∀ id ∈ txIdsOf records, ∃ rcpt, answers.receipt id = .ok (some rcpt) := by
  rw [txId_receipts]
  constructor
  · intro hperm id hid
    obtain ⟨p, hp, rfl⟩ := List.mem_map.mp (hperm.mem_iff.mpr hid)
    obtain ⟨hmem, hsome⟩ := List.mem_filter.mp hp
    obtain ⟨rcpt, hrcpt⟩ := Option.isSome_iff_exists.mp hsome
    exact ⟨rcpt, hrcpt ▸ h.receipt p hmem⟩
  · intro hall
    have hself : receipts.filter (fun p => p.2.isSome) = receipts := by
      apply List.filter_eq_self.mpr
      intro p hp
      have hid : p.1 ∈ txIdsOf records := htxIds.mem_iff.mp (h.txIds ▸ List.mem_map_of_mem hp)
      obtain ⟨rcpt, hrcpt⟩ := hall p.1 hid
      have hanswer := h.receipt p hp
      rw [hrcpt, Except.ok.injEq] at hanswer
      rw [← hanswer]
      rfl
    rw [hself, h.txIds]
    exact htxIds

theorem blockMetas_perm (h : Found answers heights txIds blocks receipts)
    (hheights : heights.Perm (heightsOf records)) :
    ((auxOf chainId records blocks receipts).blockMetas.map BlockMeta.key).Perm
      ((heightsOf records).map fun n => (chainId, n)) := by
  have hkeys : (auxOf chainId records blocks receipts).blockMetas.map BlockMeta.key =
      heights.map fun n => (chainId, n) := by
    rw [← h.heights, auxOf, List.map_map, List.map_map]
    apply List.map_congr_left
    intro p hp
    show (chainId, p.2.number) = (chainId, p.1)
    rw [answers.block_number p.1 p.2 (h.block p hp)]
  rw [hkeys]
  exact hheights.map _

/-- The first record of a transaction stands for all, where they are of one block. -/
theorem txLoc_of_onePlace (hplace : ∀ r ∈ records, ∀ r' ∈ records, r.txId = r'.txId →
      r.height = r'.height ∧ r.blockHash = r'.blockHash) {r : RawRecord} (hr : r ∈ records) :
    Enrichment.txLoc records r.txId = (r.height, r.blockHash) := by
  unfold Enrichment.txLoc
  cases hfind : records.find? fun x => x.txId = r.txId with
  | none =>
      have hne := List.find?_eq_none.mp hfind r hr
      exact absurd (decide_eq_true rfl) hne
  | some first =>
      have hfirst : first.txId = r.txId := by simpa using List.find?_some hfind
      obtain ⟨hheight, hhash⟩ := hplace first (List.mem_of_find?_eq_some hfind) r hr hfirst
      rw [Option.map_some, Option.getD_some, hheight, hhash]

theorem located_iff (h : Found answers heights txIds blocks receipts)
    (htxIds : txIds.Perm (txIdsOf records))
    (hall : ∀ id ∈ txIdsOf records, ∃ rcpt, answers.receipt id = .ok (some rcpt)) :
    (∀ row ∈ rowsOf (auxOf chainId records blocks receipts) receiptsTable, ∀ r ∈ records,
        r.txId = row.txId → row.height = r.height ∧ row.blockHash = r.blockHash) ↔
      ∀ r ∈ records, ∀ r' ∈ records, r.txId = r'.txId →
        r.height = r'.height ∧ r.blockHash = r'.blockHash := by
  rw [rowsOf_receipts]
  constructor
  · intro hlocated r hr r' hr' heq
    have hid : r.txId ∈ txIdsOf records := List.mem_dedup.mpr (List.mem_map_of_mem hr)
    rw [← htxIds.mem_iff, ← h.txIds] at hid
    obtain ⟨p, hp, hpid⟩ := List.mem_map.mp hid
    obtain ⟨rcpt, hrcpt⟩ := hall p.1 (hpid ▸ List.mem_dedup.mpr (List.mem_map_of_mem hr))
    have hsome : p.2 = some rcpt := by
      have hanswer := h.receipt p hp
      rw [hrcpt, Except.ok.injEq] at hanswer
      exact hanswer.symm
    have hrow : rcptRow chainId records p.1 rcpt ∈
        receipts.filterMap fun p => p.2.map (rcptRow chainId records p.1) :=
      List.mem_filterMap.mpr ⟨p, hp, by rw [hsome]; rfl⟩
    obtain ⟨hheight, hhash⟩ := hlocated _ hrow r hr hpid.symm
    obtain ⟨hheight', hhash'⟩ := hlocated _ hrow r' hr' (heq.symm.trans hpid.symm)
    exact ⟨hheight.symm.trans hheight', hhash.symm.trans hhash'⟩
  · intro hplace row hrow r hr heq
    obtain ⟨id, rcpt, -, rfl⟩ := mem_receiptRows hrow
    have hid : r.txId = id := heq
    subst hid
    have hloc := txLoc_of_onePlace hplace hr
    show (Enrichment.txLoc records r.txId).1 = _ ∧ (Enrichment.txLoc records r.txId).2 = _
    rw [hloc]
    exact ⟨rfl, rfl⟩

/-- Complete aux data can be committed: the transactions are there when the receipts are written. -/
theorem exists_commit_of_perm (h : Found answers heights txIds blocks receipts)
    (hheights : heights.Perm (heightsOf records)) (htxIds : txIds.Perm (txIdsOf records))
    (htransactions : ((rowsOf (auxOf chainId records blocks receipts) transactionsTable).map
      EventRow.txId).Perm (txIdsOf records))
    {layout : String → PkColumns} (hlayout : AuxLayout layout) (store : Store layout)
    {batch : IngestBatch}
    (hmetas : batch.blockMetas = (auxOf chainId records blocks receipts).blockMetas)
    (hrows : batch.enrichment = (auxOf chainId records blocks receipts).enrichment) :
    ∃ store', UnitOfWork.commitIngest store batch = .ok store' := by
  have hmem : ∀ row ∈ batch.enrichment,
      (∃ p ∈ blocks, ∃ tx i, row = txRow chainId p.2 tx i) ∨
        ∃ id rcpt, (id, some rcpt) ∈ receipts ∧ row = rcptRow chainId records id rcpt := by
    intro row hrow
    rw [hrows] at hrow
    exact mem_auxOf hrow
  apply UnitOfWork.exists_commitIngest_ok hlayout.transactions
  · rw [hmetas, (blockMetas_perm h hheights).nodup_iff]
    exact (List.nodup_dedup _).map fun a b hab => (Prod.mk.inj hab).2
  · intro row hrow
    rcases hmem row hrow with ⟨p, -, tx, i, rfl⟩ | ⟨id, rcpt, -, rfl⟩
    · exact IngestionService.isValidIdent_transactionRow _ _ _ _ _
    · exact IngestionService.isValidIdent_receiptRow _ _ _ _ _
  · intro row hrow htable
    rcases hmem row hrow with ⟨p, -, tx, i, rfl⟩ | ⟨id, rcpt, hid, rfl⟩
    · exact absurd htable transactionsTable_ne_receiptsTable
    · have hknown : id ∈ txIdsOf records := by
        rw [← htxIds.mem_iff, ← h.txIds]
        exact List.mem_map.mpr ⟨(id, some rcpt), hid, rfl⟩
      obtain ⟨tx, htx, htxId⟩ := List.mem_map.mp (htransactions.mem_iff.mpr hknown)
      obtain ⟨htx, hname⟩ := List.mem_filter.mp htx
      have hin : tx ∈ batch.enrichment := hrows ▸ htx
      refine ⟨tx, hin, of_decide_eq_true hname, ?_, htxId⟩
      rcases hmem tx hin with ⟨p, -, tx', i, rfl⟩ | ⟨id', rcpt', -, rfl⟩
      · rfl
      · rfl

end Rows

section Order

/-- Answers paired with what was asked: the order of the questions is all that can differ. -/
theorem perm_of_fst {γ : Type} {f : α → γ} {g : β → γ} (hg : Function.Injective g)
    {l l' : List (α × β)} (hl : ∀ p ∈ l, f p.1 = g p.2) (hl' : ∀ p ∈ l', f p.1 = g p.2)
    (hnodup : (l.map Prod.fst).Nodup) (hperm : (l'.map Prod.fst).Perm (l.map Prod.fst)) :
    l'.Perm l := by
  have hsub : ∀ {k k' : List (α × β)}, (∀ p ∈ k, f p.1 = g p.2) → (∀ p ∈ k', f p.1 = g p.2) →
      (k'.map Prod.fst).Perm (k.map Prod.fst) → ∀ p ∈ k', p ∈ k := by
    intro k k' hk hk' hfst p hp
    obtain ⟨q, hq, heq⟩ := List.mem_map.mp (hfst.mem_iff.mp (List.mem_map_of_mem hp))
    have hsnd : q.2 = p.2 := by
      apply hg
      rw [← hk q hq, ← hk' p hp, heq]
    rw [← Prod.ext heq hsnd]
    exact hq
  have hnodup' : l'.Nodup := (hperm.nodup_iff.mpr hnodup).of_map _
  rw [List.perm_ext_iff_of_nodup hnodup' (hnodup.of_map _)]
  intro p
  exact ⟨hsub hl hl' hperm p, hsub hl' hl hperm.symm p⟩

variable {chainId : ChainId} {answers : AuxAnswers} {records : List RawRecord}
variable {heights heights' : List Nat} {txIds txIds' : List Hash}
variable {blocks blocks' : List (Nat × RpcBlock)}
variable {receipts receipts' : List (Hash × Option RpcReceipt)}

/-- What was found does not depend on the order it was asked in. -/
theorem perm_of_found (h : Found answers heights txIds blocks receipts)
    (h' : Found answers heights' txIds' blocks' receipts')
    (hheights : heights.Perm (heightsOf records)) (hheights' : heights'.Perm (heightsOf records))
    (htxIds : txIds.Perm (txIdsOf records)) (htxIds' : txIds'.Perm (txIdsOf records)) :
    (auxOf chainId records blocks' receipts').blockMetas.Perm
        (auxOf chainId records blocks receipts).blockMetas ∧
      (auxOf chainId records blocks' receipts').enrichment.Perm
        (auxOf chainId records blocks receipts).enrichment := by
  have hsome : Function.Injective fun blk : RpcBlock =>
      (Except.ok (some blk) : Except SourceError (Option RpcBlock)) := by
    intro a b hab
    exact Option.some.inj (Except.ok.inj hab)
  have hok : Function.Injective fun rcpt : Option RpcReceipt =>
      (Except.ok rcpt : Except SourceError (Option RpcReceipt)) := by
    intro a b hab
    exact Except.ok.inj hab
  have hblocks : blocks'.Perm blocks := by
    apply perm_of_fst hsome h.block h'.block
    · rw [h.heights, hheights.nodup_iff]
      exact List.nodup_dedup _
    · rw [h.heights, h'.heights]
      exact hheights'.trans hheights.symm
  have hreceipts : receipts'.Perm receipts := by
    apply perm_of_fst hok h.receipt h'.receipt
    · rw [h.txIds, htxIds.nodup_iff]
      exact List.nodup_dedup _
    · rw [h.txIds, h'.txIds]
      exact htxIds'.trans htxIds.symm
  exact ⟨hblocks.map _, (hblocks.flatMap_right _).append (hreceipts.filterMap _)⟩

end Order

/-- A fetch is complete or fails, for every size and order of its batches, exactly when the provider
fails it or leaves nothing out. -/
theorem completeOrFails_iff_nothingMissing (chainId : ChainId) (answers : AuxAnswers)
    (records : List RawRecord) :
    CompleteOrFails chainId answers records ↔
      (Answered answers records → NothingMissing answers records) := by
  constructor
  · intro hcomplete hanswered
    obtain ⟨heightParts, hheights⟩ := exists_completes 1 (heightsOf records)
    obtain ⟨txParts, htxIds⟩ := exists_completes 1 (txIdsOf records)
    obtain ⟨aux, haux⟩ := exists_fetchAuxIn_ok chainId hanswered hheights.perm htxIds.perm
    obtain ⟨hall, -⟩ := hcomplete 1 heightParts txParts aux hheights htxIds haux
    obtain ⟨blocks, receipts, hfound, rfl⟩ := fetchAuxIn_ok haux
    have hreceipts := (receipts_perm_iff hfound htxIds.perm).mp hall.receipts
    exact ⟨(transactions_perm_iff chainId hfound hheights.perm).mp hall.transactions, hreceipts,
      (located_iff hfound htxIds.perm hreceipts).mp hall.located⟩
  · intro hmissing maxBatch heightParts txParts aux hheights htxIds haux
    obtain ⟨blocks, receipts, hfound, rfl⟩ := fetchAuxIn_ok haux
    have hanswered := answered_of_found hfound hheights.perm htxIds.perm
    obtain ⟨hinBlocks, hreceipts, hplace⟩ := hmissing hanswered
    have htransactions := (transactions_perm_iff chainId hfound hheights.perm).mpr hinBlocks
    constructor
    · refine ⟨blockMetas_perm hfound hheights.perm, htransactions,
        (receipts_perm_iff hfound htxIds.perm).mpr hreceipts,
        (located_iff hfound htxIds.perm hreceipts).mpr hplace, ?_⟩
      intro layout store batch hlayout hmetas hrows
      exact exists_commit_of_perm hfound hheights.perm htxIds.perm htransactions hlayout store hmetas
        hrows
    · intro maxBatch' heightParts' txParts' hheights' htxIds'
      obtain ⟨aux', haux'⟩ := exists_fetchAuxIn_ok chainId hanswered hheights'.perm htxIds'.perm
      obtain ⟨blocks', receipts', hfound', rfl⟩ := fetchAuxIn_ok haux'
      exact ⟨_, haux', perm_of_found hfound hfound' hheights.perm hheights'.perm htxIds.perm
        htxIds'.perm⟩

/-- A provider that knows every receipt and whose blocks have no transactions. -/
def bareBlock : AuxAnswers where
  block h := .ok (some ⟨h, ⟨[7]⟩, ⟨[6]⟩, 0, []⟩)
  receipt _ := .ok (some ⟨true, 21000, 1, none⟩)
  block_number h blk hblk := by
    cases hblk
    rfl

def lostRecord : RawRecord := ⟨1, 5, ⟨[7]⟩, 0, ⟨[]⟩, [], [], ⟨[1]⟩, 0, none⟩

/-- The transaction is omitted without an error. -/
theorem not_completeOrFails_bareBlock :
    ¬∀ (chainId : ChainId) (answers : AuxAnswers) (records : List RawRecord), records ≠ [] →
      CompleteOrFails chainId answers records := by
  intro hevery
  have hanswered : Answered bareBlock [lostRecord] :=
    ⟨fun h _ => ⟨_, rfl⟩, fun id _ => ⟨_, rfl⟩⟩
  obtain ⟨heightParts, hheights⟩ := exists_completes 1 (heightsOf [lostRecord])
  obtain ⟨txParts, htxIds⟩ := exists_completes 1 (txIdsOf [lostRecord])
  obtain ⟨aux, haux⟩ := exists_fetchAuxIn_ok 1 hanswered hheights.perm htxIds.perm
  obtain ⟨hall, -⟩ := hevery 1 bareBlock [lostRecord] (by simp) 1 heightParts txParts aux hheights
    htxIds haux
  obtain ⟨blocks, receipts, hfound, rfl⟩ := fetchAuxIn_ok haux
  have hcount := (transactions_perm_iff 1 hfound hheights.perm).mp hall.transactions ⟨[1]⟩
    (by decide)
  exact absurd hcount (by decide)

end RpcLogSource

end Topic0
