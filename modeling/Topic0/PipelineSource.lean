import Topic0.BaseParts
import Topic0.PipelinePlan
import Topic0.StoreUnitOfWork

/-! The chain a source reads and the ingestion service. A chain gives, for each height, the logs
the filter matches, the block and the transactions those logs came from; a range is served when a
fetch returned exactly these, in any order. `Holds` says that the raw, block and aux tables are the
chain's over a set of heights, and committing a served range adds the range to that set. -/

namespace Topic0

open Keyed

/-- A matched transaction's enrichment values. -/
structure TxFields where
  sender : List UInt8
  txIndex : Nat
  value : String
  input : List UInt8
  gas : String
  nonce : String
  toAddr : Option (List UInt8)
  gasPrice : Option String
  deriving DecidableEq, Repr

/-- A matched transaction's receipt values. -/
structure ReceiptFields where
  status : Bool
  gasUsed : String
  effectiveGasPrice : String
  contractAddress : Option (List UInt8)
  deriving DecidableEq, Repr

/-- Aux rows carry no block time. -/
def auxRow (chainId : ChainId) (table : String) (height : Nat) (blockHash txId : Hash) (idx : Nat)
    (fields : List (String × EventValue)) : EventRow :=
  ⟨chainId, height, blockHash, none, txId, idx, ⟨table, fields⟩⟩

def transactionRow (chainId : ChainId) (height : Nat) (blockHash txId : Hash) (f : TxFields) :
    EventRow :=
  auxRow chainId transactionsTable height blockHash txId f.txIndex
    ([("from_addr", .address f.sender), ("value", .uint f.value), ("input", .bytes f.input),
      ("gas", .uint f.gas), ("nonce", .uint f.nonce)] ++
      (f.toAddr.map fun address => ("to_addr", .address address)).toList ++
      (f.gasPrice.map fun price => ("gas_price", .uint price)).toList)

/-- Receipts have no index column; the value is unused on write. -/
def receiptRow (chainId : ChainId) (height : Nat) (blockHash txId : Hash) (f : ReceiptFields) :
    EventRow :=
  auxRow chainId receiptsTable height blockHash txId 0
    ([("status", .bool f.status), ("gas_used", .uint f.gasUsed),
      ("effective_gas_price", .uint f.effectiveGasPrice)] ++
      (f.contractAddress.map fun address => ("contract_address", .address address)).toList)

/-- A transaction with a matched log; the provider may have no receipt for it. -/
structure MatchedTx where
  txId : Hash
  fields : TxFields
  receipt : Option ReceiptFields
  deriving DecidableEq, Repr

/-- What a source sees of one chain under one filter. -/
structure Chain where
  id : ChainId
  logs : Nat → List RawRecord
  block : Nat → BlockMeta
  txs : Nat → List MatchedTx
  logs_at : ∀ h, ∀ r ∈ logs h, r.chainId = id ∧ r.height = h ∧ r.blockHash = (block h).hash
  logs_nodup : ∀ h, ((logs h).map RawRecord.index).Nodup
  block_at : ∀ h, (block h).chainId = id ∧ (block h).height = h
  txs_of_log : ∀ h, ∀ r ∈ logs h, ∃ tx ∈ txs h, tx.txId = r.txId
  log_of_tx : ∀ h, ∀ tx ∈ txs h, ∃ r ∈ logs h, r.txId = tx.txId
  txs_unique : ∀ h h' tx tx', tx ∈ txs h → tx' ∈ txs h' → tx.txId = tx'.txId → h = h' ∧ tx = tx'

namespace Chain

/-- The block holds a log the filter matches. -/
def Matched (c : Chain) (h : Nat) : Prop := c.logs h ≠ []

instance (c : Chain) (h : Nat) : Decidable (c.Matched h) :=
  inferInstanceAs (Decidable (c.logs h ≠ []))

/-- Metadata is fetched for matched blocks only. -/
def blocksAt (c : Chain) (h : Nat) : List BlockMeta := if c.Matched h then [c.block h] else []

def transactionsAt (c : Chain) (h : Nat) : List EventRow :=
  (c.txs h).map fun tx => transactionRow c.id h (c.block h).hash tx.txId tx.fields

def receiptsAt (c : Chain) (h : Nat) : List EventRow :=
  (c.txs h).filterMap fun tx =>
    tx.receipt.map fun f => receiptRow c.id h (c.block h).hash tx.txId f

end Chain

/-- The heights of an inclusive range. -/
def heights (lo hi : Nat) : List Nat := List.range' lo (hi + 1 - lo)

@[simp] theorem mem_heights {lo hi b : Nat} : b ∈ heights lo hi ↔ lo ≤ b ∧ b ≤ hi := by
  rw [heights, List.mem_range'_1]
  omega

/-- Rows of the heights of a range, when each row sits in the part of its own height. -/
theorem mem_flatMap_heights {ρ : Type} {height : ρ → Nat} {part : Nat → List ρ}
    (hpart : ∀ h, ∀ x ∈ part h, height x = h) {lo hi : Nat} {x : ρ} :
    x ∈ (heights lo hi).flatMap part ↔
      (lo ≤ height x ∧ height x ≤ hi) ∧ x ∈ part (height x) := by
  rw [List.mem_flatMap]
  constructor
  · rintro ⟨h, hh, hx⟩
    rw [hpart h x hx]
    exact ⟨mem_heights.mp hh, hx⟩
  · rintro ⟨hrange, hx⟩
    exact ⟨height x, mem_heights.mpr hrange, hx⟩

namespace IngestionService

/-- `max_by_key`: the last of the highest blocks. -/
def maxByHeight (blocks : List BlockMeta) : Option BlockMeta :=
  blocks.foldl
    (fun best b => if best.all fun m => m.height ≤ b.height then some b else best) none

/-- `fetch_range`, given what the source returned for the range. -/
def fetchRange (lo hi : Nat) (records : List RawRecord) (fetchAux : List RawRecord → AuxData) :
    FetchedRange :=
  let aux := if records.isEmpty then AuxData.none else fetchAux records
  { fromHeight := lo
    toHeight := hi
    records := records
    aux := aux
    lastBlock := (maxByHeight aux.blockMetas).map fun b => (b.height, b.hash) }

structure IngestOutcome where
  records : Nat
  blocks : Nat
  enrichment : Nat
  lastBlock : Option (Nat × Hash)
  deriving DecidableEq, Repr

/-- The write batch of a fetched range: a decode item exactly when there are records. -/
def ingestBatch (chain : ChainId) (fetched : FetchedRange) (epoch : Epoch) (advanceCursor : Bool) :
    IngestBatch where
  rawRecords := fetched.records
  blockMetas := fetched.aux.blockMetas
  enrichment := fetched.aux.enrichment
  enqueue :=
    if fetched.records.isEmpty then none
    else some ⟨chain, fetched.fromHeight, fetched.toHeight, .backfill, epoch⟩
  advanceCursor :=
    if advanceCursor then
      some (chain, fetched.toHeight, (fetched.lastBlock.map Prod.snd).getD ⟨[]⟩)
    else none

variable {layout : String → PkColumns}

def commit (store : Store layout) (chain : ChainId) (fetched : FetchedRange) (epoch : Epoch)
    (advanceCursor : Bool) : Except DomainError (Store layout × IngestOutcome) := do
  let store ← UnitOfWork.commitIngest store (ingestBatch chain fetched epoch advanceCursor)
  .ok (store, ⟨fetched.records.length, fetched.aux.blockMetas.length,
    fetched.aux.enrichment.length, fetched.lastBlock⟩)

/-- The pipeline's half: the cursor is left alone. -/
def commitRange (store : Store layout) (chain : ChainId) (fetched : FetchedRange) (epoch : Epoch) :
    Except DomainError (Store layout × IngestOutcome) :=
  commit store chain fetched epoch false

/-- Fetch and write one range in one shot; `source` answers the fetch. -/
def ingestRange (source : Nat → Nat → FetchedRange) (store : Store layout) (chain : ChainId)
    (lo hi : Nat) (epoch : Epoch) (advanceCursor : Bool) :
    Except DomainError (Store layout × IngestOutcome) :=
  commit store chain (source lo hi) epoch advanceCursor

/-- One sequential, uninterrupted ingest of `[start..target]`, the cursor moving with each range. -/
def ingestAll (source : Nat → Nat → FetchedRange) (store : Store layout) (chain : ChainId)
    (start target step : Nat) : Except DomainError (Store layout) :=
  (Pipeline.planRanges start target step).foldlM (fun store range => do
    let (store, _) ← ingestRange source store chain range.1 range.2 ⟨0⟩ true
    .ok store) store

end IngestionService

section Serving

/-- The fetch of `[lo..hi]` returned exactly the chain's matching logs and their aux. -/
structure Serves (c : Chain) (lo hi : Nat) (fetched : FetchedRange) : Prop where
  shape : fetched = IngestionService.fetchRange lo hi fetched.records fun _ => fetched.aux
  records : fetched.records.Perm ((heights lo hi).flatMap c.logs)
  blockMetas : fetched.aux.blockMetas.Perm ((heights lo hi).flatMap c.blocksAt)
  enrichment : fetched.aux.enrichment.Perm
    ((heights lo hi).flatMap fun h => c.transactionsAt h ++ c.receiptsAt h)

namespace Chain

theorem eq_of_log_key (c : Chain) {x y : RawRecord} (hx : x ∈ c.logs x.height)
    (hy : y ∈ c.logs y.height) (hkey : x.key = y.key) : x = y := by
  obtain ⟨-, hh, hi⟩ : x.chainId = y.chainId ∧ x.height = y.height ∧ x.index = y.index := by
    simpa [RawRecord.key] using hkey
  exact List.inj_on_of_nodup_map (c.logs_nodup x.height) hx (hh ▸ hy) hi

theorem mem_blocksAt {c : Chain} {h : Nat} {b : BlockMeta} :
    b ∈ c.blocksAt h ↔ c.Matched h ∧ b = c.block h := by
  rw [blocksAt]
  split
  · simp [*]
  · simp [*]

theorem mem_transactionsAt {c : Chain} {h : Nat} {row : EventRow} :
    row ∈ c.transactionsAt h ↔
      ∃ tx ∈ c.txs h, row = transactionRow c.id h (c.block h).hash tx.txId tx.fields := by
  simp [transactionsAt, eq_comm]

theorem mem_receiptsAt {c : Chain} {h : Nat} {row : EventRow} :
    row ∈ c.receiptsAt h ↔ ∃ tx ∈ c.txs h, ∃ f, tx.receipt = some f ∧
      row = receiptRow c.id h (c.block h).hash tx.txId f := by
  simp [receiptsAt, eq_comm]

/-- A transaction row's key names its transaction on the whole chain. -/
theorem eq_of_transaction_key (c : Chain) {x y : EventRow} (hx : x ∈ c.transactionsAt x.height)
    (hy : y ∈ c.transactionsAt y.height) (hkey : x.txId = y.txId) : x = y := by
  obtain ⟨tx, htx, hxeq⟩ := mem_transactionsAt.mp hx
  obtain ⟨tx', htx', hyeq⟩ := mem_transactionsAt.mp hy
  have hid : tx.txId = tx'.txId := by
    rw [hxeq, hyeq] at hkey
    exact hkey
  obtain ⟨hh, rfl⟩ := c.txs_unique _ _ tx tx' htx htx' hid
  rw [hxeq, hyeq, ← hh]

theorem eq_of_receipt_key (c : Chain) {x y : EventRow} (hx : x ∈ c.receiptsAt x.height)
    (hy : y ∈ c.receiptsAt y.height) (hkey : x.txId = y.txId) : x = y := by
  obtain ⟨tx, htx, f, hf, hxeq⟩ := mem_receiptsAt.mp hx
  obtain ⟨tx', htx', f', hf', hyeq⟩ := mem_receiptsAt.mp hy
  have hid : tx.txId = tx'.txId := by
    rw [hxeq, hyeq] at hkey
    exact hkey
  obtain ⟨hh, rfl⟩ := c.txs_unique _ _ tx tx' htx htx' hid
  rw [hf, Option.some.injEq] at hf'
  rw [hxeq, hyeq, ← hh, hf']

end Chain

/-- The answer in height order. -/
def Chain.serve (c : Chain) (lo hi : Nat) : FetchedRange :=
  IngestionService.fetchRange lo hi ((heights lo hi).flatMap c.logs) fun _ =>
    ⟨(heights lo hi).flatMap c.blocksAt,
      (heights lo hi).flatMap fun h => c.transactionsAt h ++ c.receiptsAt h⟩

/-- Where nothing matches there is no aux to fetch. -/
theorem Chain.aux_eq_nil (c : Chain) {h : Nat} (hlogs : c.logs h = []) :
    c.blocksAt h = [] ∧ c.transactionsAt h ++ c.receiptsAt h = [] := by
  have htxs : c.txs h = [] := by
    refine List.eq_nil_iff_forall_not_mem.mpr fun tx htx => ?_
    obtain ⟨r, hr, -⟩ := c.log_of_tx h tx htx
    rw [hlogs] at hr
    exact List.not_mem_nil hr
  refine ⟨if_neg (not_not.mpr hlogs), ?_⟩
  rw [transactionsAt, receiptsAt, htxs]
  rfl

theorem Chain.serves_serve (c : Chain) (lo hi : Nat) : Serves c lo hi (c.serve lo hi) := by
  by_cases hempty : (heights lo hi).flatMap c.logs = []
  · have hnil : ∀ h ∈ heights lo hi, c.logs h = [] := List.flatMap_eq_nil_iff.mp hempty
    have haux : (c.serve lo hi).aux = AuxData.none := by
      simp [serve, IngestionService.fetchRange, hempty]
    refine ⟨?_, List.Perm.refl _, List.Perm.of_eq ?_, List.Perm.of_eq ?_⟩
    · simp [serve, IngestionService.fetchRange, hempty]
    · rw [haux]
      exact (List.flatMap_eq_nil_iff.mpr fun h hh => (c.aux_eq_nil (hnil h hh)).1).symm
    · rw [haux]
      exact (List.flatMap_eq_nil_iff.mpr fun h hh => (c.aux_eq_nil (hnil h hh)).2).symm
  · have haux : (c.serve lo hi).aux = ⟨(heights lo hi).flatMap c.blocksAt,
        (heights lo hi).flatMap fun h => c.transactionsAt h ++ c.receiptsAt h⟩ :=
      if_neg (by rwa [List.isEmpty_iff])
    refine ⟨?_, List.Perm.refl _, by rw [haux], by rw [haux]⟩
    conv_rhs => rw [haux]
    rfl

/-- Hashes that differ from height to height; `fork` tells apart the blocks of two chains. -/
def plainHash (fork : Nat → UInt8) (h : Nat) : Hash := ⟨fork h :: List.replicate h 0⟩

theorem plainHash_inj {fork : Nat → UInt8} {h h' : Nat} (heq : plainHash fork h = plainHash fork h') :
    h = h' := by
  have hlen := congrArg (fun x : Hash => x.bytes.length) heq
  simpa [plainHash] using hlen

/-- A chain with one log in each matched block. -/
def plainChain (id : ChainId) (matched : Nat → Bool) (fork : Nat → UInt8) : Chain :=
  let hash := plainHash fork
  { id := id
    logs := fun h =>
      if matched h then [⟨id, h, hash h, 0, ⟨[]⟩, [], [], hash h, 0, none⟩] else []
    block := fun h => ⟨id, h, hash h, hash (h - 1), h⟩
    txs := fun h =>
      if matched h then [⟨hash h, ⟨[], 0, "0", [], "0", "0", none, none⟩, none⟩] else []
    logs_at := by
      intro h r hr
      split at hr
      · rw [List.mem_singleton.mp hr]
        exact ⟨rfl, rfl, rfl⟩
      · exact absurd hr List.not_mem_nil
    logs_nodup := by
      intro h
      split <;> simp
    block_at := fun h => ⟨rfl, rfl⟩
    txs_of_log := by
      intro h r hr
      split at hr
      · rename_i hmatched
        rw [List.mem_singleton.mp hr, if_pos hmatched]
        exact ⟨_, List.mem_singleton_self _, rfl⟩
      · exact absurd hr List.not_mem_nil
    log_of_tx := by
      intro h tx htx
      split at htx
      · rename_i hmatched
        rw [List.mem_singleton.mp htx, if_pos hmatched]
        exact ⟨_, List.mem_singleton_self _, rfl⟩
      · exact absurd htx List.not_mem_nil
    txs_unique := by
      intro h h' tx tx' htx htx' heq
      split at htx
      · split at htx'
        · rw [List.mem_singleton.mp htx, List.mem_singleton.mp htx'] at heq ⊢
          cases plainHash_inj heq
          exact ⟨rfl, rfl⟩
        · exact absurd htx' List.not_mem_nil
      · exact absurd htx List.not_mem_nil }

end Serving

namespace Chain

theorem fits_logs (c : Chain) :
    Fits RawRecord.key (fun r => r.chainId = c.id) RawRecord.height c.logs where
  pos_eq h r hr := (c.logs_at h r hr).2.1
  own_of_mem h r hr := (c.logs_at h r hr).1
  own_of_key x y hy hkey := by
    rw [RawRecord.key, RawRecord.key, Prod.mk.injEq] at hkey
    exact hkey.1.trans hy
  inj _ _ := c.eq_of_log_key

theorem fits_blocks (c : Chain) :
    Fits BlockMeta.key (fun b => b.chainId = c.id) BlockMeta.height c.blocksAt where
  pos_eq h b hb := by
    rw [(mem_blocksAt.mp hb).2]
    exact (c.block_at h).2
  own_of_mem h b hb := by
    rw [(mem_blocksAt.mp hb).2]
    exact (c.block_at h).1
  own_of_key x y hy hkey := by
    rw [BlockMeta.key, BlockMeta.key, Prod.mk.injEq] at hkey
    exact hkey.1.trans hy
  inj x y hx hy hkey := by
    rw [BlockMeta.key, BlockMeta.key, Prod.mk.injEq] at hkey
    rw [(mem_blocksAt.mp hx).2, (mem_blocksAt.mp hy).2, hkey.2]

theorem fits_aux (c : Chain) {part : Nat → List EventRow}
    (hpart : ∀ h, ∀ row ∈ part h, row.height = h ∧ row.chainId = c.id)
    (hinj : ∀ x y, x ∈ part x.height → y ∈ part y.height → x.txId = y.txId → x = y) :
    Fits (EventRow.primaryKey .aux) (fun row => row.chainId = c.id) EventRow.height part where
  pos_eq h row hrow := (hpart h row hrow).1
  own_of_mem h row hrow := (hpart h row hrow).2
  own_of_key x y hy hkey := by
    simp only [EventRow.primaryKey, PrimaryKey.aux.injEq] at hkey
    exact hkey.1.trans hy
  inj x y hx hy hkey := by
    simp only [EventRow.primaryKey, PrimaryKey.aux.injEq] at hkey
    exact hinj x y hx hy hkey.2

theorem transactionsAt_at (c : Chain) (h : Nat) (row : EventRow) (hrow : row ∈ c.transactionsAt h) :
    row.height = h ∧ row.chainId = c.id := by
  obtain ⟨tx, -, rfl⟩ := mem_transactionsAt.mp hrow
  exact ⟨rfl, rfl⟩

theorem receiptsAt_at (c : Chain) (h : Nat) (row : EventRow) (hrow : row ∈ c.receiptsAt h) :
    row.height = h ∧ row.chainId = c.id := by
  obtain ⟨tx, -, f, -, rfl⟩ := mem_receiptsAt.mp hrow
  exact ⟨rfl, rfl⟩

end Chain

variable {layout : String → PkColumns}

/-- Over the covered heights, and only there, the store's raw records, blocks, transactions and
receipts of the chain are the chain's. -/
structure Holds (c : Chain) (store : Store layout) (covered : Nat → Prop) : Prop where
  rawRecords : HoldsPart store.rawRecords (fun r => r.chainId = c.id) RawRecord.height c.logs covered
  blocks : HoldsPart store.blocks (fun b => b.chainId = c.id) BlockMeta.height c.blocksAt covered
  transactions : HoldsPart (store.typed transactionsTable) (fun row => row.chainId = c.id)
    EventRow.height c.transactionsAt covered
  receipts : HoldsPart (store.typed receiptsTable) (fun row => row.chainId = c.id)
    EventRow.height c.receiptsAt covered

theorem holds_empty (c : Chain) : Holds c (Store.empty : Store layout) fun _ => False := by
  constructor <;> intro x _ <;> simp [Store.empty]

/-- The two aux tables are created with the key `(chain_id, tx_id)`. -/
structure AuxLayout (layout : String → PkColumns) : Prop where
  transactions : layout transactionsTable = .aux
  receipts : layout receiptsTable = .aux

/-- Typed tables other than the two aux ones are event tables. -/
def eventLayout (table : String) : PkColumns :=
  if table = transactionsTable ∨ table = receiptsTable then .aux else .event

theorem auxLayout_eventLayout : AuxLayout eventLayout := ⟨rfl, rfl⟩

theorem Holds.congr {c : Chain} {store : Store layout} {covered covered' : Nat → Prop}
    (h : Holds c store covered) (hiff : ∀ b, covered b ↔ covered' b) : Holds c store covered' :=
  ⟨h.rawRecords.congr hiff, h.blocks.congr hiff, h.transactions.congr hiff, h.receipts.congr hiff⟩

theorem holds_advanceInTx {c : Chain} {store : Store layout} {covered : Nat → Prop}
    (h : Holds c store covered) (chain : ChainId) (last : Nat) (hash : Hash) :
    Holds c (CursorRepo.advanceInTx store chain last hash) covered :=
  ⟨h.rawRecords, h.blocks, h.transactions, h.receipts⟩

theorem mem_enrichment {c : Chain} {lo hi : Nat} {fetched : FetchedRange}
    (hserves : Serves c lo hi fetched) {row : EventRow} :
    row ∈ fetched.aux.enrichment ↔
      ∃ h, (lo ≤ h ∧ h ≤ hi) ∧ (row ∈ c.transactionsAt h ∨ row ∈ c.receiptsAt h) := by
  rw [hserves.enrichment.mem_iff, List.mem_flatMap]
  simp only [mem_heights, List.mem_append]

theorem table_of_mem_transactionsAt {c : Chain} {h : Nat} {row : EventRow}
    (hrow : row ∈ c.transactionsAt h) : row.event.table = transactionsTable := by
  obtain ⟨tx, -, rfl⟩ := Chain.mem_transactionsAt.mp hrow
  rfl

theorem table_of_mem_receiptsAt {c : Chain} {h : Nat} {row : EventRow}
    (hrow : row ∈ c.receiptsAt h) : row.event.table = receiptsTable := by
  obtain ⟨tx, -, f, -, rfl⟩ := Chain.mem_receiptsAt.mp hrow
  rfl

theorem transactionsTable_ne_receiptsTable : transactionsTable ≠ receiptsTable := by decide

/-- The rows of one of the two tables. -/
theorem mem_filter_part {part : Nat → List EventRow} (other : Nat → List EventRow) {table : String}
    (hpart : ∀ h, ∀ row ∈ part h, row.event.table = table)
    (hother : ∀ h, ∀ row ∈ other h, row.event.table ≠ table) {lo hi : Nat}
    {enrichment : List EventRow} (hmem : ∀ row, row ∈ enrichment ↔
      ∃ h, (lo ≤ h ∧ h ≤ hi) ∧ (row ∈ part h ∨ row ∈ other h)) {row : EventRow} :
    row ∈ enrichment.filter (fun row => row.event.table = table) ↔
      row ∈ (heights lo hi).flatMap part := by
  rw [List.mem_filter, hmem, List.mem_flatMap]
  simp only [mem_heights, decide_eq_true_eq]
  constructor
  · rintro ⟨⟨h, hrange, hrow | hrow⟩, htable⟩
    · exact ⟨h, hrange, hrow⟩
    · exact absurd htable (hother h row hrow)
  · rintro ⟨h, hrange, hrow⟩
    exact ⟨⟨h, hrange, .inl hrow⟩, hpart h row hrow⟩

theorem mem_filter_transactions {c : Chain} {lo hi : Nat} {fetched : FetchedRange}
    (hserves : Serves c lo hi fetched) {row : EventRow} :
    row ∈ fetched.aux.enrichment.filter (fun row => row.event.table = transactionsTable) ↔
      row ∈ (heights lo hi).flatMap c.transactionsAt :=
  mem_filter_part c.receiptsAt (fun _ _ hrow => table_of_mem_transactionsAt hrow)
    (fun _ _ hrow => table_of_mem_receiptsAt hrow ▸ transactionsTable_ne_receiptsTable.symm)
    fun _ => mem_enrichment hserves

theorem mem_filter_receipts {c : Chain} {lo hi : Nat} {fetched : FetchedRange}
    (hserves : Serves c lo hi fetched) {row : EventRow} :
    row ∈ fetched.aux.enrichment.filter (fun row => row.event.table = receiptsTable) ↔
      row ∈ (heights lo hi).flatMap c.receiptsAt :=
  mem_filter_part c.transactionsAt (fun _ _ hrow => table_of_mem_receiptsAt hrow)
    (fun _ _ hrow => table_of_mem_transactionsAt hrow ▸ transactionsTable_ne_receiptsTable)
    fun _ => (mem_enrichment hserves).trans (by simp only [or_comm])

namespace IngestionService

theorem commit_ok {store store' : Store layout} {chain : ChainId} {fetched : FetchedRange}
    {epoch : Epoch} {advance : Bool} {outcome : IngestOutcome}
    (h : commit store chain fetched epoch advance = .ok (store', outcome)) :
    UnitOfWork.Committed store store' (ingestBatch chain fetched epoch advance) := by
  rw [commit, Rows.bind_eq_ok] at h
  obtain ⟨committed, hcommitted, heq⟩ := h
  cases heq
  exact UnitOfWork.commitIngest_ok hcommitted

/-- Committing a served range adds it to what the store holds. -/
theorem holds_commit (hlayout : AuxLayout layout) {c : Chain} {lo hi : Nat} {fetched : FetchedRange}
    (hserves : Serves c lo hi fetched) {store store' : Store layout} {covered : Nat → Prop}
    (hholds : Holds c store covered) {epoch : Epoch} {advance : Bool} {outcome : IngestOutcome}
    (h : commit store c.id fetched epoch advance = .ok (store', outcome)) :
    Holds c store' fun b => covered b ∨ (lo ≤ b ∧ b ≤ hi) := by
  have hcommitted := commit_ok h
  constructor
  · rw [hcommitted.rawRecords]
    exact hholds.rawRecords.insertAll c.fits_logs fun r =>
      hserves.records.mem_iff.trans (mem_flatMap_heights c.fits_logs.pos_eq)
  · rw [hcommitted.blocks]
    exact hholds.blocks.upsertAll c.fits_blocks fun b =>
      hserves.blockMetas.mem_iff.trans (mem_flatMap_heights c.fits_blocks.pos_eq)
  · obtain ⟨order, hperm, heq⟩ := hcommitted.typed transactionsTable
    rw [heq]
    refine hholds.transactions.insertAll ?_ fun row =>
      (hperm.mem_iff.trans (mem_filter_transactions hserves)).trans
        (mem_flatMap_heights fun h row hrow => (c.transactionsAt_at h row hrow).1)
    rw [hlayout.transactions]
    exact c.fits_aux c.transactionsAt_at fun x y hx hy => c.eq_of_transaction_key hx hy
  · obtain ⟨order, hperm, heq⟩ := hcommitted.typed receiptsTable
    rw [heq]
    refine hholds.receipts.insertAll ?_ fun row =>
      (hperm.mem_iff.trans (mem_filter_receipts hserves)).trans
        (mem_flatMap_heights fun h row hrow => (c.receiptsAt_at h row hrow).1)
    rw [hlayout.receipts]
    exact c.fits_aux c.receiptsAt_at fun x y hx hy => c.eq_of_receipt_key hx hy

theorem nodup_blocksAt (c : Chain) {hs : List Nat} (hnodup : hs.Nodup) :
    ((hs.flatMap c.blocksAt).map BlockMeta.key).Nodup := by
  have heq : (hs.flatMap c.blocksAt).map BlockMeta.key =
      (hs.filter fun h => c.Matched h).map fun h => (c.id, h) := by
    clear hnodup
    induction hs with
    | nil => rfl
    | cons h hs ih =>
        rw [List.flatMap_cons, List.map_append, ih, List.filter_cons, Chain.blocksAt]
        by_cases hmatched : c.Matched h
        · simp [hmatched, BlockMeta.key, c.block_at h]
        · simp [hmatched]
  rw [heq]
  refine (hnodup.filter _).map ?_
  intro a b hab
  exact (Prod.mk.inj hab).2

theorem isValidIdent_transactionRow (chainId : ChainId) (height : Nat) (blockHash txId : Hash)
    (f : TxFields) :
    isValidIdent (transactionRow chainId height blockHash txId f).event.table = true ∧
      ∀ name ∈ EventRepo.signature (transactionRow chainId height blockHash txId f),
        isValidIdent name = true := by
  have htable : isValidIdent transactionsTable = true := by decide
  refine ⟨htable, ?_⟩
  obtain ⟨sender, txIndex, value, input, gas, nonce, toAddr, gasPrice⟩ := f
  simp only [EventRepo.signature, transactionRow, auxRow]
  cases toAddr <;> cases gasPrice <;> simp <;> decide

theorem isValidIdent_receiptRow (chainId : ChainId) (height : Nat) (blockHash txId : Hash)
    (f : ReceiptFields) :
    isValidIdent (receiptRow chainId height blockHash txId f).event.table = true ∧
      ∀ name ∈ EventRepo.signature (receiptRow chainId height blockHash txId f),
        isValidIdent name = true := by
  have htable : isValidIdent receiptsTable = true := by decide
  refine ⟨htable, ?_⟩
  obtain ⟨status, gasUsed, effectiveGasPrice, contractAddress⟩ := f
  simp only [EventRepo.signature, receiptRow, auxRow]
  cases contractAddress <;> simp <;> decide

theorem isValidIdent_enrichment {c : Chain} {h : Nat} {row : EventRow}
    (hrow : row ∈ c.transactionsAt h ∨ row ∈ c.receiptsAt h) :
    isValidIdent row.event.table = true ∧
      ∀ name ∈ EventRepo.signature row, isValidIdent name = true := by
  rcases hrow with hrow | hrow
  · obtain ⟨tx, -, rfl⟩ := Chain.mem_transactionsAt.mp hrow
    exact isValidIdent_transactionRow _ _ _ _ _
  · obtain ⟨tx, -, f, -, rfl⟩ := Chain.mem_receiptsAt.mp hrow
    exact isValidIdent_receiptRow _ _ _ _ _

/-- A served range can always be committed. -/
theorem exists_commit_ok (hlayout : AuxLayout layout) {c : Chain} {lo hi : Nat}
    {fetched : FetchedRange} (hserves : Serves c lo hi fetched) (store : Store layout)
    (epoch : Epoch) (advance : Bool) :
    ∃ store' outcome, commit store c.id fetched epoch advance = .ok (store', outcome) := by
  have hblocks : (fetched.aux.blockMetas.map BlockMeta.key).Nodup :=
    (hserves.blockMetas.map _).nodup_iff.mpr (nodup_blocksAt c List.nodup_range')
  have hidents : ∀ row ∈ fetched.aux.enrichment, isValidIdent row.event.table = true ∧
      ∀ name ∈ EventRepo.signature row, isValidIdent name = true := by
    intro row hrow
    obtain ⟨h, -, hrow⟩ := (mem_enrichment hserves).mp hrow
    exact isValidIdent_enrichment hrow
  have hparents : ∀ row ∈ fetched.aux.enrichment, row.event.table = receiptsTable →
      ∃ tx ∈ fetched.aux.enrichment, tx.event.table = transactionsTable ∧
        tx.chainId = row.chainId ∧ tx.txId = row.txId := by
    intro row hrow htable
    obtain ⟨h, hrange, hrow | hrow⟩ := (mem_enrichment hserves).mp hrow
    · rw [table_of_mem_transactionsAt hrow] at htable
      exact absurd htable transactionsTable_ne_receiptsTable
    · obtain ⟨tx, htx, f, -, rfl⟩ := Chain.mem_receiptsAt.mp hrow
      have hparent := Chain.mem_transactionsAt.mpr ⟨tx, htx, rfl⟩
      exact ⟨_, (mem_enrichment hserves).mpr ⟨h, hrange, .inl hparent⟩,
        table_of_mem_transactionsAt hparent, rfl, rfl⟩
  obtain ⟨store', hstore'⟩ := UnitOfWork.exists_commitIngest_ok hlayout.transactions store
    (ingestBatch c.id fetched epoch advance) hblocks hidents hparents
  exact ⟨store', _, by rw [commit, hstore']; rfl⟩

/-- Served ranges hold rows of the two aux tables only. -/
theorem typed_commit {c : Chain} {lo hi : Nat} {fetched : FetchedRange}
    (hserves : Serves c lo hi fetched) {store store' : Store layout} {epoch : Epoch}
    {advance : Bool} {outcome : IngestOutcome}
    (h : commit store c.id fetched epoch advance = .ok (store', outcome)) {table : String}
    (htx : table ≠ transactionsTable) (hreceipts : table ≠ receiptsTable) :
    store'.typed table = store.typed table := by
  obtain ⟨order, hperm, heq⟩ := (commit_ok h).typed table
  have hnil : order = [] := by
    refine List.eq_nil_iff_forall_not_mem.mpr fun row hrow => ?_
    obtain ⟨hmem, htable⟩ := List.mem_filter.mp (hperm.mem_iff.mp hrow)
    rw [decide_eq_true_eq] at htable
    obtain ⟨b, -, hrow | hrow⟩ := (mem_enrichment hserves).mp hmem
    · exact htx (htable.symm.trans (table_of_mem_transactionsAt hrow))
    · exact hreceipts (htable.symm.trans (table_of_mem_receiptsAt hrow))
  rw [heq, hnil, Table.insertAll_nil]

theorem exists_ingestRanges_ok (hlayout : AuxLayout layout) {c : Chain}
    {source : Nat → Nat → FetchedRange} (hsource : ∀ lo hi, Serves c lo hi (source lo hi))
    (ranges : List Pipeline.Range) {store : Store layout} {covered : Nat → Prop}
    (hholds : Holds c store covered) :
    ∃ store', ranges.foldlM (fun store range => do
        let (store, _) ← ingestRange source store c.id range.1 range.2 ⟨0⟩ true
        .ok store) store = .ok store' ∧
      Holds c store' (fun b => covered b ∨ Pipeline.Covered ranges b) ∧
      ∀ t, t ≠ transactionsTable → t ≠ receiptsTable → store'.typed t = store.typed t := by
  induction ranges generalizing store covered with
  | nil => exact ⟨store, rfl, hholds.congr fun b => by simp [Pipeline.Covered], fun t _ _ => rfl⟩
  | cons range ranges ih =>
      obtain ⟨lo, hi⟩ := range
      obtain ⟨next, outcome, hnext⟩ := exists_commit_ok hlayout (hsource lo hi) store ⟨0⟩ true
      obtain ⟨store', hfold, hstore', htyped⟩ := ih (holds_commit hlayout (hsource lo hi) hholds hnext)
      refine ⟨store', ?_, hstore'.congr fun b => ?_, fun t htx hreceipts => ?_⟩
      · rw [List.foldlM_cons, Rows.bind_eq_ok]
        exact ⟨next, Rows.bind_eq_ok.mpr ⟨_, hnext, rfl⟩, hfold⟩
      · rw [Pipeline.covered_cons]
        tauto
      · rw [htyped t htx hreceipts, typed_commit (hsource lo hi) hnext htx hreceipts]

/-- A clean sequential ingest returns, and adds its window to what the store holds. -/
theorem exists_ingestAll_ok (hlayout : AuxLayout layout) {c : Chain}
    {source : Nat → Nat → FetchedRange} (hsource : ∀ lo hi, Serves c lo hi (source lo hi))
    (start target : Nat) {step : Nat} (hstep : 0 < step) {store : Store layout}
    {covered : Nat → Prop} (hholds : Holds c store covered) :
    ∃ store', ingestAll source store c.id start target step = .ok store' ∧
      Holds c store' (fun b => covered b ∨ (start ≤ b ∧ b ≤ target)) ∧
      ∀ t, t ≠ transactionsTable → t ≠ receiptsTable → store'.typed t = store.typed t := by
  obtain ⟨store', hok, hstore', htyped⟩ := exists_ingestRanges_ok hlayout hsource
    (Pipeline.planRanges start target step) hholds
  refine ⟨store', hok, hstore'.congr fun b => ?_, htyped⟩
  rw [Pipeline.covered_planRanges hstep]

end IngestionService

end Topic0
