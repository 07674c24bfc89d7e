import Topic0.BaseTransition
import Topic0.ReorgCheck
import Topic0.SourceFetch

/-! Whether raw records and block metadata come from one chain. A fetch asks for logs first and for
the blocks of their heights afterwards; the canonical chain may change between any two calls, so
every answer is arbitrary. A stored record is kept on a conflict while a stored block is
overwritten, and neither is compared with the other: the two tables agree after a commit exactly
when the fetched headers have the hashes of the records that stand at their heights. -/

namespace Topic0

open Keyed

/-- A transaction of a full block. -/
structure RpcTransaction where
  txHash : Hash
  sender : List UInt8
  value : Nat
  input : List UInt8
  gasLimit : Nat
  nonce : Nat
  toAddr : Option (List UInt8)
  gasPrice : Option Nat

/-- The answer to `eth_getBlockByNumber` with full transactions. -/
structure RpcBlock where
  number : Nat
  hash : Hash
  parentHash : Hash
  timestamp : UInt64
  transactions : List RpcTransaction

structure RpcReceipt where
  status : Bool
  gasUsed : Nat
  effectiveGasPrice : Nat
  contractAddress : Option (List UInt8)

namespace Enrichment

/-- `timestamp as i64`. -/
def blockMeta (chainId : ChainId) (blk : RpcBlock) : BlockMeta :=
  ⟨chainId, blk.number, blk.hash, blk.parentHash, blk.timestamp.toBitVec.toInt⟩

/-- The block's transactions that hold a matched log, with their positions. -/
def blockTransactions (chainId : ChainId) (txIds : List Hash) (blk : RpcBlock) : List EventRow :=
  blk.transactions.zipIdx.filterMap fun (tx, txIndex) =>
    if tx.txHash ∈ txIds then
      some (transactionRow chainId blk.number blk.hash tx.txHash
        ⟨tx.sender, txIndex, toString tx.value, tx.input, toString tx.gasLimit, toString tx.nonce,
          tx.toAddr, tx.gasPrice.map toString⟩)
    else none

/-- Block metas and matched transactions; a block the provider does not know ends it. -/
def blockAux (chainId : ChainId) (txIds : List Hash) :
    List (Nat × Option RpcBlock) → AuxData → Except SourceError AuxData
  | [], aux => .ok aux
  | (h, none) :: _, _ => .error (.malformed ("block " ++ toString h ++ " not found"))
  | (_, some blk) :: blocks, aux =>
      blockAux chainId txIds blocks ⟨aux.blockMetas ++ [blockMeta chainId blk],
        aux.enrichment ++ blockTransactions chainId txIds blk⟩

/-- The first record of a transaction says where its receipt belongs. -/
def txLoc (records : List RawRecord) (txId : Hash) : Nat × Hash :=
  ((records.find? fun r => r.txId = txId).map fun r => (r.height, r.blockHash)).getD (0, ⟨[]⟩)

/-- Receipts the provider knows. -/
def receiptAux (chainId : ChainId) (records : List RawRecord)
    (receipts : List (Hash × Option RpcReceipt)) (aux : AuxData) : AuxData :=
  { aux with
    enrichment := aux.enrichment ++ receipts.filterMap fun (txId, rcpt) =>
      rcpt.map fun rcpt =>
        let loc := txLoc records txId
        receiptRow chainId loc.1 loc.2 txId
          ⟨rcpt.status, toString rcpt.gasUsed, toString rcpt.effectiveGasPrice,
            rcpt.contractAddress⟩ }

theorem blockAux_found (chainId : ChainId) (txIds : List Hash) (found : List (Nat × RpcBlock))
    (aux : AuxData) :
    blockAux chainId txIds (found.map fun p => (p.1, some p.2)) aux =
      .ok ⟨aux.blockMetas ++ found.map fun p => blockMeta chainId p.2,
        aux.enrichment ++ found.flatMap fun p => blockTransactions chainId txIds p.2⟩ := by
  induction found generalizing aux with
  | nil =>
      rw [List.map_nil, List.map_nil, List.flatMap_nil, List.append_nil, List.append_nil]
      rfl
  | cons p found ih =>
      rw [List.map_cons, blockAux, ih, List.map_cons, List.flatMap_cons, List.append_assoc,
        List.append_assoc]
      rfl

theorem found_of_blockAux {chainId : ChainId} {txIds : List Hash}
    {blocks : List (Nat × Option RpcBlock)} {aux aux' : AuxData}
    (h : blockAux chainId txIds blocks aux = .ok aux') :
    ∃ found : List (Nat × RpcBlock), found.map (fun p => (p.1, some p.2)) = blocks := by
  induction blocks generalizing aux with
  | nil => exact ⟨[], rfl⟩
  | cons answer blocks ih =>
      obtain ⟨n, blk⟩ := answer
      cases blk with
      | none => cases h
      | some blk =>
          rw [blockAux] at h
          obtain ⟨found, hfound⟩ := ih h
          exact ⟨(n, blk) :: found, by rw [List.map_cons, hfound]⟩

end Enrichment

namespace RpcLogSource

/-- What the provider answers while one range is fetched: log pages by the number of the call, then
one block for each height and one receipt for each transaction, in batches that return in any
order. A block asked for by number has that number. -/
structure Rpc where
  getLogs : Nat → Nat → Nat → Except String (List Log)
  block : Nat → Except SourceError (Option RpcBlock)
  receipt : Hash → Except SourceError (Option RpcReceipt)
  heightOrder : List Nat → List Nat
  txOrder : List Hash → List Hash
  heightOrder_perm : ∀ l, (heightOrder l).Perm l
  txOrder_perm : ∀ l, (txOrder l).Perm l
  block_number : ∀ h blk, block h = .ok (some blk) → blk.number = h

/-- Every item with its answer; one failing batch fails all. -/
def batched {α β : Type} (items : List α) (answer : α → Except SourceError β) :
    Except SourceError (List (α × β)) :=
  items.mapM fun item => do
    let result ← answer item
    .ok (item, result)

def fetchAux (chainId : ChainId) (rpc : Rpc) (records : List RawRecord) :
    Except DomainError AuxData :=
  let heights := (records.map RawRecord.height).dedup
  let txIds := (records.map RawRecord.txId).dedup
  (do
    let blocks ← batched (rpc.heightOrder heights) rpc.block
    let receipts ← batched (rpc.txOrder txIds) rpc.receipt
    let aux ← Enrichment.blockAux chainId txIds blocks AuxData.none
    .ok (Enrichment.receiptAux chainId records receipts aux)).mapError SourceError.toDomain

theorem of_batched_ok {α β : Type} {items : List α} {answer : α → Except SourceError β}
    {results : List (α × β)} (h : batched items answer = .ok results) :
    results.map Prod.fst = items ∧ ∀ p ∈ results, answer p.1 = .ok p.2 := by
  unfold batched at h
  induction items generalizing results with
  | nil =>
      cases h
      exact ⟨rfl, fun p hp => absurd hp List.not_mem_nil⟩
  | cons item items ih =>
      rw [List.mapM_cons, Rows.bind_eq_ok] at h
      obtain ⟨first, hfirst, h⟩ := h
      rw [Rows.bind_eq_ok] at hfirst h
      obtain ⟨result, hresult, heq⟩ := hfirst
      obtain ⟨rest, hrest, hcons⟩ := h
      cases heq
      cases hcons
      obtain ⟨hitems, hanswers⟩ := ih hrest
      refine ⟨by rw [List.map_cons, hitems], fun p hp => ?_⟩
      rcases List.mem_cons.mp hp with rfl | hp
      · exact hresult
      · exact hanswers p hp

/-- The metas of a fetch are one block for each height of its records. -/
theorem heights_of_fetchAux {chainId : ChainId} {rpc : Rpc} {records : List RawRecord}
    {aux : AuxData} (h : fetchAux chainId rpc records = .ok aux) :
    (aux.blockMetas.map BlockMeta.key).Perm
      ((records.map RawRecord.height).dedup.map fun n => (chainId, n)) := by
  have hok := Rows.mapError_eq_ok.mp h
  rw [Rows.bind_eq_ok] at hok
  obtain ⟨blocks, hblocks, hok⟩ := hok
  rw [Rows.bind_eq_ok] at hok
  obtain ⟨receipts, -, hok⟩ := hok
  rw [Rows.bind_eq_ok] at hok
  obtain ⟨blockAux, hblockAux, heq⟩ := hok
  cases heq
  obtain ⟨hitems, hanswers⟩ := of_batched_ok hblocks
  obtain ⟨found, rfl⟩ := Enrichment.found_of_blockAux hblockAux
  rw [Enrichment.blockAux_found] at hblockAux
  cases hblockAux
  have hnumbers : found.map (fun p => p.2.number) =
      rpc.heightOrder (records.map RawRecord.height).dedup := by
    rw [← hitems, List.map_map]
    apply List.map_congr_left
    intro p hp
    exact rpc.block_number p.1 p.2 (hanswers (p.1, some p.2) (List.mem_map_of_mem hp))
  have hkeys : (found.map fun p => Enrichment.blockMeta chainId p.2).map BlockMeta.key =
      (rpc.heightOrder (records.map RawRecord.height).dedup).map fun n => (chainId, n) := by
    rw [← hnumbers, List.map_map, List.map_map]
    rfl
  show ((found.map fun p => Enrichment.blockMeta chainId p.2).map BlockMeta.key).Perm _
  rw [hkeys]
  exact (rpc.heightOrder_perm _).map _

/-- A source stamps its own chain on every record. -/
theorem chainId_of_fetchRecords {plan : PlanProfile}
    {getLogs : Nat → Nat → Nat → Except String (List Log)} {chainId : ChainId}
    {density lo hi fuel : Nat} {records : List RawRecord}
    (h : fetchRecords plan getLogs chainId density lo hi fuel = some (.ok records)) :
    ∀ r ∈ records, r.chainId = chainId := by
  obtain ⟨chunks, logs, -, -, hmap⟩ := fetchRecords_ok h
  intro r hr
  obtain ⟨log, -, hlog⟩ := (Rows.mem_mapM_ok hmap).mp hr
  obtain ⟨height, blockHash, index, txHash, -, -, -, -, rfl⟩ := mapLog_ok hlog
  rfl

end RpcLogSource

namespace Agreement

variable {layout : String → PkColumns}

/-- Each raw record has the block row of its height, under its own block hash. -/
def Agrees (store : Store layout) : Prop :=
  ∀ r ∈ store.rawRecords, ∃ b, BlockRepo.get store r.chainId r.height = some b ∧
    b.hash = r.blockHash

theorem agrees_iff {store : Store layout} :
    Agrees store ↔ ∀ r ∈ store.rawRecords, ∃ b ∈ store.blocks,
      b.key = (r.chainId, r.height) ∧ b.hash = r.blockHash := by
  simp only [Agrees, BlockRepo.get, Table.find?_eq_some, and_assoc]

/-- The records that stand after a commit: those stored, and of the fetched ones the first under a
key that was free. -/
def Kept (store : Store layout) (records : List RawRecord) (r : RawRecord) : Prop :=
  r ∈ store.rawRecords ∨
    (∀ x ∈ store.rawRecords, x.key ≠ r.key) ∧ (records.find? fun x => x.key = r.key) = some r

/-- Every fetched header has the hash of each record that will stand at its height. -/
def Vouched (store : Store layout) (fetched : FetchedRange) : Prop :=
  ∀ b ∈ fetched.aux.blockMetas, ∀ r, Kept store fetched.records r →
    b.key = (r.chainId, r.height) → b.hash = r.blockHash

/-- What every fetch of a chain's source returns. -/
structure WellFetched (chain : ChainId) (fetched : FetchedRange) : Prop where
  stamped : ∀ r ∈ fetched.records, r.chainId = chain
  blockOf : ∀ r ∈ fetched.records, ∃ b ∈ fetched.aux.blockMetas, b.key = (chain, r.height)
  nodup : (fetched.aux.blockMetas.map BlockMeta.key).Nodup

theorem mem_insertAll_iff_kept {store : Store layout} {records : List RawRecord} {r : RawRecord} :
    r ∈ store.rawRecords.insertAll records ↔ Kept store records r := by
  have hfind : r ∈ store.rawRecords.insertAll records ↔
      (store.rawRecords.insertAll records).find? r.key = some r := by
    rw [Table.find?_eq_some]
    exact (and_iff_left rfl).symm
  rw [hfind, Table.find?_insertAll, Option.or_eq_some_iff, Table.find?_eq_some, Table.find?_eq_none,
    Kept]
  exact or_congr_left (and_iff_left rfl)

section Commit

variable {store store' : Store layout} {chain : ChainId} {fetched : FetchedRange}

/-- A commit keeps the tables in agreement exactly when the fetched headers vouch for the records
that stand at their heights. -/
theorem agrees_commit_iff (hfetched : WellFetched chain fetched) (hagrees : Agrees store)
    {batch : IngestBatch} (hrecords : batch.rawRecords = fetched.records)
    (hmetas : batch.blockMetas = fetched.aux.blockMetas)
    (hcommitted : UnitOfWork.Committed store store' batch) :
    Agrees store' ↔ Vouched store fetched := by
  have hraw : ∀ r, r ∈ store'.rawRecords ↔ Kept store fetched.records r := by
    intro r
    rw [hcommitted.rawRecords, hrecords, mem_insertAll_iff_kept]
  have hblocks : ∀ b, b ∈ store'.blocks ↔ b ∈ fetched.aux.blockMetas ∨
      (b ∈ store.blocks ∧ ∀ m ∈ fetched.aux.blockMetas, b.key ≠ m.key) := by
    intro b
    rw [hcommitted.blocks, hmetas]
    exact Table.mem_upsertAll fun x hx y hy hkey =>
      List.inj_on_of_nodup_map hfetched.nodup hx hy hkey
  rw [agrees_iff] at hagrees ⊢
  constructor
  · intro hafter b hb r hkept hkey
    obtain ⟨b', hb', hkey', hhash⟩ := hafter r ((hraw r).mpr hkept)
    have hsame : b' = b :=
      Table.eq_of_key hb' ((hblocks b).mpr (.inl hb)) (hkey'.trans hkey.symm)
    rw [← hsame]
    exact hhash
  · intro hvouched r hr
    have hkept := (hraw r).mp hr
    by_cases hmeta : ∃ b ∈ fetched.aux.blockMetas, b.key = (r.chainId, r.height)
    · obtain ⟨b, hb, hkey⟩ := hmeta
      exact ⟨b, (hblocks b).mpr (.inl hb), hkey, hvouched b hb r hkept hkey⟩
    · -- no header was fetched for this height, so the record stood before
      push Not at hmeta
      rcases hkept with hstored | ⟨-, hnew⟩
      · obtain ⟨b, hb, hkey, hhash⟩ := hagrees r hstored
        refine ⟨b, (hblocks b).mpr (.inr ⟨hb, fun m hm heq => ?_⟩), hkey, hhash⟩
        exact hmeta m hm (heq.symm.trans hkey)
      · have hmem := List.mem_of_find?_eq_some hnew
        obtain ⟨b, hb, hkey⟩ := hfetched.blockOf r hmem
        exact absurd (hfetched.stamped r hmem ▸ hkey) (hmeta b hb)

/-- A rollback removes the records of a height with its block. -/
theorem agrees_rollback {lo : Nat} {tables : List String} (hagrees : Agrees store)
    (h : UnitOfWork.RolledBack store store' chain lo tables) : Agrees store' := by
  rw [agrees_iff] at hagrees ⊢
  intro r hr
  obtain ⟨hold, hkept⟩ := (h.rawRecords r).mp hr
  obtain ⟨b, hb, hkey, hhash⟩ := hagrees r hold
  obtain ⟨hchain, hheight⟩ := Prod.mk.inj hkey
  refine ⟨b, (h.blocks b).mpr ⟨hb, ?_⟩, hkey, hhash⟩
  rw [hchain, hheight]
  exact hkept

end Commit

/-- A range fetched by the source of a chain, under its plan. -/
structure FetchCall where
  chain : ChainId
  lo : Nat
  hi : Nat
  plan : RpcLogSource.PlanProfile
  density : Nat
  fuel : Nat
  rpc : RpcLogSource.Rpc

def FetchCall.auxOf (call : FetchCall) (records : List RawRecord) : Except DomainError AuxData :=
  if records.isEmpty then .ok AuxData.none
  else RpcLogSource.fetchAux call.chain call.rpc records

/-- `fetch_range`: the records, and their aux where there are any. -/
def FetchCall.fetchRange (call : FetchCall) : Option (Except DomainError FetchedRange) := do
  let records ← RpcLogSource.fetchRecords call.plan call.rpc.getLogs call.chain call.density
    call.lo call.hi call.fuel
  some (do
    let records ← records
    let aux ← call.auxOf records
    .ok (IngestionService.fetchRange call.lo call.hi records fun _ => aux))

theorem FetchCall.fetchRange_ok {call : FetchCall} {fetched : FetchedRange}
    (h : call.fetchRange = some (.ok fetched)) :
    ∃ records aux, RpcLogSource.fetchRecords call.plan call.rpc.getLogs call.chain call.density
        call.lo call.hi call.fuel = some (.ok records) ∧
      call.auxOf records = .ok aux ∧
      fetched = IngestionService.fetchRange call.lo call.hi records fun _ => aux := by
  unfold FetchCall.fetchRange at h
  obtain ⟨answer, hanswer, h⟩ := Option.bind_eq_some_iff.mp h
  rw [Option.some.injEq, Rows.bind_eq_ok] at h
  obtain ⟨records, rfl, h⟩ := h
  rw [Rows.bind_eq_ok] at h
  obtain ⟨aux, haux, heq⟩ := h
  cases heq
  exact ⟨records, aux, hanswer, haux, rfl⟩

theorem wellFetched_fetchRange {call : FetchCall} {fetched : FetchedRange}
    (h : call.fetchRange = some (.ok fetched)) : WellFetched call.chain fetched := by
  obtain ⟨records, aux, hanswer, haux, rfl⟩ := call.fetchRange_ok h
  have hchain := RpcLogSource.chainId_of_fetchRecords hanswer
  by_cases hempty : records.isEmpty = true
  · have hnil := List.isEmpty_iff.mp hempty
    subst hnil
    exact ⟨fun r hr => absurd hr List.not_mem_nil, fun r hr => absurd hr List.not_mem_nil,
      List.nodup_nil⟩
  · rw [FetchCall.auxOf, if_neg hempty] at haux
    have hkeys := RpcLogSource.heights_of_fetchAux haux
    have hmetas : (IngestionService.fetchRange call.lo call.hi records
        fun _ => aux).aux.blockMetas = aux.blockMetas := by
      simp only [IngestionService.fetchRange, hempty]
      rfl
    refine ⟨hchain, fun r hr => ?_, ?_⟩
    · rw [hmetas]
      have hmem : (call.chain, r.height) ∈ aux.blockMetas.map BlockMeta.key := by
        rw [hkeys.mem_iff, List.mem_map]
        exact ⟨r.height, List.mem_dedup.mpr (List.mem_map_of_mem hr), rfl⟩
      obtain ⟨b, hb, hkey⟩ := List.mem_map.mp hmem
      exact ⟨b, hb, hkey⟩
    · rw [hmetas, hkeys.nodup_iff]
      exact (List.nodup_dedup _).map fun m n hmn => (Prod.mk.inj hmn).2

/-- The database and the ranges that were fetched and not written yet. -/
structure State (layout : String → PkColumns) where
  store : Store layout
  fetched : List (ChainId × FetchedRange)

inductive Act where
  | fetch (call : FetchCall)
  /-- A fetched range is written, with the cursor or without it. -/
  | commit (i : Nat) (epoch : Epoch) (advanceCursor : Bool)
  | rollback (chain : ChainId) (lo : Nat) (tables : List String)

/-- A failed commit or rollback leaves the store as it was. -/
def State.step (s : State layout) : Act → Option (State layout)
  | .fetch call =>
      match call.fetchRange with
      | some (.ok fetched) => some { s with fetched := s.fetched ++ [(call.chain, fetched)] }
      | _ => none
  | .commit i epoch advanceCursor =>
      match s.fetched[i]? with
      | none => none
      | some (chain, fetched) =>
          match IngestionService.commit s.store chain fetched epoch advanceCursor with
          | .error _ => some { s with fetched := s.fetched.eraseIdx i }
          | .ok (store, _) => some ⟨store, s.fetched.eraseIdx i⟩
  | .rollback chain lo tables =>
      match UnitOfWork.rollbackTo s.store chain lo tables with
      | .error _ => some s
      | .ok store => some { s with store := store }

def system : Transition.System (State layout) Act where
  init s := s = ⟨Store.empty, []⟩
  step := State.step

/-- Each commit writes a range whose headers vouch for the records at their heights. -/
def CommitsVouched (s : State layout) : Act → Prop
  | .commit i _ _ => ∀ chain fetched, s.fetched[i]? = some (chain, fetched) → Vouched s.store fetched
  | _ => True

structure Sound (s : State layout) : Prop where
  agrees : Agrees s.store
  wellFetched : ∀ p ∈ s.fetched, WellFetched p.1 p.2

theorem sound_step {s s' : State layout} {a : Act} (h : Sound s) (hallowed : CommitsVouched s a)
    (hstep : s.step a = some s') : Sound s' := by
  cases a with
  | fetch call =>
      simp only [State.step] at hstep
      split at hstep
      · rename_i fetched hfetched
        cases hstep
        refine ⟨h.agrees, fun p hp => ?_⟩
        rcases List.mem_append.mp hp with hp | hp
        · exact h.wellFetched p hp
        · rw [List.mem_singleton.mp hp]
          exact wellFetched_fetchRange hfetched
      · cases hstep
  | commit i epoch advanceCursor =>
      simp only [State.step] at hstep
      split at hstep
      · cases hstep
      rename_i chain fetched hfetched
      have hrest : ∀ p ∈ s.fetched.eraseIdx i, WellFetched p.1 p.2 := fun p hp =>
        h.wellFetched p (List.mem_of_mem_eraseIdx hp)
      split at hstep
      · cases hstep
        exact ⟨h.agrees, hrest⟩
      · rename_i store outcome hcommit
        cases hstep
        rw [IngestionService.commit, Rows.bind_eq_ok] at hcommit
        obtain ⟨written, hwritten, heq⟩ := hcommit
        cases heq
        have hwell := h.wellFetched _ (List.mem_of_getElem? hfetched)
        refine ⟨?_, hrest⟩
        exact (agrees_commit_iff hwell h.agrees rfl rfl (UnitOfWork.commitIngest_ok hwritten)).mpr
          (hallowed chain fetched hfetched)
  | rollback chain lo tables =>
      simp only [State.step] at hstep
      split at hstep
      · cases hstep
        exact h
      · rename_i store hrollback
        cases hstep
        exact ⟨agrees_rollback h.agrees (UnitOfWork.rollbackTo_ok hrollback), h.wellFetched⟩

theorem sound_of_reachable {s : State layout}
    (h : Transition.Reachable system CommitsVouched s) : Sound s := by
  refine h.invariant Sound (fun s hs => ?_) fun s a s' hs hallowed hstep =>
    sound_step hs hallowed hstep
  rw [hs]
  exact ⟨fun r hr => absurd hr (Table.not_mem_empty r), fun p hp => absurd hp List.not_mem_nil⟩

/-- In such runs every record stands with its block, and the hash a reorg check compares at the tip
is the one of the tip's records. -/
theorem agrees_of_commitsVouched {s : State layout}
    (h : Transition.Reachable system CommitsVouched s) :
    Agrees s.store ∧ ∀ (blockHash : Nat → Option Hash) (canon : Hash), ∀ r ∈ s.store.rawRecords,
      BlockRepo.maxHeight s.store r.chainId = some r.height → blockHash r.height = some canon →
        (ReorgService.Mismatch s.store r.chainId blockHash r.height ↔ canon ≠ r.blockHash) := by
  have hagrees := (sound_of_reachable h).agrees
  refine ⟨hagrees, fun blockHash canon r hr htip hcanon => ?_⟩
  obtain ⟨b, hb, hhash⟩ := hagrees r hr
  constructor
  · rintro ⟨-, stored, canon', hstored, hcanon', hdiffers⟩
    rw [hb, Option.some.injEq] at hstored
    rw [hcanon, Option.some.injEq] at hcanon'
    rw [hcanon', ← hhash, hstored]
    exact hdiffers
  · intro hdiffers
    exact ⟨htip, b, canon, hb, hcanon, hhash ▸ hdiffers⟩

/-- A decidable condition under which a commit is vouched for. -/
def vouchedGuard (s : State layout) : Act → Bool
  | .commit i _ _ => (s.fetched[i]?).all fun p =>
      p.2.aux.blockMetas.all fun b => (s.store.rawRecords.rows ++ p.2.records).all fun r =>
        b.key != (r.chainId, r.height) || b.hash == r.blockHash
  | _ => true

theorem vouchedGuard_sound (s : State layout) (a : Act) (h : vouchedGuard s a = true) :
    CommitsVouched s a := by
  cases a with
  | fetch call => trivial
  | rollback chain lo tables => trivial
  | commit i epoch advanceCursor =>
      intro chain fetched hfetched b hb r hkept hkey
      simp only [vouchedGuard, hfetched, Option.all_some, List.all_eq_true, Bool.or_eq_true,
        bne_iff_ne, beq_iff_eq] at h
      have hmem : r ∈ s.store.rawRecords.rows ++ fetched.records := by
        rw [List.mem_append]
        rcases hkept with hstored | ⟨-, hnew⟩
        · exact .inl hstored
        · exact .inr (List.mem_of_find?_eq_some hnew)
      rcases h b hb r hmem with hne | heq
      · exact absurd hkey hne
      · exact heq

/-- Block 5 has one log of a block `logHash`; the header answered for it is `blockHash`. -/
def forkCall (logHash blockHash : Hash) : FetchCall where
  chain := 1
  lo := 5
  hi := 5
  plan := ⟨10, 0⟩
  density := 0
  fuel := 5
  rpc :=
    { getLogs := fun _ _ _ => .ok [⟨some 5, some logHash, some 0, some ⟨[1]⟩, none, ⟨[]⟩, [], []⟩]
      block := fun h => .ok (some ⟨h, blockHash, ⟨[]⟩, 0, []⟩)
      receipt := fun _ => .ok none
      heightOrder := id
      txOrder := id
      heightOrder_perm := fun _ => List.Perm.refl _
      txOrder_perm := fun _ => List.Perm.refl _
      block_number := fun h blk hblk => by
        cases hblk
        rfl }

def blockHashes (s : State layout) : List Hash × List Hash :=
  (s.store.rawRecords.rows.map RawRecord.blockHash, s.store.blocks.rows.map BlockMeta.hash)

/-- A range indexed on one fork, rolled back, and indexed on the other. -/
theorem agrees_reindexed_fork :
    ∃ s : State eventLayout, blockHashes s = ([⟨[8]⟩], [⟨[8]⟩]) ∧ Agrees s.store ∧
      ∀ (blockHash : Nat → Option Hash) (canon : Hash), ∀ r ∈ s.store.rawRecords,
        BlockRepo.maxHeight s.store r.chainId = some r.height → blockHash r.height = some canon →
          (ReorgService.Mismatch s.store r.chainId blockHash r.height ↔ canon ≠ r.blockHash) := by
  have hinit : Transition.Reachable system CommitsVouched
      (⟨Store.empty, []⟩ : State eventLayout) := .init rfl
  obtain ⟨s, hs, hobserved⟩ := hinit.exists_observed_where vouchedGuard_sound
    [.fetch (forkCall ⟨[7]⟩ ⟨[7]⟩), .commit 0 ⟨0⟩ false, .rollback 1 5 [],
      .fetch (forkCall ⟨[8]⟩ ⟨[8]⟩), .commit 0 ⟨0⟩ false]
    blockHashes (b := ([⟨[8]⟩], [⟨[8]⟩])) (by decide +kernel)
  exact ⟨s, hobserved, agrees_of_commitsVouched hs⟩

/-- The chain forks between `eth_getLogs` and `eth_getBlockByNumber`. -/
theorem not_agrees_fork_between_calls :
    ¬∀ s : State eventLayout, Transition.Reachable system Transition.anyStep s →
      Agrees s.store := by
  intro hevery
  have hinit : Transition.Reachable system Transition.anyStep
      (⟨Store.empty, []⟩ : State eventLayout) := .init rfl
  obtain ⟨s, hs, hobserved⟩ := hinit.exists_observed
    [.fetch (forkCall ⟨[7]⟩ ⟨[8]⟩), .commit 0 ⟨0⟩ false] (fun _ _ _ => trivial)
    (fun s => (s.store.rawRecords.rows.map fun r => (r.blockHash, r.chainId, r.height),
      (BlockRepo.get s.store 1 5).map BlockMeta.hash))
    (b := ([(⟨[7]⟩, 1, 5)], some ⟨[8]⟩)) (by decide +kernel)
  obtain ⟨hrecords, hblock⟩ := Prod.mk.inj hobserved
  obtain ⟨r, hr, hat⟩ := List.mem_map.mp (hrecords ▸ List.mem_singleton.mpr rfl)
  obtain ⟨hhash, hchain, hheight⟩ : r.blockHash = ⟨[7]⟩ ∧ r.chainId = 1 ∧ r.height = 5 := by
    simpa using hat
  obtain ⟨b, hb, hbhash⟩ := hevery s hs r hr
  rw [hchain, hheight] at hb
  rw [hb, Option.map_some, Option.some.injEq, hbhash, hhash] at hblock
  exact absurd hblock (by decide)

end Agreement

end Topic0
