import Topic0.DecodeRange

/-! What a decode of a range leaves in the typed tables. Rows are inserted, never updated: a row
that stands under a primary key already stays, whatever decoder wrote it. So a resync rebuilds a
row exactly when nothing else stands, or is decoded in the same range, under its key. -/

namespace Topic0

open Keyed

variable {layout : String → PkColumns}

/-- The stored time of a block. -/
def blockTimeAt (store : Store layout) (chain : ChainId) (h : Nat) : Option Int :=
  (BlockRepo.get store chain h).map BlockMeta.time

theorem lookup_times (store : Store layout) (chain : ChainId) {lo hi h : Nat} (hlo : lo ≤ h)
    (hhi : h ≤ hi) : (BlockRepo.times store chain lo hi).lookup h = blockTimeAt store chain h := by
  unfold BlockRepo.times blockTimeAt BlockRepo.get Table.find?
  induction store.blocks.rows with
  | nil => rfl
  | cons b rows ih =>
      rw [List.filter_cons, List.find?_cons]
      by_cases hkey : b.chainId = chain ∧ b.height = h
      · obtain ⟨rfl, rfl⟩ := hkey
        simp [hlo, hhi, BlockMeta.key]
      · have hne : ¬b.key = (chain, h) := by simpa [BlockMeta.key] using hkey
        rw [decide_eq_false hne]
        split
        · rename_i hin
          simp only [Bool.and_eq_true, beq_iff_eq] at hin
          have hother : ¬h = b.height := fun heq => hkey ⟨hin.1.1, heq.symm⟩
          rw [List.map_cons, List.lookup_cons, beq_eq_false_iff_ne.mpr hother]
          exact ih
        · exact ih

theorem lookup_times_outside (store : Store layout) (chain : ChainId) {lo hi h : Nat}
    (hout : ¬(lo ≤ h ∧ h ≤ hi)) : (BlockRepo.times store chain lo hi).lookup h = none := by
  rw [List.lookup_eq_none_iff]
  intro p hp
  obtain ⟨b, hb, rfl⟩ := List.mem_map.mp hp
  obtain ⟨-, hin⟩ := List.mem_filter.mp hb
  simp only [Bool.and_eq_true, decide_eq_true_eq] at hin
  rw [bne_iff_ne]
  rintro rfl
  exact hout ⟨hin.1.2, hin.2⟩

/-- The row as it should stand in its table. -/
def timed (store : Store layout) (chain : ChainId) (row : EventRow) : EventRow :=
  { row with blockTime := blockTimeAt store chain row.height }

/-- The rows of a range, before they are stamped: of a record the decoder knows, or of the stored
calldata of a record's transaction. -/
def Decoded (decoder : AbiIndex) (store : Store layout) (chain : ChainId) (lo hi : Nat)
    (row : EventRow) : Prop :=
  (∃ r ∈ store.rawRecords, (r.chainId = chain ∧ lo ≤ r.height ∧ r.height ≤ hi) ∧
    decoder.decode r = .ok (some row)) ∨
  ∃ tx ∈ store.typed transactionsTable, tx.chainId = chain ∧
    (∃ r ∈ store.rawRecords, (r.chainId = chain ∧ lo ≤ r.height ∧ r.height ≤ hi) ∧
      r.txId = tx.txId) ∧
    ∃ calldata, calldataRow tx = .ok calldata ∧ decoder.decodeCall calldata = .ok (some row)

theorem Decoded.blockTime {decoder : AbiIndex} {store : Store layout} {chain : ChainId}
    {lo hi : Nat} {row : EventRow} (h : Decoded decoder store chain lo hi row) :
    row.blockTime = none := by
  rcases h with ⟨r, -, -, hdecode⟩ | ⟨tx, -, -, -, calldata, -, hdecode⟩
  · obtain ⟨event, rfl⟩ := AbiIndex.decode_ok hdecode
    rfl
  · obtain ⟨event, rfl⟩ := AbiIndex.decodeCall_ok hdecode
    rfl

section Spec

variable {order : Order} {decoder : AbiIndex} {store store' : Store layout} {chain : ChainId}
  {lo hi : Nat}

theorem mem_decodeCalls {raw : List RawRecord} {rows : List EventRow}
    (h : decodeCalls order decoder store chain raw = .ok rows) {row : EventRow} :
    row ∈ rows ↔ ∃ tx ∈ store.typed transactionsTable, tx.chainId = chain ∧
      (∃ r ∈ raw, r.txId = tx.txId) ∧
      ∃ calldata, calldataRow tx = .ok calldata ∧ decoder.decodeCall calldata = .ok (some row) := by
  rw [decodeCalls] at h
  split at h
  · rw [Rows.bind_eq_ok] at h
    obtain ⟨txs, htxs, hrows⟩ := h
    rw [mem_decodeAll hrows]
    simp only [Rows.mem_mapM_ok htxs, (order.calldata_perm _).mem_iff, matchedTransactions,
      List.mem_filter, Bool.and_eq_true, beq_iff_eq, List.any_eq_true]
    constructor
    · rintro ⟨calldata, ⟨tx, ⟨htx, hchain, hmatch⟩, hcalldata⟩, hdecode⟩
      exact ⟨tx, htx, hchain, hmatch, calldata, hcalldata, hdecode⟩
    · rintro ⟨tx, htx, hchain, hmatch, calldata, hcalldata, hdecode⟩
      exact ⟨calldata, ⟨tx, ⟨htx, hchain, hmatch⟩, hcalldata⟩, hdecode⟩
  · rename_i hcalls
    cases h
    refine ⟨fun hrow => absurd hrow List.not_mem_nil, ?_⟩
    rintro ⟨-, -, -, -, calldata, -, hdecode⟩
    exact absurd (AbiIndex.hasCalls_of_decodeCall hdecode) hcalls

/-- The rows read records decode to, with the transactions the store has at that moment. -/
def DecodedFrom (decoder : AbiIndex) (store : Store layout) (chain : ChainId) (raw : List RawRecord)
    (row : EventRow) : Prop :=
  (∃ r ∈ raw, decoder.decode r = .ok (some row)) ∨
  ∃ tx ∈ store.typed transactionsTable, tx.chainId = chain ∧ (∃ r ∈ raw, r.txId = tx.txId) ∧
    ∃ calldata, calldataRow tx = .ok calldata ∧ decoder.decodeCall calldata = .ok (some row)

theorem decodedFrom_range {row : EventRow} :
    DecodedFrom decoder store chain (RawRecordRepo.range store chain lo hi) row ↔
      Decoded decoder store chain lo hi row := by
  simp only [DecodedFrom, Decoded, RawRecordRepo.mem_range, and_assoc]

/-- The batch of a table holds the decoded rows of that table, stamped. -/
theorem mem_decodedTables {times : List (Nat × Int)} {raw : List RawRecord}
    {tables : List (String × List EventRow)}
    (h : decodedTables order decoder store chain raw times = .ok tables) {t : String}
    {row : EventRow} :
    row ∈ (tables.filter fun group => group.1 = t).flatMap Prod.snd ↔
      ∃ d, DecodedFrom decoder store chain raw d ∧ d.event.table = t ∧ row = stamp times d := by
  rw [decodedTables, Rows.bind_eq_ok] at h
  obtain ⟨events, hevents, h⟩ := h
  rw [Rows.bind_eq_ok] at h
  obtain ⟨calls, hcalls, heq⟩ := h
  cases heq
  have hperm := (List.Perm.flatMap_right (fun group : String × List EventRow => group.2)
    ((order.tables_perm (Rows.buckets (fun row : EventRow => row.event.table)
      ((events ++ calls).map (stamp times)))).filter fun group => group.1 = t)).trans
      (Rows.filter_buckets_perm (fun row : EventRow => row.event.table)
        ((events ++ calls).map (stamp times)) t)
  have hmem : row ∈ _ ↔ row ∈ _ := hperm.mem_iff
  apply hmem.trans
  have hdecoded : ∀ d, d ∈ events ++ calls ↔ DecodedFrom decoder store chain raw d := by
    intro d
    rw [List.mem_append, mem_decodeAll hevents, mem_decodeCalls hcalls, DecodedFrom]
  simp only [List.mem_filter, List.mem_map, hdecoded, decide_eq_true_eq]
  constructor
  · rintro ⟨⟨d, hd, rfl⟩, htable⟩
    exact ⟨d, hd, htable, rfl⟩
  · rintro ⟨d, hd, htable, rfl⟩
    exact ⟨⟨d, hd, rfl⟩, htable⟩

/-- There is one batch for each table. -/
theorem eq_of_mem_decodedTables {times : List (Nat × Int)} {raw : List RawRecord}
    {tables : List (String × List EventRow)}
    (h : decodedTables order decoder store chain raw times = .ok tables)
    {group group' : String × List EventRow} (hgroup : group ∈ tables) (hgroup' : group' ∈ tables)
    (htable : group.1 = group'.1) : group = group' := by
  rw [decodedTables, Rows.bind_eq_ok] at h
  obtain ⟨events, -, h⟩ := h
  rw [Rows.bind_eq_ok] at h
  obtain ⟨calls, -, heq⟩ := h
  cases heq
  exact Rows.eq_of_mem_buckets ((order.tables_perm _).mem_iff.mp hgroup)
    ((order.tables_perm _).mem_iff.mp hgroup') htable

theorem upsertBatch_ok {table : String} {rows : List EventRow} {n : Nat}
    (h : EventRepo.upsertBatch store table rows = .ok (store', n)) :
    EventRepo.upsertBatchTx store table rows = .ok store' := by
  rw [EventRepo.upsertBatch] at h
  split at h
  · cases h
  · rename_i hok
    cases h
    exact hok

/-- The transactions of a range, one per table, are the inserts of its batches. -/
theorem upsertTables_ok (tables : List (String × List EventRow)) {n n' : Nat}
    (h : tables.foldlM (fun (written : Store layout × Nat) group => do
      let (store, m) ← EventRepo.upsertBatch written.1 group.1 group.2
      .ok (store, written.2 + m)) (store, n) = .ok (store', n')) :
    tables.foldlM (fun store group => EventRepo.upsertBatchTx store group.1 group.2) store =
      .ok store' := by
  induction tables generalizing store n with
  | nil =>
      cases h
      rfl
  | cons group tables ih =>
      obtain ⟨written, m, hwritten, hrest⟩ := upsertTables_cons h
      rw [List.foldlM_cons, Rows.bind_eq_ok]
      exact ⟨written, upsertBatch_ok hwritten, ih hrest⟩

/-- What a successful decode did: each table got the decoded rows it did not already have. -/
theorem decodeRange_ok {n : Nat}
    (h : decodeRange order decoder store chain lo hi = .ok (store', n)) :
    SameButTyped store store' ∧ ∀ t, ∃ rows,
      (∀ row, row ∈ rows ↔ ∃ d, Decoded decoder store chain lo hi d ∧ d.event.table = t ∧
        row = stamp (BlockRepo.times store chain lo hi) d) ∧
      store'.typed t = (store.typed t).insertAll rows := by
  rw [decodeRange] at h
  simp only at h
  rw [Rows.bind_eq_ok] at h
  obtain ⟨tables, htables, hfold⟩ := h
  obtain ⟨hsame, htyped⟩ := UnitOfWork.insertGroups_ok tables (upsertTables_ok tables hfold)
  refine ⟨hsame, fun t => ?_⟩
  obtain ⟨rows, hperm, heq⟩ := htyped t
  refine ⟨rows, fun row => ?_, heq⟩
  rw [hperm.mem_iff, mem_decodedTables htables]
  simp only [decodedFrom_range]

/-- The row standing in a table under a decoded row's primary key. -/
def standing (store : Store layout) (row : EventRow) : Option EventRow :=
  (store.typed row.event.table).find? (row.primaryKey (layout row.event.table))

/-- Every row the range decodes to stands in its table, with the block time of its height. -/
def Resynced (decoder : AbiIndex) (store store' : Store layout) (chain : ChainId) (lo hi : Nat) :
    Prop :=
  ∀ row, Decoded decoder store chain lo hi row → standing store' row = some (timed store chain row)

/-- Two rows of one table with one primary key. -/
def SameKey (layout : String → PkColumns) (row row' : EventRow) : Prop :=
  row.event.table = row'.event.table ∧
    row.primaryKey (layout row.event.table) = row'.primaryKey (layout row.event.table)

/-- The row already stands as decoded; or nothing stands under its key, the range decodes nothing
else to that key, and its block time is one the range reads. -/
def Rebuilds (decoder : AbiIndex) (store : Store layout) (chain : ChainId) (lo hi : Nat)
    (row : EventRow) : Prop :=
  standing store row = some (timed store chain row) ∨
    standing store row = none ∧
      (∀ row', Decoded decoder store chain lo hi row' → SameKey layout row row' → row' = row) ∧
      ((lo ≤ row.height ∧ row.height ≤ hi) ∨ BlockRepo.get store chain row.height = none)

theorem stamp_eq_timed_iff {row : EventRow} :
    stamp (BlockRepo.times store chain lo hi) row = timed store chain row ↔
      (lo ≤ row.height ∧ row.height ≤ hi) ∨ BlockRepo.get store chain row.height = none := by
  simp only [stamp, timed, EventRow.mk.injEq, true_and, and_true]
  by_cases hin : lo ≤ row.height ∧ row.height ≤ hi
  · simp [lookup_times store chain hin.1 hin.2, hin]
  · rw [lookup_times_outside store chain hin, blockTimeAt, eq_comm, Option.map_eq_none_iff]
    exact (or_iff_right hin).symm

/-- Rows without a block time are told apart after it is set. -/
theorem eq_of_blockTime {row row' : EventRow} (h : row.blockTime = none) (h' : row'.blockTime = none)
    {time time' : Option Int}
    (heq : ({ row with blockTime := time } : EventRow) = { row' with blockTime := time' }) :
    row = row' := by
  obtain ⟨chainId, height, blockHash, blockTime, txId, index, event⟩ := row
  obtain ⟨chainId', height', blockHash', blockTime', txId', index', event'⟩ := row'
  simp only [EventRow.mk.injEq] at h h' heq ⊢
  exact ⟨heq.1, heq.2.1, heq.2.2.1, h.trans h'.symm, heq.2.2.2.2⟩

/-- Where nothing stood, the first decoded row of the key stands afterwards. -/
theorem standing_of_none {rows : List EventRow} {row : EventRow}
    (hrow : Decoded decoder store chain lo hi row)
    (hrows : ∀ x, x ∈ rows ↔ ∃ d, Decoded decoder store chain lo hi d ∧
      d.event.table = row.event.table ∧ x = stamp (BlockRepo.times store chain lo hi) d)
    (htyped : store'.typed row.event.table = (store.typed row.event.table).insertAll rows)
    (hnone : standing store row = none) :
    ∃ d, Decoded decoder store chain lo hi d ∧ SameKey layout row d ∧
      standing store' row = some (stamp (BlockRepo.times store chain lo hi) d) := by
  have hfind : standing store' row =
      rows.find? fun x => x.primaryKey (layout row.event.table) =
        row.primaryKey (layout row.event.table) := by
    rw [standing, htyped, Table.find?_insertAll]
    rw [standing] at hnone
    rw [hnone, Option.none_or]
  have hsome : (rows.find? fun x => x.primaryKey (layout row.event.table) =
      row.primaryKey (layout row.event.table)).isSome = true := by
    rw [List.find?_isSome]
    exact ⟨_, (hrows _).mpr ⟨row, hrow, rfl, rfl⟩, decide_eq_true (by cases layout row.event.table <;> rfl)⟩
  obtain ⟨x, hx⟩ := Option.isSome_iff_exists.mp hsome
  obtain ⟨d, hd, htable, rfl⟩ := (hrows x).mp (List.mem_of_find?_eq_some hx)
  have hkey := List.find?_some hx
  rw [decide_eq_true_eq] at hkey
  refine ⟨d, hd, ⟨htable.symm, ?_⟩, hfind.trans hx⟩
  rw [← hkey]
  cases layout row.event.table <;> rfl

theorem standing_of_some {rows : List EventRow} {row x : EventRow}
    (htyped : store'.typed row.event.table = (store.typed row.event.table).insertAll rows)
    (hsome : standing store row = some x) : standing store' row = some x := by
  rw [standing] at hsome
  rw [standing, htyped, Table.find?_insertAll, hsome, Option.some_or]

/-- A decode of a range that returns rebuilds the typed tables exactly when each of its rows is
rebuilt by an insert. -/
theorem resynced_iff {n : Nat} (h : decodeRange order decoder store chain lo hi = .ok (store', n)) :
    Resynced decoder store store' chain lo hi ↔
      ∀ row, Decoded decoder store chain lo hi row → Rebuilds decoder store chain lo hi row := by
  obtain ⟨-, htables⟩ := decodeRange_ok h
  constructor
  · intro hresynced row hrow
    obtain ⟨rows, hrows, htyped⟩ := htables row.event.table
    have hstands := hresynced row hrow
    cases hbefore : standing store row with
    | some x =>
        rw [standing_of_some htyped hbefore] at hstands
        exact .inl (hbefore.trans hstands)
    | none =>
        obtain ⟨d, hd, hkey, hafter⟩ := standing_of_none hrow hrows htyped hbefore
        rw [hstands, Option.some.injEq] at hafter
        have heq : d = row := (eq_of_blockTime hrow.blockTime hd.blockTime hafter).symm
        subst heq
        refine .inr ⟨hbefore, fun row' hrow' hkey' => ?_, stamp_eq_timed_iff.mp hafter.symm⟩
        have hstands' := hresynced row' hrow'
        have hsame : standing store' row' = standing store' d := by
          rw [standing, standing, ← hkey'.1, ← hkey'.2]
        rw [hsame, hstands, Option.some.injEq] at hstands'
        exact (eq_of_blockTime hrow.blockTime hrow'.blockTime hstands').symm
  · intro hrebuilds row hrow
    obtain ⟨rows, hrows, htyped⟩ := htables row.event.table
    rcases hrebuilds row hrow with hbefore | ⟨hbefore, honly, htime⟩
    · exact standing_of_some htyped hbefore
    · obtain ⟨d, hd, hkey, hafter⟩ := standing_of_none hrow hrows htyped hbefore
      rw [hafter, honly d hd hkey, stamp_eq_timed_iff.mpr htime]

end Spec

/-- One transfer in block 1. -/
def oneTransfer : Store eventLayout :=
  RawRecordRepo.insertBatchTx Store.empty [transferLog 1 1 ⟨[7]⟩ 5]

/-- The same, with the row an earlier decoder wrote before the column was added. -/
def oneTransferOldRow : Store eventLayout :=
  EventRepo.insertRows oneTransfer transferTable
    [⟨1, 1, ⟨[7]⟩, none, ⟨[7]⟩, 0, ⟨transferTable, []⟩⟩]

def transferRow : EventRow :=
  ⟨1, 1, ⟨[7]⟩, none, ⟨[7]⟩, 0, ⟨transferTable, [("value", .bytes [5])]⟩⟩

/-- A second transfer in block 2, the row of the first standing as it is decoded. -/
def halfDecoded : Store eventLayout :=
  EventRepo.insertRows
    { RawRecordRepo.insertBatchTx Store.empty
        [transferLog 1 1 ⟨[7]⟩ 5, transferLog 1 2 ⟨[8]⟩ 6] with
      blocks := Table.empty.upsertAll
        [⟨1, 1, ⟨[7]⟩, ⟨[6]⟩, 100⟩, ⟨1, 2, ⟨[8]⟩, ⟨[7]⟩, 112⟩] }
    transferTable [{ transferRow with blockTime := some 100 }]

def secondRow : EventRow :=
  ⟨1, 2, ⟨[8]⟩, none, ⟨[8]⟩, 0, ⟨transferTable, [("value", .bytes [6])]⟩⟩

theorem eq_of_decoded_halfDecoded {row : EventRow}
    (h : Decoded transferDecoder halfDecoded 1 1 2 row) : row = transferRow ∨ row = secondRow := by
  rcases h with ⟨r, hr, -, hdecode⟩ | ⟨tx, htx, -⟩
  · have heq : r = transferLog 1 1 ⟨[7]⟩ 5 ∨ r = transferLog 1 2 ⟨[8]⟩ 6 := by
      have hmem : r ∈ [transferLog 1 1 ⟨[7]⟩ 5, transferLog 1 2 ⟨[8]⟩ 6] := hr
      simpa using hmem
    rcases heq with rfl | rfl <;> rw [decode_transferLog] at hdecode <;> cases hdecode
    · exact .inl rfl
    · exact .inr rfl
  · exact absurd htx (Table.not_mem_empty tx)

/-- The first row is kept, the second one inserted. -/
theorem resynced_halfDecoded :
    ∃ store' n, decodeRange Order.stable transferDecoder halfDecoded 1 1 2 = .ok (store', n) ∧
      n = 1 ∧ Resynced transferDecoder halfDecoded store' 1 1 2 := by
  have hok : (decodeRange Order.stable transferDecoder halfDecoded 1 1 2).toOption.map Prod.snd =
      some 1 := by
    decide +kernel
  cases hdecode : decodeRange Order.stable transferDecoder halfDecoded 1 1 2 with
  | error e =>
      rw [hdecode] at hok
      cases hok
  | ok written =>
      rw [hdecode] at hok
      refine ⟨written.1, written.2, rfl, Option.some.inj hok,
        (resynced_iff hdecode).mpr fun row hrow => ?_⟩
      rcases eq_of_decoded_halfDecoded hrow with rfl | rfl
      · exact .inl (by decide +kernel)
      · refine .inr ⟨by decide +kernel, fun row' hrow' hkey => ?_, .inl ⟨by decide, by decide⟩⟩
        rcases eq_of_decoded_halfDecoded hrow' with rfl | rfl
        · exact absurd hkey.2 (by decide +kernel)
        · rfl

/-- The row of the earlier decoder stays as it was. -/
theorem not_resynced_oldRow :
    ∃ store' n, decodeRange Order.stable transferDecoder oneTransferOldRow 1 1 1 = .ok (store', n) ∧
      ¬Resynced transferDecoder oneTransferOldRow store' 1 1 1 := by
  have hstands : (decodeRange Order.stable transferDecoder oneTransferOldRow 1 1 1).toOption.map
      (fun written => (standing written.1 transferRow).map fun row => row.event.fields) =
        some (some []) := by
    decide +kernel
  cases hdecode : decodeRange Order.stable transferDecoder oneTransferOldRow 1 1 1 with
  | error e =>
      rw [hdecode] at hstands
      cases hstands
  | ok written =>
      refine ⟨written.1, written.2, rfl, fun hresynced => ?_⟩
      have hrow := hresynced transferRow
        (.inl ⟨transferLog 1 1 ⟨[7]⟩ 5, by decide, ⟨rfl, le_rfl, le_rfl⟩, rfl⟩)
      rw [hdecode] at hstands
      simp only [Except.toOption, Option.map_some, hrow, Option.some.injEq] at hstands
      cases hstands

end Topic0
