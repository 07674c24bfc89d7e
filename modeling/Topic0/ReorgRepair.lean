import Topic0.PipelineSource
import Topic0.ReorgCheck

/-! One check and the re-ingestion it asks for, on a chain that was replaced from a fork on. Only
matched blocks are stored and only the highest one is compared, so a reorg that replaced no matched
block goes unnoticed, whatever the new chain has matched above the fork. -/

namespace Topic0

open Keyed

variable {layout : String → PkColumns} {a b : Chain} {fork : Nat}

/-- `b` shares the blocks of `a` up to the fork and none above it. -/
structure Forked (a b : Chain) (fork : Nat) : Prop where
  id : b.id = a.id
  block : ∀ h, h ≤ fork → b.block h = a.block h
  logs : ∀ h, h ≤ fork → b.logs h = a.logs h
  txs : ∀ h, h ≤ fork → b.txs h = a.txs h
  differs : ∀ h, fork < h → (a.block h).hash ≠ (b.block h).hash

theorem Forked.blocksAt (hfork : Forked a b fork) {h : Nat} (hh : h ≤ fork) :
    b.blocksAt h = a.blocksAt h := by
  simp only [Chain.blocksAt, hfork.block h hh]
  exact if_congr (by rw [Chain.Matched, Chain.Matched, hfork.logs h hh]) rfl rfl

theorem Forked.transactionsAt (hfork : Forked a b fork) {h : Nat} (hh : h ≤ fork) :
    b.transactionsAt h = a.transactionsAt h := by
  simp only [Chain.transactionsAt, hfork.txs h hh, hfork.block h hh, hfork.id]

theorem Forked.receiptsAt (hfork : Forked a b fork) {h : Nat} (hh : h ≤ fork) :
    b.receiptsAt h = a.receiptsAt h := by
  simp only [Chain.receiptsAt, hfork.txs h hh, hfork.block h hh, hfork.id]

/-- The store holds exactly the matched blocks of the chain over `[start..last]`, the cursor at
`last`; `tables` are the typed tables of the chain. -/
structure Indexed (a : Chain) (start last : Nat) (tables : List String) (store : Store layout) :
    Prop where
  holds : Holds a store fun h => start ≤ h ∧ h ≤ last
  typed : ∀ t row, row ∈ store.typed t → row.chainId = a.id → t ∈ tables ∧
    (start ≤ row.height ∧ row.height ≤ last) ∧ a.Matched row.height ∧
      row.blockHash = (a.block row.height).hash
  cursor : ∃ hash, store.cursors a.id = some (last, hash)

/-- The raw records and blocks of the window are the chain's, and no row of the chain carries a
hash of another one. -/
structure Repaired (b : Chain) (start last : Nat) (store : Store layout) : Prop where
  rawRecords : ∀ r : RawRecord, r.chainId = b.id → start ≤ r.height → r.height ≤ last →
    (r ∈ store.rawRecords ↔ r ∈ b.logs r.height)
  blocks : ∀ m : BlockMeta, m.chainId = b.id → start ≤ m.height → m.height ≤ last →
    (m ∈ store.blocks ↔ m ∈ b.blocksAt m.height)
  rawHash : ∀ r ∈ store.rawRecords, r.chainId = b.id → r.blockHash = (b.block r.height).hash
  blockHash : ∀ m ∈ store.blocks, m.chainId = b.id → m.hash = (b.block m.height).hash
  rowHash : ∀ t, ∀ row ∈ store.typed t, row.chainId = b.id →
    row.blockHash = (b.block row.height).hash

/-- One check, then the re-ingestion of `[reindex..last]` when it asks for it. -/
def repair (store : Store layout) (chain : ChainId) (blockHash : Nat → Option Hash)
    (confirmations : Nat) (tables : List String) (source : Nat → Nat → FetchedRange)
    (last step : Nat) : Except DomainError (Store layout) :=
  match ReorgService.check store chain true blockHash confirmations tables with
  | .error e => .error e
  | .ok (store, none) => .ok store
  | .ok (store, some reindex) =>
      IngestionService.ingestAll source store chain reindex last step

section Detected

variable {start last : Nat} {tables : List String} {store : Store layout}

theorem Indexed.mem_blocks (h : Indexed a start last tables store) {x : Nat} (hlo : start ≤ x)
    (hhi : x ≤ last) (hx : a.Matched x) : a.block x ∈ store.blocks := by
  have hat := a.block_at x
  rw [h.holds.blocks _ hat.1, hat.2]
  exact ⟨⟨hlo, hhi⟩, Chain.mem_blocksAt.mpr ⟨hx, rfl⟩⟩

/-- The stored tip is the chain's highest matched block of the window. -/
theorem Indexed.tip (h : Indexed a start last tables store) {tip : Nat}
    (htip : BlockRepo.maxHeight store a.id = some tip) :
    (start ≤ tip ∧ tip ≤ last) ∧ a.Matched tip ∧ BlockRepo.get store a.id tip = some (a.block tip) ∧
      ∀ h, start ≤ h → h ≤ last → a.Matched h → h ≤ tip := by
  obtain ⟨⟨m, hm, hchain, rfl⟩, hmax⟩ := BlockRepo.maxHeight_eq_some.mp htip
  obtain ⟨hrange, hblock⟩ := (h.holds.blocks m hchain).mp hm
  obtain ⟨hmatched, heq⟩ := Chain.mem_blocksAt.mp hblock
  refine ⟨hrange, hmatched, ?_, fun x hlo hhi hx => ?_⟩
  · rw [BlockRepo.get, Table.find?_eq_some]
    refine ⟨heq ▸ hm, ?_⟩
    rw [BlockMeta.key, (a.block_at _).1, (a.block_at _).2]
  · have hle := hmax _ (h.mem_blocks hlo hhi hx) (a.block_at x).1
    rwa [(a.block_at x).2] at hle

theorem Indexed.exists_tip (h : Indexed a start last tables store) {x : Nat} (hlo : start ≤ x)
    (hhi : x ≤ last) (hx : a.Matched x) : ∃ tip, BlockRepo.maxHeight store a.id = some tip := by
  cases htip : BlockRepo.maxHeight store a.id with
  | some tip => exact ⟨tip, rfl⟩
  | none =>
      exact absurd (a.block_at x).1
        (BlockRepo.maxHeight_eq_none.mp htip _ (h.mem_blocks hlo hhi hx))

variable {blockHash : Nat → Option Hash}

/-- A replaced matched block is noticed at the highest one. -/
theorem Indexed.exists_mismatch (h : Indexed a start last tables store) (hfork : Forked a b fork)
    (hcanon : ∀ x, x ≤ last → blockHash x = some (b.block x).hash) {x : Nat} (hx : fork < x)
    (hlo : start ≤ x) (hhi : x ≤ last) (hmatched : a.Matched x) :
    ∃ tip, fork < tip ∧ tip ≤ last ∧ ReorgService.Mismatch store a.id blockHash tip := by
  obtain ⟨tip, htip⟩ := h.exists_tip hlo hhi hmatched
  obtain ⟨hrange, -, hget, hmax⟩ := h.tip htip
  have hforked : fork < tip := Nat.lt_of_lt_of_le hx (hmax x hlo hhi hmatched)
  exact ⟨tip, hforked, hrange.2, htip, _, _, hget, hcanon tip hrange.2,
    (hfork.differs tip hforked).symm⟩

/-- Without one, the stored tip is canonical. -/
theorem Indexed.not_mismatch (h : Indexed a start last tables store) (hfork : Forked a b fork)
    (hcanon : ∀ x, x ≤ last → blockHash x = some (b.block x).hash)
    (hnone : ∀ x, fork < x → start ≤ x → x ≤ last → ¬a.Matched x) (tip : Nat) :
    ¬ReorgService.Mismatch store a.id blockHash tip := by
  rintro ⟨htip, stored, canon, hstored, hcanon', hne⟩
  obtain ⟨hrange, hmatched, hget, -⟩ := h.tip htip
  have hle : tip ≤ fork := by
    by_contra hgt
    exact hnone tip (Nat.not_le.mp hgt) hrange.1 hrange.2 hmatched
  rw [hget, Option.some.injEq] at hstored
  rw [hcanon tip hrange.2, Option.some.injEq] at hcanon'
  apply hne
  rw [← hcanon', ← hstored, hfork.block tip hle]

end Detected

section RolledBack

variable {start last lo : Nat} {tables : List String} {store store' : Store layout}

/-- No receipt below the rollback hangs on a transaction above it. -/
theorem Indexed.not_orphaned (h : Indexed a start last tables store) {row : EventRow}
    (hrow : row ∈ store.typed receiptsTable) (hchain : row.chainId = a.id) (hlt : row.height < lo) :
    ¬EventRepo.Orphaned store a.id lo row := by
  rintro ⟨tx, htx, habove, hid, htxid⟩
  obtain ⟨matched, hmatched, f, -, hroweq⟩ :=
    Chain.mem_receiptsAt.mp ((h.holds.receipts row hchain).mp hrow).2
  obtain ⟨matched', hmatched', htxeq⟩ := Chain.mem_transactionsAt.mp
    ((h.holds.transactions tx (hid.trans hchain)).mp htx).2
  have hsame : matched'.txId = matched.txId := by
    rw [hroweq, htxeq] at htxid
    exact htxid
  obtain ⟨hheight, -⟩ := a.txs_unique _ _ _ _ hmatched' hmatched hsame
  simp only [EventRepo.atOrAbove, Bool.and_eq_true, decide_eq_true_eq] at habove
  omega

/-- A rollback at or below the fork leaves what the new chain shares. -/
theorem Indexed.holds_rolledBack (h : Indexed a start last tables store) (hfork : Forked a b fork)
    (hrolled : UnitOfWork.RolledBack store store' a.id lo tables) (hlo : lo ≤ fork + 1) :
    Holds b store' fun x => (start ≤ x ∧ x ≤ last) ∧ x < lo := by
  have hle : ∀ x, x < lo → x ≤ fork := fun x hx => by omega
  have hkept : ∀ t, t = transactionsTable ∨ t = receiptsTable → ∀ row : EventRow,
      row.chainId = a.id → (row ∈ store'.typed t ↔ row ∈ store.typed t ∧ row.height < lo) := by
    intro t ht row hrow
    rw [hrolled.typed]
    constructor
    · rintro ⟨hmem, hkept, -⟩
      refine ⟨hmem, ?_⟩
      by_contra hge
      exact hkept ⟨(h.typed t row hmem hrow).1, hrow, Nat.not_lt.mp hge⟩
    · rintro ⟨hmem, hlt⟩
      refine ⟨hmem, fun hbad => absurd hbad.2.2 (Nat.not_le.mpr hlt), ?_⟩
      rintro ⟨rfl, -, horphan⟩
      exact h.not_orphaned hmem hrow hlt horphan
  constructor
  · rw [hfork.id]
    refine h.holds.rawRecords.keep (fun x hx => hfork.logs x (hle x hx)) fun r hr => ?_
    rw [hrolled.rawRecords, hr]
    simp
  · rw [hfork.id]
    refine h.holds.blocks.keep (fun x hx => hfork.blocksAt (hle x hx)) fun m hm => ?_
    rw [hrolled.blocks, hm]
    simp
  · rw [hfork.id]
    exact h.holds.transactions.keep (fun x hx => hfork.transactionsAt (hle x hx))
      (hkept _ (.inl rfl))
  · rw [hfork.id]
    exact h.holds.receipts.keep (fun x hx => hfork.receiptsAt (hle x hx))
      (hkept _ (.inr rfl))

theorem Indexed.rowHash_rolledBack (h : Indexed a start last tables store)
    (hfork : Forked a b fork) (hrolled : UnitOfWork.RolledBack store store' a.id lo tables)
    (hlo : lo ≤ fork + 1) {t : String} {row : EventRow} (hrow : row ∈ store'.typed t)
    (hchain : row.chainId = a.id) : row.blockHash = (b.block row.height).hash := by
  rw [hrolled.typed] at hrow
  obtain ⟨hmem, hkept, -⟩ := hrow
  obtain ⟨htable, -, -, hhash⟩ := h.typed t row hmem hchain
  have hlt : row.height < lo := by
    by_contra hge
    exact hkept ⟨htable, hchain, Nat.not_lt.mp hge⟩
  rw [hhash, hfork.block _ (by omega)]

end RolledBack

section Repaired

variable {start last : Nat} {tables : List String} {store : Store layout}

/-- A store that holds a chain carries its hashes in the ingested tables. -/
theorem Holds.repaired {covered : Nat → Prop} (h : Holds b store covered)
    (hcovered : ∀ x, start ≤ x → x ≤ last → covered x)
    (hrows : ∀ t, t ≠ transactionsTable → t ≠ receiptsTable → ∀ row ∈ store.typed t,
      row.chainId = b.id → row.blockHash = (b.block row.height).hash) :
    Repaired b start last store where
  rawRecords r hr hlo hhi := by
    rw [h.rawRecords r hr]
    exact and_iff_right (hcovered _ hlo hhi)
  blocks m hm hlo hhi := by
    rw [h.blocks m hm]
    exact and_iff_right (hcovered _ hlo hhi)
  rawHash r hmem hr := (b.logs_at _ r ((h.rawRecords r hr).mp hmem).2).2.2
  blockHash m hmem hm := by
    have hat := (Chain.mem_blocksAt.mp ((h.blocks m hm).mp hmem).2).2
    exact congrArg BlockMeta.hash hat
  rowHash t row hmem hrow := by
    by_cases htx : t = transactionsTable
    · subst htx
      obtain ⟨tx, -, heq⟩ := Chain.mem_transactionsAt.mp ((h.transactions row hrow).mp hmem).2
      exact congrArg EventRow.blockHash heq
    · by_cases hreceipts : t = receiptsTable
      · subst hreceipts
        obtain ⟨tx, -, f, -, heq⟩ := Chain.mem_receiptsAt.mp ((h.receipts row hrow).mp hmem).2
        exact congrArg EventRow.blockHash heq
      · exact hrows t htx hreceipts row hmem hrow

variable {blockHash : Nat → Option Hash} {confirmations step : Nat}
  {source : Nat → Nat → FetchedRange}

/-- The old chain had matched a replaced block of the window, or the new one has matched none. -/
def Noticeable (a b : Chain) (fork start last : Nat) : Prop :=
  (∃ h, fork < h ∧ start ≤ h ∧ h ≤ last ∧ a.Matched h) ∨
    ∀ h, fork < h → start ≤ h → h ≤ last → ¬b.Matched h

/-- A replaced matched block leads to a rollback below the fork and a full repair. -/
theorem repair_of_matched (hlayout : AuxLayout layout) (hindexed : Indexed a start last tables store)
    (htables : ∀ t ∈ tables, isValidIdent t = true) (hfork : Forked a b fork)
    (hdepth : last - fork ≤ confirmations)
    (hcanon : ∀ x, x ≤ last → blockHash x = some (b.block x).hash) (hstep : 0 < step)
    (hsource : ∀ lo hi, Serves b lo hi (source lo hi)) {x : Nat} (hx : fork < x) (hlo : start ≤ x)
    (hhi : x ≤ last) (hmatched : a.Matched x) :
    ∃ store', repair store a.id blockHash confirmations tables source last step = .ok store' ∧
      Repaired b start last store' := by
  obtain ⟨tip, hforked, hlast, hmismatch⟩ :=
    hindexed.exists_mismatch hfork hcanon hx hlo hhi hmatched
  obtain ⟨rolled, hcheck⟩ := ReorgService.exists_check_ok hmismatch confirmations htables
  have hrolled : UnitOfWork.RolledBack store rolled a.id (tip - confirmations + 1) tables := by
    rcases ReorgService.check_ok hcheck with ⟨hnone, -⟩ | ⟨tip', -, hsome, hrolled⟩
    · cases hnone
    · rw [Option.some.inj hsome]
      exact hrolled
  have hbelow : tip - confirmations + 1 ≤ fork + 1 := by omega
  have hholds := hindexed.holds_rolledBack hfork hrolled hbelow
  obtain ⟨store', hingest, hstore', htyped⟩ := IngestionService.exists_ingestAll_ok
    hlayout hsource (tip - confirmations + 1) last hstep hholds
  rw [hfork.id] at hingest
  refine ⟨store', ?_, hstore'.repaired (fun h hstart hend => ?_) fun t htx hreceipts row hrow hown => ?_⟩
  · simp only [repair, hcheck]
    exact hingest
  · by_cases hlt : h < tip - confirmations + 1
    · exact .inl ⟨⟨hstart, hend⟩, hlt⟩
    · exact .inr ⟨Nat.not_lt.mp hlt, hend⟩
  · rw [htyped t htx hreceipts] at hrow
    exact hindexed.rowHash_rolledBack hfork hrolled hbelow hrow (hown.trans hfork.id)

/-- What is left alone was already the new chain's exactly when that has matched nothing above the
fork. -/
theorem repaired_iff_of_unmatched (hindexed : Indexed a start last tables store)
    (hfork : Forked a b fork) (hnone : ∀ x, fork < x → start ≤ x → x ≤ last → ¬a.Matched x) :
    Repaired b start last store ↔ ∀ h, fork < h → start ≤ h → h ≤ last → ¬b.Matched h := by
  constructor
  · intro hrepaired h hgt hlo hhi hmatched
    have hat := b.block_at h
    have hstored : b.block h ∈ store.blocks := by
      rw [hrepaired.blocks _ hat.1 (hat.2.symm ▸ hlo) (hat.2.symm ▸ hhi), hat.2]
      exact Chain.mem_blocksAt.mpr ⟨hmatched, rfl⟩
    obtain ⟨-, hold⟩ := (hindexed.holds.blocks _ (hat.1.trans hfork.id)).mp hstored
    rw [hat.2] at hold
    exact hnone h hgt hlo hhi (Chain.mem_blocksAt.mp hold).1
  · intro hnew
    have hlogs : ∀ x, start ≤ x → x ≤ last → b.logs x = a.logs x := by
      intro x hlo hhi
      by_cases hx : x ≤ fork
      · exact hfork.logs x hx
      · have hgt := Nat.not_le.mp hx
        rw [not_not.mp (hnew x hgt hlo hhi), not_not.mp (hnone x hgt hlo hhi)]
    have hmatchedLe : ∀ x, start ≤ x → x ≤ last → a.Matched x → x ≤ fork := by
      intro x hlo hhi hmatched
      by_contra hgt
      exact hnone x (Nat.not_le.mp hgt) hlo hhi hmatched
    constructor
    · intro r hr hlo hhi
      rw [hindexed.holds.rawRecords r (hr.trans hfork.id), hlogs _ hlo hhi]
      exact and_iff_right ⟨hlo, hhi⟩
    · intro m hm hlo hhi
      rw [hindexed.holds.blocks m (hm.trans hfork.id), Chain.mem_blocksAt, Chain.mem_blocksAt,
        Chain.Matched, Chain.Matched, hlogs _ hlo hhi]
      constructor
      · rintro ⟨-, hmatched, heq⟩
        exact ⟨hmatched, heq.trans (by rw [hfork.block _ (hmatchedLe _ hlo hhi hmatched)])⟩
      · rintro ⟨hmatched, heq⟩
        exact ⟨⟨hlo, hhi⟩, hmatched,
          heq.trans (by rw [hfork.block _ (hmatchedLe _ hlo hhi hmatched)])⟩
    · intro r hmem hr
      obtain ⟨hrange, hlog⟩ := (hindexed.holds.rawRecords r (hr.trans hfork.id)).mp hmem
      rw [(a.logs_at _ r hlog).2.2, hfork.block _
        (hmatchedLe _ hrange.1 hrange.2 (List.ne_nil_of_mem hlog))]
    · intro m hmem hm
      obtain ⟨hrange, hblock⟩ := (hindexed.holds.blocks m (hm.trans hfork.id)).mp hmem
      obtain ⟨hmatched, heq⟩ := Chain.mem_blocksAt.mp hblock
      rw [hfork.block _ (hmatchedLe _ hrange.1 hrange.2 hmatched), ← heq]
    · intro t row hmem hrow
      obtain ⟨-, hrange, hmatched, hhash⟩ := hindexed.typed t row hmem (hrow.trans hfork.id)
      rw [hhash, hfork.block _ (hmatchedLe _ hrange.1 hrange.2 hmatched)]

/-- A reorg that replaced no matched block is not noticed. -/
theorem repair_of_unmatched (hindexed : Indexed a start last tables store) (hfork : Forked a b fork)
    (hcanon : ∀ x, x ≤ last → blockHash x = some (b.block x).hash)
    (hnone : ∀ x, fork < x → start ≤ x → x ≤ last → ¬a.Matched x) :
    repair store a.id blockHash confirmations tables source last step = .ok store := by
  simp only [repair, ReorgService.check_of_not_mismatch
    (hindexed.not_mismatch hfork hcanon hnone)]

/-- A reorg within the confirmation depth is repaired exactly when it is noticeable. -/
theorem repair_iff_noticeable (hlayout : AuxLayout layout)
    (hindexed : Indexed a start last tables store)
    (htables : ∀ t ∈ tables, isValidIdent t = true) (hfork : Forked a b fork)
    (hdepth : last - fork ≤ confirmations)
    (hcanon : ∀ x, x ≤ last → blockHash x = some (b.block x).hash) (hstep : 0 < step)
    (hsource : ∀ lo hi, Serves b lo hi (source lo hi)) :
    ∃ store', repair store a.id blockHash confirmations tables source last step = .ok store' ∧
      (Repaired b start last store' ↔ Noticeable a b fork start last) := by
  by_cases hmatched : ∃ h, fork < h ∧ start ≤ h ∧ h ≤ last ∧ a.Matched h
  · obtain ⟨x, hx, hlo, hhi, hax⟩ := hmatched
    obtain ⟨store', hrepair, hrepaired⟩ := repair_of_matched hlayout hindexed htables hfork hdepth
      hcanon hstep hsource hx hlo hhi hax
    exact ⟨store', hrepair, iff_of_true hrepaired (.inl ⟨x, hx, hlo, hhi, hax⟩)⟩
  · have hnone : ∀ x, fork < x → start ≤ x → x ≤ last → ¬a.Matched x :=
      fun x hx hlo hhi hax => hmatched ⟨x, hx, hlo, hhi, hax⟩
    refine ⟨store, repair_of_unmatched hindexed hfork hcanon hnone, ?_⟩
    rw [repaired_iff_of_unmatched hindexed hfork hnone]
    exact ⟨.inr, fun h => h.resolve_left hmatched⟩

end Repaired

/-- Every chain can be indexed: one clean ingest does it. -/
theorem exists_indexed (hlayout : AuxLayout layout) (a : Chain) (start last : Nat)
    {tables : List String} (htables : transactionsTable ∈ tables ∧ receiptsTable ∈ tables) :
    ∃ store : Store layout, Indexed a start last tables store := by
  obtain ⟨store, -, hholds, htyped⟩ := IngestionService.exists_ingestAll_ok hlayout a.serves_serve
    start last Nat.one_pos (holds_empty a : Holds a (Store.empty : Store layout) _)
  refine ⟨CursorRepo.advanceInTx store a.id last ⟨[]⟩, ?_, fun t row hrow hchain => ?_,
    ⟨[]⟩, CursorRepo.advanceInTx_cursors ..⟩
  · exact (holds_advanceInTx hholds _ _ _).congr fun h => by simp
  · have hmatched : ∀ tx ∈ a.txs row.height, a.Matched row.height := by
      intro tx htx
      obtain ⟨r, hr, -⟩ := a.log_of_tx _ tx htx
      exact List.ne_nil_of_mem hr
    by_cases htx : t = transactionsTable
    · subst htx
      obtain ⟨hrange, hin⟩ := (hholds.transactions row hchain).mp hrow
      obtain ⟨tx, hmem, heq⟩ := Chain.mem_transactionsAt.mp hin
      exact ⟨htables.1, by simpa using hrange, hmatched tx hmem, congrArg EventRow.blockHash heq⟩
    · by_cases hreceipts : t = receiptsTable
      · subst hreceipts
        obtain ⟨hrange, hin⟩ := (hholds.receipts row hchain).mp hrow
        obtain ⟨tx, hmem, f, -, heq⟩ := Chain.mem_receiptsAt.mp hin
        exact ⟨htables.2, by simpa using hrange, hmatched tx hmem, congrArg EventRow.blockHash heq⟩
      · have hempty : store.typed t = Table.empty := htyped t htx hreceipts
        have hrow' : row ∈ store.typed t := hrow
        rw [hempty] at hrow'
        exact absurd hrow' (Table.not_mem_empty row)

theorem forked_plainChain (id : ChainId) {matched matched' : Nat → Bool} {tag tag' : Nat → UInt8}
    (hmatched : ∀ h, h ≤ fork → matched' h = matched h) (htag : ∀ h, h ≤ fork → tag' h = tag h)
    (hne : ∀ h, fork < h → tag h ≠ tag' h) :
    Forked (plainChain id matched tag) (plainChain id matched' tag') fork := by
  have hhash : ∀ h, h ≤ fork → plainHash tag' h = plainHash tag h := by
    intro h hh
    rw [plainHash, plainHash, htag h hh]
  constructor
  · rfl
  · intro h hh
    simp only [plainChain, hhash h hh, hhash (h - 1) (by omega)]
  · intro h hh
    simp only [plainChain, hmatched h hh, hhash h hh]
  · intro h hh
    simp only [plainChain, hmatched h hh, hhash h hh]
  · intro h hh heq
    apply hne h hh
    simp only [plainChain, plainHash, Hash.mk.injEq, List.cons.injEq] at heq
    exact heq.1

theorem isValidIdent_auxTables : ∀ t ∈ auxTables, isValidIdent t = true := by decide

/-- The blocks from 3 on are replaced. -/
def fromThree (h : Nat) : UInt8 := if h ≤ 2 then 0 else 1

theorem forked_fromThree {matched matched' : Nat → Bool}
    (hmatched : ∀ h, h ≤ 2 → matched' h = matched h) :
    Forked (plainChain 1 matched fun _ => 0) (plainChain 1 matched' fromThree) 2 :=
  forked_plainChain 1 hmatched (fun _ hh => if_pos hh) fun h hh => by
    simp [fromThree, Nat.not_le.mpr hh]

/-- Block 3 held a log before and after it was replaced. -/
theorem repair_replaced_match :
    ∃ store store' : Store eventLayout,
      repair store 1 (fun h => some (plainHash fromThree h)) 1 auxTables
        (plainChain 1 (fun h => h == 3) fromThree).serve 3 10 = .ok store' ∧
      Repaired (plainChain 1 (fun h => h == 3) fromThree) 1 3 store' := by
  obtain ⟨store, hindexed⟩ : ∃ store : Store eventLayout,
      Indexed (plainChain 1 (fun h => h == 3) fun _ => 0) 1 3 auxTables store :=
    exists_indexed auxLayout_eventLayout _ 1 3 ⟨by decide, by decide⟩
  obtain ⟨store', hrepair, hiff⟩ : ∃ store',
      repair store 1 (fun h => some (plainHash fromThree h)) 1 auxTables
        (plainChain 1 (fun h => h == 3) fromThree).serve 3 10 = .ok store' ∧
      (Repaired (plainChain 1 (fun h => h == 3) fromThree) 1 3 store' ↔ _) :=
    repair_iff_noticeable auxLayout_eventLayout hindexed isValidIdent_auxTables
      (forked_fromThree fun _ _ => rfl) (by decide) (fun _ _ => rfl) (by decide)
      (Chain.serves_serve _)
  exact ⟨store, store', hrepair, hiff.mpr (.inl ⟨3, by decide, by decide, by decide, by decide⟩)⟩

/-- Block 3 is replaced and only the new one holds a log: block 1 is still canonical, nothing is
rolled back and block 3 stays missing. -/
theorem not_repaired_new_match :
    ∃ store store' : Store eventLayout,
      Indexed (plainChain 1 (fun h => h == 1) fun _ => 0) 1 3 auxTables store ∧
      Forked (plainChain 1 (fun h => h == 1) fun _ => 0)
        (plainChain 1 (fun h => h == 1 || h == 3) fromThree) 2 ∧
      repair store 1 (fun h => some (plainHash fromThree h)) 1 auxTables
        (plainChain 1 (fun h => h == 1 || h == 3) fromThree).serve 3 10 = .ok store' ∧
      ¬Repaired (plainChain 1 (fun h => h == 1 || h == 3) fromThree) 1 3 store' := by
  obtain ⟨store, hindexed⟩ : ∃ store : Store eventLayout,
      Indexed (plainChain 1 (fun h => h == 1) fun _ => 0) 1 3 auxTables store :=
    exists_indexed auxLayout_eventLayout _ 1 3 ⟨by decide, by decide⟩
  have hfork : Forked (plainChain 1 (fun h => h == 1) fun _ => 0)
      (plainChain 1 (fun h => h == 1 || h == 3) fromThree) 2 := by
    refine forked_fromThree fun h hh => ?_
    have hne : h ≠ 3 := by omega
    simp [hne]
  have hnone : ∀ x, 2 < x → 1 ≤ x → x ≤ 3 →
      ¬(plainChain 1 (fun h => h == 1) fun _ => 0).Matched x := by
    intro x hx _ hhi
    have hthree : x = 3 := by omega
    subst hthree
    decide
  refine ⟨store, store, hindexed, hfork, ?_, fun hrepaired => ?_⟩
  · exact repair_of_unmatched hindexed hfork (fun _ _ => rfl) hnone
  · exact (repaired_iff_of_unmatched hindexed hfork hnone).mp hrepaired 3 (by decide) (by decide)
      (by decide) (by decide)

end Topic0
