import Topic0.BaseLoop
import Topic0.BaseTransition
import Topic0.PipelineSource
import Topic0.ReorgCheck

/-! What a detected reorg achieves. A check that finds the highest stored block replaced deletes from
`fork + 1` on, where the fork is `confirmations` below that block and at least zero. So the block
itself is deleted exactly when a window is configured and the block is not the first of the chain;
otherwise nothing is deleted at all, the same block is found again, and the check reports a rollback
each time it is repeated. -/

namespace Topic0.ReorgService

open Transition

variable {layout : String → PkColumns}

/-- Each receipt has the height of its transaction. -/
def ReceiptsLevel (store : Store layout) : Prop :=
  ∀ receipt ∈ store.typed receiptsTable, ∀ tx ∈ store.typed transactionsTable,
    tx.chainId = receipt.chainId → tx.txId = receipt.txId → receipt.height = tx.height

/-- The rows of a chain from height `lo` on are gone from the tables of a rollback, and with them
the highest stored block. -/
structure Cleared (store store' : Store layout) (chain : ChainId) (lo : Nat) (tables : List String) :
    Prop where
  tip : ∀ tip, BlockRepo.maxHeight store chain = some tip →
    lo ≤ tip ∧ BlockRepo.get store' chain tip = none
  typed : ∀ t ∈ tables, ∀ row ∈ store'.typed t, row.chainId = chain → row.height < lo
  rawRecords : ∀ r ∈ store'.rawRecords, r.chainId = chain → r.height < lo
  blocks : ∀ b ∈ store'.blocks, b.chainId = chain → b.height < lo

/-- Whatever lies below height `lo` or belongs to another chain is as it was. -/
structure Untouched (store store' : Store layout) (chain : ChainId) (lo : Nat) : Prop where
  typed : ∀ t row, (row.chainId = chain → row.height < lo) →
    (row ∈ store'.typed t ↔ row ∈ store.typed t)
  rawRecords : ∀ r : RawRecord, (r.chainId = chain → r.height < lo) →
    (r ∈ store'.rawRecords ↔ r ∈ store.rawRecords)
  blocks : ∀ b : BlockMeta, (b.chainId = chain → b.height < lo) →
    (b ∈ store'.blocks ↔ b ∈ store.blocks)
  cursors : ∀ c, c ≠ chain → store'.cursors c = store.cursors c

section RolledBack

variable {store store' : Store layout} {chain : ChainId} {lo : Nat} {tables : List String}

theorem untouched_of_rolledBack (hlevel : ReceiptsLevel store)
    (h : UnitOfWork.RolledBack store store' chain lo tables) : Untouched store store' chain lo := by
  refine ⟨fun t row hrow => ?_, fun r hr => ?_, fun b hb => ?_, fun c hc => ?_⟩
  · rw [h.typed]
    refine and_iff_left_of_imp fun hmem => ⟨fun hgone => ?_, fun hgone => ?_⟩
    · have hbelow := hrow hgone.2.1
      omega
    · -- a receipt that the cascade takes has the height of its transaction
      obtain ⟨rfl, -, tx, htx, habove, hchain, hid⟩ := hgone
      have hheight := hlevel row hmem tx htx hchain hid
      rw [EventRepo.atOrAbove, Bool.and_eq_true, beq_iff_eq, decide_eq_true_eq] at habove
      have hbelow := hrow (hchain ▸ habove.1)
      omega
  · rw [h.rawRecords]
    refine and_iff_left fun hgone => ?_
    have hbelow := hr hgone.1
    omega
  · rw [h.blocks]
    refine and_iff_left fun hgone => ?_
    have hbelow := hb hgone.1
    omega
  · rw [h.cursors]
    exact Function.update_of_ne hc _ _

theorem cleared_of_rolledBack (h : UnitOfWork.RolledBack store store' chain lo tables)
    (htip : ∀ tip, BlockRepo.maxHeight store chain = some tip → lo ≤ tip) :
    Cleared store store' chain lo tables := by
  have hblocks : ∀ b ∈ store'.blocks, b.chainId = chain → b.height < lo := by
    intro b hb hchain
    apply Nat.lt_of_not_le
    intro hle
    exact ((h.blocks b).mp hb).2 ⟨hchain, hle⟩
  refine ⟨fun tip hmax => ⟨htip tip hmax, ?_⟩, fun t ht row hrow hchain => ?_,
    fun r hr hchain => ?_, hblocks⟩
  · rw [BlockRepo.get, Keyed.Table.find?_eq_none]
    intro b hb hkey
    rw [BlockMeta.key, Prod.mk.injEq] at hkey
    have hbelow := hblocks b hb hkey.1
    have hle := htip tip hmax
    omega
  · apply Nat.lt_of_not_le
    intro hle
    exact ((h.typed t row).mp hrow).2.1 ⟨ht, hchain, hle⟩
  · apply Nat.lt_of_not_le
    intro hle
    exact ((h.rawRecords r).mp hr).2 ⟨hchain, hle⟩

/-- Fewer rows leave receipts and transactions level. -/
theorem receiptsLevel_of_rolledBack (hlevel : ReceiptsLevel store)
    (h : UnitOfWork.RolledBack store store' chain lo tables) : ReceiptsLevel store' := by
  intro receipt hreceipt tx htx
  exact hlevel receipt ((h.typed _ _).mp hreceipt).1 tx ((h.typed _ _).mp htx).1

end RolledBack

section Repeat

variable (chain : ChainId) (supportsReorg : Bool) (blockHash : Nat → Option Hash)
  (confirmations : Nat) (tables : List String)

/-- What a check that reports a rollback achieved. -/
def Progresses (store : Store layout) : Prop :=
  ∀ store' lo, check store chain supportsReorg blockHash confirmations tables =
      .ok (store', some lo) →
    Cleared store store' chain lo tables ∧ Untouched store store' chain lo

/-- One call of a repeated check, which goes on after a rollback. -/
def recheck (store : Store layout) : Store layout ⊕ Except DomainError (Store layout) :=
  match check store chain supportsReorg blockHash confirmations tables with
  | .error e => .inr (.error e)
  | .ok (store', none) => .inr (.ok store')
  | .ok (store', some _) => .inl store'

/-- The stores that a repetition goes through. -/
def rechecks (store : Store layout) : System (Store layout) Unit where
  init s := s = store
  step s _ :=
    match recheck chain supportsReorg blockHash confirmations tables s with
    | .inl store' => some store'
    | .inr _ => none

/-- The repetition ends after finitely many calls, with an answer that reports no rollback. -/
def Settles (store : Store layout) : Prop :=
  ∃ calls store', Loop.run (recheck chain supportsReorg blockHash confirmations tables) calls store =
    some (.ok store')

/-- A highest block that was replaced can be rolled back: the tables are identifiers, a window is
configured, and the block is not the first of the chain. -/
def Lowers (store : Store layout) : Prop :=
  supportsReorg = true → ∀ tip, Mismatch store chain blockHash tip →
    (∀ t ∈ tables, isValidIdent t = true) ∧ 0 < confirmations ∧ 0 < tip

variable {chain supportsReorg blockHash confirmations tables} {store store' : Store layout}

/-- A check that finds the highest block replaced is its rollback. -/
theorem check_of_mismatch {tip : Nat} (h : Mismatch store chain blockHash tip) :
    check store chain true blockHash confirmations tables =
      (UnitOfWork.rollbackTo store chain (tip - confirmations + 1) tables).map
        fun store' => (store', some (tip - confirmations + 1)) := by
  obtain ⟨stored, canon, hstored, hcanon, hne⟩ := h.differs
  unfold check
  simp only [Bool.not_true, Bool.false_eq_true, if_false, h.highest, hstored, hcanon, hne]
  rfl

/-- A rollback at or below the highest block lowers it. -/
theorem progresses_of_lowers (hlevel : ReceiptsLevel store)
    (h : Lowers chain supportsReorg blockHash confirmations tables store) :
    Progresses chain supportsReorg blockHash confirmations tables store := by
  intro store' lo hcheck
  cases supportsReorg with
  | false => cases hcheck
  | true =>
      rcases check_ok hcheck with ⟨hnone, -⟩ | ⟨tip, hmismatch, hsome, hrolled⟩
      · cases hnone
      cases hsome
      obtain ⟨-, hconfirmations, hpos⟩ := h rfl tip hmismatch
      refine ⟨cleared_of_rolledBack hrolled fun tip' hmax => ?_,
        untouched_of_rolledBack hlevel hrolled⟩
      rw [hmismatch.highest, Option.some.injEq] at hmax
      omega

/-- The highest stored block, for the measure of a repetition. -/
def tipWeight (chain : ChainId) (store : Store layout) : Nat :=
  (BlockRepo.maxHeight store chain).elim 0 (· + 1)

theorem tipWeight_lt_of_cleared {lo tip : Nat} (h : Cleared store store' chain lo tables)
    (htip : BlockRepo.maxHeight store chain = some tip) :
    tipWeight chain store' < tipWeight chain store := by
  have hle := (h.tip tip htip).1
  rw [tipWeight, tipWeight, htip, Option.elim_some]
  cases hmax : BlockRepo.maxHeight store' chain with
  | none =>
      rw [Option.elim_none]
      omega
  | some tip' =>
      obtain ⟨⟨b, hb, hchain, rfl⟩, -⟩ := BlockRepo.maxHeight_eq_some.mp hmax
      have hbelow := h.blocks b hb hchain
      rw [Option.elim_some]
      omega

/-- A call that goes on has rolled back a mismatch. -/
theorem rolledBack_of_recheck
    (h : recheck chain supportsReorg blockHash confirmations tables store = .inl store') :
    ∃ lo tip, check store chain supportsReorg blockHash confirmations tables =
        .ok (store', some lo) ∧ Mismatch store chain blockHash tip ∧
      UnitOfWork.RolledBack store store' chain lo tables := by
  unfold recheck at h
  split at h
  · cases h
  · cases h
  · rename_i next lo hcheck
    cases h
    rcases check_ok hcheck with ⟨hnone, -⟩ | ⟨tip, hmismatch, hsome, hrolled⟩
    · cases hnone
    · rw [Option.some.injEq] at hsome
      exact ⟨lo, tip, hcheck, hmismatch, hsome ▸ hrolled⟩

/-- A call that meets no mismatch, or one it can roll back, does not fail. -/
theorem recheck_of_lowers (h : Lowers chain supportsReorg blockHash confirmations tables store) :
    recheck chain supportsReorg blockHash confirmations tables store = .inr (.ok store) ∨
      ∃ store', recheck chain supportsReorg blockHash confirmations tables store = .inl store' := by
  unfold recheck
  cases supportsReorg with
  | false => exact .inl rfl
  | true =>
      by_cases hmismatch : ∃ tip, Mismatch store chain blockHash tip
      · obtain ⟨tip, hmismatch⟩ := hmismatch
        obtain ⟨store', hcheck⟩ := exists_check_ok hmismatch confirmations (h rfl tip hmismatch).1
        rw [hcheck]
        exact .inr ⟨store', rfl⟩
      · rw [check_of_not_mismatch fun tip htip => hmismatch ⟨tip, htip⟩]
        exact .inl rfl

theorem rechecks_step {s s' : Store layout} {a : Unit}
    (h : (rechecks chain supportsReorg blockHash confirmations tables store).step s a = some s') :
    recheck chain supportsReorg blockHash confirmations tables s = .inl s' := by
  simp only [rechecks] at h
  split at h
  · rename_i next hnext
    cases h
    exact hnext
  · cases h

theorem receiptsLevel_of_reachable (hlevel : ReceiptsLevel store) {s : Store layout}
    (h : Reachable (rechecks chain supportsReorg blockHash confirmations tables store) anyStep s) :
    ReceiptsLevel s := by
  apply h.invariant ReceiptsLevel
  · intro s hinit
    rw [hinit]
    exact hlevel
  · intro s _ s' hs _ hstep
    obtain ⟨lo, tip, -, -, hrolled⟩ := rolledBack_of_recheck (rechecks_step hstep)
    exact receiptsLevel_of_rolledBack hs hrolled

/-- Checks that can all roll back their mismatches come to an end. -/
theorem settles_of_lowers (hlevel : ReceiptsLevel store)
    (h : ∀ s, Reachable (rechecks chain supportsReorg blockHash confirmations tables store) anyStep s →
      Lowers chain supportsReorg blockHash confirmations tables s) :
    Settles chain supportsReorg blockHash confirmations tables store := by
  have hadvances : ∀ s,
      Reachable (rechecks chain supportsReorg blockHash confirmations tables store) anyStep s →
      Loop.Advances (Reachable (rechecks chain supportsReorg blockHash confirmations tables store)
          anyStep) (tipWeight chain)
        (fun result : Except DomainError (Store layout) => ∃ final, result = .ok final) s
        (recheck chain supportsReorg blockHash confirmations tables s) := by
    intro s hreach
    rcases recheck_of_lowers (h s hreach) with hdone | ⟨s', hnext⟩
    · rw [hdone]
      exact ⟨s, rfl⟩
    · obtain ⟨lo, tip, hcheck, hmismatch, -⟩ := rolledBack_of_recheck hnext
      have hprogress := progresses_of_lowers (receiptsLevel_of_reachable hlevel hreach) (h s hreach)
      rw [hnext]
      refine ⟨.step (a := ()) hreach trivial ?_, ?_⟩
      · simp only [rechecks, hnext]
      · exact tipWeight_lt_of_cleared (hprogress s' lo hcheck).1 hmismatch.highest
  obtain ⟨result, hrun, final, rfl⟩ := Loop.exists_run _ _ _ hadvances (.init rfl)
    (Nat.lt_succ_self _)
  exact ⟨_, final, hrun⟩

/-- A rollback above the highest block leaves the mismatch where it was. -/
theorem mismatch_of_rolledBack {tip lo : Nat} (h : Mismatch store chain blockHash tip)
    (hlo : tip < lo) (hrolled : UnitOfWork.RolledBack store store' chain lo tables) :
    Mismatch store' chain blockHash tip := by
  obtain ⟨stored, canon, hstored, hcanon, hne⟩ := h.differs
  obtain ⟨-, hhighest⟩ := BlockRepo.maxHeight_eq_some.mp h.highest
  obtain ⟨hmem, hkey⟩ := Keyed.Table.find?_eq_some.mp hstored
  obtain ⟨hchain, hheight⟩ := Prod.mk.inj hkey
  have hkept : stored ∈ store'.blocks := by
    rw [hrolled.blocks]
    refine ⟨hmem, fun hgone => ?_⟩
    omega
  refine ⟨BlockRepo.maxHeight_eq_some.mpr ⟨⟨stored, hkept, hchain, hheight⟩, fun b hb hb' => ?_⟩,
    stored, canon, Keyed.Table.find?_eq_some.mpr ⟨hkept, hkey⟩, hcanon, hne⟩
  exact hhighest b ((hrolled.blocks b).mp hb).1 hb'

/-- A mismatch that cannot be rolled back is found again by every further call. -/
theorem not_settled_of_stuck {tip : Nat} (h : Mismatch store chain blockHash tip)
    (hstuck : ¬((∀ t ∈ tables, isValidIdent t = true) ∧ 0 < confirmations ∧ 0 < tip)) (calls : Nat)
    (final : Store layout) :
    Loop.run (recheck chain true blockHash confirmations tables) calls store ≠ some (.ok final) := by
  induction calls generalizing store with
  | zero =>
      intro hrun
      cases hrun
  | succ calls ih =>
      rw [Loop.run, recheck, check_of_mismatch h]
      cases hrollback : UnitOfWork.rollbackTo store chain (tip - confirmations + 1) tables with
      | error e =>
          intro hrun
          cases hrun
      | ok store' =>
          have htables := UnitOfWork.isValidIdent_of_rollbackTo_ok hrollback
          have habove : tip < tip - confirmations + 1 := by
            by_contra hbelow
            apply hstuck
            refine ⟨htables, ?_, ?_⟩
            · omega
            · omega
          exact ih (mismatch_of_rolledBack h habove (UnitOfWork.rollbackTo_ok hrollback))

theorem settles_step (h : Settles chain supportsReorg blockHash confirmations tables store)
    (hnext : recheck chain supportsReorg blockHash confirmations tables store = .inl store') :
    Settles chain supportsReorg blockHash confirmations tables store' := by
  obtain ⟨calls, final, hrun⟩ := h
  cases calls with
  | zero => cases hrun
  | succ calls =>
      rw [Loop.run, hnext] at hrun
      exact ⟨calls, final, hrun⟩

/-- Every store of a repetition that ends could be rolled back where it had to be. -/
theorem lowers_of_settles (h : Settles chain supportsReorg blockHash confirmations tables store) :
    ∀ s, Reachable (rechecks chain supportsReorg blockHash confirmations tables store) anyStep s →
      Lowers chain supportsReorg blockHash confirmations tables s := by
  intro s hreach
  have hsettles : Settles chain supportsReorg blockHash confirmations tables s := by
    apply hreach.invariant (Settles chain supportsReorg blockHash confirmations tables)
    · intro s hinit
      rw [hinit]
      exact h
    · intro s _ s' hs _ hstep
      exact settles_step hs (rechecks_step hstep)
  intro hsupports tip hmismatch
  subst hsupports
  obtain ⟨calls, final, hrun⟩ := hsettles
  by_contra hstuck
  exact not_settled_of_stuck hmismatch hstuck calls final hrun

/-- With a window, identifiers and no stored first block, every mismatch can be rolled back. -/
theorem lowers_of_window (htables : ∀ t ∈ tables, isValidIdent t = true) (hwindow : 0 < confirmations)
    (hfirst : ∀ b ∈ store.blocks, b.chainId = chain → 0 < b.height) :
    ∀ s, Reachable (rechecks chain supportsReorg blockHash confirmations tables store) anyStep s →
      Lowers chain supportsReorg blockHash confirmations tables s := by
  intro s hreach hsupports tip hmismatch
  have hblocks : ∀ b ∈ s.blocks, b.chainId = chain → 0 < b.height := by
    apply hreach.invariant (fun s : Store layout => ∀ b ∈ s.blocks, b.chainId = chain → 0 < b.height)
    · intro s hinit
      rw [hinit]
      exact hfirst
    · intro s _ s' hs _ hstep b hb
      obtain ⟨lo, tip, -, -, hrolled⟩ := rolledBack_of_recheck (rechecks_step hstep)
      exact hs b ((hrolled.blocks b).mp hb).1
  obtain ⟨⟨b, hb, hchain, rfl⟩, -⟩ := BlockRepo.maxHeight_eq_some.mp hmismatch.highest
  exact ⟨htables, hwindow, hblocks b hb hchain⟩

/-- Repeated checks clear what was replaced, touch nothing else and come to an end exactly when each
of them can roll back the mismatch it meets. -/
theorem reorg_progresses_iff_lowers (hlevel : ReceiptsLevel store) :
    ((∀ s, Reachable (rechecks chain supportsReorg blockHash confirmations tables store) anyStep s →
        Progresses chain supportsReorg blockHash confirmations tables s) ∧
      Settles chain supportsReorg blockHash confirmations tables store) ↔
    ∀ s, Reachable (rechecks chain supportsReorg blockHash confirmations tables store) anyStep s →
      Lowers chain supportsReorg blockHash confirmations tables s := by
  constructor
  · intro h
    exact lowers_of_settles h.2
  · intro h
    refine ⟨fun s hs => ?_, settles_of_lowers hlevel h⟩
    exact progresses_of_lowers (receiptsLevel_of_reachable hlevel hs) (h s hs)

/-- Blocks of chain 1 at the given heights, all of a chain that was replaced. -/
def staleBlocks (heights : List Nat) : Store eventLayout :=
  { Store.empty with
    blocks := Keyed.Table.empty.upsertAll (heights.map fun h => ⟨1, h, ⟨[7]⟩, ⟨[]⟩, 0⟩) }

theorem receiptsLevel_staleBlocks (heights : List Nat) : ReceiptsLevel (staleBlocks heights) :=
  fun receipt hreceipt => absurd hreceipt (Keyed.Table.not_mem_empty receipt)

/-- Blocks 3 and 5 are replaced, and two confirmations are configured. -/
theorem reorg_progresses_two_windows :
    (∀ s, Reachable (rechecks 1 true (fun _ => some ⟨[8]⟩) 2 ["evt_a"] (staleBlocks [3, 5])) anyStep s →
        Progresses 1 true (fun _ => some ⟨[8]⟩) 2 ["evt_a"] s) ∧
      Settles 1 true (fun _ => some ⟨[8]⟩) 2 ["evt_a"] (staleBlocks [3, 5]) :=
  (reorg_progresses_iff_lowers (receiptsLevel_staleBlocks [3, 5])).mpr
    (lowers_of_window (by decide +kernel) (by decide) (by decide +kernel))

/-- Without a window the replaced block stays. -/
theorem not_progresses_without_window :
    ¬∀ (store : Store eventLayout) (confirmations : Nat), ReceiptsLevel store →
      Progresses 1 true (fun _ => some ⟨[8]⟩) confirmations [] store ∧
        Settles 1 true (fun _ => some ⟨[8]⟩) confirmations [] store := by
  intro hevery
  obtain ⟨-, hsettles⟩ := hevery (staleBlocks [5]) 0 (receiptsLevel_staleBlocks [5])
  have hmismatch : Mismatch (staleBlocks [5]) 1 (fun _ => some ⟨[8]⟩) 5 :=
    ⟨by decide +kernel, ⟨1, 5, ⟨[7]⟩, ⟨[]⟩, 0⟩, ⟨[8]⟩, by decide +kernel, rfl, by decide⟩
  have hwindow := (lowers_of_settles hsettles (staleBlocks [5]) (.init rfl) rfl 5 hmismatch).2.1
  exact absurd hwindow (Nat.lt_irrefl 0)

end Repeat

end Topic0.ReorgService
