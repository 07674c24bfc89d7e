import Topic0.StoreUnitOfWork

/-! Reorg detection: the canonical hash of the highest stored block is compared with the recorded
one, and on a mismatch a window of `confirmations` blocks below it is rolled back. -/

namespace Topic0.ReorgService

variable {layout : String → PkColumns}

/-- `check`: the store afterwards and the block to reindex from, if it rolled back. `blockHash` is
the source's answer for the tip. -/
def check (store : Store layout) (chain : ChainId) (supportsReorg : Bool)
    (blockHash : Nat → Option Hash) (confirmations : Nat) (tables : List String) :
    Except DomainError (Store layout × Option Nat) :=
  if !supportsReorg then .ok (store, none)
  else
    match BlockRepo.maxHeight store chain with
    | none => .ok (store, none)
    | some tip =>
        match BlockRepo.get store chain tip with
        | none => .ok (store, none)
        | some stored =>
            match blockHash tip with
            | none => .ok (store, none)
            | some canon =>
                if canon = stored.hash then .ok (store, none)
                else do
                  let fork := tip - confirmations
                  let store ← UnitOfWork.rollbackTo store chain (fork + 1) tables
                  .ok (store, some (fork + 1))

/-- The stored tip whose canonical hash is another one. -/
structure Mismatch (store : Store layout) (chain : ChainId) (blockHash : Nat → Option Hash)
    (tip : Nat) : Prop where
  highest : BlockRepo.maxHeight store chain = some tip
  differs : ∃ stored canon, BlockRepo.get store chain tip = some stored ∧
    blockHash tip = some canon ∧ canon ≠ stored.hash

/-- What a check that did not fail did: nothing, or one rollback below a mismatching tip. -/
theorem check_ok {store store' : Store layout} {chain : ChainId} {supportsReorg : Bool}
    {blockHash : Nat → Option Hash} {confirmations : Nat} {tables : List String}
    {result : Option Nat}
    (h : check store chain supportsReorg blockHash confirmations tables = .ok (store', result)) :
    (result = none ∧ store' = store) ∨
      ∃ tip, Mismatch store chain blockHash tip ∧ result = some (tip - confirmations + 1) ∧
        UnitOfWork.RolledBack store store' chain (tip - confirmations + 1) tables := by
  unfold check at h
  split at h
  · cases h
    exact .inl ⟨rfl, rfl⟩
  split at h
  · cases h
    exact .inl ⟨rfl, rfl⟩
  rename_i tip htip
  split at h
  · cases h
    exact .inl ⟨rfl, rfl⟩
  rename_i stored hstored
  split at h
  · cases h
    exact .inl ⟨rfl, rfl⟩
  rename_i canon hcanon
  split at h
  · cases h
    exact .inl ⟨rfl, rfl⟩
  rename_i hne
  rw [Rows.bind_eq_ok] at h
  obtain ⟨rolled, hrolled, heq⟩ := h
  cases heq
  exact .inr ⟨tip, ⟨htip, stored, canon, hstored, hcanon, hne⟩, rfl,
    UnitOfWork.rollbackTo_ok hrolled⟩

/-- A stored tip that is still canonical is left alone. -/
theorem check_of_not_mismatch {store : Store layout} {chain : ChainId} {supportsReorg : Bool}
    {blockHash : Nat → Option Hash} {confirmations : Nat} {tables : List String}
    (h : ∀ tip, ¬Mismatch store chain blockHash tip) :
    check store chain supportsReorg blockHash confirmations tables = .ok (store, none) := by
  unfold check
  split
  · rfl
  split
  · rfl
  rename_i tip htip
  split
  · rfl
  rename_i stored hstored
  split
  · rfl
  rename_i canon hcanon
  split
  · rfl
  rename_i hne
  exact absurd ⟨htip, stored, canon, hstored, hcanon, hne⟩ (h tip)

/-- A mismatching tip is rolled back, the tables being identifiers. -/
theorem exists_check_ok {store : Store layout} {chain : ChainId} {blockHash : Nat → Option Hash}
    {tip : Nat} (h : Mismatch store chain blockHash tip) (confirmations : Nat)
    {tables : List String} (htables : ∀ t ∈ tables, isValidIdent t = true) :
    ∃ store', check store chain true blockHash confirmations tables =
      .ok (store', some (tip - confirmations + 1)) := by
  obtain ⟨stored, canon, hstored, hcanon, hne⟩ := h.differs
  obtain ⟨store', hstore'⟩ :=
    UnitOfWork.exists_rollbackTo_ok store chain (tip - confirmations + 1) htables
  refine ⟨store', ?_⟩
  unfold check
  simp only [Bool.not_true, Bool.false_eq_true, if_false, h.highest, hstored, hcanon, hne, hstore']
  rfl

end Topic0.ReorgService
