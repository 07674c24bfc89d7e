import Topic0.BaseTransition
import Topic0.PipelineSource

/-! Decoding a range from the raw store. The ABI decoding of one log or one calldata is the
third-party part: the index maps a selector to it. Everything around it is the program's: which
records and transactions are read, how rows are built and stamped, how they reach their tables. The
orders in which a query or a hash map yields its elements are an `Order`. -/

namespace Topic0

open Keyed

/-- `AbiIndex`: selectors to the decoding of their event, and `(address, selector)` pairs to the
decoding of their function. -/
structure AbiIndex where
  byTopic0 : Hash → Option (RawRecord → Except DomainError DecodedEvent)
  byCall : List UInt8 → List UInt8 → Option (List UInt8 → Except DomainError DecodedEvent)
  callIsEmpty : Bool
  byCall_of_empty : callIsEmpty = true → ∀ address selector, byCall address selector = none

namespace AbiIndex

def rowOfRecord (raw : RawRecord) (event : DecodedEvent) : EventRow :=
  ⟨raw.chainId, raw.height, raw.blockHash, none, raw.txId, raw.index, event⟩

def rowOfCall (tx : TxCalldata) (event : DecodedEvent) : EventRow :=
  ⟨tx.chainId, tx.height, tx.blockHash, none, tx.txId, tx.txIndex, event⟩

/-- The decoding of the record's event, where its selector is known. -/
def eventOf (abi : AbiIndex) (raw : RawRecord) :
    Option (RawRecord → Except DomainError DecodedEvent) :=
  match raw.selectors with
  | [] => none
  | sel0 :: _ => if sel0.bytes.length = 32 then abi.byTopic0 sel0 else none

def decode (abi : AbiIndex) (raw : RawRecord) : Except DomainError (Option EventRow) :=
  match abi.eventOf raw with
  | none => .ok none
  | some decodeEvent => do
      let event ← decodeEvent raw
      .ok (some (rowOfRecord raw event))

def decodeCall (abi : AbiIndex) (tx : TxCalldata) : Except DomainError (Option EventRow) :=
  if tx.input.length < 4 then .ok none
  else
    match abi.byCall tx.toAddr (tx.input.take 4) with
    | none => .ok none
    | some decodeInput => do
        let event ← decodeInput tx.input
        .ok (some (rowOfCall tx event))

def hasCalls (abi : AbiIndex) : Bool := !abi.callIsEmpty

theorem decode_ok {abi : AbiIndex} {raw : RawRecord} {row : EventRow}
    (h : abi.decode raw = .ok (some row)) : ∃ event, row = rowOfRecord raw event := by
  rw [decode] at h
  split at h
  · cases h
  · rw [Rows.bind_eq_ok] at h
    obtain ⟨event, -, heq⟩ := h
    cases heq
    exact ⟨event, rfl⟩

theorem decodeCall_ok {abi : AbiIndex} {tx : TxCalldata} {row : EventRow}
    (h : abi.decodeCall tx = .ok (some row)) : ∃ event, row = rowOfCall tx event := by
  rw [decodeCall] at h
  split at h
  · cases h
  split at h
  · cases h
  · rw [Rows.bind_eq_ok] at h
    obtain ⟨event, -, heq⟩ := h
    cases heq
    exact ⟨event, rfl⟩

theorem hasCalls_of_decodeCall {abi : AbiIndex} {tx : TxCalldata} {row : EventRow}
    (h : abi.decodeCall tx = .ok (some row)) : abi.hasCalls = true := by
  cases hempty : abi.callIsEmpty with
  | false => rw [hasCalls, hempty, Bool.not_false]
  | true =>
      rw [decodeCall, abi.byCall_of_empty hempty] at h
      split at h <;> cases h

end AbiIndex

/-- The orders the language and the database leave open. -/
structure Order where
  calldata : List EventRow → List EventRow
  tables : List (String × List EventRow) → List (String × List EventRow)
  calldata_perm : ∀ l, (calldata l).Perm l
  tables_perm : ∀ l, (tables l).Perm l

section Decoding

variable {α β ε : Type}

/-- Decode one by one, dropping what is not indexed; the first error ends it. -/
def decodeAll (f : α → Except ε (Option β)) : List α → Except ε (List β)
  | [] => .ok []
  | a :: as => do
      let row ← f a
      let rest ← decodeAll f as
      .ok (row.toList ++ rest)

theorem mem_decodeAll {f : α → Except ε (Option β)} {as : List α} {bs : List β}
    (h : decodeAll f as = .ok bs) {b : β} : b ∈ bs ↔ ∃ a ∈ as, f a = .ok (some b) := by
  induction as generalizing bs with
  | nil =>
      cases h
      simp
  | cons a as ih =>
      rw [decodeAll, Rows.bind_eq_ok] at h
      obtain ⟨row, hrow, h⟩ := h
      rw [Rows.bind_eq_ok] at h
      obtain ⟨rest, hrest, heq⟩ := h
      cases heq
      rw [List.mem_append, ih hrest, Option.mem_toList]
      simp [hrow]

end Decoding

variable {layout : String → PkColumns}

def EventRow.field (row : EventRow) (name : String) : Option EventValue := row.event.fields.lookup name

/-- One row of the calldata query. A row without an input cannot be read. -/
def calldataRow (row : EventRow) : Except DomainError TxCalldata :=
  let toAddr := match row.field "to_addr" with
    | some (.address bytes) => bytes
    | _ => []
  match row.field "input" with
  | some (.bytes input) =>
      .ok ⟨row.chainId, row.height, row.blockHash, row.txId, toAddr, row.index, input⟩
  | _ => .error (.storage "unexpected null in column input")

theorem calldataRow_ok {row : EventRow} {calldata : TxCalldata}
    (h : calldataRow row = .ok calldata) :
    calldata.chainId = row.chainId ∧ calldata.height = row.height ∧ calldata.txId = row.txId := by
  simp only [calldataRow] at h
  split at h
  · cases h
    exact ⟨rfl, rfl, rfl⟩
  · cases h

/-- `SELECT … FROM transactions WHERE chain_id = $1 AND tx_id = ANY($2)`. -/
def matchedTransactions (store : Store layout) (chain : ChainId) (raw : List RawRecord) :
    List EventRow :=
  (store.typed transactionsTable).rows.filter fun tx =>
    tx.chainId == chain && raw.any fun r => r.txId == tx.txId

/-- The calldata half of a range: nothing is read when no function is configured. -/
def decodeCalls (order : Order) (decoder : AbiIndex) (store : Store layout) (chain : ChainId)
    (raw : List RawRecord) : Except DomainError (List EventRow) :=
  if decoder.hasCalls then do
    let txs ← (order.calldata (matchedTransactions store chain raw)).mapM calldataRow
    decodeAll decoder.decodeCall txs
  else .ok []

def stamp (times : List (Nat × Int)) (row : EventRow) : EventRow :=
  { row with blockTime := times.lookup row.height }

/-- All rows a range decodes to, by table. -/
def decodedTables (order : Order) (decoder : AbiIndex) (store : Store layout) (chain : ChainId)
    (raw : List RawRecord) (times : List (Nat × Int)) :
    Except DomainError (List (String × List EventRow)) := do
  let events ← decodeAll decoder.decode raw
  let calls ← decodeCalls order decoder store chain raw
  .ok (order.tables (Rows.buckets (fun row => row.event.table)
    ((events ++ calls).map (stamp times))))

/-- `decode_range`: one transaction per table, and the number of rows written. -/
def decodeRange (order : Order) (decoder : AbiIndex) (store : Store layout) (chain : ChainId)
    (lo hi : Nat) : Except DomainError (Store layout × Nat) := do
  let raw := RawRecordRepo.range store chain lo hi
  let times := BlockRepo.times store chain lo hi
  let tables ← decodedTables order decoder store chain raw times
  tables.foldlM (fun written group => do
    let (store, n) ← EventRepo.upsertBatch written.1 group.1 group.2
    .ok (store, written.2 + n)) (store, 0)

/-- The first of the transactions of a decode, and the rest of them after it. -/
theorem upsertTables_cons {store store' : Store layout} {group : String × List EventRow}
    {tables : List (String × List EventRow)} {n n' : Nat}
    (h : (group :: tables).foldlM (fun (written : Store layout × Nat) group => do
      let (store, m) ← EventRepo.upsertBatch written.1 group.1 group.2
      .ok (store, written.2 + m)) (store, n) = .ok (store', n')) :
    ∃ written m, EventRepo.upsertBatch store group.1 group.2 = .ok (written, m) ∧
      tables.foldlM (fun (written : Store layout × Nat) group => do
        let (store, m) ← EventRepo.upsertBatch written.1 group.1 group.2
        .ok (store, written.2 + m)) (written, n + m) = .ok (store', n') := by
  rw [List.foldlM_cons, Rows.bind_eq_ok] at h
  obtain ⟨next, hnext, hrest⟩ := h
  rw [Rows.bind_eq_ok] at hnext
  obtain ⟨⟨written, m⟩, hwritten, heq⟩ := hnext
  cases heq
  exact ⟨written, m, hwritten, hrest⟩

/-- A system that takes `decode_range` apart: a step for each statement, and what is known of a state
between two of them. -/
structure RangeSteps {σ α : Type} (S : Transition.System σ α) (db : σ → Store layout)
    (order : Order) (decoder : AbiIndex) (chain : ChainId) (lo hi : Nat) where
  readRaw : α
  readTimes : α
  decode : α
  upsert : α
  ready : σ → Prop
  rawRead : List RawRecord → σ → Prop
  timed : List RawRecord → List (Nat × Int) → σ → Prop
  writing : List (String × List EventRow) → σ → Prop
  readRaw_step : ∀ s, ready s → ∃ t, S.step s readRaw = some t ∧ db t = db s ∧
    rawRead (RawRecordRepo.range (db s) chain lo hi) t
  readTimes_step : ∀ s raw, rawRead raw s → ∃ t, S.step s readTimes = some t ∧ db t = db s ∧
    timed raw (BlockRepo.times (db s) chain lo hi) t
  decode_step : ∀ s raw times tables, timed raw times s →
    decodedTables order decoder (db s) chain raw times = .ok tables →
      ∃ t, S.step s decode = some t ∧ db t = db s ∧ writing tables t
  upsert_step : ∀ s group remaining written m, writing (group :: remaining) s →
    EventRepo.upsertBatch (db s) group.1 group.2 = .ok (written, m) →
      ∃ t, S.step s upsert = some t ∧ db t = written ∧ writing remaining t

namespace RangeSteps

variable {σ α : Type} {S : Transition.System σ α} {db : σ → Store layout} {order : Order}
  {decoder : AbiIndex} {chain : ChainId} {lo hi : Nat}
  (steps : RangeSteps S db order decoder chain lo hi)

/-- One after the other, the transactions of the tables are those of the range. -/
theorem exec_upserts (tables : List (String × List EventRow)) {s : σ} {store' : Store layout}
    {n n' : Nat} (hs : steps.writing tables s)
    (h : tables.foldlM (fun (written : Store layout × Nat) group => do
      let (store, m) ← EventRepo.upsertBatch written.1 group.1 group.2
      .ok (store, written.2 + m)) (db s, n) = .ok (store', n')) (rest : List α) :
    ∃ t, db t = store' ∧ steps.writing [] t ∧
      Transition.exec S s (List.replicate tables.length steps.upsert ++ rest) =
        Transition.exec S t rest := by
  induction tables generalizing s n with
  | nil =>
      cases h
      exact ⟨s, rfl, hs, rfl⟩
  | cons group tables ih =>
      obtain ⟨written, m, hwritten, hrest⟩ := upsertTables_cons h
      obtain ⟨next, hnext, rfl, hwriting⟩ := steps.upsert_step s group tables written m hs hwritten
      obtain ⟨t, ht, hdone, hexec⟩ := ih hwriting hrest
      refine ⟨t, ht, hdone, ?_⟩
      rw [List.length_cons, List.replicate_succ, List.cons_append]
      exact (Transition.exec_cons hnext _).trans hexec

/-- The steps with nothing between them are `decode_range`. -/
theorem exec_decodeRange {s : σ} {store' : Store layout} {n : Nat} (hs : steps.ready s)
    (h : decodeRange order decoder (db s) chain lo hi = .ok (store', n)) (rest : List α) :
    ∃ k t, db t = store' ∧ steps.writing [] t ∧
      Transition.exec S s (steps.readRaw :: steps.readTimes :: steps.decode ::
        (List.replicate k steps.upsert ++ rest)) = Transition.exec S t rest := by
  rw [decodeRange] at h
  simp only at h
  rw [Rows.bind_eq_ok] at h
  obtain ⟨tables, htables, hfold⟩ := h
  obtain ⟨s₁, hstep₁, hdb₁, hraw⟩ := steps.readRaw_step s hs
  obtain ⟨s₂, hstep₂, hdb₂, htimed⟩ := steps.readTimes_step s₁ _ hraw
  rw [hdb₁] at htimed hdb₂
  obtain ⟨s₃, hstep₃, hdb₃, hwriting⟩ := steps.decode_step s₂ _ _ tables htimed (hdb₂ ▸ htables)
  rw [hdb₂] at hdb₃
  obtain ⟨t, ht, hdone, hexec⟩ := steps.exec_upserts tables hwriting (hdb₃ ▸ hfold) rest
  refine ⟨tables.length, t, ht, hdone, ?_⟩
  calc Transition.exec S s _
      = Transition.exec S s₁ _ := Transition.exec_cons hstep₁ _
    _ = Transition.exec S s₂ _ := Transition.exec_cons hstep₂ _
    _ = Transition.exec S s₃ _ := Transition.exec_cons hstep₃ _
    _ = Transition.exec S t rest := hexec

end RangeSteps

/-- The order in which everything was written. -/
def Order.stable : Order := ⟨id, id, fun _ => List.Perm.refl _, fun _ => List.Perm.refl _⟩

def transferTopic : Hash := ⟨List.replicate 32 1⟩

def transferTable : String := "evt_token_transfer"

/-- A contract with one event, whose value is the first byte of the log's data. -/
def transferDecoder : AbiIndex where
  byTopic0 topic :=
    if topic = transferTopic then
      some fun raw => .ok ⟨transferTable, [("value", .bytes (raw.data.take 1))]⟩
    else none
  byCall _ _ := none
  callIsEmpty := true
  byCall_of_empty _ _ _ := rfl

/-- A transfer log of block `height`. -/
def transferLog (chain : ChainId) (height : Nat) (blockHash : Hash) (value : UInt8) : RawRecord :=
  ⟨chain, height, blockHash, 0, ⟨[]⟩, [transferTopic], [value], blockHash, 0, none⟩

theorem decode_transferLog (chain : ChainId) (height : Nat) (blockHash : Hash) (value : UInt8) :
    transferDecoder.decode (transferLog chain height blockHash value) =
      .ok (some ⟨chain, height, blockHash, none, blockHash, 0,
        ⟨transferTable, [("value", .bytes [value])]⟩⟩) := rfl

theorem table_of_decode_transferDecoder {raw : RawRecord} {row : EventRow}
    (h : transferDecoder.decode raw = .ok (some row)) : row.event.table = transferTable := by
  rw [AbiIndex.decode] at h
  split at h
  · cases h
  · rename_i decodeEvent hevent
    rw [AbiIndex.eventOf] at hevent
    split at hevent
    · cases hevent
    · obtain ⟨-, htopic⟩ := Option.ite_none_right_eq_some.mp hevent
      obtain ⟨-, heq⟩ := Option.ite_none_right_eq_some.mp htopic
      cases heq
      cases h
      rfl

end Topic0
