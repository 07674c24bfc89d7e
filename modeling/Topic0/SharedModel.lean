import Topic0.BaseTable

/-! The chain-neutral data of the indexer: records, blocks, decoded rows, work items. Heights,
chain ids and indices are `u64` newtypes in the source; they are natural numbers here, the bound
`2 ^ 63` of the `bigint` columns being stated where a result depends on it. -/

namespace Topic0

abbrev ChainId := Nat

/-- How the program was built: with overflow checks and debug assertions, or without. -/
inductive Build where
  | debug
  | release
  deriving DecidableEq, Repr

/-- Variable-length hash: a block hash, a transaction id, a selector. -/
structure Hash where
  bytes : List UInt8
  deriving DecidableEq, Repr

/-- Variable-length address. -/
structure AddressBytes where
  bytes : List UInt8
  deriving DecidableEq, Repr

inductive DomainError where
  | source (message : String)
  | storage (message : String)
  | decode (message : String)
  | schema (message : String)
  | config (message : String)
  | notFound (message : String)
  | invalid (message : String)
  deriving DecidableEq, Repr

/-- The durable, re-decodable artifact: one matching log. -/
structure RawRecord where
  chainId : ChainId
  height : Nat
  blockHash : Hash
  index : Nat
  address : AddressBytes
  selectors : List Hash
  data : List UInt8
  txId : Hash
  txIndex : Nat
  innerIndex : Option Nat
  deriving DecidableEq, Repr

/-- A decoded field value. Integers are decimal text, nested values JSON text. -/
inductive EventValue where
  | address (bytes : List UInt8)
  | uint (text : String)
  | int (text : String)
  | bool (value : Bool)
  | bytes (bytes : List UInt8)
  | string (text : String)
  | hash (bytes : List UInt8)
  | json (text : String)
  deriving DecidableEq, Repr

/-- A decoded record: target table and ordered named field values. -/
structure DecodedEvent where
  table : String
  fields : List (String × EventValue)
  deriving DecidableEq, Repr

/-- A row of a typed table. -/
structure EventRow where
  chainId : ChainId
  height : Nat
  blockHash : Hash
  blockTime : Option Int
  txId : Hash
  index : Nat
  event : DecodedEvent
  deriving DecidableEq, Repr

/-- Block metadata, for timestamps and reorg detection. -/
structure BlockMeta where
  chainId : ChainId
  height : Nat
  hash : Hash
  parentHash : Hash
  time : Int
  deriving DecidableEq, Repr

/-- A stored transaction's calldata; `toAddr` is empty for a contract creation. -/
structure TxCalldata where
  chainId : ChainId
  height : Nat
  blockHash : Hash
  txId : Hash
  toAddr : List UInt8
  txIndex : Nat
  input : List UInt8
  deriving DecidableEq, Repr

/-- The fence meant to be bumped on a reorg. -/
structure Epoch where
  value : Nat
  deriving DecidableEq, Repr

inductive WorkKind where
  | backfill
  | tip
  | reorg
  deriving DecidableEq, Repr

/-- A height range to decode for one chain: a pointer, not a payload. -/
structure WorkItem where
  chainId : ChainId
  fromHeight : Nat
  toHeight : Nat
  kind : WorkKind
  epoch : Epoch
  deriving DecidableEq, Repr

/-- A leased work item with the handle its ack needs. -/
structure Lease where
  id : Nat
  leaseSeq : Nat
  item : WorkItem
  deriving DecidableEq, Repr

/-- Block metadata and enrichment rows of one fetched range. -/
structure AuxData where
  blockMetas : List BlockMeta
  enrichment : List EventRow
  deriving DecidableEq, Repr

/-- `AuxData::default()`. -/
def AuxData.none : AuxData := ⟨[], []⟩

/-- Fetched but unwritten range. -/
structure FetchedRange where
  fromHeight : Nat
  toHeight : Nat
  records : List RawRecord
  aux : AuxData
  lastBlock : Option (Nat × Hash)
  deriving DecidableEq, Repr

/-- All writes of one ingested range. -/
structure IngestBatch where
  rawRecords : List RawRecord
  blockMetas : List BlockMeta
  enrichment : List EventRow
  enqueue : Option WorkItem
  advanceCursor : Option (ChainId × Nat × Hash)
  deriving DecidableEq, Repr

/-- Primary key of `raw_records`. -/
def RawRecord.key (r : RawRecord) : ChainId × Nat × Nat := (r.chainId, r.height, r.index)

/-- Primary key of `blocks`. -/
def BlockMeta.key (b : BlockMeta) : ChainId × Nat := (b.chainId, b.height)

/-- The primary key a typed table is created with: `(chain_id, height, idx)` for event tables,
`(chain_id, tx_id)` for call tables and the two aux tables. -/
inductive PkColumns where
  | event
  | aux
  deriving DecidableEq, Repr

inductive PrimaryKey where
  | event (chain : ChainId) (height : Nat) (idx : Nat)
  | aux (chain : ChainId) (txId : Hash)
  deriving DecidableEq, Repr

def EventRow.primaryKey : PkColumns → EventRow → PrimaryKey
  | .event, r => .event r.chainId r.height r.index
  | .aux, r => .aux r.chainId r.txId

def transactionsTable : String := "transactions"

/-- `RECEIPTS_TABLE`: subordinate to its transaction by a foreign key on `(chain_id, tx_id)`. -/
def receiptsTable : String := "receipts"

def auxTables : List String := [transactionsTable, receiptsTable]

/-- Every typed table but the receipts carries the block position `idx`. -/
def tableHasIdx (table : String) : Bool := table != receiptsTable

/-- A safe SQL identifier: lowercase, digit or underscore, no leading digit, at most 63 bytes. -/
def isValidIdent (name : String) : Bool :=
  !name.toList.isEmpty && decide (name.utf8ByteSize ≤ 63) &&
    name.toList.all (fun c => c.isLower || c.isDigit || c == '_') &&
    !name.toList.head?.any Char.isDigit

end Topic0
