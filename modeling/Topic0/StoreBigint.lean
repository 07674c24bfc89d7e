import Topic0.BaseEncoded
import Topic0.BaseSimulation
import Topic0.StoreStatements

/-! The tables as the database holds them. Chain ids, heights and indices are `u64` in the program and
go into `bigint` columns by `as i64`, selectors into one framed blob, and every query compares, sorts
and takes maxima of the signed values before `as u64` brings them back. As long as heights and indices
stay below `2 ^ 63`, the tables of the database and the tables of records run in lockstep, and every
read of the one is the read of the other. -/

namespace Topic0

open Keyed

/-- `as u64` of a `bigint`. -/
def asU64 (value : Int) : Nat := (value % 2 ^ 64).toNat

theorem bigint_of_lt {n : Nat} (h : n < 2 ^ 63) : bigint n = n := by
  unfold bigint
  rw [Int.bmod_def]
  norm_num
  omega

theorem asU64_bigint {n : Nat} (h : n < 2 ^ 64) : asU64 (bigint n) = n := by
  unfold asU64 bigint
  have hmod : Int.bmod (n : Int) (2 ^ 64) % ((2 ^ 64 : Nat) : Int) = (n : Int) % ((2 ^ 64 : Nat) : Int) :=
    Int.bmod_emod
  norm_num at hmod ⊢
  rw [hmod]
  omega

theorem bigint_inj {n m : Nat} (hn : n < 2 ^ 64) (hm : m < 2 ^ 64) :
    bigint n = bigint m ↔ n = m := by
  constructor
  · intro heq
    rw [← asU64_bigint hn, heq, asU64_bigint hm]
  · exact congrArg bigint

theorem bigint_le {n m : Nat} (hn : n < 2 ^ 63) (hm : m < 2 ^ 63) : bigint n ≤ bigint m ↔ n ≤ m := by
  rw [bigint_of_lt hn, bigint_of_lt hm]
  exact Int.ofNat_le

/-- From `2 ^ 63` on the order is lost. -/
example : bigint (2 ^ 63) < bigint 0 := by
  unfold bigint
  decide

namespace Sql

/-- A row of `raw_records`. -/
structure RawRow where
  chainId : Int
  height : Int
  idx : Int
  blockHash : List UInt8
  address : List UInt8
  selectors : List UInt8
  data : List UInt8
  txId : List UInt8
  txIndex : Int
  innerIndex : Option Int
  deriving DecidableEq, Repr

/-- A row of `blocks`. -/
structure BlockRow where
  chainId : Int
  height : Int
  hash : List UInt8
  parentHash : List UInt8
  time : Int
  deriving DecidableEq, Repr

/-- A row of `cursors`. -/
structure CursorRow where
  chainId : Int
  lastHeight : Int
  lastHash : List UInt8
  deriving DecidableEq, Repr

def RawRow.key (row : RawRow) : Int × Int × Int := (row.chainId, row.height, row.idx)

def BlockRow.key (row : BlockRow) : Int × Int := (row.chainId, row.height)

structure Database where
  rawRecords : Table RawRow.key
  blocks : Table BlockRow.key
  cursors : Table CursorRow.chainId

def Database.empty : Database := ⟨Table.empty, Table.empty, Table.empty⟩

/-- What `insert_batch_tx` binds for a record. -/
def RawRow.ofRecord (r : RawRecord) : RawRow :=
  ⟨bigint r.chainId, bigint r.height, bigint r.index, r.blockHash.bytes, r.address.bytes,
    frameSelectors r.selectors, r.data, r.txId.bytes, bigint r.txIndex, r.innerIndex.map bigint⟩

/-- What `range` makes of a row; no result is a failed debug assertion of `unframe_selectors`. -/
def RawRow.toRecord (build : Build) (chain : ChainId) (row : RawRow) : Option RawRecord :=
  match unframeSelectors build row.selectors with
  | some (some selectors) =>
      some ⟨chain, asU64 row.height, ⟨row.blockHash⟩, asU64 row.idx, ⟨row.address⟩, selectors,
        row.data, ⟨row.txId⟩, asU64 row.txIndex, row.innerIndex.map asU64⟩
  | _ => none

/-- What the blocks' `upsert_batch_tx` binds. -/
def BlockRow.ofMeta (b : BlockMeta) : BlockRow :=
  ⟨bigint b.chainId, bigint b.height, b.hash.bytes, b.parentHash.bytes, b.time⟩

namespace Database

variable (db : Database)

def insertBatchTx (records : List RawRecord) : Database :=
  { db with
    rawRecords := (Rows.chunks (chunkRows RawRecordRepo.rawCols) records).foldl
      (fun table part => table.insertAll (part.map RawRow.ofRecord)) db.rawRecords }

/-- `WHERE chain_id = $1 AND height BETWEEN $2 AND $3 ORDER BY height, idx`. -/
def range (build : Build) (chain : ChainId) (lo hi : Nat) : Option (List RawRecord) :=
  ((db.rawRecords.rows.filter fun row =>
    row.chainId == bigint chain && decide (bigint lo ≤ row.height) &&
      decide (row.height ≤ bigint hi)).insertionSort
    fun a b => a.height < b.height ∨ (a.height = b.height ∧ a.idx ≤ b.idx)).mapM
      (RawRow.toRecord build chain)

def deleteRawFromHeightTx (chain : ChainId) (lo : Nat) : Database :=
  { db with
    rawRecords := db.rawRecords.delete fun row =>
      row.chainId == bigint chain && decide (bigint lo ≤ row.height) }

def upsertPart (db : Database) (part : List BlockMeta) : Except DbError Database :=
  if (part.map fun b => (BlockRow.ofMeta b).key).Nodup then
    .ok { db with blocks := db.blocks.upsertAll (part.map BlockRow.ofMeta) }
  else .error (.sqlx "ON CONFLICT DO UPDATE command cannot affect row a second time")

def upsertBatchTx (blocks : List BlockMeta) : Except DbError Database :=
  (Rows.chunks (chunkRows BlockRepo.blockCols) blocks).foldlM upsertPart db

def getBlock (chain : ChainId) (height : Nat) : Option BlockMeta :=
  (db.blocks.find? (bigint chain, bigint height)).map fun row =>
    ⟨chain, height, ⟨row.hash⟩, ⟨row.parentHash⟩, row.time⟩

def times (chain : ChainId) (lo hi : Nat) : List (Nat × Int) :=
  (db.blocks.rows.filter fun row =>
    row.chainId == bigint chain && decide (bigint lo ≤ row.height) &&
      decide (row.height ≤ bigint hi)).map fun row => (asU64 row.height, row.time)

def maxHeight (chain : ChainId) : Option Nat :=
  ((db.blocks.rows.filter fun row => row.chainId == bigint chain).map BlockRow.height).max?.map asU64

def deleteBlocksFromHeightTx (chain : ChainId) (lo : Nat) : Database :=
  { db with
    blocks := db.blocks.delete fun row =>
      row.chainId == bigint chain && decide (bigint lo ≤ row.height) }

def getCursor (chain : ChainId) : Option (Nat × Hash) :=
  (db.cursors.find? (bigint chain)).map fun row => (asU64 row.lastHeight, ⟨row.lastHash⟩)

def advanceInTx (chain : ChainId) (last : Nat) (lastHash : Hash) : Database :=
  { db with cursors := db.cursors.upsert ⟨bigint chain, bigint last, lastHash.bytes⟩ }

/-- `UPDATE cursors SET last_height = $2, last_hash = '' WHERE chain_id = $1`. -/
def rewindInTx (chain : ChainId) (last : Nat) : Database :=
  { db with
    cursors :=
      { rows := db.cursors.rows.map fun row =>
          if row.chainId = bigint chain then
            { row with lastHeight := bigint last, lastHash := [] }
          else row
        nodup := by
          rw [List.map_map]
          have hkeys : (CursorRow.chainId ∘ fun row : CursorRow =>
              if row.chainId = bigint chain then
                { row with lastHeight := bigint last, lastHash := [] }
              else row) = CursorRow.chainId := by
            funext row
            rw [Function.comp_apply]
            split <;> rfl
          rw [hkeys]
          exact db.cursors.nodup } }

end Database

/-- A write of one of the three repositories. -/
inductive Write where
  | insertRaw (records : List RawRecord)
  | deleteRaw (chain : ChainId) (lo : Nat)
  | upsertBlocks (blocks : List BlockMeta)
  | deleteBlocks (chain : ChainId) (lo : Nat)
  | advance (chain : ChainId) (last : Nat) (lastHash : Hash)
  | rewind (chain : ChainId) (last : Nat)

variable {layout : String → PkColumns}

/-- The writes on tables of records. -/
def storeSystem (layout : String → PkColumns) : Transition.System (Store layout) Write where
  init s := s = Store.empty
  step s
    | .insertRaw records => some (RawRecordRepo.insertBatchTx s records)
    | .deleteRaw chain lo => some (RawRecordRepo.deleteFromHeightTx s chain lo)
    | .upsertBlocks blocks => (BlockRepo.upsertBatchTx s blocks).toOption
    | .deleteBlocks chain lo => some (BlockRepo.deleteFromHeightTx s chain lo)
    | .advance chain last lastHash => some (CursorRepo.advanceInTx s chain last lastHash)
    | .rewind chain last => some (CursorRepo.rewindInTx s chain last)

/-- The writes on the tables of the database. -/
def sqlSystem : Transition.System Database Write where
  init db := db = Database.empty
  step db
    | .insertRaw records => some (db.insertBatchTx records)
    | .deleteRaw chain lo => some (db.deleteRawFromHeightTx chain lo)
    | .upsertBlocks blocks => (db.upsertBatchTx blocks).toOption
    | .deleteBlocks chain lo => some (db.deleteBlocksFromHeightTx chain lo)
    | .advance chain last lastHash => some (db.advanceInTx chain last lastHash)
    | .rewind chain last => some (db.rewindInTx chain last)

/-- What the columns keep apart and in order. -/
structure RawFits (r : RawRecord) : Prop where
  chainId : r.chainId < 2 ^ 64
  height : r.height < 2 ^ 63
  index : r.index < 2 ^ 63
  txIndex : r.txIndex < 2 ^ 64
  innerIndex : ∀ i ∈ r.innerIndex, i < 2 ^ 64
  selectors : Short r.selectors

structure BlockFits (b : BlockMeta) : Prop where
  chainId : b.chainId < 2 ^ 64
  height : b.height < 2 ^ 63

def Write.Fits : Write → Prop
  | .insertRaw records => ∀ r ∈ records, RawFits r
  | .upsertBlocks blocks => ∀ b ∈ blocks, BlockFits b
  | .deleteRaw chain lo | .deleteBlocks chain lo => chain < 2 ^ 64 ∧ lo < 2 ^ 63
  | .advance chain last _ | .rewind chain last => chain < 2 ^ 64 ∧ last < 2 ^ 64

/-- The database holds what the store holds. -/
structure Represents (store : Store layout) (db : Database) : Prop where
  rawRecords : Table.Encoded RawRow.ofRecord RawFits store.rawRecords db.rawRecords
  blocks : Table.Encoded BlockRow.ofMeta BlockFits store.blocks db.blocks
  cursors : ∀ chain, chain < 2 ^ 64 → db.cursors.find? (bigint chain) =
    (store.cursors chain).map fun c => ⟨bigint chain, bigint c.1, c.2.bytes⟩
  heights : ∀ chain c, store.cursors chain = some c → c.1 < 2 ^ 64

/-- Every read of the database is the read of the store. -/
structure Answers (build : Build) (store : Store layout) (db : Database) : Prop where
  range : ∀ chain lo hi, chain < 2 ^ 64 → lo < 2 ^ 63 → hi < 2 ^ 63 →
    db.range build chain lo hi = some (RawRecordRepo.range store chain lo hi)
  get : ∀ chain height, chain < 2 ^ 64 → height < 2 ^ 63 →
    db.getBlock chain height = BlockRepo.get store chain height
  times : ∀ chain lo hi, chain < 2 ^ 64 → lo < 2 ^ 63 → hi < 2 ^ 63 →
    db.times chain lo hi = BlockRepo.times store chain lo hi
  maxHeight : ∀ chain, chain < 2 ^ 64 → db.maxHeight chain = BlockRepo.maxHeight store chain
  cursor : ∀ chain, chain < 2 ^ 64 → db.getCursor chain = store.cursors chain

section Encoding

theorem beq_bigint {n m : Nat} (hn : n < 2 ^ 64) (hm : m < 2 ^ 64) :
    (bigint n == bigint m) = (n == m) := by
  rw [Bool.eq_iff_iff, beq_iff_eq, beq_iff_eq]
  exact bigint_inj hn hm

theorem RawFits.height_lt {r : RawRecord} (h : RawFits r) : r.height < 2 ^ 64 :=
  h.height.trans (by norm_num)

theorem BlockFits.height_lt {b : BlockMeta} (h : BlockFits b) : b.height < 2 ^ 64 :=
  h.height.trans (by norm_num)

/-- A record read back is the record written, in either build. -/
theorem toRecord_ofRecord (build : Build) {r : RawRecord} (h : RawFits r) :
    RawRow.toRecord build r.chainId (RawRow.ofRecord r) = some r := by
  have hindex : r.index < 2 ^ 64 := h.index.trans (by norm_num)
  have hinner : (r.innerIndex.map bigint).map asU64 = r.innerIndex := by
    cases hi : r.innerIndex with
    | none => rfl
    | some i => exact congrArg some (asU64_bigint (h.innerIndex i hi))
  simp only [RawRow.toRecord, RawRow.ofRecord, unframe_frames build h.selectors,
    asU64_bigint h.height_lt, asU64_bigint hindex, asU64_bigint h.txIndex, hinner]

theorem faithful_raw : Table.Faithful RawRecord.key RawRow.key RawRow.ofRecord RawFits := by
  intro x y hx hy
  have hindex : x.index < 2 ^ 64 ∧ y.index < 2 ^ 64 :=
    ⟨hx.index.trans (by norm_num), hy.index.trans (by norm_num)⟩
  simp only [RawRow.key, RawRow.ofRecord, RawRecord.key, Prod.mk.injEq,
    bigint_inj hx.chainId hy.chainId, bigint_inj hx.height_lt hy.height_lt,
    bigint_inj hindex.1 hindex.2]

theorem faithful_block : Table.Faithful BlockMeta.key BlockRow.key BlockRow.ofMeta BlockFits := by
  intro x y hx hy
  simp only [BlockRow.key, BlockRow.ofMeta, BlockMeta.key, Prod.mk.injEq,
    bigint_inj hx.chainId hy.chainId, bigint_inj hx.height_lt hy.height_lt]

/-- The greatest of the signed values is that of the unsigned ones. -/
theorem max_bigint {ns : List Nat} (h : ∀ n ∈ ns, n < 2 ^ 63) :
    (ns.map bigint).max?.map asU64 = ns.max? := by
  cases hmax : ns.max? with
  | none =>
      rw [List.max?_eq_none_iff.mp hmax]
      rfl
  | some m =>
      obtain ⟨hmem, hle⟩ := List.max?_eq_some_iff.mp hmax
      have hsigned : (ns.map bigint).max? = some (bigint m) := by
        rw [List.max?_eq_some_iff]
        refine ⟨List.mem_map_of_mem hmem, ?_⟩
        intro value hvalue
        obtain ⟨n, hn, rfl⟩ := List.mem_map.mp hvalue
        exact (bigint_le (h n hn) (h m hmem)).mpr (hle n hn)
      rw [hsigned, Option.map_some, asU64_bigint ((h m hmem).trans (by norm_num))]

end Encoding

section Reads

variable {store : Store layout} {db : Database} (h : Represents store db)

include h

theorem range_eq (build : Build) {chain lo hi : Nat} (hchain : chain < 2 ^ 64) (hlo : lo < 2 ^ 63)
    (hhi : hi < 2 ^ 63) :
    db.range build chain lo hi = some (RawRecordRepo.range store chain lo hi) := by
  have hfilter := h.rawRecords.filter
    (p := RawRecordRepo.inRange chain lo hi)
    (q := fun row => row.chainId == bigint chain && decide (bigint lo ≤ row.height) &&
      decide (row.height ≤ bigint hi)) (by
      intro r hr
      simp only [RawRow.ofRecord, RawRecordRepo.inRange, beq_bigint hr.chainId hchain,
        bigint_le hlo hr.height, bigint_le hr.height hhi])
  have hsorted : ((store.rawRecords.rows.filter (RawRecordRepo.inRange chain lo hi)).map
      RawRow.ofRecord).insertionSort
        (fun a b => a.height < b.height ∨ (a.height = b.height ∧ a.idx ≤ b.idx)) =
      (RawRecordRepo.range store chain lo hi).map RawRow.ofRecord := by
    symm
    apply List.map_insertionSort
    intro a ha b hb
    have hfa := h.rawRecords.within a (List.mem_filter.mp ha).1
    have hfb := h.rawRecords.within b (List.mem_filter.mp hb).1
    simp only [RawRow.ofRecord, bigint_of_lt hfa.height, bigint_of_lt hfb.height,
      bigint_of_lt hfa.index, bigint_of_lt hfb.index, Int.ofNat_lt, Int.ofNat_inj, Int.ofNat_le]
  rw [Database.range, hfilter, hsorted, List.mapM_map]
  refine (Rows.mapM_eq_map (g := id) ?_).trans (by rw [List.map_id]; rfl)
  intro r hr
  obtain ⟨hmem, hsame, -⟩ := RawRecordRepo.mem_range.mp hr
  rw [Function.comp_apply, ← hsame]
  exact toRecord_ofRecord build (h.rawRecords.within r hmem)

theorem getBlock_eq {chain height : Nat} (hchain : chain < 2 ^ 64) (hheight : height < 2 ^ 63) :
    db.getBlock chain height = BlockRepo.get store chain height := by
  have hheight' : height < 2 ^ 64 := hheight.trans (by norm_num)
  have hfind := h.blocks.find? (k := (chain, height)) (l := (bigint chain, bigint height)) (by
    intro b hb
    simp only [BlockRow.key, BlockRow.ofMeta, BlockMeta.key, Prod.mk.injEq,
      bigint_inj hb.chainId hchain, bigint_inj hb.height_lt hheight'])
  rw [Database.getBlock, hfind, BlockRepo.get, Option.map_map]
  cases hget : store.blocks.find? (chain, height) with
  | none => rfl
  | some b =>
      obtain ⟨-, hkey⟩ := Table.of_find?_eq_some hget
      rw [BlockMeta.key, Prod.mk.injEq] at hkey
      obtain ⟨rfl, rfl⟩ := hkey
      rfl

theorem times_eq {chain lo hi : Nat} (hchain : chain < 2 ^ 64) (hlo : lo < 2 ^ 63)
    (hhi : hi < 2 ^ 63) : db.times chain lo hi = BlockRepo.times store chain lo hi := by
  have hfilter := h.blocks.filter
    (p := fun b => b.chainId == chain && decide (lo ≤ b.height) && decide (b.height ≤ hi))
    (q := fun row => row.chainId == bigint chain && decide (bigint lo ≤ row.height) &&
      decide (row.height ≤ bigint hi)) (by
      intro b hb
      simp only [BlockRow.ofMeta, beq_bigint hb.chainId hchain, bigint_le hlo hb.height,
        bigint_le hb.height hhi])
  rw [Database.times, hfilter, BlockRepo.times, List.map_map]
  apply List.map_congr_left
  intro b hb
  have hfits := h.blocks.within b (List.mem_filter.mp hb).1
  simp only [Function.comp_apply, BlockRow.ofMeta, asU64_bigint hfits.height_lt]

theorem maxHeight_eq {chain : Nat} (hchain : chain < 2 ^ 64) :
    db.maxHeight chain = BlockRepo.maxHeight store chain := by
  have hfilter := h.blocks.filter (p := fun b => b.chainId == chain)
    (q := fun row => row.chainId == bigint chain) (by
      intro b hb
      simp only [BlockRow.ofMeta, beq_bigint hb.chainId hchain])
  have hmap : ((store.blocks.rows.filter fun b => b.chainId == chain).map BlockRow.ofMeta).map
      BlockRow.height =
      ((store.blocks.rows.filter fun b => b.chainId == chain).map BlockMeta.height).map bigint := by
    rw [List.map_map, List.map_map]
    rfl
  rw [Database.maxHeight, hfilter, hmap, BlockRepo.maxHeight]
  apply max_bigint
  intro n hn
  obtain ⟨b, hb, rfl⟩ := List.mem_map.mp hn
  exact (h.blocks.within b (List.mem_filter.mp hb).1).height

theorem getCursor_eq {chain : Nat} (hchain : chain < 2 ^ 64) :
    db.getCursor chain = store.cursors chain := by
  rw [Database.getCursor, h.cursors chain hchain]
  cases hcursor : store.cursors chain with
  | none => rfl
  | some c =>
      simp only [Option.map_some, asU64_bigint (h.heights chain c hcursor)]

theorem answers_of_represents (build : Build) : Answers build store db where
  range _ _ _ hchain hlo hhi := range_eq h build hchain hlo hhi
  get _ _ hchain hheight := getBlock_eq h hchain hheight
  times _ _ _ hchain hlo hhi := times_eq h hchain hlo hhi
  maxHeight _ hchain := maxHeight_eq h hchain
  cursor _ hchain := getCursor_eq h hchain

end Reads

section Writes

variable {store : Store layout} {db : Database} (h : Represents store db)

include h

theorem represents_insert {records : List RawRecord} (hfits : ∀ r ∈ records, RawFits r) :
    Represents (RawRecordRepo.insertBatchTx store records) (db.insertBatchTx records) := by
  have hrows : (db.insertBatchTx records).rawRecords =
      db.rawRecords.insertAll (records.map RawRow.ofRecord) := by
    have hparts : (fun (table : Table RawRow.key) (part : List RawRecord) =>
        table.insertAll (part.map RawRow.ofRecord)) =
        fun table part => part.foldl (fun table r => table.insertIgnore (RawRow.ofRecord r)) table := by
      funext table part
      rw [Table.insertAll, List.foldl_map]
    rw [Database.insertBatchTx, hparts, Rows.foldl_chunks (chunkRows_pos _), Table.insertAll,
      List.foldl_map]
  rw [RawRecordRepo.insertBatchTx_eq]
  refine ⟨?_, h.blocks, h.cursors, h.heights⟩
  rw [hrows]
  exact h.rawRecords.insertAll faithful_raw hfits

theorem represents_deleteRaw {chain lo : Nat} (hchain : chain < 2 ^ 64) (hlo : lo < 2 ^ 63) :
    Represents (RawRecordRepo.deleteFromHeightTx store chain lo)
      (db.deleteRawFromHeightTx chain lo) := by
  refine ⟨h.rawRecords.delete ?_, h.blocks, h.cursors, h.heights⟩
  intro r hr
  simp only [RawRow.ofRecord, beq_bigint hr.chainId hchain, bigint_le hlo hr.height]

theorem represents_deleteBlocks {chain lo : Nat} (hchain : chain < 2 ^ 64) (hlo : lo < 2 ^ 63) :
    Represents (BlockRepo.deleteFromHeightTx store chain lo)
      (db.deleteBlocksFromHeightTx chain lo) := by
  refine ⟨h.rawRecords, h.blocks.delete ?_, h.cursors, h.heights⟩
  intro b hb
  simp only [BlockRow.ofMeta, beq_bigint hb.chainId hchain, bigint_le hlo hb.height]

omit h in
theorem rewindInTx_cursors (store : Store layout) (chain last c : Nat) :
    (CursorRepo.rewindInTx store chain last).cursors c =
      if c = chain then (store.cursors c).map fun _ => (last, ⟨[]⟩) else store.cursors c := by
  simp only [CursorRepo.rewindInTx, Function.update_apply]
  split
  · rename_i hsame
    rw [hsame]
  · rfl

omit h in
theorem advanceInTx_cursors (store : Store layout) (chain last : Nat) (lastHash : Hash) (c : Nat) :
    (CursorRepo.advanceInTx store chain last lastHash).cursors c =
      if c = chain then some (last, lastHash) else store.cursors c := by
  simp only [CursorRepo.advanceInTx, Function.update_apply]

theorem represents_advance {chain last : Nat} (hchain : chain < 2 ^ 64) (hlast : last < 2 ^ 64)
    (lastHash : Hash) :
    Represents (CursorRepo.advanceInTx store chain last lastHash)
      (db.advanceInTx chain last lastHash) := by
  refine ⟨h.rawRecords, h.blocks, ?_, ?_⟩
  · intro c hc
    have hfind := db.cursors.find?_upsert ⟨bigint chain, bigint last, lastHash.bytes⟩ (bigint c)
    rw [Database.advanceInTx, hfind, advanceInTx_cursors]
    by_cases hsame : c = chain
    · subst hsame
      rw [if_pos rfl, if_pos rfl]
      rfl
    · have hother : ¬bigint chain = bigint c := fun heq =>
        hsame ((bigint_inj hchain hc).mp heq).symm
      rw [if_neg hother, if_neg hsame]
      exact h.cursors c hc
  · intro c cursor hcursor
    rw [advanceInTx_cursors] at hcursor
    split at hcursor
    · cases hcursor
      exact hlast
    · exact h.heights c cursor hcursor

theorem represents_rewind {chain last : Nat} (hchain : chain < 2 ^ 64) (hlast : last < 2 ^ 64) :
    Represents (CursorRepo.rewindInTx store chain last) (db.rewindInTx chain last) := by
  refine ⟨h.rawRecords, h.blocks, ?_, ?_⟩
  · intro c hc
    have hfind : (db.rewindInTx chain last).cursors.find? (bigint c) =
        (db.cursors.find? (bigint c)).map fun row =>
          if row.chainId = bigint chain then { row with lastHeight := bigint last, lastHash := [] }
          else row := by
      rw [Table.find?, Database.rewindInTx, List.find?_map, Table.find?]
      congr 1
      apply List.find?_congr
      intro row _
      rw [Function.comp_apply]
      split <;> rfl
    rw [hfind, h.cursors c hc, rewindInTx_cursors, Option.map_map]
    by_cases hsame : c = chain
    · subst hsame
      rw [if_pos rfl, Option.map_map]
      congr 1
      funext cursor
      rw [Function.comp_apply, Function.comp_apply, if_pos rfl]
    · have hother : ¬bigint c = bigint chain := fun heq => hsame ((bigint_inj hc hchain).mp heq)
      rw [if_neg hsame]
      congr 1
      funext cursor
      rw [Function.comp_apply, if_neg hother]
  · intro c cursor hcursor
    rw [rewindInTx_cursors] at hcursor
    split at hcursor
    · obtain ⟨_, -, rfl⟩ := Option.map_eq_some_iff.mp hcursor
      exact hlast
    · exact h.heights c cursor hcursor

omit h in
theorem represents_upsertParts (parts : List (List BlockMeta)) {store : Store layout} {db : Database}
    (h : Represents store db) (hfits : ∀ part ∈ parts, ∀ b ∈ part, BlockFits b) :
    Option.Rel Represents (parts.foldlM BlockRepo.upsertPart store).toOption
      (parts.foldlM Database.upsertPart db).toOption := by
  induction parts generalizing store db with
  | nil => exact .some h
  | cons part parts ih =>
      have hpart := hfits part List.mem_cons_self
      have hnodup : (part.map fun b => (BlockRow.ofMeta b).key).Nodup ↔
          (part.map BlockMeta.key).Nodup := by
        rw [List.Nodup, List.Nodup, List.pairwise_map, List.pairwise_map]
        apply List.Pairwise.iff_of_mem
        intro x y hx hy
        exact not_congr (faithful_block x y (hpart x hx) (hpart y hy))
      rw [List.foldlM_cons, List.foldlM_cons, BlockRepo.upsertPart, Database.upsertPart]
      by_cases hdistinct : (part.map BlockMeta.key).Nodup
      · rw [if_pos hdistinct, if_pos (hnodup.mpr hdistinct)]
        apply ih
        · exact ⟨h.rawRecords, h.blocks.upsertAll faithful_block hpart, h.cursors, h.heights⟩
        · intro p hp
          exact hfits p (List.mem_cons_of_mem _ hp)
      · rw [if_neg hdistinct, if_neg fun hdistinct' => hdistinct (hnodup.mp hdistinct')]
        exact .none

theorem represents_upsert {blocks : List BlockMeta} (hfits : ∀ b ∈ blocks, BlockFits b) :
    Option.Rel Represents (BlockRepo.upsertBatchTx store blocks).toOption
      (db.upsertBatchTx blocks).toOption := by
  apply represents_upsertParts _ h
  intro part hpart b hb
  apply hfits
  rw [← Rows.flatten_chunks (chunkRows_pos BlockRepo.blockCols) blocks]
  exact List.mem_flatten.mpr ⟨part, hpart, hb⟩

end Writes

theorem lockstep (layout : String → PkColumns) :
    Transition.Lockstep (storeSystem layout) sqlSystem Write.Fits Represents := by
  intro store db write h hfits
  cases write with
  | insertRaw records => exact .some (represents_insert h hfits)
  | deleteRaw chain lo => exact .some (represents_deleteRaw h hfits.1 hfits.2)
  | upsertBlocks blocks => exact represents_upsert h hfits
  | deleteBlocks chain lo => exact .some (represents_deleteBlocks h hfits.1 hfits.2)
  | advance chain last lastHash => exact .some (represents_advance h hfits.1 hfits.2 lastHash)
  | rewind chain last => exact .some (represents_rewind h hfits.1 hfits.2)

theorem represents_empty : Represents (Store.empty : Store layout) Database.empty where
  rawRecords := Table.encoded_empty
  blocks := Table.encoded_empty
  cursors _ _ := rfl
  heights _ _ hcursor := by cases hcursor

/-- Whatever is written in whatever order, as long as heights and record indices are below `2 ^ 63`,
the rest within `u64` and the selectors short, the tables of signed values fail where the tables of
records do, and answer every range, block, time, maximum and cursor as they do, in either build. -/
theorem database_refines (layout : String → PkColumns) (build : Build) (writes : List Write)
    (hfits : ∀ w ∈ writes, w.Fits) :
    Option.Rel (Answers build) (Transition.exec (storeSystem layout) Store.empty writes)
      (Transition.exec sqlSystem Database.empty writes) := by
  have hrun := (lockstep layout).exec represents_empty writes hfits
  generalize Transition.exec (storeSystem layout) Store.empty writes = stored at hrun ⊢
  generalize Transition.exec sqlSystem Database.empty writes = held at hrun ⊢
  cases hrun with
  | none => exact .none
  | some hrepresents => exact .some (answers_of_represents hrepresents build)

theorem database_refines_at_a_large_chain_id :
    Option.Rel (Answers .debug)
      (Transition.exec (storeSystem fun _ => .event) Store.empty
        [.insertRaw [⟨2 ^ 64 - 1, 7, ⟨[1]⟩, 0, ⟨[2]⟩, [⟨[3]⟩, ⟨[]⟩], [4], ⟨[5]⟩, 2 ^ 63, some 6⟩],
          .advance (2 ^ 64 - 1) 7 ⟨[1]⟩, .rewind (2 ^ 64 - 1) 6, .deleteRaw (2 ^ 64 - 1) 7])
      (Transition.exec sqlSystem Database.empty
        [.insertRaw [⟨2 ^ 64 - 1, 7, ⟨[1]⟩, 0, ⟨[2]⟩, [⟨[3]⟩, ⟨[]⟩], [4], ⟨[5]⟩, 2 ^ 63, some 6⟩],
          .advance (2 ^ 64 - 1) 7 ⟨[1]⟩, .rewind (2 ^ 64 - 1) 6, .deleteRaw (2 ^ 64 - 1) 7]) := by
  apply database_refines
  intro w hw
  simp only [List.mem_cons, List.not_mem_nil, or_false] at hw
  obtain rfl | rfl | rfl | rfl := hw
  · intro r hr
    rw [List.mem_singleton] at hr
    subst hr
    constructor
    · norm_num
    · norm_num
    · norm_num
    · norm_num
    · simp
    · simp [Short]
  · norm_num [Write.Fits]
  · norm_num [Write.Fits]
  · norm_num [Write.Fits]

end Sql

end Topic0
