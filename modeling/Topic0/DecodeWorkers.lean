import Topic0.BaseTransition
import Topic0.DecodeResync

/-! Decode workers over the shared queue. The pools of any number of commands pull from one queue;
a worker's item goes through its reads, one transaction per table and the ack, and commits,
rollbacks, reclaims and crashes fall between any two of these steps. `History` is not read by any
step: it says when a raw record was inserted, whether its row has been upserted since, and which
leases were decoded to the end. -/

namespace Topic0.Workers

open Keyed

/-- The commands that start a worker pool. -/
inductive Command where
  | run
  | decode
  | follow (chain : ChainId)
  | backfill (chain : ChainId)

/-- The decoder map a command builds: `run` and `decode` for every configured chain, `follow` and
`backfill` for their own. -/
def Command.decoders (config : ChainId → Option AbiIndex) : Command → ChainId → Option AbiIndex
  | .run, chain => config chain
  | .decode, chain => config chain
  | .follow own, chain => if chain = own then config chain else none
  | .backfill own, chain => if chain = own then config chain else none

variable {layout : String → PkColumns}

/-- The workers, each with the command it belongs to, and the tables a chain's rollback clears: the
decoder's schemas, which list every table it decodes to. Call tables are created with the aux
key. -/
structure Pools (layout : String → PkColumns) where
  config : ChainId → Option AbiIndex
  command : Nat → Command
  tables : ChainId → List String
  eventTables : ∀ {chain decoder raw row}, config chain = some decoder →
    decoder.decode raw = .ok (some row) → row.event.table ∈ tables chain
  callTables : ∀ {chain decoder tx row}, config chain = some decoder →
    decoder.decodeCall tx = .ok (some row) → layout row.event.table = .aux
  /-- What Postgres answers to a batch for a table with a value it does not take: one of another type
  than its column's, or a text with U+0000. -/
  refusal : String → List DecodedEvent → Option String

def Pools.decoder (p : Pools layout) (w : Nat) (chain : ChainId) : Option AbiIndex :=
  (p.command w).decoders p.config chain

/-- `upsert_batch` over a database that refuses values. The stamp of a row is never refused: the table
of blocks has taken it. -/
def Pools.upsertBatch (p : Pools layout) (store : Store layout) (table : String)
    (rows : List EventRow) : Except DomainError (Store layout × Nat) :=
  match p.refusal table (rows.map EventRow.event) with
  | some message => .error (DbError.sqlx message).toDomain
  | none => EventRepo.upsertBatch store table rows

theorem Pools.upsertBatch_ok {p : Pools layout} {store : Store layout} {table : String}
    {rows : List EventRow} {written : Store layout × Nat}
    (h : p.upsertBatch store table rows = .ok written) :
    EventRepo.upsertBatch store table rows = .ok written := by
  rw [Pools.upsertBatch] at h
  split at h
  · cases h
  · exact h

theorem Pools.upsertBatch_taken {p : Pools layout} {table : String} {rows : List EventRow}
    (h : p.refusal table (rows.map EventRow.event) = none) (store : Store layout) :
    p.upsertBatch store table rows = EventRepo.upsertBatch store table rows := by
  rw [Pools.upsertBatch, h]

/-- What a worker has read of the raw store, and when. -/
structure Batch where
  raw : List RawRecord
  readAt : Nat

/-- How far a worker is with its item. -/
inductive Phase where
  | idle
  | leased (lease : Lease)
  | rawRead (lease : Lease) (batch : Batch)
  | timed (lease : Lease) (batch : Batch) (times : List (Nat × Int))
  | writing (lease : Lease) (batch : Batch) (remaining : List (String × List EventRow))
  /-- `decode_range` returned. -/
  | decoded (lease : Lease) (batch : Batch)
  /-- The pool has no decoder for the item's chain. -/
  | skipped (lease : Lease)

def Phase.lease? : Phase → Option Lease
  | .idle => none
  | .leased lease | .rawRead lease _ | .timed lease _ _ | .writing lease _ _ | .decoded lease _
  | .skipped lease => some lease

def Phase.batch? : Phase → Option Batch
  | .idle | .leased _ | .skipped _ => none
  | .rawRead _ batch | .timed _ batch _ | .writing _ batch _ | .decoded _ batch => some batch

structure History where
  clock : Nat
  insertedAt : ChainId × Nat × Nat → Nat
  upserted : ChainId × Nat × Nat → Bool
  finished : List (Nat × Lease)

def History.empty : History := ⟨0, fun _ => 0, fun _ => false, []⟩

structure State (layout : String → PkColumns) where
  store : Store layout
  /-- The database clock, in seconds. -/
  now : Nat
  workers : Nat → Phase
  history : History

inductive Act where
  /-- `commit_range` of a fetched range, by whichever command ingests the chain. -/
  | commit (chain : ChainId) (fetched : FetchedRange)
  /-- The rollback of a reorg check. -/
  | rollback (chain : ChainId) (lo : Nat)
  | tick
  | reclaim (olderThanSecs : Nat)
  | pull (w : Nat)
  | skip (w : Nat)
  | readRaw (w : Nat)
  | readTimes (w : Nat)
  /-- Calldata is read and everything decoded. -/
  | decode (w : Nat) (order : Order)
  /-- The transaction of the next table. -/
  | upsert (w : Nat)
  | finish (w : Nat)
  | ack (w : Nat)
  /-- An error or a crash: the lease stays until it is reclaimed. -/
  | fail (w : Nat)

/-- The record's row goes to the table. -/
def decodesTo (decoder : AbiIndex) (table : String) (r : RawRecord) : Bool :=
  match decoder.decode r with
  | .ok (some row) => row.event.table == table
  | _ => false

/-- The insert of the records adds the key. -/
def inserts (store : Store layout) (records : List RawRecord) (k : ChainId × Nat × Nat) : Bool :=
  records.any (fun r => r.key == k) && (store.rawRecords.find? k).isNone

/-- New records are stamped, known ones keep their stamp. -/
def History.commit (h : History) (store : Store layout) (records : List RawRecord) : History :=
  { h with
    clock := h.clock + 1
    insertedAt := fun k => if inserts store records k then h.clock else h.insertedAt k
    upserted := fun k => h.upserted k && !inserts store records k }

def History.upsert (h : History) (decoder : AbiIndex) (batch : Batch) (table : String) : History :=
  { h with
    upserted := fun k => h.upserted k || batch.raw.any fun r =>
      r.key == k && decodesTo decoder table r && decide (h.insertedAt k < batch.readAt) }

def State.step (p : Pools layout) (s : State layout) : Act → Option (State layout)
  | .commit chain fetched =>
      match IngestionService.commitRange s.store chain fetched ⟨0⟩ with
      | .error _ => none
      | .ok (store, _) =>
          some { s with store := store, history := s.history.commit s.store fetched.records }
  | .rollback chain lo =>
      match UnitOfWork.rollbackTo s.store chain lo (p.tables chain) with
      | .error _ => none
      | .ok store => some { s with store := store }
  | .tick => some { s with now := s.now + 1 }
  | .reclaim olderThanSecs =>
      some { s with store := { s.store with
        workQueue := s.store.workQueue.reclaimExpired s.now olderThanSecs } }
  | .pull w =>
      match s.workers w with
      | .idle =>
          (s.store.workQueue.pullAny s.now).map fun pulled =>
            { s with
              store := { s.store with workQueue := pulled.2 }
              workers := Function.update s.workers w (.leased pulled.1) }
      | _ => none
  | .skip w =>
      match s.workers w with
      | .leased lease =>
          match p.decoder w lease.item.chainId with
          | none => some { s with workers := Function.update s.workers w (.skipped lease) }
          | some _ => none
      | _ => none
  | .readRaw w =>
      match s.workers w with
      | .leased lease =>
          match p.decoder w lease.item.chainId with
          | none => none
          | some _ =>
              let raw := RawRecordRepo.range s.store lease.item.chainId lease.item.fromHeight
                lease.item.toHeight
              some { s with
                workers := Function.update s.workers w (.rawRead lease ⟨raw, s.history.clock⟩)
                history := { s.history with clock := s.history.clock + 1 } }
      | _ => none
  | .readTimes w =>
      match s.workers w with
      | .rawRead lease batch =>
          let times := BlockRepo.times s.store lease.item.chainId lease.item.fromHeight
            lease.item.toHeight
          some { s with workers := Function.update s.workers w (.timed lease batch times) }
      | _ => none
  | .decode w order =>
      match s.workers w with
      | .timed lease batch times =>
          match p.decoder w lease.item.chainId with
          | none => none
          | some decoder =>
              match decodedTables order decoder s.store lease.item.chainId batch.raw times with
              | .error _ => none
              | .ok tables =>
                  some { s with
                    workers := Function.update s.workers w (.writing lease batch tables) }
      | _ => none
  | .upsert w =>
      match s.workers w with
      | .writing lease batch (group :: remaining) =>
          match p.decoder w lease.item.chainId with
          | none => none
          | some decoder =>
              match p.upsertBatch s.store group.1 group.2 with
              | .error _ => none
              | .ok (store, _) =>
                  some { s with
                    store := store
                    workers := Function.update s.workers w (.writing lease batch remaining)
                    history := s.history.upsert decoder batch group.1 }
      | _ => none
  | .finish w =>
      match s.workers w with
      | .writing lease batch [] =>
          some { s with
            workers := Function.update s.workers w (.decoded lease batch)
            history := { s.history with finished := (w, lease) :: s.history.finished } }
      | _ => none
  | .ack w =>
      match s.workers w with
      | .decoded lease _ | .skipped lease =>
          some { s with
            store := { s.store with
              workQueue := s.store.workQueue.ack lease.id lease.leaseSeq }
            workers := Function.update s.workers w .idle }
      | _ => none
  | .fail w => some { s with workers := Function.update s.workers w .idle }

/-- All workers idle over a given database. -/
def system (p : Pools layout) (store : Store layout) : Transition.System (State layout) Act where
  init s := s = ⟨store, 0, fun _ => .idle, History.empty⟩
  step := State.step p

/-- What the source promises of a fetched range: its records are the range's, its enrichment rows
those of the two aux tables. -/
def Sourced (layout : String → PkColumns) : Act → Prop
  | .commit chain fetched =>
      (∀ r ∈ fetched.records, r.chainId = chain ∧ fetched.fromHeight ≤ r.height ∧
        r.height ≤ fetched.toHeight) ∧
      ∀ row ∈ fetched.aux.enrichment, layout row.event.table = .aux
  | _ => True

/-- A worker moves to another phase. -/
def State.enter (s : State layout) (w : Nat) (phase : Phase) : State layout :=
  { s with workers := Function.update s.workers w phase }

/-- The steps, one constructor each. -/
inductive State.Step (p : Pools layout) (s : State layout) : Act → State layout → Prop
  | commit {chain : ChainId} {fetched : FetchedRange} {store : Store layout}
      {outcome : IngestionService.IngestOutcome}
      (hcommit : IngestionService.commitRange s.store chain fetched ⟨0⟩ = .ok (store, outcome)) :
      State.Step p s (.commit chain fetched)
        { s with store := store, history := s.history.commit s.store fetched.records }
  | rollback {chain : ChainId} {lo : Nat} {store : Store layout}
      (hrollback : UnitOfWork.RolledBack s.store store chain lo (p.tables chain)) :
      State.Step p s (.rollback chain lo) { s with store := store }
  | tick : State.Step p s .tick { s with now := s.now + 1 }
  | reclaim {olderThanSecs : Nat} :
      State.Step p s (.reclaim olderThanSecs)
        { s with store := { s.store with
          workQueue := s.store.workQueue.reclaimExpired s.now olderThanSecs } }
  | pull {w : Nat} {lease : Lease} {queue : WorkQueue}
      (hpull : s.store.workQueue.pullAny s.now = some (lease, queue)) :
      State.Step p s (.pull w)
        (State.enter { s with store := { s.store with workQueue := queue } } w (.leased lease))
  | skip {w : Nat} {lease : Lease} (hphase : s.workers w = .leased lease)
      (hdecoder : p.decoder w lease.item.chainId = none) :
      State.Step p s (.skip w) (s.enter w (.skipped lease))
  | readRaw {w : Nat} {lease : Lease} {decoder : AbiIndex} (hphase : s.workers w = .leased lease)
      (hdecoder : p.decoder w lease.item.chainId = some decoder) :
      State.Step p s (.readRaw w)
        (State.enter { s with history := { s.history with clock := s.history.clock + 1 } } w
          (.rawRead lease ⟨RawRecordRepo.range s.store lease.item.chainId lease.item.fromHeight
            lease.item.toHeight, s.history.clock⟩))
  | readTimes {w : Nat} {lease : Lease} {batch : Batch} (hphase : s.workers w = .rawRead lease batch) :
      State.Step p s (.readTimes w)
        (s.enter w (.timed lease batch (BlockRepo.times s.store lease.item.chainId
          lease.item.fromHeight lease.item.toHeight)))
  | decode {w : Nat} {order : Order} {lease : Lease} {batch : Batch} {times : List (Nat × Int)}
      {decoder : AbiIndex} {tables : List (String × List EventRow)}
      (hphase : s.workers w = .timed lease batch times)
      (hdecoder : p.decoder w lease.item.chainId = some decoder)
      (htables : decodedTables order decoder s.store lease.item.chainId batch.raw times =
        .ok tables) :
      State.Step p s (.decode w order) (s.enter w (.writing lease batch tables))
  | upsert {w : Nat} {lease : Lease} {batch : Batch} {group : String × List EventRow}
      {remaining : List (String × List EventRow)} {decoder : AbiIndex} {rows : List EventRow}
      (hphase : s.workers w = .writing lease batch (group :: remaining))
      (hdecoder : p.decoder w lease.item.chainId = some decoder) (hrows : rows.Perm group.2) :
      State.Step p s (.upsert w)
        (State.enter { s with
          store := EventRepo.insertRows s.store group.1 rows
          history := s.history.upsert decoder batch group.1 } w (.writing lease batch remaining))
  | finish {w : Nat} {lease : Lease} {batch : Batch} (hphase : s.workers w = .writing lease batch []) :
      State.Step p s (.finish w)
        (State.enter { s with
          history := { s.history with finished := (w, lease) :: s.history.finished } } w
          (.decoded lease batch))
  | ackDecoded {w : Nat} {lease : Lease} {batch : Batch}
      (hphase : s.workers w = .decoded lease batch) :
      State.Step p s (.ack w)
        (State.enter { s with store := { s.store with
          workQueue := s.store.workQueue.ack lease.id lease.leaseSeq } } w .idle)
  | ackSkipped {w : Nat} {lease : Lease} (hphase : s.workers w = .skipped lease) :
      State.Step p s (.ack w)
        (State.enter { s with store := { s.store with
          workQueue := s.store.workQueue.ack lease.id lease.leaseSeq } } w .idle)
  | fail {w : Nat} : State.Step p s (.fail w) (s.enter w .idle)

theorem State.step_cases {p : Pools layout} {s s' : State layout} {act : Act}
    (h : s.step p act = some s') : State.Step p s act s' := by
  cases act with
  | commit chain fetched =>
      rw [State.step] at h
      split at h
      · cases h
      · rename_i hcommit
        cases h
        exact .commit hcommit
  | rollback chain lo =>
      rw [State.step] at h
      split at h
      · cases h
      · rename_i hrollback
        cases h
        exact .rollback (UnitOfWork.rollbackTo_ok hrollback)
  | tick =>
      cases h
      exact .tick
  | reclaim olderThanSecs =>
      cases h
      exact .reclaim
  | pull w =>
      rw [State.step] at h
      split at h
      · rw [Option.map_eq_some_iff] at h
        obtain ⟨⟨lease, queue⟩, hpull, rfl⟩ := h
        exact .pull hpull
      · cases h
  | skip w =>
      rw [State.step] at h
      split at h
      · rename_i lease hphase
        split at h
        · rename_i hdecoder
          cases h
          exact .skip hphase hdecoder
        · cases h
      · cases h
  | readRaw w =>
      rw [State.step] at h
      split at h
      · rename_i lease hphase
        split at h
        · cases h
        · rename_i decoder hdecoder
          cases h
          exact .readRaw hphase hdecoder
      · cases h
  | readTimes w =>
      rw [State.step] at h
      split at h
      · rename_i lease batch hphase
        cases h
        exact .readTimes hphase
      · cases h
  | decode w order =>
      rw [State.step] at h
      split at h
      · rename_i lease batch times hphase
        split at h
        · cases h
        · rename_i decoder hdecoder
          split at h
          · cases h
          · rename_i tables htables
            cases h
            exact .decode hphase hdecoder htables
      · cases h
  | upsert w =>
      rw [State.step] at h
      split at h
      · rename_i lease batch group remaining hphase
        split at h
        · cases h
        · rename_i decoder hdecoder
          split at h
          · cases h
          · rename_i store n hupsert
            obtain ⟨rows, hrows, rfl⟩ :=
              EventRepo.upsertBatchTx_ok (Topic0.upsertBatch_ok (Pools.upsertBatch_ok hupsert))
            cases h
            exact .upsert hphase hdecoder hrows
      · cases h
  | finish w =>
      rw [State.step] at h
      split at h
      · rename_i lease batch hphase
        cases h
        exact .finish hphase
      · cases h
  | ack w =>
      rw [State.step] at h
      split at h
      · rename_i lease batch hphase
        cases h
        exact .ackDecoded hphase
      · rename_i lease hphase
        cases h
        exact .ackSkipped hphase
      · cases h
  | fail w =>
      cases h
      exact .fail

section Uninterrupted

variable {p : Pools layout} (store : Store layout) {w : Nat} {lease : Lease} {decoder : AbiIndex}

/-- What a worker does with its item, statement by statement, if the database takes what it is
given. -/
def rangeSteps (htaken : ∀ table events, p.refusal table events = none)
    (hdecoder : p.decoder w lease.item.chainId = some decoder) (order : Order) :
    RangeSteps (system p store) State.store order decoder lease.item.chainId
      lease.item.fromHeight lease.item.toHeight where
  readRaw := .readRaw w
  readTimes := .readTimes w
  decode := .decode w order
  upsert := .upsert w
  ready s := s.workers w = .leased lease
  rawRead raw s := ∃ readAt, s.workers w = .rawRead lease ⟨raw, readAt⟩
  timed raw times s := ∃ readAt, s.workers w = .timed lease ⟨raw, readAt⟩ times
  writing remaining s := ∃ batch, s.workers w = .writing lease batch remaining
  readRaw_step s hphase := by
    show ∃ t, s.step p (.readRaw w) = some t ∧ _
    simp only [State.step, hphase, hdecoder]
    exact ⟨_, rfl, rfl, _, Function.update_self ..⟩
  readTimes_step s raw hphase := by
    obtain ⟨readAt, hphase⟩ := hphase
    show ∃ t, s.step p (.readTimes w) = some t ∧ _
    simp only [State.step, hphase]
    exact ⟨_, rfl, rfl, _, Function.update_self ..⟩
  decode_step s raw times tables hphase htables := by
    obtain ⟨readAt, hphase⟩ := hphase
    show ∃ t, s.step p (.decode w order) = some t ∧ _
    simp only [State.step, hphase, hdecoder, htables]
    exact ⟨_, rfl, rfl, _, Function.update_self ..⟩
  upsert_step s group remaining written m hphase hwritten := by
    obtain ⟨batch, hphase⟩ := hphase
    rw [← Pools.upsertBatch_taken (htaken _ _)] at hwritten
    show ∃ t, s.step p (.upsert w) = some t ∧ _
    simp only [State.step, hphase, hdecoder, hwritten]
    exact ⟨_, rfl, rfl, _, Function.update_self ..⟩

/-- Steps of one worker with nothing between them are `decode_range`, if the database takes what it is
given. -/
theorem exec_decodeRange {s : State layout} {order : Order} {store' : Store layout} {n : Nat}
    (htaken : ∀ table events, p.refusal table events = none) (hphase : s.workers w = .leased lease)
    (hdecoder : p.decoder w lease.item.chainId = some decoder)
    (h : decodeRange order decoder s.store lease.item.chainId lease.item.fromHeight
      lease.item.toHeight = .ok (store', n)) :
    ∃ k t, Transition.exec (system p store) s
        (.readRaw w :: .readTimes w :: .decode w order ::
          (List.replicate k (.upsert w) ++ [.finish w])) = some t ∧
      t.store = store' ∧ (w, lease) ∈ t.history.finished := by
  obtain ⟨k, u, rfl, ⟨batch, hdone⟩, hexec⟩ :=
    (rangeSteps store htaken hdecoder order).exec_decodeRange hphase h [.finish w]
  obtain ⟨t, hstep, hstore, hfinished⟩ : ∃ t, u.step p (.finish w) = some t ∧
      t.store = u.store ∧ (w, lease) ∈ t.history.finished := by
    simp only [State.step, hdone]
    exact ⟨_, rfl, rfl, List.mem_cons_self⟩
  exact ⟨k, t, hexec.trans (Transition.exec_cons hstep []), hstore, hfinished⟩

end Uninterrupted

end Topic0.Workers
