import Topic0.DecodeDrained
import Topic0.QueueOrder

/-! A log that its decoder refuses. The address filter and the selectors of a chain are applied
separately, so a range can hold a log of a configured selector that does not have the shape of the
configured event. Decoding such a range fails whenever it is tried; the lease expires, the item comes
first again, and as the items of a chain are served in order, by pulls that do not overlap, nothing
behind it is ever decoded. A pool that does not know the chain would ack the item all the same. -/

namespace Topic0.Workers

open Keyed

variable {layout : String → PkColumns} {p : Pools layout} {s t : State layout} {act : Act}
  {id : Nat} {item : WorkItem} {r : RawRecord}

/-- The decoder of its chain refuses the record. -/
def Undecodable (p : Pools layout) (r : RawRecord) : Prop :=
  ∃ decoder e, p.config r.chainId = some decoder ∧ decoder.decode r = .error e

/-- No rollback deletes the record. -/
def Spares (r : RawRecord) : Act → Prop
  | .rollback chain lo => ¬(chain = r.chainId ∧ lo ≤ r.height)
  | _ => True

/-- Not past the decoding, and with the record once the range is read. -/
def Phase.Before (r : RawRecord) : Phase → Prop
  | .rawRead _ batch | .timed _ batch _ => r ∈ batch.raw
  | .writing _ _ _ | .decoded _ _ | .skipped _ => False
  | _ => True

/-- The item is queued with a record in its range, no worker gets past it, and nothing of its chain at
or behind it has been decoded. -/
structure State.Stuck (s : State layout) (id : Nat) (item : WorkItem) (r : RawRecord) : Prop where
  queued : ∃ q ∈ s.store.workQueue.rows, q.id = id ∧ q.item = item
  stored : r ∈ s.store.rawRecords
  before : ∀ w lease, (s.workers w).lease? = some lease → lease.id = id → (s.workers w).Before r
  behind : ∀ w lease, (s.workers w).lease? = some lease → lease.item.chainId = item.chainId →
    lease.id ≤ id
  finished : ∀ w lease, (w, lease) ∈ s.history.finished → lease.item.chainId = item.chainId →
    lease.id < id

/-- The leases a worker may enter a phase with. -/
structure Phase.Held (id : Nat) (item : WorkItem) (r : RawRecord) (phase : Phase) : Prop where
  before : ∀ lease, phase.lease? = some lease → lease.id = id → phase.Before r
  behind : ∀ lease, phase.lease? = some lease → lease.item.chainId = item.chainId → lease.id ≤ id

theorem State.Stuck.held (hs : s.Stuck id item r) (w : Nat) : (s.workers w).Held id item r :=
  ⟨hs.before w, hs.behind w⟩

/-- A worker's step that leaves the raw store and the decoded leases as they are. -/
theorem State.Stuck.enter (hs : s.Stuck id item r) {w : Nat} {phase : Phase}
    (hphase : phase.Held id item r) : (s.enter w phase).Stuck id item r := by
  have hall : ∀ v, ((s.enter w phase).workers v).Held id item r :=
    State.forall_enter hs.held hphase
  exact ⟨hs.queued, hs.stored, fun v => (hall v).before, fun v => (hall v).behind, hs.finished⟩

theorem Phase.held_idle : Phase.idle.Held id item r := ⟨nofun, nofun⟩

/-- The item stays queued unless its own row is deleted. -/
theorem State.Stuck.queue (hs : s.Stuck id item r) {queue : WorkQueue}
    (hkept : ∃ q ∈ queue.rows, q.id = id ∧ q.item = item) :
    State.Stuck { s with store := { s.store with workQueue := queue } } id item r :=
  ⟨hkept, hs.stored, hs.before, hs.behind, hs.finished⟩

theorem exists_queued_of_keeps {queue queue' : WorkQueue} (h : queue.Keeps queue')
    (hqueued : ∃ q ∈ queue.rows, q.id = id ∧ q.item = item) :
    ∃ q ∈ queue'.rows, q.id = id ∧ q.item = item := by
  obtain ⟨q, hq, rfl, rfl⟩ := hqueued
  obtain ⟨q', hq', hid, hitem, -⟩ := h q hq
  exact ⟨q', hq', hid, hitem⟩

/-- A lease of the row is one of the item. -/
theorem item_of_lease (hleased : s.Leased p) (hs : s.Stuck id item r) {w : Nat} {lease : Lease}
    (hlease : (s.workers w).lease? = some lease) (hid : lease.id = id) : lease.item = item := by
  obtain ⟨q, hq, hqid, hitem⟩ := hs.queued
  rw [← hitem]
  exact (((hleased w).granted lease hlease).row q hq (hqid.trans hid.symm)).1.symm

section Step

variable (hpool : ∀ w chain, p.decoder w chain = p.config chain) (hr : Undecodable p r)
  (hcovers : Covers item r) (hleased : s.Leased p) (hs : s.Stuck id item r)

include hs

/-- The ack of another row keeps the item. -/
theorem stuck_ack {w : Nat} {lease : Lease} (hlease : (s.workers w).lease? = some lease)
    (hphase : ¬(s.workers w).Before r) :
    State.Stuck (State.enter { s with store := { s.store with
      workQueue := s.store.workQueue.ack lease.id lease.leaseSeq } } w .idle) id item r := by
  refine State.Stuck.enter (hs.queue ?_) Phase.held_idle
  obtain ⟨q, hq, rfl, rfl⟩ := hs.queued
  refine ⟨q, WorkQueue.mem_ack.mpr ⟨hq, ?_⟩, rfl, rfl⟩
  rintro ⟨hid, -⟩
  exact hphase (hs.before w lease hlease hid.symm)

include hpool hr hcovers hleased

/-- Decoding the item fails. -/
theorem not_decoded {w : Nat} {order : Order} {lease : Lease} {batch : Batch}
    {times : List (Nat × Int)} {decoder : AbiIndex} {tables : List (String × List EventRow)}
    (hphase : s.workers w = .timed lease batch times)
    (hdecoder : p.decoder w lease.item.chainId = some decoder)
    (htables : decodedTables order decoder s.store lease.item.chainId batch.raw times = .ok tables) :
    lease.id ≠ id := by
  intro hid
  have hlease : (s.workers w).lease? = some lease := by
    rw [hphase]
    rfl
  have hread : (s.workers w).Before r := hs.before w lease hlease hid
  rw [hphase] at hread
  obtain ⟨refuses, e, hconfig, herror⟩ := hr
  rw [hpool, item_of_lease hleased hs hlease hid, ← hcovers.1, hconfig] at hdecoder
  cases hdecoder
  obtain ⟨events, hevents, -⟩ := Rows.bind_eq_ok.mp (by rwa [decodedTables] at htables)
  obtain ⟨row, hrow⟩ := exists_ok_of_decodeAll hevents hread
  rw [herror] at hrow
  cases hrow

theorem State.stuck_step (hspares : Spares r act) (h : State.Step p s act t) :
    t.Stuck id item r := by
  cases h with
  | @commit chain fetched store outcome hcommit =>
      refine ⟨?_, ?_, hs.before, hs.behind, hs.finished⟩
      · show ∃ q ∈ (Store.workQueue _).rows, _
        rw [workQueue_commit hcommit]
        split
        · exact hs.queued
        · obtain ⟨q, hq, hid⟩ := hs.queued
          exact ⟨q, WorkQueue.mem_pushInTx.mpr (.inl hq), hid⟩
      · show r ∈ Store.rawRecords _
        rw [rawRecords_commit hcommit]
        exact Table.mem_insertAll_of_mem _ hs.stored
  | @rollback chain lo store hrollback =>
      refine ⟨?_, ?_, hs.before, hs.behind, hs.finished⟩
      · rw [hrollback.workQueue]
        exact hs.queued
      · exact (hrollback.rawRecords r).mpr ⟨hs.stored, fun hgone => hspares ⟨hgone.1.symm, hgone.2⟩⟩
  | tick => exact ⟨hs.queued, hs.stored, hs.before, hs.behind, hs.finished⟩
  | reclaim =>
      exact hs.queue (exists_queued_of_keeps (WorkQueue.keeps_reclaimExpired _ _ _) hs.queued)
  | @pull w lease queue hpull =>
      refine State.Stuck.enter
        (hs.queue (exists_queued_of_keeps (WorkQueue.keeps_pullAny hpull) hs.queued)) ⟨?_, ?_⟩
      · rintro _ ⟨⟩ -
        trivial
      · -- a pull takes the oldest row of the chain
        rintro _ ⟨⟩ hchain
        obtain ⟨ready, -, rfl, holdest, -⟩ := WorkQueue.oldest_of_pullAny hpull
        obtain ⟨q, hq, rfl, rfl⟩ := hs.queued
        exact (holdest q hq hchain.symm).2
  | @skip w lease hphase hdecoder =>
      have hheld := hs.held w
      rw [hphase] at hheld
      refine hs.enter ⟨?_, hheld.behind⟩
      rintro _ ⟨⟩ hid
      -- every pool knows the chain of the item
      have hlease : (s.workers w).lease? = some lease := by
        rw [hphase]
        rfl
      obtain ⟨decoder, e, hconfig, -⟩ := hr
      rw [hpool, item_of_lease hleased hs hlease hid, ← hcovers.1, hconfig] at hdecoder
      cases hdecoder
  | @readRaw w lease decoder hphase hdecoder =>
      have hheld := hs.held w
      rw [hphase] at hheld
      have hentered : State.Stuck { s with history := { s.history with clock := s.history.clock + 1 } }
          id item r := ⟨hs.queued, hs.stored, hs.before, hs.behind, hs.finished⟩
      refine hentered.enter ⟨?_, hheld.behind⟩
      rintro _ ⟨⟩ hid
      have hlease : (s.workers w).lease? = some lease := by
        rw [hphase]
        rfl
      rw [← item_of_lease hleased hs hlease hid] at hcovers
      exact RawRecordRepo.mem_range.mpr ⟨hs.stored, hcovers⟩
  | @readTimes w lease batch hphase =>
      have hheld := hs.held w
      rw [hphase] at hheld
      exact hs.enter ⟨hheld.before, hheld.behind⟩
  | @decode w order lease batch times decoder tables hphase hdecoder htables =>
      have hheld := hs.held w
      rw [hphase] at hheld
      refine hs.enter ⟨?_, hheld.behind⟩
      rintro _ ⟨⟩ hid
      exact not_decoded hpool hr hcovers hleased hs hphase hdecoder htables hid
  | @upsert w lease batch group remaining decoder rows hphase hdecoder hrows =>
      have hheld := hs.held w
      rw [hphase] at hheld
      have hwritten : State.Stuck { s with
          store := EventRepo.insertRows s.store group.1 rows
          history := s.history.upsert decoder batch group.1 } id item r :=
        ⟨hs.queued, hs.stored, hs.before, hs.behind, hs.finished⟩
      exact hwritten.enter ⟨hheld.before, hheld.behind⟩
  | @finish w lease batch hphase =>
      have hheld := hs.held w
      rw [hphase] at hheld
      have hfinished : State.Stuck { s with
          history := { s.history with finished := (w, lease) :: s.history.finished } } id item r := by
        refine ⟨hs.queued, hs.stored, hs.before, hs.behind, fun v other hother hchain => ?_⟩
        rcases List.mem_cons.mp hother with heq | hold
        · cases heq
          exact lt_of_le_of_ne (hheld.behind lease rfl hchain) fun hid => hheld.before lease rfl hid
        · exact hs.finished v other hold hchain
      exact hfinished.enter ⟨hheld.before, hheld.behind⟩
  | @ackDecoded w lease batch hphase =>
      exact stuck_ack hs (by rw [hphase]; rfl) (by rw [hphase]; exact not_false)
  | @ackSkipped w lease hphase =>
      exact stuck_ack hs (by rw [hphase]; rfl) (by rw [hphase]; exact not_false)
  | fail => exact hs.enter Phase.held_idle

omit hpool hr hcovers in
/-- No row of the chain at or behind the item is deleted. -/
theorem kept_behind (h : State.Step p s act t) {q : QueueRow} (hq : q ∈ s.store.workQueue.rows)
    (hchain : q.item.chainId = item.chainId) (hid : id ≤ q.id) :
    ∃ q' ∈ t.store.workQueue.rows, q'.id = q.id ∧ q'.item = q.item := by
  rcases h.removed_or_kept hq with hremoved | ⟨q', hq', hsame, hitem, -⟩
  · obtain ⟨w, lease, -, ⟨hlid, -, hlitem⟩, -, hphase⟩ := h.removed hleased hremoved
    have hlease : (s.workers w).lease? = some lease := by
      rcases hphase with ⟨batch, hphase⟩ | hphase
      · rw [hphase]
        rfl
      · rw [hphase]
        rfl
    have hle := hs.behind w lease hlease (hlitem ▸ hchain)
    have hbefore := hs.before w lease hlease (by omega)
    rcases hphase with ⟨batch, hphase⟩ | hphase
    · rw [hphase] at hbefore
      exact hbefore.elim
    · rw [hphase] at hbefore
      exact hbefore.elim
  · exact ⟨q', hq', hsame, hitem⟩

end Step

/-- A lease that was decoded to the end was held by a worker. -/
theorem State.Step.finished_cases (h : State.Step p s act t) {w : Nat} {lease : Lease}
    (hfinished : (w, lease) ∈ t.history.finished) :
    (w, lease) ∈ s.history.finished ∨ (s.workers w).lease? = some lease := by
  cases h with
  | @finish v held batch hphase =>
      rcases List.mem_cons.mp hfinished with heq | hold
      · cases heq
        rw [hphase]
        exact .inr rfl
      · exact .inl hold
  | _ => exact .inl hfinished

/-- Leases are of rows that have been pushed. -/
theorem finished_old_of_reachable {store : Store layout} {allowed : State layout → Act → Prop}
    (h : Transition.Reachable (system p store) allowed s) {w : Nat} {lease : Lease}
    (hfinished : (w, lease) ∈ s.history.finished) : lease.id < s.store.workQueue.nextId := by
  have hinv : s.Leased p ∧ ∀ w lease, (w, lease) ∈ s.history.finished →
      lease.id < s.store.workQueue.nextId := by
    apply h.invariant fun s => s.Leased p ∧ ∀ w lease, (w, lease) ∈ s.history.finished →
      lease.id < s.store.workQueue.nextId
    · rintro s rfl
      exact ⟨leased_of_reachable (.init rfl : Transition.Reachable (system p store) allowed _),
        fun w lease hmem => absurd hmem List.not_mem_nil⟩
    · rintro s act t ⟨hleased, hold⟩ - hstep
      have hcase := State.step_cases hstep
      refine ⟨State.leased_step hleased hcase, fun w lease hmem => ?_⟩
      have hnext := hcase.later.nextId
      rcases hcase.finished_cases hmem with hbefore | hheld
      · exact (hold w lease hbefore).trans_le hnext
      · exact (((hleased w).granted lease hheld).old).trans_le hnext
  exact hinv.2 w lease hfinished

/-- Committing an undecodable log under a new item leaves the item stuck. -/
theorem stuck_of_commit {store : Store layout} {allowed : State layout → Act → Prop}
    (hreach : Transition.Reachable (system p store) allowed s) {chain : ChainId}
    {fetched : FetchedRange} (hin : r ∈ fetched.records)
    (hnew : ∀ q ∈ s.store.workQueue.rows,
      q.item.dedupKey ≠ (chain, fetched.fromHeight, fetched.toHeight, .backfill))
    (h : State.Step p s (.commit chain fetched) t) (hstored : r ∈ t.store.rawRecords) :
    t.Stuck s.store.workQueue.nextId ⟨chain, fetched.fromHeight, fetched.toHeight, .backfill, ⟨0⟩⟩ r := by
  have hleased := leased_of_reachable hreach
  cases h with
  | @commit _ _ store' outcome hcommit =>
      refine ⟨?_, hstored, fun w lease hlease hid => ?_, fun w lease hlease _ => ?_,
        fun w lease hmem _ => finished_old_of_reachable hreach hmem⟩
      · show ∃ q ∈ (Store.workQueue store').rows, _
        rw [workQueue_commit hcommit, if_neg (by
          rw [List.isEmpty_iff]
          exact List.ne_nil_of_mem hin)]
        exact ⟨_, WorkQueue.mem_pushInTx.mpr (.inr ⟨rfl, hnew⟩), rfl, rfl⟩
      · have hold := ((hleased w).granted lease hlease).old
        omega
      · exact ((hleased w).granted lease hlease).old.le

/-- Once a range with a log that its decoder refuses is committed and queued, and as long as no
rollback deletes the log: the queue is never empty again, nothing of the chain queued with it or later
is ever decoded, and none of it leaves the queue. Every pool knows every configured chain. -/
theorem undecodable_log_stops_chain {store : Store layout}
    (hpool : ∀ w chain, p.decoder w chain = p.config chain) (hr : Undecodable p r)
    (hreach : Transition.Reachable (system p store) Transition.anyStep s) {chain : ChainId}
    {fetched : FetchedRange} (hin : r ∈ fetched.records) (hchain : r.chainId = chain)
    (hrange : fetched.fromHeight ≤ r.height ∧ r.height ≤ fetched.toHeight)
    (hnew : ∀ q ∈ s.store.workQueue.rows,
      q.item.dedupKey ≠ (chain, fetched.fromHeight, fetched.toHeight, .backfill))
    (hcommit : s.step p (.commit chain fetched) = some t) (hstored : r ∈ t.store.rawRecords)
    {acts : List Act} {u : State layout} (hspares : ∀ act ∈ acts, Spares r act)
    (hexec : Transition.exec (system p store) t acts = some u) :
    u.store.workQueue.depth ≠ 0 ∧
      (∀ w lease, (w, lease) ∈ u.history.finished → lease.item.chainId = chain →
        lease.id < s.store.workQueue.nextId) ∧
      ∀ q ∈ u.store.workQueue.rows, q.item.chainId = chain → s.store.workQueue.nextId ≤ q.id →
        ∀ more v, (∀ act ∈ more, Spares r act) →
          Transition.exec (system p store) u more = some v →
            ∃ q' ∈ v.store.workQueue.rows, q'.id = q.id ∧ q'.item = q.item := by
  have hcovers : Covers ⟨chain, fetched.fromHeight, fetched.toHeight, .backfill, ⟨0⟩⟩ r :=
    ⟨hchain, hrange⟩
  have hstep := State.step_cases hcommit
  have hstart : t.Leased p ∧ t.Stuck s.store.workQueue.nextId
      ⟨chain, fetched.fromHeight, fetched.toHeight, .backfill, ⟨0⟩⟩ r :=
    ⟨State.leased_step (leased_of_reachable hreach) hstep, stuck_of_commit hreach hin hnew hstep hstored⟩
  obtain ⟨hleased, hstuck⟩ := Transition.exec_invariant (fun u => u.Leased p ∧
      u.Stuck s.store.workQueue.nextId ⟨chain, fetched.fromHeight, fetched.toHeight, .backfill, ⟨0⟩⟩ r)
    (fun s act t hs hact hst => ⟨State.leased_step hs.1 (State.step_cases hst),
      State.stuck_step hpool hr hcovers hs.1 hs.2 hact (State.step_cases hst)⟩) acts hspares hexec hstart
  refine ⟨?_, hstuck.finished, ?_⟩
  · obtain ⟨q, hq, -⟩ := hstuck.queued
    intro hdepth
    rw [List.length_eq_zero_iff.mp hdepth] at hq
    exact absurd hq List.not_mem_nil
  · intro q hq hsame hid more v hmore hrun
    obtain ⟨-, -, hkept⟩ := Transition.exec_invariant (fun v => v.Leased p ∧
        v.Stuck s.store.workQueue.nextId
          ⟨chain, fetched.fromHeight, fetched.toHeight, .backfill, ⟨0⟩⟩ r ∧
        ∃ q' ∈ v.store.workQueue.rows, q'.id = q.id ∧ q'.item = q.item)
      (by
        rintro s' act t' ⟨hl, hst, q', hq', hqid, hqitem⟩ hact hstep'
        have hcase := State.step_cases hstep'
        obtain ⟨q'', hq'', hid'', hitem''⟩ := kept_behind hl hst hcase hq' (hqitem ▸ hsame)
          (hqid ▸ hid)
        exact ⟨State.leased_step hl hcase, State.stuck_step hpool hr hcovers hl hst hact hcase,
          q'', hq'', hid''.trans hqid, hitem''.trans hqitem⟩)
      more hmore hrun ⟨hleased, hstuck, q, hq, rfl, rfl⟩
    exact hkept

/-- The transfer event with its value in the data: a log that has it in a topic is refused. -/
def decodeValue (raw : RawRecord) : Except DomainError DecodedEvent :=
  if raw.data.isEmpty then .error (.decode "decode failed: missing body value")
  else .ok ⟨transferTable, [("value", .bytes (raw.data.take 1))]⟩

def valueDecoder : AbiIndex :=
  { transferDecoder with
    byTopic0 := fun topic => if topic = transferTopic then some decodeValue else none }

theorem table_of_decode_valueDecoder {raw : RawRecord} {row : EventRow}
    (h : valueDecoder.decode raw = .ok (some row)) : row.event.table = transferTable := by
  rw [AbiIndex.decode] at h
  split at h
  · cases h
  · rename_i decodeEvent hevent
    rw [Rows.bind_eq_ok] at h
    obtain ⟨event, hok, heq⟩ := h
    rw [AbiIndex.eventOf] at hevent
    split at hevent
    · cases hevent
    · split at hevent
      · obtain ⟨-, hfun⟩ := Option.ite_none_right_eq_some.mp hevent
        cases hfun
        rw [decodeValue] at hok
        split at hok
        · cases hok
        · cases hok
          cases heq
          rfl
      · cases hevent

def valuePools : Pools eventLayout where
  config chain := if chain = 1 then some valueDecoder else none
  command _ := .run
  tables _ := [transferTable]
  eventTables {_ decoder raw row} hconfig hdecode := by
    obtain ⟨-, heq⟩ := Option.ite_none_right_eq_some.mp hconfig
    cases heq
    exact List.mem_singleton.mpr (table_of_decode_valueDecoder hdecode)
  callTables {_ decoder tx row} hconfig hdecode := by
    obtain ⟨-, heq⟩ := Option.ite_none_right_eq_some.mp hconfig
    cases heq
    exact absurd (AbiIndex.hasCalls_of_decodeCall hdecode) (by decide)
  refusal := byteaRefusal

/-- A log of the transfer selector without data, in block 5. -/
def tokenLog : RawRecord :=
  { transferLog 1 5 ⟨[7]⟩ 0 with selectors := [transferTopic, ⟨[9]⟩], data := [] }

def tokenBlock : FetchedRange := { transferBlock 1 5 ⟨[7]⟩ 0 with records := [tokenLog] }

/-- Two workers try the block, one after the other; block 6 waits. -/
def twoTries : List Act :=
  [.pull 1, .readRaw 1, .readTimes 1, .fail 1, .commit 1 (transferBlock 1 6 ⟨[8]⟩ 4), .tick,
    .reclaim 0, .pull 2, .readRaw 2, .readTimes 2, .fail 2]

theorem undecodable_log_stops_chain_after_two_tries : ∃ u : State eventLayout,
    u.store.workQueue.rows.map (fun q => (q.id, q.item.fromHeight, q.lockedAt.isSome)) =
        [(1, 5, true), (2, 6, false)] ∧
      ∀ w lease, (w, lease) ∈ u.history.finished → lease.item.chainId = 1 → lease.id < 1 := by
  have hobserved : (State.step valuePools
      (⟨Store.empty, 0, fun _ => .idle, History.empty⟩ : State eventLayout)
      (.commit 1 tokenBlock)).bind (fun t =>
        (Transition.exec (system valuePools Store.empty) t twoTries).map fun u =>
          (decide (tokenLog ∈ t.store.rawRecords), u.store.workQueue.rows.map fun q =>
            (q.id, q.item.fromHeight, q.lockedAt.isSome))) =
      some (true, [(1, 5, true), (2, 6, false)]) := by decide +kernel
  obtain ⟨t, hcommit, hrun⟩ := Option.bind_eq_some_iff.mp hobserved
  obtain ⟨u, hexec, hu⟩ := Option.map_eq_some_iff.mp hrun
  obtain ⟨hstored, hrows⟩ := Prod.mk.inj hu
  have hspares : ∀ act ∈ twoTries, Spares tokenLog act := by
    intro act hact
    simp only [twoTries, List.mem_cons, List.not_mem_nil, or_false] at hact
    rcases hact with rfl | rfl | rfl | rfl | rfl | rfl | rfl | rfl | rfl | rfl | rfl
    all_goals trivial
  refine ⟨u, hrows, ?_⟩
  exact (undecodable_log_stops_chain (fun _ _ => rfl) ⟨valueDecoder, _, rfl, rfl⟩ (.init rfl)
    List.mem_cons_self rfl ⟨le_rfl, le_rfl⟩ (fun q hq => absurd hq List.not_mem_nil) hcommit
    (of_decide_eq_true hstored) hspares hexec).2.1

end Topic0.Workers
