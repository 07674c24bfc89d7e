import Topic0.DecodeLease

/-! Work that queue deduplication can lose. A commit whose item is already queued adds no row, also
when the row is leased and its holder has read the raw range. The invariant is over the order of
commits, reads and acks: a record whose row is not upserted yet is covered by a queued item, and
whoever holds its current lease and has read did so after the record was committed. It is kept by
every step but the commit that is deduplicated into an item whose holder has already read. -/

namespace Topic0.Workers

open Keyed

variable {layout : String → PkColumns} {p : Pools layout} {s t : State layout} {act : Act}

/-- The chain's decoder knows the record's selector. -/
def Known (p : Pools layout) (r : RawRecord) : Prop :=
  ∃ decoder, p.config r.chainId = some decoder ∧ (decoder.eventOf r).isSome = true

/-- The item's range contains the record. -/
def Covers (item : WorkItem) (r : RawRecord) : Prop :=
  r.chainId = item.chainId ∧ item.fromHeight ≤ r.height ∧ r.height ≤ item.toHeight

theorem Covers.decoder_eq {item : WorkItem} {r : RawRecord} {decoder decoder' : AbiIndex}
    (h : Covers item r) (hitem : p.config item.chainId = some decoder)
    (hr : p.config r.chainId = some decoder') : decoder' = decoder := by
  rw [h.1, hitem] at hr
  exact (Option.some.inj hr).symm

/-- The worker is processing the row under its current lease, and has read the raw range. -/
def Phase.HasRead (phase : Phase) (q : QueueRow) (batch : Batch) : Prop :=
  phase.batch? = some batch ∧
    ∃ lease, phase.lease? = some lease ∧ lease.id = q.id ∧ lease.leaseSeq = q.leaseSeq

/-- The row's current processing has not read the raw range since the record was committed. -/
def AwaitsRead (s : State layout) (q : QueueRow) (r : RawRecord) : Prop :=
  ∀ w batch, (s.workers w).HasRead q batch → ¬s.history.insertedAt r.key < batch.readAt

/-- What is left to write of what the worker has read contains the record's row. -/
def Phase.ToWrite (p : Pools layout) (r : RawRecord) : Phase → Prop
  | .rawRead _ batch | .timed _ batch _ => r ∈ batch.raw
  | .writing _ batch remaining => r ∈ batch.raw ∧ ∃ decoder, p.config r.chainId = some decoder ∧
      ∃ group ∈ remaining, decodesTo decoder group.1 r = true
  | _ => False

/-- The row's current processing has read the record and is on its way to write it. -/
def InHand (p : Pools layout) (s : State layout) (q : QueueRow) (r : RawRecord) : Prop :=
  ∃ w batch, (s.workers w).HasRead q batch ∧ s.history.insertedAt r.key < batch.readAt ∧
    (s.workers w).ToWrite p r

/-- Every known record of the store has its row upserted, or is covered by a queued item that is
still to be read or whose holder is about to write it. -/
def NoWorkLost (p : Pools layout) (s : State layout) : Prop :=
  ∀ r ∈ s.store.rawRecords, Known p r →
    s.history.upserted r.key = true ∨
      ∃ q ∈ s.store.workQueue.rows, Covers q.item r ∧ (AwaitsRead s q r ∨ InHand p s q r)

/-- A commit with a new known record finds no queued item of the same chain, range and kind whose
current processing has already read the raw range. -/
def NotDeduplicatedAfterRead (p : Pools layout) (s : State layout) : Act → Prop
  | .commit chain fetched =>
      (∃ r ∈ fetched.records, s.store.rawRecords.find? r.key = none ∧ Known p r) →
        ∀ q ∈ s.store.workQueue.rows,
          q.item.dedupKey = (chain, fetched.fromHeight, fetched.toHeight, .backfill) →
          ∀ w batch, ¬(s.workers w).HasRead q batch
  | _ => True

/-- How the raw store and its history may change under a batch that was read before: records it
could have seen are old ones, and stay upserted. -/
structure History.Later (raw raw' : Table RawRecord.key) (h h' : History) : Prop where
  clock : h.clock ≤ h'.clock
  seen : ∀ r ∈ raw', ∀ n < h.clock, h'.insertedAt r.key < n →
    r ∈ raw ∧ h.insertedAt r.key < n ∧ (h.upserted r.key = true → h'.upserted r.key = true)

/-- What the tables still to be written mean for a batch: a record that it saw is upserted or its
table is among them. -/
def Written (p : Pools layout) (raw : Table RawRecord.key) (h : History) (item : WorkItem)
    (batch : Batch) (remaining : List (String × List EventRow)) : Prop :=
  ∀ r ∈ raw, Covers item r → Known p r → h.insertedAt r.key < batch.readAt →
    h.upserted r.key = true ∨ ∃ decoder, p.config r.chainId = some decoder ∧
      ∃ group ∈ remaining, decodesTo decoder group.1 r = true

def Phase.Progress (p : Pools layout) (raw : Table RawRecord.key) (h : History) : Phase → Prop
  | .writing lease batch remaining => Written p raw h lease.item batch remaining
  | .decoded lease batch => Written p raw h lease.item batch []
  | _ => True

/-- A batch holds every record of its range that was committed before it was read. -/
structure Phase.Tracks (p : Pools layout) (raw : Table RawRecord.key) (h : History) (phase : Phase) :
    Prop where
  readAt : ∀ batch, phase.batch? = some batch → batch.readAt < h.clock
  complete : ∀ lease batch, phase.lease? = some lease → phase.batch? = some batch →
    ∀ r ∈ raw, Covers lease.item r → h.insertedAt r.key < batch.readAt → r ∈ batch.raw
  progress : phase.Progress p raw h

/-- A queued item covers the record, and whoever has read for it has read the record. -/
def Queued (s : State layout) (r : RawRecord) : Prop :=
  ∃ q ∈ s.store.workQueue.rows, Covers q.item r ∧
    ∀ w batch, (s.workers w).HasRead q batch → s.history.insertedAt r.key < batch.readAt

structure State.Tracked (p : Pools layout) (s : State layout) : Prop where
  leased : s.Leased p
  stamped : ∀ r ∈ s.store.rawRecords, s.history.insertedAt r.key < s.history.clock
  tracks : ∀ w, (s.workers w).Tracks p s.store.rawRecords s.history
  pending : ∀ r ∈ s.store.rawRecords, Known p r → s.history.upserted r.key = true ∨ Queued s r

section Batches

variable {raw raw' : Table RawRecord.key} {h h' : History}

theorem Written.later (hlater : History.Later raw raw' h h') {item : WorkItem} {batch : Batch}
    {remaining : List (String × List EventRow)} (hread : batch.readAt < h.clock)
    (hw : Written p raw h item batch remaining) : Written p raw' h' item batch remaining := by
  intro r hr hcovers hknown hstamp
  obtain ⟨hold, hstamp, hkept⟩ := hlater.seen r hr _ hread hstamp
  rcases hw r hold hcovers hknown hstamp with hdone | hleft
  · exact .inl (hkept hdone)
  · exact .inr hleft

theorem Phase.Tracks.later (hlater : History.Later raw raw' h h') {phase : Phase}
    (ht : phase.Tracks p raw h) : phase.Tracks p raw' h' := by
  refine ⟨fun batch hbatch => (ht.readAt batch hbatch).trans_le hlater.clock, ?_, ?_⟩
  · intro lease batch hlease hbatch r hr hcovers hstamp
    obtain ⟨hold, hstamp, -⟩ := hlater.seen r hr _ (ht.readAt batch hbatch) hstamp
    exact ht.complete lease batch hlease hbatch r hold hcovers hstamp
  · cases phase with
    | writing lease batch remaining => exact ht.progress.later hlater (ht.readAt batch rfl)
    | decoded lease batch => exact ht.progress.later hlater (ht.readAt batch rfl)
    | _ => trivial

end Batches

theorem inserts_eq_true {store : Store layout} {records : List RawRecord} {k : ChainId × Nat × Nat} :
    inserts store records k = true ↔
      (∃ r ∈ records, r.key = k) ∧ store.rawRecords.find? k = none := by
  simp [inserts]

/-- A stored record whose key the insert does not add was there before. -/
theorem mem_of_not_inserts {store : Store layout} {records : List RawRecord} {r : RawRecord}
    (hr : r ∈ store.rawRecords.insertAll records) (hold : inserts store records r.key = false) :
    r ∈ store.rawRecords := by
  rcases Table.mem_or_mem_of_mem_insertAll hr with hmem | hnew
  · exact hmem
  · have hsome : store.rawRecords.find? r.key ≠ none := fun hnone =>
      Bool.false_ne_true (hold.symm.trans (inserts_eq_true.mpr ⟨⟨r, hnew, rfl⟩, hnone⟩))
    obtain ⟨x, hx⟩ := Option.ne_none_iff_exists'.mp hsome
    obtain ⟨hmem, hkey⟩ := Table.of_find?_eq_some hx
    rwa [← Table.eq_of_key (Table.mem_insertAll_of_mem records hmem) hr hkey]

section Commit

variable {chain : ChainId} {fetched : FetchedRange} {store : Store layout}
  {outcome : IngestionService.IngestOutcome}
  (hcommit : IngestionService.commitRange s.store chain fetched ⟨0⟩ = .ok (store, outcome))

include hcommit

theorem rawRecords_commit : store.rawRecords = s.store.rawRecords.insertAll fetched.records :=
  (IngestionService.commit_ok hcommit).rawRecords

theorem historyLater_commit :
    History.Later s.store.rawRecords store.rawRecords s.history
      (s.history.commit s.store fetched.records) := by
  refine ⟨Nat.le_succ _, fun r hr n hn hstamp => ?_⟩
  rw [rawRecords_commit hcommit] at hr
  simp only [History.commit] at hstamp ⊢
  cases hnew : inserts s.store fetched.records r.key with
  | true =>
      rw [hnew, if_pos rfl] at hstamp
      omega
  | false =>
      rw [hnew] at hstamp
      refine ⟨mem_of_not_inserts hr hnew, hstamp, fun hdone => ?_⟩
      rw [hdone]
      rfl

end Commit

theorem State.Step.historyLater (h : State.Step p s act t) :
    History.Later s.store.rawRecords t.store.rawRecords s.history t.history := by
  cases h with
  | commit hcommit => exact historyLater_commit hcommit
  | rollback hrollback =>
      exact ⟨le_rfl, fun r hr n _ hstamp => ⟨((hrollback.rawRecords r).mp hr).1, hstamp, id⟩⟩
  | readRaw hphase hdecoder =>
      exact ⟨Nat.le_succ _, fun r hr n _ hstamp => ⟨hr, hstamp, id⟩⟩
  | upsert hphase hdecoder hrows =>
      refine ⟨le_rfl, fun r hr n _ hstamp => ⟨hr, hstamp, fun hdone => ?_⟩⟩
      simp only [State.enter_history, History.upsert, hdone, Bool.true_or]
  | _ => exact ⟨le_rfl, fun r hr n _ hstamp => ⟨hr, hstamp, id⟩⟩

theorem State.Step.stamped (h : State.Step p s act t)
    (hs : ∀ r ∈ s.store.rawRecords, s.history.insertedAt r.key < s.history.clock) :
    ∀ r ∈ t.store.rawRecords, t.history.insertedAt r.key < t.history.clock := by
  cases h with
  | @commit chain fetched store outcome hcommit =>
      intro r hr
      have hmem : r ∈ s.store.rawRecords.insertAll fetched.records := rawRecords_commit hcommit ▸ hr
      show (if inserts s.store fetched.records r.key then s.history.clock else
        s.history.insertedAt r.key) < s.history.clock + 1
      cases hnew : inserts s.store fetched.records r.key with
      | true => exact Nat.lt_succ_self _
      | false => exact Nat.lt_succ_of_lt (hs r (mem_of_not_inserts hmem hnew))
  | rollback hrollback => exact fun r hr => hs r ((hrollback.rawRecords r).mp hr).1
  | readRaw hphase hdecoder => exact fun r hr => Nat.lt_succ_of_lt (hs r hr)
  | _ => exact hs

theorem exists_ok_of_decodeAll {α β ε : Type} {f : α → Except ε (Option β)} {as : List α}
    {bs : List β} (h : decodeAll f as = .ok bs) {a : α} (ha : a ∈ as) : ∃ row, f a = .ok row := by
  induction as generalizing bs with
  | nil => exact absurd ha List.not_mem_nil
  | cons a' as ih =>
      rw [decodeAll, Rows.bind_eq_ok] at h
      obtain ⟨row, hrow, h⟩ := h
      rw [Rows.bind_eq_ok] at h
      obtain ⟨rest, hrest, -⟩ := h
      rcases List.mem_cons.mp ha with rfl | hmem
      · exact ⟨row, hrow⟩
      · exact ih hrest hmem

theorem decode_eq_some_of_known {decoder : AbiIndex} {r : RawRecord} {row : Option EventRow}
    (hknown : (decoder.eventOf r).isSome = true) (h : decoder.decode r = .ok row) :
    ∃ d, decoder.decode r = .ok (some d) := by
  obtain ⟨decodeEvent, hevent⟩ := Option.isSome_iff_exists.mp hknown
  rw [AbiIndex.decode, hevent] at h ⊢
  simp only [Rows.bind_eq_ok] at h ⊢
  obtain ⟨event, hok, -⟩ := h
  exact ⟨_, event, hok, rfl⟩

/-- A decoded range has a table for the row of every known record it read. -/
theorem exists_group_of_known {order : Order} {decoder : AbiIndex} {store : Store layout}
    {chain : ChainId} {raw : List RawRecord} {times : List (Nat × Int)}
    {tables : List (String × List EventRow)}
    (h : decodedTables order decoder store chain raw times = .ok tables) {r : RawRecord}
    (hr : r ∈ raw) (hknown : (decoder.eventOf r).isSome = true) :
    ∃ group ∈ tables, decodesTo decoder group.1 r = true := by
  obtain ⟨events, hevents, -⟩ := Rows.bind_eq_ok.mp (by rwa [decodedTables] at h)
  obtain ⟨row, hrow⟩ := exists_ok_of_decodeAll hevents hr
  obtain ⟨d, hd⟩ := decode_eq_some_of_known hknown hrow
  have hmem := (mem_decodedTables (t := d.event.table) h).mpr ⟨d, .inl ⟨r, hr, hd⟩, rfl, rfl⟩
  obtain ⟨group, hgroup, -⟩ := List.mem_flatMap.mp hmem
  obtain ⟨hin, htable⟩ := List.mem_filter.mp hgroup
  refine ⟨group, hin, ?_⟩
  rw [decodesTo, hd, of_decide_eq_true htable]
  exact beq_self_eq_true _

theorem Phase.Tracks.of_batch {raw : Table RawRecord.key} {h : History} {phase phase' : Phase}
    (ht : phase.Tracks p raw h) (hlease : phase'.lease? = phase.lease?)
    (hbatch : phase'.batch? = phase.batch?) (hprogress : phase'.Progress p raw h) :
    phase'.Tracks p raw h :=
  ⟨fun batch hb => ht.readAt batch (hbatch ▸ hb),
    fun lease batch hl hb => ht.complete lease batch (hlease ▸ hl) (hbatch ▸ hb), hprogress⟩

theorem tracks_enter {raw : Table RawRecord.key} {h : History}
    (hs : ∀ v, (s.workers v).Tracks p raw h) {w : Nat} {phase : Phase}
    (hphase : phase.Tracks p raw h) : ∀ v, ((s.enter w phase).workers v).Tracks p raw h :=
  State.forall_enter (P := fun _ phase => phase.Tracks p raw h) hs hphase

/-- The table just written is not needed any more for the records it was decoded from. -/
theorem Written.upsert {raw : Table RawRecord.key} {h : History} {item : WorkItem} {batch : Batch}
    {group : String × List EventRow} {remaining : List (String × List EventRow)}
    {decoder : AbiIndex} (hconfig : p.config item.chainId = some decoder)
    (hcomplete : ∀ r ∈ raw, Covers item r → h.insertedAt r.key < batch.readAt → r ∈ batch.raw)
    (hw : Written p raw h item batch (group :: remaining)) :
    Written p raw (h.upsert decoder batch group.1) item batch remaining := by
  intro r hr hcovers hknown hstamp
  have hbefore : h.insertedAt r.key < batch.readAt := hstamp
  simp only [History.upsert, Bool.or_eq_true]
  rcases hw r hr hcovers hknown hbefore with hdone | ⟨other, hother, g, hg, hto⟩
  · exact .inl (.inl hdone)
  · rcases List.mem_cons.mp hg with rfl | hrest
    · obtain rfl := hcovers.decoder_eq hconfig hother
      refine .inl (.inr (List.any_eq_true.mpr ⟨r, hcomplete r hr hcovers hbefore, ?_⟩))
      simp [hto, hbefore]
    · exact .inr ⟨other, hother, g, hrest, hto⟩

theorem State.Step.tracks (hs : ∀ w, (s.workers w).Tracks p s.store.rawRecords s.history)
    (h : State.Step p s act t) : ∀ w, (t.workers w).Tracks p t.store.rawRecords t.history := by
  have hlater : ∀ w, (s.workers w).Tracks p t.store.rawRecords t.history := fun w =>
    (hs w).later h.historyLater
  cases h with
  | commit hcommit => exact hlater
  | rollback hrollback => exact hlater
  | tick => exact hlater
  | reclaim => exact hlater
  | pull hpull => exact tracks_enter hlater ⟨nofun, nofun, trivial⟩
  | skip hphase hdecoder => exact tracks_enter hlater ⟨nofun, nofun, trivial⟩
  | @readRaw w lease decoder hphase hdecoder =>
      refine tracks_enter hlater ⟨?_, ?_, trivial⟩
      · rintro _ ⟨⟩
        exact Nat.lt_succ_self _
      · rintro _ _ ⟨⟩ ⟨⟩ r hr hcovers -
        exact RawRecordRepo.mem_range.mpr ⟨hr, hcovers⟩
  | @readTimes w lease batch hphase =>
      have ht := hlater w
      rw [hphase] at ht
      exact tracks_enter hlater (ht.of_batch rfl rfl trivial)
  | @decode w order lease batch times decoder tables hphase hdecoder htables =>
      have ht := hlater w
      rw [hphase] at ht
      refine tracks_enter hlater (ht.of_batch rfl rfl fun r hr hcovers hknown hstamp => .inr ?_)
      obtain ⟨known, hconfig, hselector⟩ := hknown
      obtain rfl := hcovers.decoder_eq (Pools.config_of_decoder hdecoder) hconfig
      exact ⟨known, hconfig, exists_group_of_known htables
        (ht.complete lease batch rfl rfl r hr hcovers hstamp) hselector⟩
  | @upsert w lease batch group remaining decoder rows hphase hdecoder hrows =>
      have ht := hlater w
      have hold := hs w
      rw [hphase] at ht hold
      refine tracks_enter hlater ⟨ht.readAt, ht.complete, ?_⟩
      exact Written.upsert (Pools.config_of_decoder hdecoder)
        (hold.complete lease batch rfl rfl) hold.progress
  | @finish w lease batch hphase =>
      have ht := hlater w
      rw [hphase] at ht
      exact tracks_enter hlater (ht.of_batch rfl rfl ht.progress)
  | ackDecoded hphase => exact tracks_enter hlater ⟨nofun, nofun, trivial⟩
  | ackSkipped hphase => exact tracks_enter hlater ⟨nofun, nofun, trivial⟩
  | fail => exact tracks_enter hlater ⟨nofun, nofun, trivial⟩

/-- Whoever has read for a row after a step had read before it, or reads in this step. -/
theorem State.Step.hasRead (h : State.Step p s act t) {v : Nat} {q : QueueRow} {batch : Batch}
    (hread : (t.workers v).HasRead q batch) :
    (s.workers v).HasRead q batch ∨ batch.readAt = s.history.clock := by
  -- a worker that enters a phase with the same lease and batch had read before
  have hsame : ∀ (u : State layout) (w : Nat) (phase : Phase), u.workers = s.workers →
      ((u.enter w phase).workers v).HasRead q batch →
      (phase.HasRead q batch → (s.workers w).HasRead q batch ∨ batch.readAt = s.history.clock) →
      (s.workers v).HasRead q batch ∨ batch.readAt = s.history.clock := by
    intro u w phase hu hv hw
    by_cases heq : v = w
    · subst heq
      rw [State.enter_self] at hv
      exact hw hv
    · rw [State.enter_of_ne _ heq, hu] at hv
      exact .inl hv
  cases h with
  | commit hcommit => exact .inl hread
  | rollback hrollback => exact .inl hread
  | tick => exact .inl hread
  | reclaim => exact .inl hread
  | pull hpull => exact hsame _ _ _ rfl hread fun hw => absurd hw.1 nofun
  | skip hphase hdecoder => exact hsame _ _ _ rfl hread fun hw => absurd hw.1 nofun
  | readRaw hphase hdecoder =>
      refine hsame _ _ _ rfl hread fun hw => .inr ?_
      rw [← Option.some.inj hw.1]
  | readTimes hphase => exact hsame _ _ _ rfl hread fun hw => .inl (by rw [hphase]; exact hw)
  | decode hphase hdecoder htables =>
      exact hsame _ _ _ rfl hread fun hw => .inl (by rw [hphase]; exact hw)
  | upsert hphase hdecoder hrows =>
      exact hsame _ _ _ rfl hread fun hw => .inl (by rw [hphase]; exact hw)
  | finish hphase => exact hsame _ _ _ rfl hread fun hw => .inl (by rw [hphase]; exact hw)
  | ackDecoded hphase => exact hsame _ _ _ rfl hread fun hw => absurd hw.1 nofun
  | ackSkipped hphase => exact hsame _ _ _ rfl hread fun hw => absurd hw.1 nofun
  | fail => exact hsame _ _ _ rfl hread fun hw => absurd hw.1 nofun

/-- A lease of the state is not current under a higher sequence. -/
theorem State.Leased.not_hasRead (hs : s.Leased p) {q q' : QueueRow}
    (hq : q ∈ s.store.workQueue.rows) (hid : q'.id = q.id) (hseq : q.leaseSeq < q'.leaseSeq)
    (v : Nat) (batch : Batch) : ¬(s.workers v).HasRead q' batch := by
  rintro ⟨-, lease, hlease, hlid, hlseq⟩
  have hle := (((hs v).granted lease hlease).row q hq (hid.symm.trans hlid.symm)).2
  omega

/-- A record stays queued while a row that covers it does. -/
theorem Queued.keep (hs : s.Tracked p) (h : State.Step p s act t) {r : RawRecord}
    (hr : r ∈ s.store.rawRecords) (hstamp : t.history.insertedAt r.key = s.history.insertedAt r.key)
    {q : QueueRow} (hq : q ∈ s.store.workQueue.rows) (hcovers : Covers q.item r)
    (hread : ∀ w batch, (s.workers w).HasRead q batch → s.history.insertedAt r.key < batch.readAt)
    (hkept : ∃ q' ∈ t.store.workQueue.rows, q'.id = q.id ∧ q'.item = q.item ∧
      (q' = q ∨ q.leaseSeq < q'.leaseSeq)) : Queued t r := by
  obtain ⟨q', hq', hid, hitem, hcase⟩ := hkept
  refine ⟨q', hq', hitem ▸ hcovers, fun w batch hw => ?_⟩
  rw [hstamp]
  rcases h.hasRead hw with hbefore | hnow
  · rcases hcase with rfl | hseq
    · exact hread w batch hbefore
    · exact absurd hbefore (hs.leased.not_hasRead hq hid hseq w batch)
  · rw [hnow]
    exact hs.stamped r hr

/-- A record after a step was there before, with the same stamp, or was just committed. -/
theorem State.Step.record_cases (h : State.Step p s act t) {r : RawRecord}
    (hr : r ∈ t.store.rawRecords) :
    (r ∈ s.store.rawRecords ∧ t.history.insertedAt r.key = s.history.insertedAt r.key ∧
      (s.history.upserted r.key = true → t.history.upserted r.key = true)) ∨
    ∃ chain fetched, act = .commit chain fetched ∧
      inserts s.store fetched.records r.key = true ∧ r ∈ fetched.records := by
  cases h with
  | @commit chain fetched store outcome hcommit =>
      have hmem : r ∈ s.store.rawRecords.insertAll fetched.records := rawRecords_commit hcommit ▸ hr
      cases hnew : inserts s.store fetched.records r.key with
      | true =>
          refine .inr ⟨chain, fetched, rfl, hnew, ?_⟩
          rcases Table.mem_or_mem_of_mem_insertAll hmem with hold | hin
          · exact absurd rfl (Table.find?_eq_none.mp (inserts_eq_true.mp hnew).2 r hold)
          · exact hin
      | false =>
          refine .inl ⟨mem_of_not_inserts hmem hnew, ?_, fun hdone => ?_⟩
          · simp only [History.commit, hnew, Bool.false_eq_true, if_false]
          · simp only [History.commit, hnew, hdone, Bool.not_false, Bool.and_true]
  | rollback hrollback => exact .inl ⟨((hrollback.rawRecords r).mp hr).1, rfl, id⟩
  | upsert hphase hdecoder hrows =>
      refine .inl ⟨hr, rfl, fun hdone => ?_⟩
      simp only [State.enter_history, History.upsert, hdone, Bool.true_or]
  | _ => exact .inl ⟨hr, rfl, id⟩

/-- A new record is queued by its own commit. -/
theorem queued_of_commit (hs : s.Leased p) {chain : ChainId} {fetched : FetchedRange}
    (h : State.Step p s (.commit chain fetched) t) (hsourced : Sourced layout (.commit chain fetched))
    (hallowed : NotDeduplicatedAfterRead p s (.commit chain fetched)) {r : RawRecord}
    (hr : r ∈ fetched.records) (hnew : inserts s.store fetched.records r.key = true)
    (hknown : Known p r) : Queued t r := by
  cases h with
  | @commit _ _ store outcome hcommit =>
      have hne : fetched.records.isEmpty = false := by
        cases hrecords : fetched.records with
        | nil => exact absurd (hrecords ▸ hr) List.not_mem_nil
        | cons => rfl
      have hqueue := workQueue_commit hcommit
      rw [hne, if_neg Bool.false_ne_true] at hqueue
      obtain ⟨q, hq, hkey, hwhence⟩ := s.store.workQueue.exists_pushInTx
        ⟨chain, fetched.fromHeight, fetched.toHeight, .backfill, ⟨0⟩⟩
      refine ⟨q, hqueue ▸ hq, ?_, fun w batch hw => ?_⟩
      · simp only [WorkItem.dedupKey, Prod.mk.injEq] at hkey
        rw [Covers, hkey.1, hkey.2.1, hkey.2.2.1]
        exact hsourced.1 r hr
      · -- a new row has no lease yet; an old one was not read by its holder
        rcases hwhence with hold | hid
        · exact absurd hw (hallowed ⟨r, hr, (inserts_eq_true.mp hnew).2, hknown⟩ q hold hkey w batch)
        · obtain ⟨-, lease, hlease, hlid, -⟩ := hw
          have hold := ((hs w).granted lease hlease).old
          omega

/-- The row that covers a record goes away only after the record's row was upserted. -/
theorem upserted_of_removed (hpool : ∀ w chain, p.decoder w chain = p.config chain)
    (hs : s.Tracked p) (h : State.Step p s act t) {q : QueueRow} (hremoved : Removed s t q)
    {r : RawRecord} (hr : r ∈ s.store.rawRecords) (hknown : Known p r) (hcovers : Covers q.item r)
    (hread : ∀ w batch, (s.workers w).HasRead q batch → s.history.insertedAt r.key < batch.readAt) :
    s.history.upserted r.key = true := by
  obtain ⟨w, lease, -, ⟨hid, hseq, hitem⟩, -, hphase⟩ := h.removed hs.leased hremoved
  rw [← hitem] at hcovers
  rcases hphase with ⟨batch, hphase⟩ | hphase
  · have ht := hs.tracks w
    have hstamp := hread w batch (by rw [hphase]; exact ⟨rfl, lease, rfl, hid, hseq⟩)
    rw [hphase] at ht
    rcases ht.progress r hr hcovers hknown hstamp with hdone | ⟨_, _, group, hgroup, _⟩
    · exact hdone
    · exact absurd hgroup List.not_mem_nil
  · have hnone := (hs.leased w).skipped lease hphase
    obtain ⟨decoder, hconfig, -⟩ := hknown
    rw [hpool, ← hcovers.1, hconfig] at hnone
    cases hnone

theorem State.tracked_step (hpool : ∀ w chain, p.decoder w chain = p.config chain)
    (hs : s.Tracked p) (hsourced : Sourced layout act)
    (hallowed : NotDeduplicatedAfterRead p s act) (h : State.Step p s act t) : t.Tracked p := by
  refine ⟨leased_step hs.leased h, h.stamped hs.stamped, h.tracks hs.tracks, ?_⟩
  intro r hr hknown
  rcases h.record_cases hr with ⟨hold, hstamp, hdone⟩ | ⟨chain, fetched, rfl, hnew, hin⟩
  · rcases hs.pending r hold hknown with hupserted | ⟨q, hq, hcovers, hread⟩
    · exact .inl (hdone hupserted)
    · rcases h.removed_or_kept hq with hremoved | hkept
      · exact .inl (hdone (upserted_of_removed hpool hs h hremoved hold hknown hcovers hread))
      · exact .inr (Queued.keep hs h hold hstamp hq hcovers hread hkept)
  · exact .inr (queued_of_commit hs.leased h hsourced hallowed hin hnew hknown)

/-- What is queued is still to be read, or read and on its way to its table. -/
theorem State.Tracked.noWorkLost (hs : s.Tracked p) : NoWorkLost p s := by
  intro r hr hknown
  rcases hs.pending r hr hknown with hdone | ⟨q, hq, hcovers, hread⟩
  · exact .inl hdone
  by_cases hholder : ∃ w batch, (s.workers w).HasRead q batch
  · obtain ⟨w, batch, hw⟩ := hholder
    have hstamp := hread w batch hw
    have ht := hs.tracks w
    obtain ⟨hbatch, lease, hlease, hid, hseq⟩ := hw
    have hitem := (((hs.leased w).granted lease hlease).row q hq hid.symm).1
    have hmem := ht.complete lease batch hlease hbatch r hr (hitem ▸ hcovers) hstamp
    have hin : s.history.upserted r.key = true ∨ (s.workers w).ToWrite p r := by
      cases hphase : s.workers w with
      | rawRead lease' batch' =>
          rw [hphase] at hbatch
          cases hbatch
          exact .inr hmem
      | timed lease' batch' times =>
          rw [hphase] at hbatch
          cases hbatch
          exact .inr hmem
      | writing lease' batch' remaining =>
          rw [hphase] at hbatch hlease ht
          cases hbatch
          cases hlease
          rcases ht.progress r hr (hitem ▸ hcovers) hknown hstamp with hdone | hleft
          · exact .inl hdone
          · exact .inr ⟨hmem, hleft⟩
      | decoded lease' batch' =>
          rw [hphase] at hbatch hlease ht
          cases hbatch
          cases hlease
          rcases ht.progress r hr (hitem ▸ hcovers) hknown hstamp with hdone | ⟨_, _, group, hg, _⟩
          · exact .inl hdone
          · exact absurd hg List.not_mem_nil
      | idle => rw [hphase] at hbatch; cases hbatch
      | leased lease' => rw [hphase] at hbatch; cases hbatch
      | skipped lease' => rw [hphase] at hbatch; cases hbatch
    rcases hin with hdone | hwrite
    · exact .inl hdone
    · exact .inr ⟨q, hq, hcovers, .inr ⟨w, batch, ⟨hbatch, lease, hlease, hid, hseq⟩, hstamp, hwrite⟩⟩
  · exact .inr ⟨q, hq, hcovers, .inl fun w batch hw => absurd ⟨w, batch, hw⟩ hholder⟩

/-- With one pool for all chains, no run loses work whose commits are never deduplicated into an
item that its holder has already read for. -/
theorem noWorkLost_of_notDeduplicatedAfterRead
    (hpool : ∀ w chain, p.decoder w chain = p.config chain)
    (h : Transition.Reachable (system p Store.empty)
      (fun s act => Sourced layout act ∧ NotDeduplicatedAfterRead p s act) s) : NoWorkLost p s := by
  have hinv := h.invariant (State.Tracked p) (by
    rintro s rfl
    refine ⟨fun w => ⟨nofun, nofun, nofun, nofun⟩, ?_, fun w => ⟨nofun, nofun, trivial⟩, ?_⟩
    · exact fun r hr => absurd hr (Table.not_mem_empty r)
    · exact fun r hr => absurd hr (Table.not_mem_empty r)) fun s act t hs hallowed hstep =>
      State.tracked_step hpool hs hallowed.1 hallowed.2 (State.step_cases hstep)
  exact hinv.noWorkLost

theorem known_transferLog {command : Nat → Command} (height : Nat) (blockHash : Hash)
    (value : UInt8) : Known (transferPools command) (transferLog 1 height blockHash value) :=
  ⟨transferDecoder, rfl, rfl⟩

/-- Block 5 is committed and decoded, then block 6 is committed and being decoded. -/
theorem noWorkLost_two_blocks :
    ∃ s : State eventLayout, s.store.rawRecords.rows.map RawRecord.height = [5, 6] ∧
      NoWorkLost (transferPools fun _ => .run) s := by
  let guard : State eventLayout → Act → Bool := fun s act =>
    match act with
    | .commit chain fetched => s.store.workQueue.rows.isEmpty && fetched.aux.enrichment.isEmpty &&
        fetched.records.all fun r => r.chainId == chain && decide (fetched.fromHeight ≤ r.height) &&
          decide (r.height ≤ fetched.toHeight)
    | _ => true
  have hguard : ∀ s act, guard s act = true →
      Sourced eventLayout act ∧ NotDeduplicatedAfterRead (transferPools fun _ => .run) s act := by
    intro s act hact
    cases act with
    | commit chain fetched =>
        simp only [guard, Bool.and_eq_true, List.isEmpty_iff, List.all_eq_true, beq_iff_eq,
          decide_eq_true_eq, and_assoc] at hact
        obtain ⟨hrows, haux, hrecords⟩ := hact
        refine ⟨⟨hrecords, ?_⟩, fun _ => ?_⟩
        · rw [haux]
          exact nofun
        · rw [hrows]
          exact nofun
    | _ => exact ⟨trivial, trivial⟩
  obtain ⟨s, hreach, hheights⟩ := Transition.Reachable.exists_observed_where hguard
    (.init rfl : Transition.Reachable (system (transferPools fun _ => .run)
      (Store.empty : Store eventLayout)) _ _)
    [.commit 1 (transferBlock 1 5 ⟨[7]⟩ 3), .pull 1, .readRaw 1, .readTimes 1,
      .decode 1 Order.stable, .upsert 1, .finish 1, .ack 1,
      .commit 1 (transferBlock 1 6 ⟨[8]⟩ 4), .pull 1, .readRaw 1]
    (fun s => s.store.rawRecords.rows.map RawRecord.height) (b := [5, 6]) (by decide +kernel)
  exact ⟨s, hheights, noWorkLost_of_notDeduplicatedAfterRead (fun _ _ => rfl) hreach⟩

/-- The replacement of block 5 is committed while the worker that holds its range has read the old
block: the item is deduplicated, the ack deletes it, and the new record is never decoded. -/
theorem work_lost_to_deduplication :
    ¬∀ s : State eventLayout,
      Transition.Reachable (system (transferPools fun _ => .run) Store.empty)
        (fun _ act => Sourced eventLayout act) s → NoWorkLost (transferPools fun _ => .run) s := by
  intro hevery
  obtain ⟨s, hreach, hobserved⟩ := Transition.Reachable.exists_observed
    (.init rfl : Transition.Reachable (system (transferPools fun _ => .run)
      (Store.empty : Store eventLayout)) (fun _ act => Sourced eventLayout act) _)
    [.commit 1 (transferBlock 1 5 ⟨[7]⟩ 3), .pull 1, .readRaw 1, .rollback 1 5,
      .commit 1 (transferBlock 1 5 ⟨[8]⟩ 4), .readTimes 1, .decode 1 Order.stable, .upsert 1,
      .finish 1, .ack 1]
    (by simp [Sourced, transferBlock, transferLog])
    (fun s => (s.store.workQueue.rows, s.store.rawRecords.rows, s.history.upserted (1, 5, 0)))
    (b := ([], [transferLog 1 5 ⟨[8]⟩ 4], false)) (by decide +kernel)
  simp only [Prod.mk.injEq] at hobserved
  obtain ⟨hqueue, hraw, hupserted⟩ := hobserved
  have hmem : transferLog 1 5 ⟨[8]⟩ 4 ∈ s.store.rawRecords := by
    rw [Table.mem_def, hraw]
    exact List.mem_singleton_self _
  rcases hevery s hreach _ hmem (known_transferLog 5 ⟨[8]⟩ 4) with hdone | ⟨q, hq, -⟩
  · exact Bool.false_ne_true (hupserted.symm.trans hdone)
  · rw [hqueue] at hq
    exact List.not_mem_nil hq

end Topic0.Workers
