import Topic0.DecodeFence
import Topic0.DecodeUpserted

/-! What an empty queue means. A backfill waits until the queue's depth is zero, leased rows
counting, and then reports its range as decoded. On a chain that is not reorganised every range has
its matching logs once and for all, so a commit that finds its item queued brings nothing new, and no
rollback comes between a worker's read and its write. Then, whatever the interleaving of commits,
crashes, reclaims and any number of workers, the event tables are the decode of the raw store up to
what the queue still holds. -/

namespace Topic0

/-- `depth`: `SELECT count(*) FROM work_queue`. -/
def WorkQueue.depth (queue : WorkQueue) : Nat := queue.rows.length

namespace Workers

open Keyed

variable {layout : String → PkColumns} {p : Pools layout} {s t : State layout} {act : Act}

/-- The record decodes, with its chain's decoder, to a row of an event table. -/
structure DecodesInto (p : Pools layout) (r : RawRecord) (d : EventRow) : Prop where
  decodes : ∃ decoder, p.config r.chainId = some decoder ∧ decoder.decode r = .ok (some d)
  table : layout d.event.table = .event

/-- The event tables hold nothing but what raw records decode to, and of each raw record that no
queued item covers exactly one row. -/
structure View (p : Pools layout) (store : Store layout) : Prop where
  sound : MatchesRaw p store
  complete : ∀ r ∈ store.rawRecords, ∀ d, DecodesInto p r d →
    (∃ q ∈ store.workQueue.rows, Covers q.item r) ∨
      ∃! row, row ∈ store.typed d.event.table ∧ DecodesTo p r row

/-- The chains are not reorganised: the records of a committed range are the matching logs there,
and nothing is rolled back. -/
def Final (layout : String → PkColumns) (logs : RawRecord → Prop) : Act → Prop
  | .commit chain fetched =>
      (∀ r, r ∈ fetched.records ↔ logs r ∧ r.chainId = chain ∧ fetched.fromHeight ≤ r.height ∧
        r.height ≤ fetched.toHeight) ∧
      ∀ row ∈ fetched.aux.enrichment, layout row.event.table = .aux
  | .rollback _ _ => False
  | _ => True

/-- Every log of a queued range is stored. -/
structure State.Settled (logs : RawRecord → Prop) (s : State layout) : Prop where
  logged : ∀ r ∈ s.store.rawRecords, logs r
  stored : ∀ q ∈ s.store.workQueue.rows, ∀ r, logs r → Covers q.item r → r ∈ s.store.rawRecords

theorem DecodesInto.known {r : RawRecord} {d : EventRow} (h : DecodesInto p r d) : Known p r := by
  obtain ⟨⟨decoder, hconfig, hdecode⟩, -⟩ := h
  refine ⟨decoder, hconfig, ?_⟩
  rw [AbiIndex.decode] at hdecode
  split at hdecode
  · cases hdecode
  · rename_i hevent
    rw [hevent]
    rfl

/-- A decoded row has no block time yet. -/
theorem DecodesInto.blockTime {r : RawRecord} {d : EventRow} (h : DecodesInto p r d) :
    d.blockTime = none := by
  obtain ⟨⟨decoder, hconfig, hdecode⟩, -⟩ := h
  obtain ⟨event, rfl⟩ := AbiIndex.decode_ok hdecode
  rfl

/-- A record decodes to one row, up to the block time. -/
theorem DecodesInto.eq_of_decodesTo {r : RawRecord} {d row : EventRow} (h : DecodesInto p r d)
    (hrow : DecodesTo p r row) : row = { d with blockTime := row.blockTime } := by
  obtain ⟨⟨decoder, hconfig, hdecode⟩, -⟩ := h
  obtain ⟨decoder', d', hconfig', hdecode', heq⟩ := hrow
  obtain rfl := Option.some.inj (hconfig.symm.trans hconfig')
  rw [hdecode] at hdecode'
  cases hdecode'
  exact heq

/-- A row under the key of a stored record is that record's row. -/
theorem decodesTo_of_key {store : Store layout} (hsound : MatchesRaw p store) {r : RawRecord}
    (hr : r ∈ store.rawRecords) {table : String} (hevent : layout table = .event) {row : EventRow}
    (hrow : row ∈ store.typed table) (hkey : rawKey row = r.key) : DecodesTo p r row := by
  obtain ⟨-, r', hr', hkey', -, hto⟩ := hsound table hevent row hrow
  rw [← Table.eq_of_key hr' hr (hkey'.trans hkey)]
  exact hto

/-- What is queued or upserted makes the tables a view of the raw store. -/
theorem view_of_upserted (htracked : s.Tracked p) (hupserted : s.Upserted p)
    (hbacked : s.Backed p) : View p s.store := by
  refine ⟨hbacked.stored, fun r hr d hd => ?_⟩
  rcases htracked.pending r hr hd.known with hdone | ⟨q, hq, hcovers, -⟩
  · right
    obtain ⟨⟨decoder, hconfig, hdecode⟩, htable⟩ := hd
    obtain ⟨row, hrow, hkey⟩ := hupserted.rows r hr hdone decoder d hconfig hdecode htable
    refine ⟨row, ⟨hrow, decodesTo_of_key hbacked.stored hr htable hrow hkey⟩, ?_⟩
    rintro other ⟨hother, hto⟩
    apply Table.eq_of_key hother hrow
    have hsame : rawKey other = rawKey row := hto.fields.1.symm.trans hkey.symm
    simp only [rawKey, Prod.mk.injEq] at hsame
    rw [htable, EventRow.primaryKey, EventRow.primaryKey, hsame.1, hsame.2.1, hsame.2.2]
  · exact .inl ⟨q, hq, hcovers⟩

/-- The item of a queued row was queued before, or is that of the range just committed. -/
theorem State.Step.item_cases (h : State.Step p s act t) {q : QueueRow}
    (hq : q ∈ t.store.workQueue.rows) :
    (∃ q' ∈ s.store.workQueue.rows, q'.item = q.item) ∨
      ∃ chain fetched, act = .commit chain fetched ∧
        q.item = ⟨chain, fetched.fromHeight, fetched.toHeight, .backfill, ⟨0⟩⟩ := by
  cases h with
  | @commit chain fetched store outcome hcommit =>
      have hqueue := workQueue_commit hcommit
      change q ∈ store.workQueue.rows at hq
      rw [hqueue] at hq
      split at hq
      · exact .inl ⟨q, hq, rfl⟩
      · rcases WorkQueue.mem_pushInTx.mp hq with hold | ⟨rfl, -⟩
        · exact .inl ⟨q, hold, rfl⟩
        · exact .inr ⟨chain, fetched, rfl, rfl⟩
  | rollback hrollback => exact .inl ⟨q, hrollback.workQueue ▸ hq, rfl⟩
  | reclaim =>
      obtain ⟨q', hq', ⟨rfl, -⟩ | ⟨rfl, -⟩⟩ := WorkQueue.mem_reclaimExpired.mp hq
      · exact .inl ⟨q, hq', rfl⟩
      · exact .inl ⟨q', hq', rfl⟩
  | pull hpull =>
      obtain ⟨-, ready, hready, -, hrows⟩ := WorkQueue.pullAny_eq_some hpull
      rcases (hrows q).mp hq with ⟨hold, -⟩ | rfl
      · exact .inl ⟨q, hold, rfl⟩
      · exact .inl ⟨ready, hready, rfl⟩
  | ackDecoded hphase => exact .inl ⟨q, (WorkQueue.mem_ack.mp hq).1, rfl⟩
  | ackSkipped hphase => exact .inl ⟨q, (WorkQueue.mem_ack.mp hq).1, rfl⟩
  | _ => exact .inl ⟨q, hq, rfl⟩

/-- Without rollbacks no raw record is deleted. -/
theorem State.Step.rawRecords_mono {logs : RawRecord → Prop} (h : State.Step p s act t)
    (hfinal : Final layout logs act) {r : RawRecord} (hr : r ∈ s.store.rawRecords) :
    r ∈ t.store.rawRecords := by
  cases h with
  | commit hcommit =>
      show r ∈ Store.rawRecords _
      rw [rawRecords_commit hcommit]
      exact Table.mem_insertAll_of_mem _ hr
  | rollback hrollback => exact hfinal.elim
  | _ => exact hr

section Settled

variable {logs : RawRecord → Prop}

theorem settled_step (hkeys : ∀ r r', logs r → logs r' → r.key = r'.key → r = r')
    (hs : s.Settled logs) (hfinal : Final layout logs act) (h : State.Step p s act t) :
    t.Settled logs := by
  have hlogged : ∀ r ∈ t.store.rawRecords, logs r := by
    intro r hr
    rcases h.record_cases hr with ⟨hold, -⟩ | ⟨chain, fetched, rfl, -, hin⟩
    · exact hs.logged r hold
    · exact ((hfinal.1 r).mp hin).1
  refine ⟨hlogged, fun q hq r hlog hcovers => ?_⟩
  rcases h.item_cases hq with ⟨q', hq', hitem⟩ | ⟨chain, fetched, rfl, hitem⟩
  · exact h.rawRecords_mono hfinal (hs.stored q' hq' r hlog (hitem ▸ hcovers))
  · cases h with
    | @commit _ _ store outcome hcommit =>
        rw [hitem] at hcovers
        have hin : r ∈ fetched.records := (hfinal.1 r).mpr ⟨hlog, hcovers⟩
        obtain ⟨x, hx, hkey⟩ := Table.exists_key_insertAll (t := s.store.rawRecords) hin
        have hx' : x ∈ store.rawRecords := by
          rw [rawRecords_commit hcommit]
          exact hx
        rw [← hkeys x r (hlogged x hx') hlog hkey]
        exact hx'

/-- A commit that finds its item queued has no new record. -/
theorem notDeduplicated_of_settled (hs : s.Settled logs) (hfinal : Final layout logs act) :
    NotDeduplicatedAfterRead p s act := by
  cases act with
  | commit chain fetched =>
      rintro ⟨r, hin, hnew, -⟩ q hq hkey
      simp only [WorkItem.dedupKey, Prod.mk.injEq] at hkey
      obtain ⟨hlog, hrange⟩ := (hfinal.1 r).mp hin
      have hcovers : Covers q.item r := by
        rw [Covers, hkey.1, hkey.2.1, hkey.2.2.1]
        exact hrange
      exact absurd rfl (Table.find?_eq_none.mp hnew r (hs.stored q hq r hlog hcovers))
  | _ => trivial

end Settled

theorem Final.sourced {logs : RawRecord → Prop} (h : Final layout logs act) : Sourced layout act := by
  cases act with
  | commit chain fetched => exact ⟨fun r hr => ((h.1 r).mp hr).2, h.2⟩
  | _ => trivial

theorem Final.fenced {logs : RawRecord → Prop} (h : Final layout logs act) : Fenced p s act := by
  cases act with
  | rollback chain lo => exact h.elim
  | _ => trivial

/-- In every state of those runs. -/
theorem settled_view_of_final {logs : RawRecord → Prop}
    (hkeys : ∀ r r', logs r → logs r' → r.key = r'.key → r = r')
    (hlayout : layout receiptsTable = .aux) (hpool : ∀ w chain, p.decoder w chain = p.config chain)
    (h : Transition.Reachable (system p Store.empty) (fun _ act => Final layout logs act) s) :
    s.Settled logs ∧ View p s.store := by
  have hinv : s.Settled logs ∧ s.Tracked p ∧ s.Upserted p ∧ s.Backed p := by
    apply h.invariant fun s => s.Settled logs ∧ s.Tracked p ∧ s.Upserted p ∧ s.Backed p
    · rintro s rfl
      have hnone : ∀ r : RawRecord, ¬r ∈ (Store.empty : Store layout).rawRecords :=
        Table.not_mem_empty
      refine ⟨⟨fun r hr => absurd hr (hnone r), fun q hq => absurd hq List.not_mem_nil⟩,
        ⟨fun w => ⟨?_, ?_, ?_, ?_⟩, fun r hr => absurd hr (hnone r),
          fun w => ⟨?_, ?_, trivial⟩, fun r hr => absurd hr (hnone r)⟩,
        ⟨fun w => ⟨?_, ?_, trivial⟩, fun w => ⟨?_, ?_, trivial⟩, fun r hr => absurd hr (hnone r)⟩,
        ⟨fun table _ row hrow => absurd hrow (Table.not_mem_empty row), fun _ => trivial⟩⟩
      all_goals
        intros
        contradiction
    · intro s act t hs hfinal hstep
      obtain ⟨hsettled, htracked, hupserted, hbacked⟩ := hs
      have hcase := State.step_cases hstep
      exact ⟨settled_step hkeys hsettled hfinal hcase,
        State.tracked_step hpool htracked hfinal.sourced
          (notDeduplicated_of_settled hsettled hfinal) hcase,
        State.upserted_step hlayout hupserted hcase,
        State.backed_step hbacked hfinal.sourced hfinal.fenced hcase⟩
  obtain ⟨hsettled, htracked, hupserted, hbacked⟩ := hinv
  exact ⟨hsettled, view_of_upserted htracked hupserted hbacked⟩

/-- Once nothing is queued, what a stored record decodes to has its row. -/
theorem View.exists_row {store : Store layout} (hview : View p store)
    (hdepth : store.workQueue.depth = 0) {r : RawRecord} (hr : r ∈ store.rawRecords) {d : EventRow}
    (hd : DecodesInto p r d) :
    ∃ row ∈ store.typed d.event.table, row = { d with blockTime := row.blockTime } := by
  rcases hview.complete r hr d hd with ⟨q, hq, -⟩ | ⟨row, ⟨hrow, hto⟩, -⟩
  · rw [List.length_eq_zero_iff.mp hdepth] at hq
    exact absurd hq List.not_mem_nil
  · exact ⟨row, hrow, hd.eq_of_decodesTo hto⟩

/-- A row of an event table is, up to its block time, what some stored record decodes to. -/
theorem View.exists_record {store : Store layout} (hview : View p store) {table : String}
    (htable : layout table = .event) {row : EventRow} (hrow : row ∈ store.typed table) :
    ∃ r ∈ store.rawRecords, ∃ d, DecodesInto p r d ∧ d.event.table = table ∧
      row = { d with blockTime := row.blockTime } := by
  obtain ⟨hname, r, hr, -, -, decoder, d, hconfig, hdecode, heq⟩ := hview.sound table htable row hrow
  have hsame : d.event.table = table := by
    rw [heq] at hname
    exact hname
  exact ⟨r, hr, d, ⟨⟨decoder, hconfig, hdecode⟩, hsame ▸ htable⟩, hsame, heq⟩

/-- On chains that are not reorganised, with every pool knowing every configured chain, the event
tables are at any moment of any run the decode of the raw store up to the queued ranges; and once the
queue's depth is zero, the rows of each event table, block times aside, are exactly the rows that the
raw records decode to. -/
theorem view_of_final {logs : RawRecord → Prop}
    (hkeys : ∀ r r', logs r → logs r' → r.key = r'.key → r = r')
    (hlayout : layout receiptsTable = .aux) (hpool : ∀ w chain, p.decoder w chain = p.config chain)
    (h : Transition.Reachable (system p Store.empty) (fun _ act => Final layout logs act) s) :
    View p s.store ∧
      (s.store.workQueue.depth = 0 → ∀ table, layout table = .event → ∀ d,
        (∃ row ∈ s.store.typed table, { row with blockTime := none } = d) ↔
          ∃ r ∈ s.store.rawRecords, DecodesInto p r d ∧ d.event.table = table) := by
  obtain ⟨-, hview⟩ := settled_view_of_final hkeys hlayout hpool h
  refine ⟨hview, fun hdepth table htable d => ⟨?_, ?_⟩⟩
  · rintro ⟨row, hrow, rfl⟩
    obtain ⟨r, hr, d, hd, hname, heq⟩ := hview.exists_record htable hrow
    have hsame : { row with blockTime := none } = d := by
      rw [heq, ← hd.blockTime]
    exact ⟨r, hr, hsame ▸ hd, hsame ▸ hname⟩
  · rintro ⟨r, hr, hd, rfl⟩
    obtain ⟨row, hrow, heq⟩ := hview.exists_row hdepth hr hd
    refine ⟨row, hrow, ?_⟩
    rw [heq]
    exact congrArg (fun time => { d with blockTime := time }) hd.blockTime.symm

/-- The two matching logs of a chain. -/
def twoTransfers (r : RawRecord) : Prop :=
  r = transferLog 1 5 ⟨[7]⟩ 3 ∨ r = transferLog 1 6 ⟨[8]⟩ 4

theorem final_transferBlock {height : Nat} {blockHash : Hash} {value : UInt8}
    (h : twoTransfers (transferLog 1 height blockHash value)) :
    Final eventLayout twoTransfers (.commit 1 (transferBlock 1 height blockHash value)) := by
  refine ⟨fun r => ?_, fun row hrow => absurd hrow List.not_mem_nil⟩
  rw [show (transferBlock 1 height blockHash value).records = [transferLog 1 height blockHash value]
    from rfl, List.mem_singleton]
  constructor
  · rintro rfl
    exact ⟨h, rfl, le_refl _, le_refl _⟩
  · rintro ⟨hlog, -, hlo, hhi⟩
    have hheight : r.height = height := le_antisymm hhi hlo
    rcases h with heq | heq <;> rcases hlog with rfl | rfl <;>
      simp only [transferLog, RawRecord.mk.injEq] at heq hheight
    · rw [transferLog, transferLog, heq.2.1, heq.2.2.1, List.cons_eq_cons.mp heq.2.2.2.2.2.2.1 |>.1]
    · omega
    · omega
    · rw [transferLog, transferLog, heq.2.1, heq.2.2.1, List.cons_eq_cons.mp heq.2.2.2.2.2.2.1 |>.1]

theorem twoTransfers_keys (r r' : RawRecord) (h : twoTransfers r) (h' : twoTransfers r')
    (hkey : r.key = r'.key) : r = r' := by
  rcases h with rfl | rfl <;> rcases h' with rfl | rfl
  · rfl
  · cases hkey
  · cases hkey
  · rfl

/-- A worker crashes after its read, its lease is reclaimed, and another one decodes the item. -/
theorem view_of_final_after_crash :
    ∃ s : State eventLayout, s.store.workQueue.depth = 0 ∧
      (s.store.typed transferTable).rows.map EventRow.height = [5] ∧
      View (transferPools fun _ => .run) s.store := by
  have hfirst : twoTransfers (transferLog 1 5 ⟨[7]⟩ 3) := .inl rfl
  obtain ⟨s, hreach, hobserved⟩ := Transition.Reachable.exists_observed
    (.init rfl : Transition.Reachable (system (transferPools fun _ => .run)
      (Store.empty : Store eventLayout)) (fun _ act => Final eventLayout twoTransfers act) _)
    [.commit 1 (transferBlock 1 5 ⟨[7]⟩ 3), .pull 1, .readRaw 1, .fail 1, .tick, .reclaim 0, .pull 2,
      .readRaw 2, .readTimes 2, .decode 2 Order.stable, .upsert 2, .finish 2, .ack 2]
    (by
      intro act hact _
      simp only [List.mem_cons, List.not_mem_nil, or_false] at hact
      rcases hact with rfl | rfl | rfl | rfl | rfl | rfl | rfl | rfl | rfl | rfl | rfl | rfl | rfl
      · exact final_transferBlock hfirst
      all_goals trivial)
    (fun s => (s.store.workQueue.depth, (s.store.typed transferTable).rows.map EventRow.height))
    (b := (0, [5])) (by decide +kernel)
  obtain ⟨hdepth, hheights⟩ := Prod.mk.inj hobserved
  exact ⟨s, hdepth, hheights, (view_of_final twoTransfers_keys rfl (fun _ _ => rfl) hreach).1⟩

end Workers

end Topic0
