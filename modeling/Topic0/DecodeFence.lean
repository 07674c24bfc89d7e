import Topic0.DecodeLease

/-! Rows of event tables against the raw records they come from. A rollback clears both in one
transaction, but not what a worker has read and not yet written: no lease is fenced by it. Where no
worker has such a record or row in hand at the moment of a rollback, every row of an event table is
what its raw record decodes to, in every state of the run. -/

namespace Topic0.Workers

open Keyed

variable {layout : String → PkColumns} {p : Pools layout} {s t : State layout} {act : Act}

/-- The row is what a record decodes to with its chain's decoder, up to the block time. -/
def DecodesTo (p : Pools layout) (r : RawRecord) (row : EventRow) : Prop :=
  ∃ decoder d, p.config r.chainId = some decoder ∧ decoder.decode r = .ok (some d) ∧
    row = { d with blockTime := row.blockTime }

/-- The row comes from a record of the store, with the same key and block hash. -/
def Backed (p : Pools layout) (rawRecords : Table RawRecord.key) (row : EventRow) : Prop :=
  ∃ r ∈ rawRecords, r.key = (row.chainId, row.height, row.index) ∧ r.blockHash = row.blockHash ∧
    DecodesTo p r row

/-- Every row of an event table is what its raw record decodes to. -/
def MatchesRaw (p : Pools layout) (store : Store layout) : Prop :=
  ∀ table, layout table = .event → ∀ row ∈ store.typed table,
    row.event.table = table ∧ Backed p store.rawRecords row

/-- Nothing is queued and no worker is mid-item. -/
def Quiescent (s : State layout) : Prop :=
  s.store.workQueue.rows = [] ∧ ∀ w, (s.workers w).lease? = none

/-- The worker will write a row of an event table of the chain, at height `lo` or above, from what
it has read. -/
def Phase.WillWrite (p : Pools layout) (chain : ChainId) (lo : Nat) : Phase → Prop
  | .rawRead _ batch | .timed _ batch _ =>
      ∃ r ∈ batch.raw, r.chainId = chain ∧ lo ≤ r.height ∧
        ∃ row, DecodesTo p r row ∧ layout row.event.table = .event
  | .writing _ _ remaining =>
      ∃ group ∈ remaining, layout group.1 = .event ∧
        ∃ row ∈ group.2, row.chainId = chain ∧ lo ≤ row.height
  | _ => False

/-- A rollback finds no worker about to write what it rolls back. -/
def Fenced (p : Pools layout) (s : State layout) : Act → Prop
  | .rollback chain lo => ∀ w, ¬(s.workers w).WillWrite p chain lo
  | _ => True

theorem DecodesTo.fields {r : RawRecord} {row : EventRow} (h : DecodesTo p r row) :
    r.key = (row.chainId, row.height, row.index) ∧ r.blockHash = row.blockHash ∧
      row.event.table ∈ p.tables r.chainId := by
  obtain ⟨decoder, d, hconfig, hdecode, hrow⟩ := h
  have htable := p.eventTables hconfig hdecode
  obtain ⟨event, rfl⟩ := AbiIndex.decode_ok hdecode
  rw [hrow]
  exact ⟨rfl, rfl, htable⟩

theorem backed_of_mem {rawRecords : Table RawRecord.key} {r : RawRecord} {row : EventRow}
    (hr : r ∈ rawRecords) (h : DecodesTo p r row) : Backed p rawRecords row :=
  ⟨r, hr, h.fields.1, h.fields.2.1, h⟩

/-- What a worker has in hand is in the raw store, or decoded from it. -/
def Phase.Backed (p : Pools layout) (rawRecords : Table RawRecord.key) : Phase → Prop
  | .rawRead lease batch | .timed lease batch _ =>
      ∀ r ∈ batch.raw, r.chainId = lease.item.chainId ∧
        ∀ row, DecodesTo p r row → layout row.event.table = .event → r ∈ rawRecords
  | .writing _ _ remaining =>
      ∀ group ∈ remaining, layout group.1 = .event → ∀ row ∈ group.2,
        row.event.table = group.1 ∧ Workers.Backed p rawRecords row
  | _ => True

structure State.Backed (p : Pools layout) (s : State layout) : Prop where
  stored : MatchesRaw p s.store
  inHand : ∀ w, (s.workers w).Backed p s.store.rawRecords

section Rules

variable {rawRecords rawRecords' : Table RawRecord.key}

theorem Backed.mono (hle : ∀ r ∈ rawRecords, r ∈ rawRecords') {row : EventRow}
    (h : Backed p rawRecords row) : Backed p rawRecords' row := by
  obtain ⟨r, hr, hrow⟩ := h
  exact ⟨r, hle r hr, hrow⟩

theorem Phase.Backed.mono (hle : ∀ r ∈ rawRecords, r ∈ rawRecords') {phase : Phase}
    (h : phase.Backed p rawRecords) : phase.Backed p rawRecords' := by
  cases phase with
  | rawRead lease batch =>
      exact fun r hr => ⟨(h r hr).1, fun row hrow hevent => hle r ((h r hr).2 row hrow hevent)⟩
  | timed lease batch times =>
      exact fun r hr => ⟨(h r hr).1, fun row hrow hevent => hle r ((h r hr).2 row hrow hevent)⟩
  | writing lease batch remaining =>
      exact fun group hg hevent row hrow =>
        ⟨(h group hg hevent row hrow).1, (h group hg hevent row hrow).2.mono hle⟩
  | _ => trivial

variable {chain : ChainId} {lo : Nat}
  (hraw : ∀ r, r ∈ rawRecords' ↔ r ∈ rawRecords ∧ ¬(r.chainId = chain ∧ lo ≤ r.height))

include hraw

/-- A row that is not rolled back keeps its record. -/
theorem Backed.rollback {row : EventRow} (h : Backed p rawRecords row)
    (hkept : ¬(row.chainId = chain ∧ lo ≤ row.height)) : Backed p rawRecords' row := by
  obtain ⟨r, hr, hkey, hrow⟩ := h
  refine ⟨r, (hraw r).mpr ⟨hr, ?_⟩, hkey, hrow⟩
  obtain ⟨hchain, hheight, -⟩ : r.chainId = row.chainId ∧ r.height = row.height ∧ _ := by
    simpa [RawRecord.key] using hkey
  rwa [hchain, hheight]

theorem Phase.Backed.rollback {phase : Phase} (h : phase.Backed p rawRecords)
    (hfenced : ¬phase.WillWrite p chain lo) : phase.Backed p rawRecords' := by
  have hrecords : ∀ (lease : Lease) (batch : Batch),
      (∀ r ∈ batch.raw, r.chainId = lease.item.chainId ∧
        ∀ row, DecodesTo p r row → layout row.event.table = .event → r ∈ rawRecords) →
      (¬∃ r ∈ batch.raw, r.chainId = chain ∧ lo ≤ r.height ∧
        ∃ row, DecodesTo p r row ∧ layout row.event.table = .event) →
      ∀ r ∈ batch.raw, r.chainId = lease.item.chainId ∧
        ∀ row, DecodesTo p r row → layout row.event.table = .event → r ∈ rawRecords' := by
    intro lease batch hin hnone r hr
    refine ⟨(hin r hr).1, fun row hrow hevent => (hraw r).mpr ⟨(hin r hr).2 row hrow hevent, ?_⟩⟩
    rintro ⟨hchain, hlo⟩
    exact hnone ⟨r, hr, hchain, hlo, row, hrow, hevent⟩
  cases phase with
  | rawRead lease batch => exact hrecords lease batch h hfenced
  | timed lease batch times => exact hrecords lease batch h hfenced
  | writing lease batch remaining =>
      intro group hg hevent row hrow
      obtain ⟨htable, hbacked⟩ := h group hg hevent row hrow
      refine ⟨htable, hbacked.rollback hraw ?_⟩
      rintro ⟨hchain, hlo⟩
      exact hfenced ⟨group, hg, hevent, row, hrow, hchain, hlo⟩
  | _ => trivial

end Rules

theorem State.Backed.enter (hs : s.Backed p) {w : Nat} {phase : Phase}
    (hphase : phase.Backed p s.store.rawRecords) : (s.enter w phase).Backed p :=
  ⟨hs.stored, State.forall_enter (P := fun _ phase => phase.Backed p s.store.rawRecords)
    hs.inHand hphase⟩

theorem matchesRaw_commit {store store' : Store layout} {chain : ChainId} {fetched : FetchedRange}
    {outcome : IngestionService.IngestOutcome} (hstore : MatchesRaw p store)
    (haux : ∀ row ∈ fetched.aux.enrichment, layout row.event.table = .aux)
    (h : IngestionService.commitRange store chain fetched ⟨0⟩ = .ok (store', outcome)) :
    MatchesRaw p store' := by
  have hcommitted := IngestionService.commit_ok h
  intro table hevent row hrow
  obtain ⟨order, hperm, htyped⟩ := hcommitted.typed table
  rw [htyped] at hrow
  rcases Table.mem_or_mem_of_mem_insertAll hrow with hold | hnew
  · obtain ⟨htable, hbacked⟩ := hstore table hevent row hold
    refine ⟨htable, hbacked.mono fun r hr => ?_⟩
    rw [hcommitted.rawRecords]
    exact Table.mem_insertAll_of_mem _ hr
  · -- an enrichment row never goes to an event table
    obtain ⟨hmem, htable⟩ := List.mem_filter.mp (hperm.mem_iff.mp hnew)
    have hkind := haux row hmem
    rw [of_decide_eq_true htable, hevent] at hkind
    cases hkind

theorem matchesRaw_insertRows {store : Store layout} {table : String} {rows : List EventRow}
    (hstore : MatchesRaw p store)
    (hrows : layout table = .event → ∀ row ∈ rows, row.event.table = table ∧
      Backed p store.rawRecords row) : MatchesRaw p (EventRepo.insertRows store table rows) := by
  intro other hevent row hrow
  by_cases heq : other = table
  · subst heq
    rw [EventRepo.insertRows_typed_self] at hrow
    rcases Table.mem_or_mem_of_mem_insertAll hrow with hold | hnew
    · exact hstore other hevent row hold
    · exact hrows hevent row hnew
  · rw [EventRepo.insertRows_typed_of_ne _ heq] at hrow
    exact hstore other hevent row hrow

theorem matchesRaw_rolledBack {store store' : Store layout} {chain : ChainId} {lo : Nat}
    (hstore : MatchesRaw p store)
    (h : UnitOfWork.RolledBack store store' chain lo (p.tables chain)) : MatchesRaw p store' := by
  intro table hevent row hrow
  obtain ⟨hold, hkept, -⟩ := (h.typed table row).mp hrow
  obtain ⟨htable, hbacked⟩ := hstore table hevent row hold
  refine ⟨htable, hbacked.rollback h.rawRecords ?_⟩
  rintro ⟨hchain, hlo⟩
  obtain ⟨r, -, hkey, -, hdecodes⟩ := hbacked
  have hlisted := hdecodes.fields.2.2
  have hsame : r.chainId = row.chainId := congrArg Prod.fst hkey
  rw [hsame, hchain, htable] at hlisted
  exact hkept ⟨hlisted, hchain, hlo⟩

/-- What is decoded from records in hand is backed by them; calls go to call tables. -/
theorem backed_decodedTables {order : Order} {decoder : AbiIndex} {store : Store layout}
    {chain : ChainId} {raw : List RawRecord} {times : List (Nat × Int)}
    {tables : List (String × List EventRow)} (hconfig : p.config chain = some decoder)
    (hraw : ∀ r ∈ raw, r.chainId = chain ∧
      ∀ row, DecodesTo p r row → layout row.event.table = .event → r ∈ store.rawRecords)
    (h : decodedTables order decoder store chain raw times = .ok tables) :
    ∀ group ∈ tables, layout group.1 = .event → ∀ row ∈ group.2,
      row.event.table = group.1 ∧ Backed p store.rawRecords row := by
  intro group hgroup hevent row hrow
  have hmem : row ∈ (tables.filter fun g => g.1 = group.1).flatMap Prod.snd :=
    List.mem_flatMap.mpr ⟨group, List.mem_filter.mpr ⟨hgroup, decide_eq_true rfl⟩, hrow⟩
  obtain ⟨d, hd, htable, rfl⟩ := (mem_decodedTables h).mp hmem
  refine ⟨htable, ?_⟩
  rcases hd with ⟨r, hr, hdecode⟩ | ⟨tx, -, -, -, calldata, -, hcall⟩
  · obtain ⟨hchain, hstored⟩ := hraw r hr
    have hdecodes : DecodesTo p r (stamp times d) :=
      ⟨decoder, d, hchain ▸ hconfig, hdecode, rfl⟩
    apply backed_of_mem (hstored _ hdecodes _) hdecodes
    show layout d.event.table = .event
    rw [htable, hevent]
  · have haux := p.callTables hconfig hcall
    rw [htable, hevent] at haux
    cases haux

theorem State.backed_step (hs : s.Backed p) (hsourced : Sourced layout act)
    (hfenced : Fenced p s act) (h : State.Step p s act t) : t.Backed p := by
  cases h with
  | @commit chain fetched store outcome hcommit =>
      refine ⟨matchesRaw_commit hs.stored hsourced.2 hcommit, fun w => (hs.inHand w).mono ?_⟩
      intro r hr
      show r ∈ store.rawRecords
      rw [(IngestionService.commit_ok hcommit).rawRecords]
      exact Table.mem_insertAll_of_mem _ hr
  | rollback hrollback =>
      exact ⟨matchesRaw_rolledBack hs.stored hrollback,
        fun w => (hs.inHand w).rollback hrollback.rawRecords (hfenced w)⟩
  | tick => exact ⟨hs.stored, hs.inHand⟩
  | reclaim => exact ⟨hs.stored, hs.inHand⟩
  | pull hpull => exact State.Backed.enter (by exact ⟨hs.stored, hs.inHand⟩) trivial
  | skip hphase hdecoder => exact hs.enter trivial
  | @readRaw w lease decoder hphase hdecoder =>
      refine State.Backed.enter (by exact ⟨hs.stored, hs.inHand⟩) fun r hr => ?_
      obtain ⟨hmem, hchain, -⟩ := RawRecordRepo.mem_range.mp hr
      exact ⟨hchain, fun _ _ _ => hmem⟩
  | @readTimes w lease batch hphase =>
      have hbatch := hs.inHand w
      rw [hphase] at hbatch
      exact hs.enter hbatch
  | @decode w order lease batch times decoder tables hphase hdecoder htables =>
      have hbatch := hs.inHand w
      rw [hphase] at hbatch
      exact hs.enter (backed_decodedTables (Pools.config_of_decoder hdecoder) hbatch htables)
  | @upsert w lease batch group remaining decoder rows hphase hdecoder hrows =>
      have hremaining := hs.inHand w
      rw [hphase] at hremaining
      have hgroup : layout group.1 = .event → ∀ row ∈ rows, row.event.table = group.1 ∧
          Workers.Backed p s.store.rawRecords row := fun hevent row hrow =>
        hremaining group List.mem_cons_self hevent row (hrows.mem_iff.mp hrow)
      apply State.Backed.enter
      · exact ⟨matchesRaw_insertRows hs.stored hgroup, hs.inHand⟩
      · exact fun other hother => hremaining other (List.mem_cons_of_mem _ hother)
  | finish hphase => exact State.Backed.enter (by exact ⟨hs.stored, hs.inHand⟩) trivial
  | ackDecoded hphase => exact State.Backed.enter (by exact ⟨hs.stored, hs.inHand⟩) trivial
  | ackSkipped hphase => exact State.Backed.enter (by exact ⟨hs.stored, hs.inHand⟩) trivial
  | fail => exact hs.enter trivial

/-- In every run whose rollbacks find no worker about to write what they roll back, the rows of the
event tables are what their raw records decode to, in every state. -/
theorem matchesRaw_of_fenced {store : Store layout} (hstore : MatchesRaw p store)
    (h : Transition.Reachable (system p store)
      (fun s act => Sourced layout act ∧ Fenced p s act) s) : MatchesRaw p s.store := by
  have hinv := h.invariant (State.Backed p) (by
    rintro s rfl
    exact ⟨hstore, fun _ => trivial⟩) fun s act t hs hallowed hstep =>
      State.backed_step hs hallowed.1 hallowed.2 (State.step_cases hstep)
  exact hinv.stored

/-- The worker whose step it is. -/
def Act.worker? : Act → Option Nat
  | .pull w | .skip w | .readRaw w | .readTimes w | .decode w _ | .upsert w | .finish w | .ack w
  | .fail w => some w
  | _ => none

theorem State.Step.workers_of_ne (h : State.Step p s act t) {v : Nat}
    (hv : act.worker? ≠ some v) : t.workers v = s.workers v := by
  have hne : ∀ w, act.worker? = some w → v ≠ w := by
    rintro w hw rfl
    exact hv hw
  cases h with
  | commit hcommit => rfl
  | rollback hrollback => rfl
  | tick => rfl
  | reclaim => rfl
  | _ => exact State.enter_of_ne _ (hne _ rfl) _

/-- A worker none of whose steps is taken is where it was. -/
theorem workers_of_exec {store : Store layout} {v : Nat} (acts : List Act)
    (hacts : ∀ a ∈ acts, a.worker? ≠ some v)
    (h : Transition.exec (system p store) s acts = some t) : t.workers v = s.workers v := by
  induction acts generalizing s with
  | nil =>
      cases h
      rfl
  | cons a rest ih =>
      obtain ⟨u, hu, hrest⟩ := Option.bind_eq_some_iff.mp h
      rw [ih (fun b hb => hacts b (List.mem_cons_of_mem _ hb)) hrest]
      exact (State.step_cases hu).workers_of_ne (hacts a List.mem_cons_self)

/-- Block 5 of chain 1 with its transfer decoded. -/
def transferStore : Store eventLayout :=
  EventRepo.insertRows (RawRecordRepo.insertBatchTx Store.empty [transferLog 1 5 ⟨[7]⟩ 3])
    transferTable [⟨1, 5, ⟨[7]⟩, some 0, ⟨[7]⟩, 0, ⟨transferTable, [("value", .bytes [3])]⟩⟩]

theorem matchesRaw_transferStore : MatchesRaw followAndRun transferStore := by
  apply matchesRaw_insertRows
  · intro table _ row hrow
    exact absurd hrow (Table.not_mem_empty row)
  · intro _ row hrow
    rw [List.mem_singleton.mp hrow]
    refine ⟨rfl, backed_of_mem (r := transferLog 1 5 ⟨[7]⟩ 3) (by decide) ?_⟩
    exact ⟨transferDecoder, _, rfl, decode_transferLog 1 5 ⟨[7]⟩ 3, rfl⟩

/-- The decoded block 5 is rolled back while no worker holds anything, and its replacement is
ingested and decoded. -/
theorem matchesRaw_after_rollback :
    ∃ s : State eventLayout, (s.store.typed transferTable).rows.map EventRow.blockHash = [⟨[8]⟩] ∧
      MatchesRaw followAndRun s.store := by
  let start : State eventLayout := ⟨transferStore, 0, fun _ => .idle, History.empty⟩
  let rolledBack : State eventLayout :=
    (start.step followAndRun (.rollback 1 5)).get (by decide +kernel)
  have hreach : Transition.Reachable (system followAndRun transferStore) (fun s act =>
      Sourced eventLayout act ∧ Fenced followAndRun s act) rolledBack :=
    .step (.init rfl) (a := .rollback 1 5) ⟨trivial, fun _ h => h⟩ (Option.some_get _).symm
  obtain ⟨s, hs, htyped⟩ := hreach.exists_observed
    [.commit 1 (transferBlock 1 5 ⟨[8]⟩ 4), .pull 1, .readRaw 1, .readTimes 1,
      .decode 1 Order.stable, .upsert 1, .finish 1, .ack 1]
    (by simp [Sourced, Fenced, transferBlock, transferLog])
    (fun s => (s.store.typed transferTable).rows.map EventRow.blockHash) (b := [⟨[8]⟩])
    (by decide +kernel)
  exact ⟨s, htyped, matchesRaw_of_fenced matchesRaw_transferStore hs⟩

/-- Block 5 is rolled back between a worker's read and its write: the row of the replaced block is
written after the rollback and stays, beside the raw record of the new block. -/
theorem stale_row_after_rollback :
    ¬∀ s : State eventLayout,
      Transition.Reachable (system followAndRun Store.empty)
        (fun _ act => Sourced eventLayout act) s →
      Quiescent s → MatchesRaw followAndRun s.store := by
  intro hevery
  let acts : List Act := [.commit 1 (transferBlock 1 5 ⟨[7]⟩ 3), .pull 1, .readRaw 1,
    .rollback 1 5, .commit 1 (transferBlock 1 5 ⟨[8]⟩ 4), .readTimes 1, .decode 1 Order.stable,
    .upsert 1, .finish 1, .ack 1]
  obtain ⟨s, hexec, hobserved⟩ := Option.map_eq_some_iff.mp (show
    (Transition.exec (system followAndRun (Store.empty : Store eventLayout))
      ⟨Store.empty, 0, fun _ => .idle, History.empty⟩ acts).map (fun s =>
        (s.store.workQueue.rows, (s.workers 1).lease?, s.store.rawRecords.rows,
          (s.store.typed transferTable).rows.map EventRow.blockHash)) =
      some ([], none, [transferLog 1 5 ⟨[8]⟩ 4], [⟨[7]⟩]) by decide +kernel)
  simp only [Prod.mk.injEq] at hobserved
  obtain ⟨hqueue, hlease, hraw, htyped⟩ := hobserved
  have hsourced : ∀ a ∈ acts, Sourced eventLayout a := by
    simp [acts, Sourced, transferBlock, transferLog]
  have hquiescent : Quiescent s := by
    refine ⟨hqueue, fun v => ?_⟩
    by_cases hv : v = 1
    · rw [hv]
      exact hlease
    · have hacts : ∀ a ∈ acts, a.worker? = none ∨ a.worker? = some 1 := by decide
      rw [workers_of_exec acts (fun a ha heq => ?_) hexec]
      · rfl
      · rcases hacts a ha with hnone | hone
        · rw [hnone] at heq
          cases heq
        · rw [hone] at heq
          exact hv (Option.some.inj heq).symm
  have hreach := (Transition.Reachable.init rfl : Transition.Reachable (system followAndRun
    Store.empty) (fun _ act => Sourced eventLayout act) _).exec acts
      (fun a ha _ => hsourced a ha) hexec
  obtain ⟨row, hrow, hhash⟩ : ∃ row ∈ s.store.typed transferTable, row.blockHash = ⟨[7]⟩ := by
    have hmem : (⟨[7]⟩ : Hash) ∈ (s.store.typed transferTable).rows.map EventRow.blockHash := by
      rw [htyped]
      exact List.mem_singleton_self _
    exact List.mem_map.mp hmem
  obtain ⟨-, r, hr, -, hsame, -⟩ := hevery s hreach hquiescent transferTable rfl row hrow
  rw [Table.mem_def, hraw, List.mem_singleton] at hr
  rw [hr, hhash] at hsame
  cases hsame

end Topic0.Workers
