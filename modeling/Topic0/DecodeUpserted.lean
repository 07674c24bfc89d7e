import Topic0.DecodeDedup

/-! What the history's `upserted` mark stands for. A record is marked by the transaction of its
table, and from then on a row stands under its key in that table for as long as the record is
stored: tables only grow but for rollbacks, and a rollback that spares the record spares the row.
The row need not be the record's own: an insert gives way to what stands under the key. -/

namespace Topic0.Workers

open Keyed

variable {layout : String → PkColumns} {p : Pools layout} {s t : State layout} {act : Act}

/-- The row's key as that of a raw record. -/
def rawKey (row : EventRow) : ChainId × Nat × Nat := (row.chainId, row.height, row.index)

/-- A row stands under the record's key in the event table the record decodes to. -/
def RowStands (p : Pools layout) (store : Store layout) (r : RawRecord) : Prop :=
  ∀ decoder d, p.config r.chainId = some decoder → decoder.decode r = .ok (some d) →
    layout d.event.table = .event → ∃ x ∈ store.typed d.event.table, rawKey x = r.key

/-- Each table still to be written has a row for each record of the batch that goes there. -/
def Phase.Holds (p : Pools layout) : Phase → Prop
  | .writing _ batch remaining => ∀ group ∈ remaining, ∀ r ∈ batch.raw, ∀ decoder d,
      p.config r.chainId = some decoder → decoder.decode r = .ok (some d) →
      d.event.table = group.1 → ∃ x ∈ group.2, rawKey x = r.key
  | _ => True

/-- A batch was read from one state of the raw table, in the range of the lease. -/
structure Phase.ReadOnce (p : Pools layout) (phase : Phase) : Prop where
  covered : ∀ lease batch, phase.lease? = some lease → phase.batch? = some batch →
    ∀ r ∈ batch.raw, Covers lease.item r
  unique : ∀ batch, phase.batch? = some batch →
    ∀ r ∈ batch.raw, ∀ r' ∈ batch.raw, r.key = r'.key → r = r'
  holds : phase.Holds p

structure State.Upserted (p : Pools layout) (s : State layout) : Prop where
  tracks : ∀ w, (s.workers w).Tracks p s.store.rawRecords s.history
  readOnce : ∀ w, (s.workers w).ReadOnce p
  rows : ∀ r ∈ s.store.rawRecords, s.history.upserted r.key = true → RowStands p s.store r

theorem RowStands.mono {store store' : Store layout} {r : RawRecord} (h : RowStands p store r)
    (hle : ∀ table, ∀ x ∈ store.typed table, x ∈ store'.typed table) : RowStands p store' r := by
  intro decoder d hconfig hdecode hevent
  obtain ⟨x, hx, hkey⟩ := h decoder d hconfig hdecode hevent
  exact ⟨x, hle _ x hx, hkey⟩

theorem rowStands_rolledBack {store store' : Store layout} {chain : ChainId} {lo : Nat}
    {tables : List String} (hlayout : layout receiptsTable = .aux)
    (h : UnitOfWork.RolledBack store store' chain lo tables) {r : RawRecord}
    (hr : r ∈ store'.rawRecords) (hstands : RowStands p store r) : RowStands p store' r := by
  intro decoder d hconfig hdecode hevent
  obtain ⟨x, hx, hkey⟩ := hstands decoder d hconfig hdecode hevent
  have hkept := ((h.rawRecords r).mp hr).2
  refine ⟨x, (h.typed _ x).mpr ⟨hx, ?_, ?_⟩, hkey⟩
  · rintro ⟨-, hchain, hlo⟩
    simp only [rawKey, RawRecord.key, Prod.mk.injEq] at hkey
    exact hkept ⟨hkey.1 ▸ hchain, hkey.2.1 ▸ hlo⟩
  · rintro ⟨htable, -⟩
    rw [htable, hlayout] at hevent
    cases hevent

theorem holds_decodedTables {order : Order} {decoder : AbiIndex} {store : Store layout}
    {batch : Batch} {times : List (Nat × Int)} {lease : Lease}
    {tables : List (String × List EventRow)}
    (hconfig : p.config lease.item.chainId = some decoder)
    (hcovered : ∀ r ∈ batch.raw, Covers lease.item r)
    (h : decodedTables order decoder store lease.item.chainId batch.raw times = .ok tables) :
    Phase.Holds p (.writing lease batch tables) := by
  intro group hgroup r hr decoder' d hconfig' hdecode htable
  obtain rfl := (hcovered r hr).decoder_eq hconfig hconfig'
  have hmem := (mem_decodedTables (t := group.1) h).mpr ⟨d, .inl ⟨r, hr, hdecode⟩, htable, rfl⟩
  obtain ⟨other, hother, hrow⟩ := List.mem_flatMap.mp hmem
  obtain ⟨hin, hfst⟩ := List.mem_filter.mp hother
  have heq : other = group := eq_of_mem_decodedTables h hin hgroup (of_decide_eq_true hfst)
  refine ⟨_, heq ▸ hrow, ?_⟩
  obtain ⟨event, rfl⟩ := AbiIndex.decode_ok hdecode
  rfl

theorem Phase.ReadOnce.of_batch {phase phase' : Phase} (h : phase.ReadOnce p)
    (hlease : phase'.lease? = phase.lease?) (hbatch : phase'.batch? = phase.batch?)
    (hholds : phase'.Holds p) : phase'.ReadOnce p :=
  ⟨fun lease batch hl hb => h.covered lease batch (hlease ▸ hl) (hbatch ▸ hb),
    fun batch hb => h.unique batch (hbatch ▸ hb), hholds⟩

theorem readOnce_enter (hs : ∀ v, (s.workers v).ReadOnce p) {w : Nat} {phase : Phase}
    (hphase : phase.ReadOnce p) : ∀ v, ((s.enter w phase).workers v).ReadOnce p :=
  State.forall_enter (P := fun _ phase => phase.ReadOnce p) hs hphase

theorem State.Step.readOnce (hs : ∀ w, (s.workers w).ReadOnce p) (h : State.Step p s act t) :
    ∀ w, (t.workers w).ReadOnce p := by
  cases h with
  | commit hcommit => exact hs
  | rollback hrollback => exact hs
  | tick => exact hs
  | reclaim => exact hs
  | pull hpull => exact readOnce_enter (by exact hs) ⟨nofun, nofun, trivial⟩
  | skip hphase hdecoder => exact readOnce_enter hs ⟨nofun, nofun, trivial⟩
  | @readRaw w lease decoder hphase hdecoder =>
      refine readOnce_enter (by exact hs) ⟨?_, ?_, trivial⟩
      · rintro _ _ ⟨⟩ ⟨⟩ r hr
        exact (RawRecordRepo.mem_range.mp hr).2
      · rintro _ ⟨⟩ r hr r' hr' hkey
        exact Table.eq_of_key (RawRecordRepo.mem_range.mp hr).1 (RawRecordRepo.mem_range.mp hr').1
          hkey
  | @readTimes w lease batch hphase =>
      have ht := hs w
      rw [hphase] at ht
      exact readOnce_enter hs (ht.of_batch rfl rfl trivial)
  | @decode w order lease batch times decoder tables hphase hdecoder htables =>
      have ht := hs w
      rw [hphase] at ht
      refine readOnce_enter hs (ht.of_batch rfl rfl ?_)
      exact holds_decodedTables (Pools.config_of_decoder hdecoder)
        (ht.covered lease batch rfl rfl) htables
  | @upsert w lease batch group remaining decoder rows hphase hdecoder hrows =>
      have ht := hs w
      rw [hphase] at ht
      refine readOnce_enter (by exact hs) (ht.of_batch rfl rfl ?_)
      exact fun g hg => ht.holds g (List.mem_cons_of_mem _ hg)
  | @finish w lease batch hphase =>
      have ht := hs w
      rw [hphase] at ht
      exact readOnce_enter (by exact hs) (ht.of_batch rfl rfl trivial)
  | ackDecoded hphase => exact readOnce_enter (by exact hs) ⟨nofun, nofun, trivial⟩
  | ackSkipped hphase => exact readOnce_enter (by exact hs) ⟨nofun, nofun, trivial⟩
  | fail => exact readOnce_enter hs ⟨nofun, nofun, trivial⟩

/-- The transaction that sets a record's flag leaves a row under its key. -/
theorem rowStands_upsert {lease : Lease} {batch : Batch} {group : String × List EventRow}
    {remaining : List (String × List EventRow)} {decoder : AbiIndex} {rows : List EventRow}
    {store : Store layout} {h : History}
    (hconfig : p.config lease.item.chainId = some decoder) (hrows : rows.Perm group.2)
    (htracks : Phase.Tracks p store.rawRecords h (.writing lease batch (group :: remaining)))
    (hread : Phase.ReadOnce p (.writing lease batch (group :: remaining))) {r : RawRecord}
    (hr : r ∈ store.rawRecords) (hnew : ∃ r' ∈ batch.raw, r'.key = r.key ∧
      decodesTo decoder group.1 r' = true ∧ h.insertedAt r.key < batch.readAt) :
    RowStands p (EventRepo.insertRows store group.1 rows) r := by
  obtain ⟨r', hr', hkey, hto, hstamp⟩ := hnew
  have hcovers : Covers lease.item r := by
    have hcovers' := hread.covered lease batch rfl rfl r' hr'
    simp only [RawRecord.key, Prod.mk.injEq] at hkey
    rwa [Covers, hkey.1, hkey.2.1] at hcovers'
  have hsame : r' = r := hread.unique batch rfl r' hr' r
    (htracks.complete lease batch rfl rfl r hr hcovers hstamp) hkey
  subst hsame
  intro decoder' d hconfig' hdecode hevent
  obtain rfl := hcovers.decoder_eq hconfig hconfig'
  rw [decodesTo, hdecode, beq_iff_eq] at hto
  obtain ⟨x, hx, hxkey⟩ := hread.holds group List.mem_cons_self r' hr' decoder' d hconfig' hdecode hto
  obtain ⟨y, hy, hykey⟩ := Table.exists_key_insertAll (t := store.typed group.1)
    (hrows.mem_iff.mpr hx)
  refine ⟨y, ?_, ?_⟩
  · rw [hto, EventRepo.insertRows_typed_self]
    exact hy
  · rw [← hto, hevent] at hykey
    simp only [EventRow.primaryKey, PrimaryKey.event.injEq] at hykey
    rw [← hxkey, rawKey, rawKey, hykey.1, hykey.2.1, hykey.2.2]

theorem State.upserted_step (hlayout : layout receiptsTable = .aux) (hs : s.Upserted p)
    (h : State.Step p s act t) : t.Upserted p := by
  refine ⟨h.tracks hs.tracks, h.readOnce hs.readOnce, ?_⟩
  cases h with
  | @commit chain fetched store outcome hcommit =>
      intro r hr hmark
      simp only [History.commit, Bool.and_eq_true, Bool.not_eq_true'] at hmark
      have hold := mem_of_not_inserts (rawRecords_commit hcommit ▸ hr) hmark.2
      refine (hs.rows r hold hmark.1).mono fun table x hx => ?_
      obtain ⟨order, -, htyped⟩ := (IngestionService.commit_ok hcommit).typed table
      show x ∈ store.typed table
      rw [htyped]
      exact Table.mem_insertAll_of_mem order hx
  | rollback hrollback =>
      intro r hr hmark
      have hold := ((hrollback.rawRecords r).mp hr).1
      exact rowStands_rolledBack hlayout hrollback hr (hs.rows r hold hmark)
  | @upsert w lease batch group remaining decoder rows hphase hdecoder hrows =>
      intro r hr hmark
      simp only [State.enter_history, History.upsert, Bool.or_eq_true] at hmark
      rcases hmark with hbefore | hnow
      · refine (hs.rows r hr hbefore).mono fun table x hx => ?_
        by_cases htable : table = group.1
        · subst htable
          rw [State.enter_store, EventRepo.insertRows_typed_self]
          exact Table.mem_insertAll_of_mem rows hx
        · rwa [State.enter_store, EventRepo.insertRows_typed_of_ne _ htable]
      · simp only [List.any_eq_true, Bool.and_eq_true, beq_iff_eq, decide_eq_true_eq,
          and_assoc] at hnow
        exact rowStands_upsert (Pools.config_of_decoder hdecoder) hrows (hphase ▸ hs.tracks w)
          (hphase ▸ hs.readOnce w) hr hnow
  | _ => exact hs.rows

/-- In every state of every run, a marked record of the store has a row under its key in the event
table it decodes to. -/
theorem rowStands_of_upserted (hlayout : layout receiptsTable = .aux)
    {allowed : State layout → Act → Prop}
    (h : Transition.Reachable (system p Store.empty) allowed s) {r : RawRecord}
    (hr : r ∈ s.store.rawRecords) (hmark : s.history.upserted r.key = true) :
    RowStands p s.store r := by
  have hinv := h.invariant (State.Upserted p) (by
    rintro s rfl
    refine ⟨fun w => ⟨nofun, nofun, trivial⟩, fun w => ⟨nofun, nofun, trivial⟩, ?_⟩
    exact fun r hr => absurd hr (Table.not_mem_empty r)) fun s act t hs _ hstep =>
      State.upserted_step hlayout hs (State.step_cases hstep)
  exact hinv.rows r hr hmark

end Topic0.Workers
