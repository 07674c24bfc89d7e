import Topic0.BaseTransition
import Topic0.DecodeResync

/-! At-least-once decoding. Deliveries of `decode_range` over any ranges run side by side, each
reading the raw records and block times of its range, decoding, and writing one table after the
other; any of them may stop at any moment. The raw records, blocks and transactions do not change.
Whatever order this happens in, a row that several deliveries write is the same row each time, so
the typed tables only grow towards the decoded records, and are complete once every height with
records is in a range that was decoded to the end. -/

namespace Topic0.Deliveries

open Keyed

variable {layout : String → PkColumns}

/-- How far a delivery is. -/
inductive Phase where
  | idle
  | rawRead (lo hi : Nat) (raw : List RawRecord)
  | timed (lo hi : Nat) (raw : List RawRecord) (times : List (Nat × Int))
  | writing (lo hi : Nat) (remaining : List (String × List EventRow))

structure State (layout : String → PkColumns) where
  store : Store layout
  deliveries : Nat → Phase
  /-- The ranges of the deliveries that returned. -/
  completed : List (Nat × Nat)

inductive Act where
  | readRaw (d lo hi : Nat)
  | readTimes (d : Nat)
  /-- Calldata is read and everything decoded. -/
  | decode (d : Nat) (order : Order)
  /-- The transaction of the next table. -/
  | upsert (d : Nat)
  | finish (d : Nat)
  /-- An error or a crash, the tables written so far being committed. -/
  | fail (d : Nat)

def State.enter (s : State layout) (d : Nat) (phase : Phase) : State layout :=
  { s with deliveries := Function.update s.deliveries d phase }

def State.step (decoder : AbiIndex) (chain : ChainId) (s : State layout) :
    Act → Option (State layout)
  | .readRaw d lo hi =>
      match s.deliveries d with
      | .idle => some (s.enter d (.rawRead lo hi (RawRecordRepo.range s.store chain lo hi)))
      | _ => none
  | .readTimes d =>
      match s.deliveries d with
      | .rawRead lo hi raw => some (s.enter d (.timed lo hi raw (BlockRepo.times s.store chain lo hi)))
      | _ => none
  | .decode d order =>
      match s.deliveries d with
      | .timed lo hi raw times =>
          match decodedTables order decoder s.store chain raw times with
          | .error _ => none
          | .ok tables => some (s.enter d (.writing lo hi tables))
      | _ => none
  | .upsert d =>
      match s.deliveries d with
      | .writing lo hi (group :: remaining) =>
          match EventRepo.upsertBatch s.store group.1 group.2 with
          | .error _ => none
          | .ok (store, _) => some (State.enter { s with store := store } d (.writing lo hi remaining))
      | _ => none
  | .finish d =>
      match s.deliveries d with
      | .writing lo hi [] => some (State.enter { s with completed := (lo, hi) :: s.completed } d .idle)
      | _ => none
  | .fail d => some (s.enter d .idle)

def system (decoder : AbiIndex) (chain : ChainId) (store : Store layout) :
    Transition.System (State layout) Act where
  init s := s = ⟨store, fun _ => .idle, []⟩
  step := State.step decoder chain

/-- What an action can do, and when. -/
theorem State.step_cases {decoder : AbiIndex} {chain : ChainId} {s s' : State layout} {a : Act}
    (h : s.step decoder chain a = some s') :
    match a with
    | .readRaw d lo hi =>
        s' = s.enter d (.rawRead lo hi (RawRecordRepo.range s.store chain lo hi))
    | .readTimes d => ∃ lo hi raw, s.deliveries d = .rawRead lo hi raw ∧
        s' = s.enter d (.timed lo hi raw (BlockRepo.times s.store chain lo hi))
    | .decode d order => ∃ lo hi raw times tables, s.deliveries d = .timed lo hi raw times ∧
        decodedTables order decoder s.store chain raw times = .ok tables ∧
        s' = s.enter d (.writing lo hi tables)
    | .upsert d => ∃ lo hi group remaining store n,
        s.deliveries d = .writing lo hi (group :: remaining) ∧
        EventRepo.upsertBatch s.store group.1 group.2 = .ok (store, n) ∧
        s' = State.enter { s with store := store } d (.writing lo hi remaining)
    | .finish d => ∃ lo hi, s.deliveries d = .writing lo hi [] ∧
        s' = State.enter { s with completed := (lo, hi) :: s.completed } d .idle
    | .fail d => s' = s.enter d .idle := by
  cases a with
  | readRaw d lo hi =>
      simp only [State.step] at h
      split at h
      · exact (Option.some.inj h).symm
      · cases h
  | readTimes d =>
      simp only [State.step] at h
      split at h
      · rename_i lo hi raw hphase
        exact ⟨lo, hi, raw, hphase, (Option.some.inj h).symm⟩
      · cases h
  | decode d order =>
      simp only [State.step] at h
      split at h
      · rename_i lo hi raw times hphase
        split at h
        · cases h
        · rename_i tables htables
          exact ⟨lo, hi, raw, times, tables, hphase, htables, (Option.some.inj h).symm⟩
      · cases h
  | upsert d =>
      simp only [State.step] at h
      split at h
      · rename_i lo hi group remaining hphase
        split at h
        · cases h
        · rename_i store n hupsert
          exact ⟨lo, hi, group, remaining, store, n, hphase, hupsert, (Option.some.inj h).symm⟩
      · cases h
  | finish d =>
      simp only [State.step] at h
      split at h
      · rename_i lo hi hphase
        exact ⟨lo, hi, hphase, (Option.some.inj h).symm⟩
      · cases h
  | fail d => exact (Option.some.inj h).symm

/-- The rows the chain's records and their stored transactions decode to, before they are stamped. -/
def Decodable (decoder : AbiIndex) (store : Store layout) (chain : ChainId) (row : EventRow) : Prop :=
  (∃ r ∈ store.rawRecords, r.chainId = chain ∧ decoder.decode r = .ok (some row)) ∨
  ∃ tx ∈ store.typed transactionsTable, tx.chainId = chain ∧
    (∃ r ∈ store.rawRecords, r.chainId = chain ∧ r.txId = tx.txId) ∧
    ∃ calldata, calldataRow tx = .ok calldata ∧ decoder.decodeCall calldata = .ok (some row)

/-- What is fixed: transactions stand at the height of their records, event, call and aux tables
are different tables with their own keys, and nothing has been decoded yet. -/
structure Setting (decoder : AbiIndex) (store : Store layout) (chain : ChainId) : Prop where
  auxKey : layout transactionsTable = .aux
  txHeights : ∀ tx ∈ store.typed transactionsTable, tx.chainId = chain → ∀ r ∈ store.rawRecords,
    r.chainId = chain → r.txId = tx.txId → tx.height = r.height
  eventTables : ∀ r ∈ store.rawRecords, ∀ row, decoder.decode r = .ok (some row) →
    layout row.event.table = .event ∧ row.event.table ∉ auxTables
  callTables : ∀ tx row, decoder.decodeCall tx = .ok (some row) →
    layout row.event.table = .aux ∧ row.event.table ∉ auxTables
  empty : ∀ t, t ∉ auxTables → ∀ row, row ∉ store.typed t

/-- The rows of a typed table when everything is decoded. -/
def Target (decoder : AbiIndex) (store : Store layout) (chain : ChainId) (t : String)
    (row : EventRow) : Prop :=
  ∃ d, Decodable decoder store chain d ∧ d.event.table = t ∧ row = timed store chain d

section Rows

variable {decoder : AbiIndex} {store : Store layout} {chain : ChainId}
  (hset : Setting decoder store chain)

include hset

/-- A range decodes to the rows of its heights. -/
theorem decoded_iff {lo hi : Nat} {row : EventRow} :
    Decoded decoder store chain lo hi row ↔
      Decodable decoder store chain row ∧ lo ≤ row.height ∧ row.height ≤ hi := by
  constructor
  · rintro (⟨r, hr, ⟨hchain, hrange⟩, hdecode⟩ | ⟨tx, htx, htxchain, ⟨r, hr, ⟨hchain, hrange⟩, hid⟩,
      calldata, hcalldata, hdecode⟩)
    · refine ⟨.inl ⟨r, hr, hchain, hdecode⟩, ?_⟩
      obtain ⟨event, rfl⟩ := AbiIndex.decode_ok hdecode
      exact hrange
    · refine ⟨.inr ⟨tx, htx, htxchain, ⟨r, hr, hchain, hid⟩, calldata, hcalldata, hdecode⟩, ?_⟩
      obtain ⟨event, rfl⟩ := AbiIndex.decodeCall_ok hdecode
      show lo ≤ calldata.height ∧ calldata.height ≤ hi
      rw [(calldataRow_ok hcalldata).2.1, hset.txHeights tx htx htxchain r hr hchain hid]
      exact hrange
  · rintro ⟨⟨r, hr, hchain, hdecode⟩ | ⟨tx, htx, htxchain, ⟨r, hr, hchain, hid⟩, calldata,
      hcalldata, hdecode⟩, hrange⟩
    · refine .inl ⟨r, hr, ⟨hchain, ?_⟩, hdecode⟩
      obtain ⟨event, rfl⟩ := AbiIndex.decode_ok hdecode
      exact hrange
    · refine .inr ⟨tx, htx, htxchain, ⟨r, hr, ⟨hchain, ?_⟩, hid⟩, calldata, hcalldata, hdecode⟩
      obtain ⟨event, rfl⟩ := AbiIndex.decodeCall_ok hdecode
      rw [← hset.txHeights tx htx htxchain r hr hchain hid, ← (calldataRow_ok hcalldata).2.1]
      exact hrange

theorem stamp_eq_timed {lo hi : Nat} {row : EventRow} (h : Decoded decoder store chain lo hi row) :
    stamp (BlockRepo.times store chain lo hi) row = timed store chain row :=
  stamp_eq_timed_iff.mpr (.inl ((decoded_iff hset).mp h).2)

/-- Two decoded rows of one table under one key are one row. -/
theorem eq_of_sameKey {row row' : EventRow} (h : Decodable decoder store chain row)
    (h' : Decodable decoder store chain row') (hkey : SameKey layout row row') : row = row' := by
  obtain ⟨htable, hkey⟩ := hkey
  rcases h with ⟨r, hr, hchain, hdecode⟩ | ⟨tx, htx, htxchain, -, calldata, hcalldata, hdecode⟩
  · have hevent := (hset.eventTables r hr row hdecode).1
    rcases h' with ⟨r', hr', hchain', hdecode'⟩ | ⟨tx', htx', -, -, calldata', -, hdecode'⟩
    · have hsame : r = r' := by
        obtain ⟨event, rfl⟩ := AbiIndex.decode_ok hdecode
        obtain ⟨event', rfl⟩ := AbiIndex.decode_ok hdecode'
        rw [hevent] at hkey
        simp only [EventRow.primaryKey, AbiIndex.rowOfRecord, PrimaryKey.event.injEq] at hkey
        exact Table.eq_of_key hr hr' (by simp [RawRecord.key, hkey])
      rw [hsame, hdecode', Except.ok.injEq, Option.some.injEq] at hdecode
      exact hdecode.symm
    · have haux := (hset.callTables calldata' row' hdecode').1
      rw [← htable, hevent] at haux
      cases haux
  · have haux := (hset.callTables calldata row hdecode).1
    rcases h' with ⟨r', hr', hchain', hdecode'⟩ | ⟨tx', htx', htxchain', -, calldata', hcalldata',
      hdecode'⟩
    · have hevent := (hset.eventTables r' hr' row' hdecode').1
      rw [← htable, haux] at hevent
      cases hevent
    · have hsame : tx = tx' := by
        obtain ⟨event, rfl⟩ := AbiIndex.decodeCall_ok hdecode
        obtain ⟨event', rfl⟩ := AbiIndex.decodeCall_ok hdecode'
        rw [haux] at hkey
        simp only [EventRow.primaryKey, AbiIndex.rowOfCall, PrimaryKey.aux.injEq] at hkey
        refine Table.eq_of_key htx htx' ?_
        rw [hset.auxKey]
        simp only [EventRow.primaryKey, PrimaryKey.aux.injEq]
        exact ⟨htxchain.trans htxchain'.symm,
          by rw [← (calldataRow_ok hcalldata).2.2, ← (calldataRow_ok hcalldata').2.2, hkey.2]⟩
      rw [hsame, hcalldata', Except.ok.injEq] at hcalldata
      rw [← hcalldata, hdecode', Except.ok.injEq, Option.some.injEq] at hdecode
      exact hdecode.symm

/-- On the rows of a complete table a primary key determines the row. -/
theorem target_injOn {t : String} (x y : EventRow) (hx : Target decoder store chain t x)
    (hy : Target decoder store chain t y)
    (hkey : x.primaryKey (layout t) = y.primaryKey (layout t)) : x = y := by
  obtain ⟨d, hd, rfl, rfl⟩ := hx
  obtain ⟨d', hd', htable, rfl⟩ := hy
  have hsame : d = d' := by
    refine eq_of_sameKey hset hd hd' ⟨htable.symm, ?_⟩
    cases hlayout : layout d.event.table with
    | event =>
        rw [hlayout] at hkey
        exact hkey
    | aux =>
        rw [hlayout] at hkey
        exact hkey
  rw [hsame]

theorem not_aux_of_decodable {row : EventRow} (h : Decodable decoder store chain row) :
    row.event.table ∉ auxTables := by
  rcases h with ⟨r, hr, -, hdecode⟩ | ⟨-, -, -, -, calldata, -, hdecode⟩
  · exact (hset.eventTables r hr row hdecode).2
  · exact (hset.callTables calldata row hdecode).2

end Rows

section Runs

variable {decoder : AbiIndex} {store : Store layout} {chain : ChainId}

/-- What a delivery has read so far, and what it still has to write: nothing but rows of its
range, and all of those that are not stored yet. -/
def Phase.Sound (decoder : AbiIndex) (store : Store layout) (chain : ChainId)
    (now : Store layout) : Phase → Prop
  | .idle => True
  | .rawRead lo hi raw => raw = RawRecordRepo.range store chain lo hi
  | .timed lo hi raw times =>
      raw = RawRecordRepo.range store chain lo hi ∧ times = BlockRepo.times store chain lo hi
  | .writing lo hi remaining =>
      (∀ group ∈ remaining, ∀ row ∈ group.2, ∃ d, Decoded decoder store chain lo hi d ∧
        d.event.table = group.1 ∧ row = Topic0.timed store chain d) ∧
      ∀ d, Decoded decoder store chain lo hi d →
        Topic0.timed store chain d ∈ now.typed d.event.table ∨
          ∃ group ∈ remaining, group.1 = d.event.table ∧ Topic0.timed store chain d ∈ group.2

/-- The run so far: only rows of the complete tables were written, and all rows of the ranges that
were decoded to the end. -/
structure Converging (decoder : AbiIndex) (store : Store layout) (chain : ChainId)
    (s : State layout) : Prop where
  same : SameButTyped store s.store
  aux : ∀ t ∈ auxTables, s.store.typed t = store.typed t
  target : ∀ t, t ∉ auxTables → ∀ row ∈ s.store.typed t, Target decoder store chain t row
  sound : ∀ d, (s.deliveries d).Sound decoder store chain s.store
  done : ∀ range ∈ s.completed, ∀ row, Decoded decoder store chain range.1 range.2 row →
    timed store chain row ∈ s.store.typed row.event.table

theorem Converging.init (hset : Setting decoder store chain) :
    Converging decoder store chain ⟨store, fun _ => .idle, []⟩ where
  same := ⟨rfl, rfl, rfl, rfl⟩
  aux _ _ := rfl
  target t ht row hrow := absurd hrow (hset.empty t ht row)
  sound _ := trivial
  done _ hrange := absurd hrange List.not_mem_nil

/-- A delivery moves on without writing. -/
theorem Converging.enter {s : State layout} (h : Converging decoder store chain s) (d : Nat)
    {phase : Phase} (hphase : phase.Sound decoder store chain s.store) :
    Converging decoder store chain (s.enter d phase) where
  same := h.same
  aux := h.aux
  target := h.target
  sound d' := by
    show (Function.update s.deliveries d phase d').Sound decoder store chain s.store
    by_cases hd : d' = d
    · rw [hd, Function.update_self]
      exact hphase
    · rw [Function.update_of_ne hd]
      exact h.sound d'
  done := h.done

theorem range_eq {now : Store layout} (h : SameButTyped store now) (lo hi : Nat) :
    RawRecordRepo.range now chain lo hi = RawRecordRepo.range store chain lo hi := by
  rw [RawRecordRepo.range, RawRecordRepo.range, h.rawRecords]

theorem times_eq {now : Store layout} (h : SameButTyped store now) (lo hi : Nat) :
    BlockRepo.times now chain lo hi = BlockRepo.times store chain lo hi := by
  rw [BlockRepo.times, BlockRepo.times, h.blocks]

/-- What a delivery decodes is what the range decoded to from the start. -/
theorem Converging.mem_tables {s : State layout} (hset : Setting decoder store chain)
    (h : Converging decoder store chain s) {order : Order} {lo hi : Nat}
    {tables : List (String × List EventRow)}
    (htables : decodedTables order decoder s.store chain (RawRecordRepo.range store chain lo hi)
      (BlockRepo.times store chain lo hi) = .ok tables) {t : String} {row : EventRow} :
    (∃ group ∈ tables, group.1 = t ∧ row ∈ group.2) ↔
      ∃ d, Decoded decoder store chain lo hi d ∧ d.event.table = t ∧ row = timed store chain d := by
  have hmem : row ∈ (tables.filter fun group => group.1 = t).flatMap Prod.snd ↔ _ :=
    mem_decodedTables htables
  simp only [List.mem_flatMap, List.mem_filter, decide_eq_true_eq, and_assoc] at hmem
  rw [hmem]
  have hfrom : ∀ d, DecodedFrom decoder s.store chain (RawRecordRepo.range store chain lo hi) d ↔
      Decoded decoder store chain lo hi d := by
    intro d
    rw [← decodedFrom_range, DecodedFrom, DecodedFrom,
      h.aux transactionsTable List.mem_cons_self]
  constructor
  · rintro ⟨d, hd, htable, rfl⟩
    have hdecoded := (hfrom d).mp hd
    exact ⟨d, hdecoded, htable, stamp_eq_timed hset hdecoded⟩
  · rintro ⟨d, hd, htable, rfl⟩
    exact ⟨d, (hfrom d).mpr hd, htable, (stamp_eq_timed hset hd).symm⟩

theorem Phase.Sound.mono {now now' : Store layout} {phase : Phase}
    (hle : ∀ t, ∀ row ∈ now.typed t, row ∈ now'.typed t)
    (h : phase.Sound decoder store chain now) : phase.Sound decoder store chain now' := by
  cases phase with
  | idle => trivial
  | rawRead lo hi raw => exact h
  | timed lo hi raw times => exact h
  | writing lo hi remaining =>
      refine ⟨h.1, fun d hd => ?_⟩
      rcases h.2 d hd with hstored | hleft
      · exact .inl (hle _ _ hstored)
      · exact .inr hleft

theorem mem_insertRows_of_mem (now : Store layout) (table : String) (rows : List EventRow)
    (t : String) (row : EventRow) (hrow : row ∈ now.typed t) :
    row ∈ (EventRepo.insertRows now table rows).typed t := by
  by_cases ht : t = table
  · subst ht
    rw [EventRepo.insertRows_typed_self]
    exact Table.mem_insertAll_of_mem rows hrow
  · rwa [EventRepo.insertRows_typed_of_ne _ ht]

/-- Rows of a complete table are stored as they are: what stands under their key is the row
itself. -/
theorem Converging.mem_insertAll {s : State layout} (hset : Setting decoder store chain)
    (h : Converging decoder store chain s) {t : String} {rows : List EventRow}
    (hrows : ∀ row ∈ rows, Target decoder store chain t row) {x : EventRow} :
    x ∈ (s.store.typed t).insertAll rows ↔ x ∈ s.store.typed t ∨ x ∈ rows := by
  refine Table.mem_insertAll_of_injOn (target_injOn hset) hrows fun y hy r hr _ => ?_
  obtain ⟨d, hd, htable, -⟩ := hrows r hr
  exact h.target t (htable ▸ not_aux_of_decodable hset hd) y hy

/-- The insert of one table. -/
theorem Converging.insertRows {s : State layout} (hset : Setting decoder store chain)
    (h : Converging decoder store chain s) {table : String} {rows : List EventRow}
    (hrows : ∀ row ∈ rows, Target decoder store chain table row) :
    Converging decoder store chain
      { s with store := EventRepo.insertRows s.store table rows } where
  same := h.same.trans (EventRepo.insertRows_same s.store table rows)
  aux t ht := by
    by_cases htable : t = table
    · subst htable
      have hnil : rows = [] := by
        rw [List.eq_nil_iff_forall_not_mem]
        intro row hrow
        obtain ⟨d, hd, heq, -⟩ := hrows row hrow
        exact not_aux_of_decodable hset hd (heq ▸ ht)
      simp only [hnil, EventRepo.insertRows_typed_self, Table.insertAll_nil]
      exact h.aux t ht
    · exact (EventRepo.insertRows_typed_of_ne s.store htable rows).trans (h.aux t ht)
  target t ht row hrow := by
    by_cases htable : t = table
    · subst htable
      simp only [EventRepo.insertRows_typed_self] at hrow
      rcases (h.mem_insertAll hset hrows).mp hrow with hold | hnew
      · exact h.target t ht row hold
      · exact hrows row hnew
    · simp only [EventRepo.insertRows_typed_of_ne s.store htable] at hrow
      exact h.target t ht row hrow
  sound d := (h.sound d).mono (mem_insertRows_of_mem s.store table rows)
  done range hrange row hrow :=
    mem_insertRows_of_mem s.store table rows _ _ (h.done range hrange row hrow)

/-- One transaction of a delivery. -/
theorem Converging.upsert {s : State layout} (hset : Setting decoder store chain)
    (h : Converging decoder store chain s) {d lo hi n : Nat} {group : String × List EventRow}
    {remaining : List (String × List EventRow)} {now : Store layout}
    (hphase : s.deliveries d = .writing lo hi (group :: remaining))
    (hupsert : EventRepo.upsertBatch s.store group.1 group.2 = .ok (now, n)) :
    Converging decoder store chain
      (State.enter { s with store := now } d (.writing lo hi remaining)) := by
  have hsound := h.sound d
  rw [hphase] at hsound
  obtain ⟨hrows, hcomplete⟩ := hsound
  obtain ⟨rows, hperm, rfl⟩ := EventRepo.upsertBatchTx_ok (upsertBatch_ok hupsert)
  have htarget : ∀ row ∈ rows, Target decoder store chain group.1 row := by
    intro row hrow
    obtain ⟨e, he, htable, heq⟩ := hrows group List.mem_cons_self row (hperm.mem_iff.mp hrow)
    exact ⟨e, ((decoded_iff hset).mp he).1, htable, heq⟩
  refine (h.insertRows hset htarget).enter d ⟨?_, fun e he => ?_⟩
  · exact fun g hg => hrows g (List.mem_cons_of_mem _ hg)
  rcases hcomplete e he with hstored | ⟨g, hg, htable, hmem⟩
  · exact .inl (mem_insertRows_of_mem s.store group.1 rows _ _ hstored)
  rcases List.mem_cons.mp hg with rfl | hg
  · have hstored := (h.mem_insertAll hset htarget).mpr (.inr (hperm.mem_iff.mpr hmem))
    rw [← EventRepo.insertRows_typed_self] at hstored
    exact .inl (htable ▸ hstored)
  · exact .inr ⟨g, hg, htable, hmem⟩

theorem Converging.finish {s : State layout} (h : Converging decoder store chain s) {d lo hi : Nat}
    (hphase : s.deliveries d = .writing lo hi []) :
    Converging decoder store chain
      (State.enter { s with completed := (lo, hi) :: s.completed } d .idle) := by
  have hsound := h.sound d
  rw [hphase] at hsound
  have hdone : Converging decoder store chain { s with completed := (lo, hi) :: s.completed } := by
    refine ⟨h.same, h.aux, h.target, h.sound, fun range hrange row hrow => ?_⟩
    rcases List.mem_cons.mp hrange with rfl | hrange
    · rcases hsound.2 row hrow with hstored | ⟨g, hg, -⟩
      · exact hstored
      · exact absurd hg List.not_mem_nil
    · exact h.done range hrange row hrow
  exact hdone.enter d trivial

/-- Every action of every delivery keeps the tables on their way. -/
theorem Converging.step {s s' : State layout} {a : Act} (hset : Setting decoder store chain)
    (h : Converging decoder store chain s) (hstep : s.step decoder chain a = some s') :
    Converging decoder store chain s' := by
  have hcases := State.step_cases hstep
  cases a with
  | readRaw d lo hi =>
      have hs' : s' = _ := hcases
      rw [hs']
      exact h.enter d (range_eq h.same lo hi)
  | readTimes d =>
      obtain ⟨lo, hi, raw, hphase, rfl⟩ := hcases
      have hsound := h.sound d
      rw [hphase] at hsound
      exact h.enter d ⟨hsound, times_eq h.same lo hi⟩
  | decode d order =>
      obtain ⟨lo, hi, raw, times, tables, hphase, htables, rfl⟩ := hcases
      have hsound := h.sound d
      rw [hphase] at hsound
      obtain ⟨rfl, rfl⟩ := hsound
      refine h.enter d ⟨fun group hgroup row hrow => ?_, fun e he => .inr ?_⟩
      · exact (h.mem_tables hset htables).mp ⟨group, hgroup, rfl, hrow⟩
      · exact (h.mem_tables hset htables).mpr ⟨e, he, rfl, rfl⟩
  | upsert d =>
      obtain ⟨lo, hi, group, remaining, now, n, hphase, hupsert, rfl⟩ := hcases
      exact h.upsert hset hphase hupsert
  | finish d =>
      obtain ⟨lo, hi, hphase, rfl⟩ := hcases
      exact h.finish hphase
  | fail d =>
      have hs' : s' = _ := hcases
      rw [hs']
      exact h.enter d trivial

theorem converging_of_reachable (hset : Setting decoder store chain) {s : State layout}
    (h : Transition.Reachable (system decoder chain store) Transition.anyStep s) :
    Converging decoder store chain s := by
  refine h.invariant (Converging decoder store chain) (fun s hs => ?_) fun s a s' hs _ hstep =>
    hs.step hset hstep
  rw [hs]
  exact Converging.init hset

/-- Every height of the chain with raw records lies in a range that was decoded to the end. -/
def Covered (store : Store layout) (chain : ChainId) (completed : List (Nat × Nat)) : Prop :=
  ∀ r ∈ store.rawRecords, r.chainId = chain →
    ∃ range ∈ completed, range.1 ≤ r.height ∧ r.height ≤ range.2

/-- The typed tables are complete: the event and call tables hold exactly the decoded rows, one
under the key of each decodable record and of each decodable matched transaction. -/
structure Converged (decoder : AbiIndex) (store : Store layout) (chain : ChainId)
    (now : Store layout) : Prop where
  aux : ∀ t ∈ auxTables, now.typed t = store.typed t
  rows : ∀ t, t ∉ auxTables → ∀ row, row ∈ now.typed t ↔ Target decoder store chain t row
  events : ∀ r ∈ store.rawRecords, r.chainId = chain → ∀ row,
    decoder.decode r = .ok (some row) →
      (now.typed row.event.table).find? (.event chain r.height r.index) =
        some { row with blockTime := blockTimeAt store chain r.height }
  calls : ∀ tx ∈ store.typed transactionsTable, tx.chainId = chain →
    (∃ r ∈ store.rawRecords, r.chainId = chain ∧ r.txId = tx.txId) → ∀ calldata row,
      calldataRow tx = .ok calldata → decoder.decodeCall calldata = .ok (some row) →
        (now.typed row.event.table).find? (.aux chain tx.txId) =
          some { row with blockTime := blockTimeAt store chain tx.height }

/-- A decodable row has a record at its height. -/
theorem exists_record {row : EventRow} (hset : Setting decoder store chain)
    (h : Decodable decoder store chain row) :
    ∃ r ∈ store.rawRecords, r.chainId = chain ∧ r.height = row.height := by
  rcases h with ⟨r, hr, hchain, hdecode⟩ | ⟨tx, htx, htxchain, ⟨r, hr, hchain, hid⟩, calldata,
    hcalldata, hdecode⟩
  · obtain ⟨event, rfl⟩ := AbiIndex.decode_ok hdecode
    exact ⟨r, hr, hchain, rfl⟩
  · obtain ⟨event, rfl⟩ := AbiIndex.decodeCall_ok hdecode
    refine ⟨r, hr, hchain, ?_⟩
    show r.height = calldata.height
    rw [(calldataRow_ok hcalldata).2.1, hset.txHeights tx htx htxchain r hr hchain hid]

theorem Converging.stored {s : State layout} (hset : Setting decoder store chain)
    (h : Converging decoder store chain s) (hcovered : Covered store chain s.completed)
    {row : EventRow} (hrow : Decodable decoder store chain row) :
    timed store chain row ∈ s.store.typed row.event.table := by
  obtain ⟨r, hr, hchain, hheight⟩ := exists_record hset hrow
  obtain ⟨range, hrange, hlo, hhi⟩ := hcovered r hr hchain
  rw [hheight] at hlo hhi
  exact h.done range hrange row ((decoded_iff hset).mpr ⟨hrow, hlo, hhi⟩)

theorem Converging.converged {s : State layout} (hset : Setting decoder store chain)
    (h : Converging decoder store chain s) (hcovered : Covered store chain s.completed) :
    Converged decoder store chain s.store where
  aux := h.aux
  rows t ht row := by
    refine ⟨h.target t ht row, ?_⟩
    rintro ⟨d, hd, rfl, rfl⟩
    exact h.stored hset hcovered hd
  events r hr hchain row hdecode := by
    have hstored := h.stored hset hcovered (.inl ⟨r, hr, hchain, hdecode⟩)
    have hlayout := (hset.eventTables r hr row hdecode).1
    obtain ⟨event, rfl⟩ := AbiIndex.decode_ok hdecode
    rw [Table.find?_eq_some]
    refine ⟨hstored, ?_⟩
    rw [hlayout, ← hchain]
    rfl
  calls tx htx htxchain hmatch calldata row hcalldata hdecode := by
    have hstored := h.stored hset hcovered
      (.inr ⟨tx, htx, htxchain, hmatch, calldata, hcalldata, hdecode⟩)
    have hlayout := (hset.callTables calldata row hdecode).1
    obtain ⟨hcalldataChain, hcalldataHeight, hcalldataId⟩ := calldataRow_ok hcalldata
    obtain ⟨event, rfl⟩ := AbiIndex.decodeCall_ok hdecode
    rw [Table.find?_eq_some]
    refine ⟨?_, ?_⟩
    · rw [← hcalldataHeight]
      exact hstored
    · rw [hlayout, ← htxchain, ← hcalldataChain, ← hcalldataId]
      rfl

/-- Nothing is left to insert into complete tables. -/
theorem Converging.typed_step {s s' : State layout} {a : Act} (hset : Setting decoder store chain)
    (h : Converging decoder store chain s) (hcovered : Covered store chain s.completed)
    (hstep : s.step decoder chain a = some s') :
    s'.store.typed = s.store.typed ∧ Covered store chain s'.completed := by
  have hcases := State.step_cases hstep
  cases a with
  | readRaw d lo hi =>
      have hs' : s' = _ := hcases
      rw [hs']
      exact ⟨rfl, hcovered⟩
  | readTimes d =>
      obtain ⟨lo, hi, raw, -, rfl⟩ := hcases
      exact ⟨rfl, hcovered⟩
  | decode d order =>
      obtain ⟨lo, hi, raw, times, tables, -, -, rfl⟩ := hcases
      exact ⟨rfl, hcovered⟩
  | upsert d =>
      obtain ⟨lo, hi, group, remaining, now, n, hphase, hupsert, rfl⟩ := hcases
      refine ⟨?_, hcovered⟩
      have hsound := h.sound d
      rw [hphase] at hsound
      obtain ⟨rows, hperm, rfl⟩ := EventRepo.upsertBatchTx_ok (upsertBatch_ok hupsert)
      have htaken : (s.store.typed group.1).insertAll rows = s.store.typed group.1 := by
        apply Table.insertAll_eq_self
        intro row hrow
        obtain ⟨e, he, htable, rfl⟩ :=
          hsound.1 group List.mem_cons_self row (hperm.mem_iff.mp hrow)
        refine ⟨_, ?_, rfl⟩
        exact htable ▸ h.stored hset hcovered ((decoded_iff hset).mp he).1
      show Function.update s.store.typed group.1 _ = s.store.typed
      rw [htaken, Function.update_eq_self]
  | finish d =>
      obtain ⟨lo, hi, hphase, rfl⟩ := hcases
      refine ⟨rfl, fun r hr hchain => ?_⟩
      obtain ⟨range, hrange, hin⟩ := hcovered r hr hchain
      exact ⟨range, List.mem_cons_of_mem _ hrange, hin⟩
  | fail d =>
      have hs' : s' = _ := hcases
      rw [hs']
      exact ⟨rfl, hcovered⟩

theorem Converging.typed_exec {s s' : State layout} (hset : Setting decoder store chain)
    (h : Converging decoder store chain s) (hcovered : Covered store chain s.completed)
    (acts : List Act) (hexec : Transition.exec (system decoder chain store) s acts = some s') :
    s'.store.typed = s.store.typed := by
  induction acts generalizing s with
  | nil =>
      rw [Transition.exec, Option.some.injEq] at hexec
      rw [hexec]
  | cons a rest ih =>
      rw [Transition.exec] at hexec
      obtain ⟨u, hstep, hrest⟩ := Option.bind_eq_some_iff.mp hexec
      obtain ⟨htyped, hcovered'⟩ := h.typed_step hset hcovered hstep
      rw [ih (h.step hset hstep) hcovered' hrest, htyped]

/-- Whatever deliveries ran, once every height with records was decoded the typed tables are the
decoded rows, and no further delivery changes them. -/
theorem converged_of_covered (hset : Setting decoder store chain) {s : State layout}
    (h : Transition.Reachable (system decoder chain store) Transition.anyStep s)
    (hcovered : Covered store chain s.completed) :
    Converged decoder store chain s.store ∧
      ∀ acts s', Transition.exec (system decoder chain store) s acts = some s' →
        s'.store.typed = s.store.typed := by
  have hconverging := converging_of_reachable hset h
  exact ⟨hconverging.converged hset hcovered, fun acts s' hexec =>
    hconverging.typed_exec hset hcovered acts hexec⟩

end Runs

section Uninterrupted

variable (decoder : AbiIndex) (chain : ChainId) (store : Store layout)

/-- What a delivery does with its range, statement by statement, next to those that are complete. -/
def rangeSteps (d lo hi : Nat) (order : Order) (completed : List (Nat × Nat)) :
    RangeSteps (system decoder chain store) State.store order decoder chain lo hi where
  readRaw := .readRaw d lo hi
  readTimes := .readTimes d
  decode := .decode d order
  upsert := .upsert d
  ready s := s.deliveries d = .idle ∧ s.completed = completed
  rawRead raw s := s.deliveries d = .rawRead lo hi raw ∧ s.completed = completed
  timed raw times s := s.deliveries d = .timed lo hi raw times ∧ s.completed = completed
  writing remaining s := s.deliveries d = .writing lo hi remaining ∧ s.completed = completed
  readRaw_step s hs := by
    obtain ⟨hphase, hcompleted⟩ := hs
    show ∃ t, s.step decoder chain (.readRaw d lo hi) = some t ∧ _
    simp only [State.step, hphase]
    exact ⟨_, rfl, rfl, Function.update_self .., hcompleted⟩
  readTimes_step s raw hs := by
    obtain ⟨hphase, hcompleted⟩ := hs
    show ∃ t, s.step decoder chain (.readTimes d) = some t ∧ _
    simp only [State.step, hphase]
    exact ⟨_, rfl, rfl, Function.update_self .., hcompleted⟩
  decode_step s raw times tables hs htables := by
    obtain ⟨hphase, hcompleted⟩ := hs
    show ∃ t, s.step decoder chain (.decode d order) = some t ∧ _
    simp only [State.step, hphase, htables]
    exact ⟨_, rfl, rfl, Function.update_self .., hcompleted⟩
  upsert_step s group remaining written m hs hwritten := by
    obtain ⟨hphase, hcompleted⟩ := hs
    show ∃ t, s.step decoder chain (.upsert d) = some t ∧ _
    simp only [State.step, hphase, hwritten]
    exact ⟨_, rfl, rfl, Function.update_self .., hcompleted⟩

variable {decoder chain}

/-- Steps of one delivery with nothing between them are `decode_range`. -/
theorem exec_decodeRange {s : State layout} {d lo hi : Nat} {order : Order} {store' : Store layout}
    {n : Nat} (hphase : s.deliveries d = .idle)
    (h : decodeRange order decoder s.store chain lo hi = .ok (store', n)) :
    ∃ k t, Transition.exec (system decoder chain store) s
        (.readRaw d lo hi :: .readTimes d :: .decode d order ::
          (List.replicate k (.upsert d) ++ [.finish d])) = some t ∧
      t.store = store' ∧ t.completed = (lo, hi) :: s.completed := by
  obtain ⟨k, u, rfl, ⟨hdone, hcompleted⟩, hexec⟩ :=
    (rangeSteps decoder chain store d lo hi order s.completed).exec_decodeRange ⟨hphase, rfl⟩ h
      [.finish d]
  obtain ⟨t, hstep, hstore, hnext⟩ : ∃ t, u.step decoder chain (.finish d) = some t ∧
      t.store = u.store ∧ t.completed = (lo, hi) :: s.completed := by
    simp only [State.step, hdone]
    exact ⟨_, rfl, rfl, congrArg _ hcompleted⟩
  exact ⟨k, t, hexec.trans (Transition.exec_cons hstep []), hstore, hnext⟩

end Uninterrupted

def callTable : String := "call_token_transfer"

/-- The call table has the aux key. -/
def callLayout (table : String) : PkColumns := if table = callTable then .aux else eventLayout table

/-- The transfer event, and the transfer function of the token at `[9]`. -/
def callingDecoder : AbiIndex where
  byTopic0 := transferDecoder.byTopic0
  byCall address selector :=
    if address = [9] ∧ selector = [0xa9, 0x05, 0x9c, 0xbb] then
      some fun input => .ok ⟨callTable, [("amount", .bytes (input.drop 4))]⟩
    else none
  callIsEmpty := false
  byCall_of_empty h := absurd h Bool.false_ne_true

theorem table_of_decodeCall_callingDecoder {tx : TxCalldata} {row : EventRow}
    (h : callingDecoder.decodeCall tx = .ok (some row)) : row.event.table = callTable := by
  rw [AbiIndex.decodeCall] at h
  split at h
  · cases h
  split at h
  · cases h
  rename_i decodeInput hcall
  obtain ⟨-, heq⟩ := Option.ite_none_right_eq_some.mp hcall
  cases heq
  cases h
  rfl

def transferTx : EventRow :=
  ⟨1, 1, ⟨[7]⟩, none, ⟨[7]⟩, 0, ⟨transactionsTable,
    [("to_addr", .address [9]), ("input", .bytes [0xa9, 0x05, 0x9c, 0xbb, 5])]⟩⟩

/-- A transfer that was called in block 1, and one in block 3. -/
def calledTransfer : Store callLayout :=
  EventRepo.insertRows
    { RawRecordRepo.insertBatchTx Store.empty
        [transferLog 1 1 ⟨[7]⟩ 5, transferLog 1 3 ⟨[8]⟩ 6] with
      blocks := Table.empty.upsertAll
        [⟨1, 1, ⟨[7]⟩, ⟨[6]⟩, 100⟩, ⟨1, 3, ⟨[8]⟩, ⟨[7]⟩, 124⟩] }
    transactionsTable [transferTx]

theorem mem_calledTransfer {r : RawRecord} (h : r ∈ calledTransfer.rawRecords) :
    r = transferLog 1 1 ⟨[7]⟩ 5 ∨ r = transferLog 1 3 ⟨[8]⟩ 6 := by
  have hmem : r ∈ [transferLog 1 1 ⟨[7]⟩ 5, transferLog 1 3 ⟨[8]⟩ 6] := h
  simpa using hmem

theorem setting_calledTransfer : Setting callingDecoder calledTransfer 1 where
  auxKey := rfl
  txHeights tx htx _ r hr _ hid := by
    obtain rfl : tx = transferTx := List.mem_singleton.mp htx
    rcases mem_calledTransfer hr with rfl | rfl
    · rfl
    · exact absurd hid (by decide)
  eventTables r _ row hdecode := by
    rw [table_of_decode_transferDecoder (show transferDecoder.decode r = .ok (some row) from hdecode)]
    decide
  callTables tx row hdecode := by
    rw [table_of_decodeCall_callingDecoder hdecode]
    decide
  empty t haux row := by
    have hne : t ≠ transactionsTable := fun heq => haux (heq ▸ List.mem_cons_self)
    rw [calledTransfer, EventRepo.insertRows_typed_of_ne _ hne]
    exact Table.not_mem_empty row

/-- Two overlapping deliveries, one of which fails after the first of its two tables. -/
theorem converged_calledTransfer :
    ∃ s : State callLayout,
      (s.completed, (s.store.typed transferTable).rows.length,
        (s.store.typed callTable).rows.length) = ([(0, 3)], 2, 1) ∧
      Converged callingDecoder calledTransfer 1 s.store ∧
      ∀ acts s', Transition.exec (system callingDecoder 1 calledTransfer) s acts = some s' →
        s'.store.typed = s.store.typed := by
  have hinit : Transition.Reachable (system callingDecoder 1 calledTransfer) Transition.anyStep
      ⟨calledTransfer, fun _ => .idle, []⟩ := .init rfl
  obtain ⟨s, hs, hobserved⟩ := hinit.exists_observed
    [.readRaw 1 0 3, .readRaw 2 1 1, .readTimes 2, .decode 2 Order.stable, .upsert 2, .readTimes 1,
      .fail 2, .decode 1 Order.stable, .upsert 1, .upsert 1, .finish 1]
    (fun _ _ _ => trivial)
    (fun s => (s.completed, (s.store.typed transferTable).rows.length,
      (s.store.typed callTable).rows.length))
    (b := ([(0, 3)], 2, 1)) (by decide +kernel)
  refine ⟨s, hobserved, converged_of_covered setting_calledTransfer hs fun r hr hchain => ?_⟩
  obtain ⟨hcompleted, -⟩ := Prod.mk.inj hobserved
  rw [hcompleted]
  refine ⟨(0, 3), List.mem_singleton.mpr rfl, Nat.zero_le _, ?_⟩
  rcases mem_calledTransfer hr with rfl | rfl <;> decide

end Topic0.Deliveries
