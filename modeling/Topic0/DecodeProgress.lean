import Topic0.BaseRanking
import Topic0.DecodeStuck

/-! A pool left alone drains its queue. While nothing is committed and no lease expires, every step of
every worker takes it nearer to the end of its item, and an item waiting is worth more steps than
the same item in hand; so the workers cannot go on for ever, in whatever order they take their
steps. A chain is sound when what is stored of it decodes to values the database takes and no worker
dies on its items. Whatever happens to the items of the other chains, some step is possible until
nothing of a sound chain is queued: an item that fails keeps its lease and its chain, and leaves its
worker to the rest. -/

namespace Topic0.Workers

open Keyed

variable {layout : String → PkColumns} {p : Pools layout} {s t : State layout} {n : Nat}
  {sound : ChainId → Bool}

/-- Nothing is decoded to an enrichment table. -/
def OwnTables (p : Pools layout) : Prop :=
  ∀ chain decoder, p.config chain = some decoder →
    (∀ r row, decoder.decode r = .ok (some row) → row.event.table ∉ auxTables) ∧
      ∀ tx row, decoder.decodeCall tx = .ok (some row) → row.event.table ∉ auxTables

/-- The events can be written in one batch: their names are identifiers and the database takes their
values. -/
structure Insertable (p : Pools layout) (table : String) (events : List DecodedEvent) : Prop where
  ident : isValidIdent table = true
  names : ∀ event ∈ events, ∀ name ∈ event.fields.map Prod.fst, isValidIdent name = true
  taken : p.refusal table events = none

/-- Records and stored transactions of a chain decode, and what they decode to can be written, whatever
of it comes together. -/
structure Decodes (p : Pools layout) (store : Store layout) (chain : ChainId) (decoder : AbiIndex)
    (raw : List RawRecord) : Prop where
  events : ∀ r ∈ raw, ∃ row, decoder.decode r = .ok row
  calls : ∀ tx ∈ store.typed transactionsTable, tx.chainId = chain →
    ∃ calldata row, calldataRow tx = .ok calldata ∧ decoder.decodeCall calldata = .ok row
  insertable : ∀ table events, events ≠ [] →
    (∀ event ∈ events, ∃ row, DecodedFrom decoder store chain raw row ∧ row.event = event ∧
      event.table = table) → Insertable p table events

/-- What is stored of the sound chains decodes, under whichever pool's decoder. -/
def StoreDecodes (p : Pools layout) (sound : ChainId → Bool) (store : Store layout) : Prop :=
  ∀ w chain decoder, sound chain = true → p.decoder w chain = some decoder →
    Decodes p store chain decoder (store.rawRecords.rows.filter fun r => r.chainId == chain)

/-- What a worker has in hand of a sound chain can be decoded and written, and nothing it writes goes
to an enrichment table. -/
structure Phase.Live (p : Pools layout) (sound : ChainId → Bool) (store : Store layout) (w : Nat)
    (phase : Phase) : Prop where
  decoder : ∀ lease, phase.batch?.isSome → phase.lease? = some lease →
    ∃ decoder, p.decoder w lease.item.chainId = some decoder
  batch : ∀ lease batch decoder, phase.lease? = some lease → phase.batch? = some batch →
    sound lease.item.chainId = true → p.decoder w lease.item.chainId = some decoder →
      Decodes p store lease.item.chainId decoder batch.raw
  own : ∀ lease batch remaining, phase = .writing lease batch remaining →
    ∀ group ∈ remaining, group.1 ∉ auxTables
  tables : ∀ lease batch remaining, phase = .writing lease batch remaining →
    sound lease.item.chainId = true →
      ∀ group ∈ remaining, Insertable p group.1 (group.2.map EventRow.event)

/-- Every leased row of a sound chain is held by a worker under its current sequence. -/
def Held (sound : ChainId → Bool) (queue : WorkQueue) (workers : Nat → Phase) : Prop :=
  ∀ q ∈ queue.rows, sound q.item.chainId = true → q.lockedAt ≠ none →
    ∃ w, (workers w).lease? = some ⟨q.id, q.leaseSeq, q.item⟩

/-- A pool of `n` workers with no lease of a sound chain abandoned. -/
structure State.Live (p : Pools layout) (sound : ChainId → Bool) (n : Nat) (s : State layout) :
    Prop where
  idle : ∀ w, n ≤ w → s.workers w = .idle
  held : Held sound s.store.workQueue s.workers
  decodes : StoreDecodes p sound s.store
  phases : ∀ w, (s.workers w).Live p sound s.store w

/-- A step of one of the workers, which dies only on an item of a chain that is not sound. -/
def State.works (n : Nat) (sound : ChainId → Bool) (s : State layout) (act : Act) : Bool :=
  match act with
  | .fail w => decide (w < n) && (s.workers w).lease?.any fun lease => !sound lease.item.chainId
  | act => act.worker?.any fun w => decide (w < n)

section Cost

/-- No more tables than this are written for the records. -/
def most (store : Store layout) (raw : List RawRecord) : Nat :=
  raw.length + (store.typed transactionsTable).rows.length

def itemRange (store : Store layout) (item : WorkItem) : List RawRecord :=
  RawRecordRepo.range store item.chainId item.fromHeight item.toHeight

/-- The steps a worker has left with its item. -/
def Phase.left (store : Store layout) : Phase → Nat
  | .idle => 0
  | .leased lease => most store (itemRange store lease.item) + 6
  | .rawRead _ batch => most store batch.raw + 5
  | .timed _ batch _ => most store batch.raw + 4
  | .writing _ _ remaining => remaining.length + 2
  | .decoded _ _ | .skipped _ => 1

/-- An item that waits still has to be pulled. -/
def waiting (store : Store layout) (q : QueueRow) : Nat :=
  if q.lockedAt.isNone then most store (itemRange store q.item) + 7 else 0

def queued (store : Store layout) (queue : WorkQueue) : Nat :=
  (queue.rows.map (waiting store)).sum

/-- The steps a pool of `n` workers has left. -/
def State.left (n : Nat) (s : State layout) : Nat :=
  ∑ w ∈ Finset.range n, (s.workers w).left s.store + queued s.store s.store.workQueue

/-- Both stores have the same records and transactions. -/
def SameSources (store store' : Store layout) : Prop :=
  store'.rawRecords = store.rawRecords ∧
    store'.typed transactionsTable = store.typed transactionsTable

theorem left_of_same {store store' : Store layout} (h : SameSources store store') :
    Phase.left store' = Phase.left store ∧ waiting store' = waiting store := by
  have hmost : most store' = most store := by
    funext raw
    rw [most, most, h.2]
  have hrange : itemRange store' = itemRange store := by
    funext item
    rw [itemRange, itemRange, RawRecordRepo.range, RawRecordRepo.range, h.1]
  constructor
  · funext phase
    cases phase <;> simp only [Phase.left, hmost, hrange]
  · funext q
    rw [waiting, waiting, hmost, hrange]

/-- What is left after worker `w` has moved on. -/
theorem left_add {w : Nat} (hw : w < n) {phase : Phase}
    (hworkers : t.workers = Function.update s.workers w phase)
    (hsame : SameSources s.store t.store) :
    t.left n + ((s.workers w).left s.store + queued s.store s.store.workQueue) =
      s.left n + (phase.left s.store + queued s.store t.store.workQueue) := by
  obtain ⟨hleft, hwaiting⟩ := left_of_same hsame
  have hsum := Transition.sum_update hw s.workers phase (Phase.left s.store)
  rw [State.left, State.left, hworkers, hleft, queued, hwaiting, ← queued]
  omega

/-- An item in hand is worth one step less than the same item waiting. -/
theorem queued_pullAny {store : Store layout} {queue queue' : WorkQueue} {now : Nat} {lease : Lease}
    (h : queue.pullAny now = some (lease, queue')) :
    queued store queue' + (most store (itemRange store lease.item) + 7) = queued store queue := by
  rw [WorkQueue.pullAny, Option.map_eq_some_iff] at h
  obtain ⟨ready, hready, heq⟩ := h
  cases heq
  have hmem : ready ∈ queue.rows := List.mem_of_find?_eq_some hready
  have hunlocked : ready.lockedAt.isNone = true := by
    have hfound := List.find?_some hready
    rw [Bool.and_eq_true] at hfound
    exact hfound.1
  have hnodup : queue.rows.Nodup := queue.ordered.imp fun hlt heq => by
    rw [heq] at hlt
    exact Nat.lt_irrefl _ hlt
  have hperm := List.perm_cons_erase hmem
  -- the other rows stay as they are
  have hother : ∀ q ∈ queue.rows.erase ready, q.id ≠ ready.id := by
    intro q hq hid
    obtain ⟨hne, hq⟩ := (List.Nodup.mem_erase_iff hnodup).mp hq
    exact hne (WorkQueue.eq_of_id hq hmem hid)
  unfold queued
  simp only [WorkQueue.updateRows, List.map_map]
  rw [(hperm.map _).sum_eq, (hperm.map (waiting store)).sum_eq, List.map_cons, List.map_cons,
    List.sum_cons, List.sum_cons]
  have hrest : ((queue.rows.erase ready).map (waiting store ∘ fun q =>
      if q.id = ready.id then { q with lockedAt := some now, leaseSeq := q.leaseSeq + 1 } else q)) =
      (queue.rows.erase ready).map (waiting store) := by
    apply List.map_congr_left
    intro q hq
    rw [Function.comp_apply, if_neg (hother q hq)]
  have htaken : waiting store { ready with
      lockedAt := some now, leaseSeq := ready.leaseSeq + 1 } = 0 := rfl
  have hready : waiting store ready = most store (itemRange store ready.item) + 7 :=
    if_pos hunlocked
  rw [hrest, Function.comp_apply, if_pos rfl, htaken, hready]
  omega

theorem queued_ack (store : Store layout) (queue : WorkQueue) (id leaseSeq : Nat) :
    queued store (queue.ack id leaseSeq) ≤ queued store queue := by
  apply List.Sublist.sum_le_sum
  · exact List.filter_sublist.map _
  · exact fun _ _ => Nat.zero_le _

end Cost

section Tables

variable {order : Order} {decoder : AbiIndex} {store : Store layout} {chain : ChainId}
  {raw : List RawRecord} {times : List (Nat × Int)} {tables : List (String × List EventRow)}

theorem length_decodeAll {α β ε : Type} {f : α → Except ε (Option β)} {as : List α} {bs : List β}
    (h : decodeAll f as = .ok bs) : bs.length ≤ as.length := by
  induction as generalizing bs with
  | nil =>
      cases h
      exact le_refl _
  | cons a as ih =>
      rw [decodeAll, Rows.bind_eq_ok] at h
      obtain ⟨row, -, h⟩ := h
      rw [Rows.bind_eq_ok] at h
      obtain ⟨rest, hrest, heq⟩ := h
      cases heq
      have hle := ih hrest
      have hrow : row.toList.length ≤ 1 := by cases row <;> simp
      rw [List.length_append, List.length_cons]
      omega

theorem exists_decodeAll_ok {α β ε : Type} {f : α → Except ε (Option β)} {as : List α}
    (h : ∀ a ∈ as, ∃ row, f a = .ok row) : ∃ bs, decodeAll f as = .ok bs := by
  induction as with
  | nil => exact ⟨[], rfl⟩
  | cons a as ih =>
      obtain ⟨row, hrow⟩ := h a List.mem_cons_self
      obtain ⟨rest, hrest⟩ := ih fun b hb => h b (List.mem_cons_of_mem _ hb)
      refine ⟨row.toList ++ rest, ?_⟩
      rw [decodeAll, Rows.bind_eq_ok]
      refine ⟨row, hrow, ?_⟩
      rw [Rows.bind_eq_ok]
      exact ⟨rest, hrest, rfl⟩

/-- Groups with something in them are no more than what is in them. -/
theorem length_le_flatMap {α β : Type} {groups : List (α × List β)} (h : ∀ g ∈ groups, g.2 ≠ []) :
    groups.length ≤ (groups.flatMap Prod.snd).length := by
  induction groups with
  | nil => exact le_refl _
  | cons g groups ih =>
      have hle := ih fun g' hg' => h g' (List.mem_cons_of_mem _ hg')
      have hpos := List.length_pos_of_ne_nil (h g List.mem_cons_self)
      rw [List.flatMap_cons, List.length_append, List.length_cons]
      omega

theorem length_mapM_ok {α β ε : Type} {f : α → Except ε β} {as : List α} {bs : List β}
    (h : as.mapM f = .ok bs) : bs.length = as.length := by
  induction as generalizing bs with
  | nil =>
      cases h
      rfl
  | cons a as ih =>
      rw [List.mapM_cons, Rows.bind_eq_ok] at h
      obtain ⟨b, -, h⟩ := h
      rw [Rows.bind_eq_ok] at h
      obtain ⟨rest, hrest, heq⟩ := h
      cases heq
      rw [List.length_cons, List.length_cons, ih hrest]

theorem length_decodeCalls {rows : List EventRow}
    (h : decodeCalls order decoder store chain raw = .ok rows) :
    rows.length ≤ (store.typed transactionsTable).rows.length := by
  rw [decodeCalls] at h
  split at h
  · rw [Rows.bind_eq_ok] at h
    obtain ⟨txs, htxs, hrows⟩ := h
    calc rows.length
        ≤ txs.length := length_decodeAll hrows
      _ = (order.calldata (matchedTransactions store chain raw)).length := length_mapM_ok htxs
      _ = (matchedTransactions store chain raw).length := (order.calldata_perm _).length_eq
      _ ≤ (store.typed transactionsTable).rows.length := List.length_filter_le _ _
  · cases h
    exact Nat.zero_le _

theorem length_decodedTables (h : decodedTables order decoder store chain raw times = .ok tables) :
    tables.length ≤ most store raw := by
  rw [decodedTables, Rows.bind_eq_ok] at h
  obtain ⟨events, hevents, h⟩ := h
  rw [Rows.bind_eq_ok] at h
  obtain ⟨calls, hcalls, heq⟩ := h
  cases heq
  have hne : ∀ g ∈ Rows.buckets (fun row : EventRow => row.event.table)
      ((events ++ calls).map (stamp times)), g.2 ≠ [] := Rows.ne_nil_buckets
  have hgroups := length_le_flatMap hne
  rw [(Rows.flatMap_buckets _ _).length_eq, List.length_map, List.length_append] at hgroups
  rw [(order.tables_perm _).length_eq, most]
  have hle := length_decodeAll hevents
  have hle' := length_decodeCalls hcalls
  omega

/-- The rows of a group are decoded rows of its table. -/
theorem decodedFrom_of_group (h : decodedTables order decoder store chain raw times = .ok tables)
    {group : String × List EventRow} (hgroup : group ∈ tables) : ∀ row ∈ group.2,
      ∃ d, DecodedFrom decoder store chain raw d ∧ d.event.table = group.1 ∧ row = stamp times d := by
  intro row hrow
  apply (mem_decodedTables h).mp
  exact List.mem_flatMap.mpr ⟨group, List.mem_filter.mpr ⟨hgroup, decide_eq_true rfl⟩, hrow⟩

theorem ne_nil_of_decodedTables (h : decodedTables order decoder store chain raw times = .ok tables)
    {group : String × List EventRow} (hgroup : group ∈ tables) : group.2 ≠ [] := by
  rw [decodedTables, Rows.bind_eq_ok] at h
  obtain ⟨events, -, h⟩ := h
  rw [Rows.bind_eq_ok] at h
  obtain ⟨calls, -, heq⟩ := h
  cases heq
  exact Rows.ne_nil_buckets group ((order.tables_perm _).mem_iff.mp hgroup)

/-- What decodes is decoded. -/
theorem Decodes.exists_decodedTables (h : Decodes p store chain decoder raw) (order : Order)
    (times : List (Nat × Int)) :
    ∃ tables, decodedTables order decoder store chain raw times = .ok tables := by
  obtain ⟨events, hevents⟩ := exists_decodeAll_ok h.events
  have hcalls : ∃ calls, decodeCalls order decoder store chain raw = .ok calls := by
    unfold decodeCalls
    split
    · have hmatched : ∀ tx ∈ order.calldata (matchedTransactions store chain raw),
          ∃ calldata row, calldataRow tx = .ok calldata ∧ decoder.decodeCall calldata = .ok row := by
        intro tx htx
        obtain ⟨hmem, hchain⟩ := List.mem_filter.mp ((order.calldata_perm _).mem_iff.mp htx)
        rw [Bool.and_eq_true, beq_iff_eq] at hchain
        exact h.calls tx hmem hchain.1
      have hcalldata : ∃ calldata, (order.calldata (matchedTransactions store chain raw)).mapM
          calldataRow = .ok calldata := by
        apply Rows.exists_mapM_ok
        intro tx htx
        obtain ⟨calldata, row, hok, -⟩ := hmatched tx htx
        exact ⟨calldata, hok⟩
      obtain ⟨calldata, hcalldata⟩ := hcalldata
      have hcalls : ∃ calls, decodeAll decoder.decodeCall calldata = .ok calls := by
        apply exists_decodeAll_ok
        intro c hc
        obtain ⟨tx, htx, hok⟩ := (Rows.mem_mapM_ok hcalldata).mp hc
        obtain ⟨calldata', row, hok', hrow⟩ := hmatched tx htx
        rw [hok, Except.ok.injEq] at hok'
        exact ⟨row, hok' ▸ hrow⟩
      obtain ⟨calls, hcalls⟩ := hcalls
      exact ⟨calls, Rows.bind_eq_ok.mpr ⟨calldata, hcalldata, hcalls⟩⟩
    · exact ⟨[], rfl⟩
  obtain ⟨calls, hcalls⟩ := hcalls
  refine ⟨order.tables (Rows.buckets (fun row => row.event.table)
    ((events ++ calls).map (stamp times))), ?_⟩
  rw [decodedTables, Rows.bind_eq_ok]
  refine ⟨events, hevents, ?_⟩
  rw [Rows.bind_eq_ok]
  exact ⟨calls, hcalls, rfl⟩

/-- What is decoded can be written. -/
theorem Decodes.insertable_group (h : Decodes p store chain decoder raw)
    (htables : decodedTables order decoder store chain raw times = .ok tables) :
    ∀ group ∈ tables, Insertable p group.1 (group.2.map EventRow.event) := by
  intro group hgroup
  have hrows := decodedFrom_of_group htables hgroup
  have hne := ne_nil_of_decodedTables htables hgroup
  apply h.insertable group.1 _ (fun hnil => hne (List.map_eq_nil_iff.mp hnil))
  intro event hevent
  obtain ⟨row, hrow, rfl⟩ := List.mem_map.mp hevent
  obtain ⟨d, hd, htable, rfl⟩ := hrows row hrow
  exact ⟨d, hd, rfl, htable⟩

theorem Decodes.of_subset {more : List RawRecord} (h : Decodes p store chain decoder more)
    (hsub : ∀ r ∈ raw, r ∈ more) : Decodes p store chain decoder raw where
  events r hr := h.events r (hsub r hr)
  calls := h.calls
  insertable table events hne hfrom := by
    apply h.insertable table events hne
    intro event hevent
    obtain ⟨row, hrow, heq⟩ := hfrom event hevent
    refine ⟨row, ?_, heq⟩
    rcases hrow with ⟨r, hr, hdecode⟩ | ⟨tx, htx, hchain, ⟨r, hr, hid⟩, hcall⟩
    · exact .inl ⟨r, hsub r hr, hdecode⟩
    · exact .inr ⟨tx, htx, hchain, ⟨r, hsub r hr, hid⟩, hcall⟩

/-- Nothing but the transactions is read of the store. -/
theorem Decodes.of_same {store' : Store layout} (h : Decodes p store chain decoder raw)
    (hsame : SameSources store store') : Decodes p store' chain decoder raw where
  events := h.events
  calls := by
    rw [hsame.2]
    exact h.calls
  insertable := by
    unfold DecodedFrom
    rw [hsame.2]
    exact h.insertable

theorem Phase.Live.of_same {store' : Store layout} {w : Nat} {phase : Phase}
    (h : phase.Live p sound store w) (hsame : SameSources store store') :
    phase.Live p sound store' w where
  decoder := h.decoder
  batch lease batch decoder hl hb hsound hdecoder :=
    (h.batch lease batch decoder hl hb hsound hdecoder).of_same hsame
  own := h.own
  tables := h.tables

/-- And goes to tables of its own. -/
theorem own_of_decodedTables (hown : OwnTables p) (hconfig : p.config chain = some decoder)
    (h : decodedTables order decoder store chain raw times = .ok tables) :
    ∀ group ∈ tables, group.1 ∉ auxTables := by
  intro group hgroup
  obtain ⟨hevents, hcalls⟩ := hown chain decoder hconfig
  obtain ⟨row, hrow⟩ := List.exists_mem_of_ne_nil _ (ne_nil_of_decodedTables h hgroup)
  obtain ⟨d, hd, htable, -⟩ := decodedFrom_of_group h hgroup row hrow
  rw [← htable]
  rcases hd with ⟨r, -, hdecode⟩ | ⟨tx, -, -, -, calldata, -, hdecode⟩
  · exact hevents r d hdecode
  · exact hcalls calldata d hdecode

end Tables

section Leases

variable {queue queue' : WorkQueue} {workers : Nat → Phase} {w : Nat}

/-- A worker that keeps its lease holds its row, and so does one that gives up a chain that is not
sound. -/
theorem Held.move (h : Held sound queue workers) {phase : Phase}
    (hlease : ∀ lease, (workers w).lease? = some lease → sound lease.item.chainId = true →
      phase.lease? = some lease) :
    Held sound queue (Function.update workers w phase) := by
  intro q hq hsound hlocked
  obtain ⟨v, hv⟩ := h q hq hsound hlocked
  refine ⟨v, ?_⟩
  by_cases hvw : v = w
  · subst hvw
    rw [Function.update_self]
    exact hlease _ hv hsound
  · rw [Function.update_of_ne hvw]
    exact hv

theorem Held.pull (h : Held sound queue workers) {now : Nat} {lease : Lease}
    (hpull : queue.pullAny now = some (lease, queue')) (hidle : workers w = .idle) :
    Held sound queue' (Function.update workers w (.leased lease)) := by
  obtain ⟨-, ready, -, rfl, hrows⟩ := WorkQueue.pullAny_eq_some hpull
  intro q hq hsound hlocked
  rcases (hrows q).mp hq with ⟨hold, -⟩ | rfl
  · obtain ⟨v, hv⟩ := h q hold hsound hlocked
    have hvw : v ≠ w := by
      rintro rfl
      rw [hidle] at hv
      cases hv
    refine ⟨v, ?_⟩
    rw [Function.update_of_ne hvw]
    exact hv
  · refine ⟨w, ?_⟩
    rw [Function.update_self]
    rfl

/-- An ack gives the lease up with its row. -/
theorem Held.ack (h : Held sound queue workers) {lease : Lease}
    (hlease : (workers w).lease? = some lease) :
    Held sound (queue.ack lease.id lease.leaseSeq) (Function.update workers w .idle) := by
  intro q hq hsound hlocked
  obtain ⟨hold, hnot⟩ := WorkQueue.mem_ack.mp hq
  obtain ⟨v, hv⟩ := h q hold hsound hlocked
  have hvw : v ≠ w := by
    rintro rfl
    rw [hlease, Option.some.injEq] at hv
    subst hv
    exact hnot ⟨rfl, rfl⟩
  refine ⟨v, ?_⟩
  rw [Function.update_of_ne hvw]
  exact hv

end Leases

section Steps

/-- A worker pulls when it has nothing in hand. -/
theorem idle_of_pull {w : Nat} (h : s.step p (.pull w) = some t) : s.workers w = .idle := by
  rw [State.step] at h
  split at h
  · rename_i hidle
    exact hidle
  · cases h

/-- A worker enters a phase in which it has less left than before. -/
theorem State.Live.move (hlive : s.Live p sound n) {w : Nat} (hw : w < n) {phase : Phase}
    (hworkers : t.workers = Function.update s.workers w phase)
    (hsame : SameSources s.store t.store)
    (hheld : Held sound t.store.workQueue (Function.update s.workers w phase))
    (hphase : phase.Live p sound s.store w)
    (hless : phase.left s.store + queued s.store t.store.workQueue <
      (s.workers w).left s.store + queued s.store s.store.workQueue) :
    t.Live p sound n ∧ t.left n < s.left n := by
  have hadd := left_add hw hworkers hsame
  refine ⟨⟨fun v hv => ?_, hworkers ▸ hheld, fun v chain decoder hsound hdecoder => ?_, ?_⟩,
    by omega⟩
  · rw [hworkers, Function.update_of_ne (by omega)]
    exact hlive.idle v hv
  · rw [hsame.1]
    exact (hlive.decodes v chain decoder hsound hdecoder).of_same hsame
  · rw [hworkers]
    exact (Function.forall_update_iff s.workers (Phase.Live p sound t.store)).mpr
      ⟨hphase.of_same hsame, fun v _ => (hlive.phases v).of_same hsame⟩

/-- A worker goes on with the records it has read. -/
theorem State.Live.advance (hlive : s.Live p sound n) {w : Nat} (hw : w < n) {phase : Phase}
    (hworkers : t.workers = Function.update s.workers w phase)
    (hsame : SameSources s.store t.store) (hqueue : t.store.workQueue = s.store.workQueue)
    (hlease : phase.lease? = (s.workers w).lease?) (hbatch : phase.batch? = (s.workers w).batch?)
    (hown : ∀ lease batch remaining, phase = .writing lease batch remaining →
      ∀ group ∈ remaining, group.1 ∉ auxTables)
    (htables : ∀ lease batch remaining, phase = .writing lease batch remaining →
      sound lease.item.chainId = true →
        ∀ group ∈ remaining, Insertable p group.1 (group.2.map EventRow.event))
    (hless : phase.left s.store < (s.workers w).left s.store) :
    t.Live p sound n ∧ t.left n < s.left n := by
  have hbefore := hlive.phases w
  have hphase : phase.Live p sound s.store w := by
    refine ⟨fun lease hsome hl => ?_, fun lease batch decoder hl hb => ?_, hown, htables⟩
    · rw [hbatch] at hsome
      rw [hlease] at hl
      exact hbefore.decoder lease hsome hl
    · rw [hlease] at hl
      rw [hbatch] at hb
      exact hbefore.batch lease batch decoder hl hb
  have hheld : Held sound t.store.workQueue (Function.update s.workers w phase) := by
    rw [hqueue]
    apply hlive.held.move
    intro lease hl _
    rw [hlease]
    exact hl
  apply hlive.move hw hworkers hsame hheld hphase
  rw [hqueue]
  omega

theorem sameSources_insertRows {store : Store layout} {group : String × List EventRow}
    (h : group.1 ∉ auxTables) (rows : List EventRow) :
    SameSources store (EventRepo.insertRows store group.1 rows) := by
  refine ⟨(EventRepo.insertRows_same store group.1 rows).rawRecords, ?_⟩
  apply EventRepo.insertRows_typed_of_ne
  intro heq
  exact h (heq ▸ List.mem_cons_self)

/-- A step that works is one of a worker of the pool, and a death is one with an item that is not
sound. -/
theorem worker_of_works {act : Act} (h : s.works n sound act = true) :
    ∃ w, w < n ∧ act.worker? = some w ∧ (act = .fail w →
      ∃ lease, (s.workers w).lease? = some lease ∧ sound lease.item.chainId = false) := by
  cases act with
  | fail w =>
      rw [State.works, Bool.and_eq_true, Option.any_eq_true] at h
      obtain ⟨hw, lease, hlease, hsound⟩ := h
      exact ⟨w, of_decide_eq_true hw, rfl, fun _ => ⟨lease, hlease, by simpa using hsound⟩⟩
  | commit chain fetched => cases h
  | rollback chain lo => cases h
  | tick => cases h
  | reclaim olderThanSecs => cases h
  | _ => exact ⟨_, of_decide_eq_true h, rfl, nofun⟩

/-- A worker with something in hand has a step left at least. -/
theorem left_pos_of_lease {store : Store layout} {phase : Phase} {lease : Lease}
    (h : phase.lease? = some lease) : 0 < phase.left store := by
  cases phase with
  | idle => cases h
  | _ => exact Nat.succ_pos _

/-- Nothing in hand. -/
theorem Phase.live_idle {store : Store layout} {w : Nat} : Phase.idle.Live p sound store w :=
  ⟨nofun, nofun, nofun, nofun⟩

/-- A worker gives its lease up with its row. -/
theorem State.Live.ack (hlive : s.Live p sound n) {w : Nat} (hw : w < n) {lease : Lease}
    (hlease : (s.workers w).lease? = some lease)
    (hworkers : t.workers = Function.update s.workers w .idle)
    (hsame : SameSources s.store t.store)
    (hqueue : t.store.workQueue = s.store.workQueue.ack lease.id lease.leaseSeq) :
    t.Live p sound n ∧ t.left n < s.left n := by
  have hheld : Held sound t.store.workQueue (Function.update s.workers w .idle) := by
    rw [hqueue]
    exact hlive.held.ack hlease
  have hpos : 0 < (s.workers w).left s.store := left_pos_of_lease hlease
  have hle := queued_ack s.store s.store.workQueue lease.id lease.leaseSeq
  refine hlive.move hw hworkers hsame hheld Phase.live_idle ?_
  rw [hqueue]
  show 0 + queued s.store (s.store.workQueue.ack lease.id lease.leaseSeq) < _
  omega

/-- Every step of a worker keeps the pool live and leaves less to do. -/
theorem live_step {act : Act} (hown : OwnTables p) (hlive : s.Live p sound n)
    (hworks : s.works n sound act = true) (h : s.step p act = some t) :
    t.Live p sound n ∧ t.left n < s.left n := by
  obtain ⟨v, hv, hactor, hfail⟩ := worker_of_works hworks
  have hidle : ∀ w, act = .pull w → s.workers w = .idle := by
    rintro w rfl
    exact idle_of_pull h
  have hstep := State.step_cases h
  clear h
  cases hstep with
  | commit hcommit => cases hactor
  | rollback hrollback => cases hactor
  | tick => cases hactor
  | reclaim => cases hactor
  | @pull w lease queue hpull =>
      cases hactor
      have hphase := hidle v rfl
      refine hlive.move hv rfl ⟨rfl, rfl⟩ (hlive.held.pull hpull hphase)
        ⟨nofun, nofun, nofun, nofun⟩ ?_
      rw [hphase, ← queued_pullAny hpull]
      show most s.store _ + 6 + queued s.store queue < 0 + (queued s.store queue + _)
      omega
  | @skip w lease hphase hdecoder =>
      cases hactor
      refine hlive.move hv rfl ⟨rfl, rfl⟩ (hlive.held.move (by rw [hphase]; exact fun _ hl _ => hl))
        ⟨nofun, nofun, nofun, nofun⟩ ?_
      rw [hphase]
      show 1 + queued s.store s.store.workQueue < most s.store _ + 6 + _
      omega
  | @readRaw w lease decoder hphase hdecoder =>
      cases hactor
      refine hlive.move hv rfl ⟨rfl, rfl⟩ (hlive.held.move (by rw [hphase]; exact fun _ hl _ => hl))
        ⟨?_, ?_, nofun, nofun⟩ ?_
      · rintro _ - ⟨⟩
        exact ⟨decoder, hdecoder⟩
      · rintro _ _ other ⟨⟩ ⟨⟩ hsound hother
        apply (hlive.decodes v _ other hsound hother).of_subset
        intro r hr
        obtain ⟨hstored, hchain, -⟩ := RawRecordRepo.mem_range.mp hr
        exact List.mem_filter.mpr ⟨hstored, beq_iff_eq.mpr hchain⟩
      · rw [hphase]
        show most s.store (itemRange s.store lease.item) + 5 + queued s.store s.store.workQueue <
          most s.store (itemRange s.store lease.item) + 6 + _
        omega
  | @readTimes w lease batch hphase =>
      cases hactor
      refine hlive.advance hv rfl ⟨rfl, rfl⟩ rfl (by rw [hphase]; rfl) (by rw [hphase]; rfl)
        nofun nofun ?_
      rw [hphase]
      show most s.store batch.raw + 4 < most s.store batch.raw + 5
      omega
  | @decode w order lease batch times decoder tables hphase hdecoder htables =>
      cases hactor
      have hbefore := hlive.phases v
      rw [hphase] at hbefore
      refine hlive.advance hv rfl ⟨rfl, rfl⟩ rfl (by rw [hphase]; rfl) (by rw [hphase]; rfl)
        ?_ ?_ ?_
      · rintro _ _ _ ⟨⟩
        exact own_of_decodedTables hown (Pools.config_of_decoder hdecoder) htables
      · rintro _ _ _ ⟨⟩ hsound
        exact (hbefore.batch lease batch decoder rfl rfl hsound hdecoder).insertable_group htables
      · have hlength := length_decodedTables htables
        rw [hphase]
        show tables.length + 2 < most s.store batch.raw + 4
        omega
  | @upsert w lease batch group remaining decoder rows hphase hdecoder hrows =>
      cases hactor
      have hbefore := hlive.phases v
      rw [hphase] at hbefore
      have hgroups := hbefore.own lease batch _ rfl
      refine hlive.advance hv rfl (sameSources_insertRows (hgroups group List.mem_cons_self) rows)
        (EventRepo.insertRows_same s.store group.1 rows).workQueue (by rw [hphase]; rfl)
        (by rw [hphase]; rfl) ?_ ?_ ?_
      · rintro _ _ _ ⟨⟩ other hother
        exact hgroups other (List.mem_cons_of_mem _ hother)
      · rintro _ _ _ ⟨⟩ hsound other hother
        exact hbefore.tables lease batch _ rfl hsound other (List.mem_cons_of_mem _ hother)
      · rw [hphase]
        show remaining.length + 2 < (remaining.length + 1) + 2
        omega
  | @finish w lease batch hphase =>
      cases hactor
      refine hlive.advance hv rfl ⟨rfl, rfl⟩ rfl (by rw [hphase]; rfl) (by rw [hphase]; rfl)
        nofun nofun ?_
      rw [hphase]
      exact Nat.one_lt_two
  | @ackDecoded w lease batch hphase =>
      cases hactor
      exact hlive.ack hv (by rw [hphase]; rfl) rfl ⟨rfl, rfl⟩ rfl
  | @ackSkipped w lease hphase =>
      cases hactor
      exact hlive.ack hv (by rw [hphase]; rfl) rfl ⟨rfl, rfl⟩ rfl
  | @fail w =>
      cases hactor
      obtain ⟨lease, hlease, hfalse⟩ := hfail rfl
      refine hlive.move hv rfl ⟨rfl, rfl⟩ (hlive.held.move fun l hl hsound => ?_) Phase.live_idle ?_
      · rw [hlease, Option.some.injEq] at hl
        rw [← hl, hfalse] at hsound
        cases hsound
      · have hpos : 0 < (s.workers v).left s.store := left_pos_of_lease hlease
        show 0 + queued s.store s.store.workQueue < _
        omega

/-- Wherever no worker can go on, all of them are idle. -/
theorem idle_of_stuck {store : Store layout} (hlive : s.Live p sound n)
    (hstuck : Transition.Stuck (system p store) (State.works n sound) s) (w : Nat) :
    s.workers w = .idle := by
  by_cases hw : n ≤ w
  · exact hlive.idle w hw
  have hlt : decide (w < n) = true := decide_eq_true (Nat.not_le.mp hw)
  -- a worker that may die is not stuck
  have hsound : ∀ lease, (s.workers w).lease? = some lease → sound lease.item.chainId = true := by
    intro lease hlease
    by_contra hnot
    have hworks : s.works n sound (.fail w) = true := by
      rw [State.works, hlt, hlease, Option.any_some, Bool.eq_false_of_not_eq_true hnot]
      rfl
    cases hstuck (.fail w) hworks
  have hphase := hlive.phases w
  cases hbefore : s.workers w with
  | idle => rfl
  | leased lease =>
      cases hdecoder : p.decoder w lease.item.chainId with
      | none =>
          have hskip : s.step p (.skip w) = none := hstuck (.skip w) hlt
          simp only [State.step, hbefore, hdecoder] at hskip
          cases hskip
      | some decoder =>
          have hread : s.step p (.readRaw w) = none := hstuck (.readRaw w) hlt
          simp only [State.step, hbefore, hdecoder] at hread
          cases hread
  | rawRead lease batch =>
      have hread : s.step p (.readTimes w) = none := hstuck (.readTimes w) hlt
      simp only [State.step, hbefore] at hread
      cases hread
  | timed lease batch times =>
      rw [hbefore] at hphase hsound
      obtain ⟨decoder, hdecoder⟩ := hphase.decoder lease rfl rfl
      have hchain := hsound lease rfl
      obtain ⟨tables, htables⟩ := (hphase.batch lease batch decoder rfl rfl hchain
        hdecoder).exists_decodedTables Order.stable times
      have hdecode : s.step p (.decode w Order.stable) = none := hstuck (.decode w Order.stable) hlt
      simp only [State.step, hbefore, hdecoder, htables] at hdecode
      cases hdecode
  | writing lease batch remaining =>
      rw [hbefore] at hphase hsound
      cases remaining with
      | nil =>
          have hfinish : s.step p (.finish w) = none := hstuck (.finish w) hlt
          simp only [State.step, hbefore] at hfinish
          cases hfinish
      | cons group remaining =>
          obtain ⟨decoder, hdecoder⟩ := hphase.decoder lease rfl rfl
          have haux := hphase.own lease batch _ rfl group List.mem_cons_self
          have hinsertable := hphase.tables lease batch _ rfl (hsound lease rfl) group
            List.mem_cons_self
          have hnames : ∀ row ∈ group.2, ∀ name ∈ EventRepo.signature row,
              isValidIdent name = true := fun row hrow =>
            hinsertable.names row.event (List.mem_map_of_mem hrow)
          have hne : group.1 ≠ receiptsTable := by
            intro heq
            exact haux (heq ▸ List.mem_cons_of_mem _ List.mem_cons_self)
          obtain ⟨written, hwritten⟩ : ∃ written,
              EventRepo.upsertBatchTx s.store group.1 group.2 = .ok written :=
            EventRepo.exists_upsertBatchTx_ok hinsertable.ident hnames fun heq => absurd heq hne
          have hupsert : s.step p (.upsert w) = none := hstuck (.upsert w) hlt
          simp only [State.step, hbefore, hdecoder, Pools.upsertBatch_taken hinsertable.taken,
            EventRepo.upsertBatch, hwritten] at hupsert
          cases hupsert
  | decoded lease batch =>
      have hack : s.step p (.ack w) = none := hstuck (.ack w) hlt
      simp only [State.step, hbefore] at hack
      cases hack
  | skipped lease =>
      have hack : s.step p (.ack w) = none := hstuck (.ack w) hlt
      simp only [State.step, hbefore] at hack
      cases hack

/-- Then nothing of a sound chain is queued: none of it is leased, so its first row could be
pulled. -/
theorem unsound_of_stuck {store : Store layout} (hn : 0 < n) (hlive : s.Live p sound n)
    (hstuck : Transition.Stuck (system p store) (State.works n sound) s) :
    ∀ q ∈ s.store.workQueue.rows, sound q.item.chainId = false := by
  have hidle := idle_of_stuck hlive hstuck
  have hunlocked : ∀ q ∈ s.store.workQueue.rows, sound q.item.chainId = true → q.lockedAt = none := by
    intro q hq hsound
    by_contra hlocked
    obtain ⟨w, hlease⟩ := hlive.held q hq hsound hlocked
    rw [hidle w] at hlease
    cases hlease
  have hpull : s.step p (.pull 0) = none := hstuck (.pull 0) (decide_eq_true hn)
  simp only [State.step, hidle 0, Option.map_eq_none_iff, WorkQueue.pullAny, WorkQueue.nextReady] at hpull
  rw [List.find?_eq_none] at hpull
  intro q hq
  by_contra hnot
  have hsound := Bool.eq_true_of_not_eq_false hnot
  -- the chain has no row in flight
  have hflight : q.item.chainId ∉ s.store.workQueue.inFlight := by
    intro hmem
    obtain ⟨q', hq', hchain⟩ := List.mem_map.mp hmem
    obtain ⟨hrow, hlocked⟩ := List.mem_filter.mp hq'
    rw [hunlocked q' hrow (by rw [hchain]; exact hsound)] at hlocked
    cases hlocked
  refine hpull q hq ?_
  rw [Bool.and_eq_true, hunlocked q hq hsound]
  exact ⟨rfl, decide_eq_true hflight⟩

end Steps

/-- The state after the reclaim ticker has run. -/
def State.reclaimed (s : State layout) (olderThanSecs : Nat) : State layout :=
  { s with store := { s.store with
    workQueue := s.store.workQueue.reclaimExpired s.now olderThanSecs } }

/-- A pool that has just started lives once the leases of the one before it are reclaimed. -/
theorem live_of_restart (hidle : ∀ w, s.workers w = .idle) {olderThanSecs : Nat}
    (hexpired : ∀ q ∈ s.store.workQueue.rows, ∀ at_, q.lockedAt = some at_ →
      at_ + olderThanSecs < s.now) (hdecodes : StoreDecodes p sound s.store) :
    (s.reclaimed olderThanSecs).Live p sound n where
  idle w _ := hidle w
  held q hq _ hlocked := by
    obtain ⟨old, hold, ⟨rfl, hnot⟩ | ⟨rfl, -⟩⟩ := WorkQueue.mem_reclaimExpired.mp hq
    · obtain ⟨at_, hat⟩ := Option.ne_none_iff_exists'.mp hlocked
      rw [hat, Option.any_some, decide_eq_false_iff_not] at hnot
      exact absurd (hexpired q hold at_ hat) hnot
    · exact absurd rfl hlocked
  decodes w chain decoder hsound hdecoder :=
    (hdecodes w chain decoder hsound hdecoder).of_same ⟨rfl, rfl⟩
  phases w := by
    show (s.workers w).Live p sound _ w
    rw [hidle w]
    exact Phase.live_idle

/-- The `bytea` column takes the value of every transfer. -/
theorem insertable_transfers {pools : Pools eventLayout} (hrefusal : pools.refusal = byteaRefusal)
    {events : List DecodedEvent}
    (hevents : ∀ event ∈ events, ∃ value, event = ⟨transferTable, [("value", .bytes value)]⟩) :
    Insertable pools transferTable events where
  ident := by decide +kernel
  names event hevent := by
    obtain ⟨value, rfl⟩ := hevents event hevent
    show ∀ name ∈ ["value"], isValidIdent name = true
    decide +kernel
  taken := by
    have hall : events.all (fun event => event.fields.all fun field => isBytes field.2) = true := by
      rw [List.all_eq_true]
      intro event hevent
      obtain ⟨value, rfl⟩ := hevents event hevent
      rfl
    rw [hrefusal, byteaRefusal, if_pos hall]

/-- Chain 1 has the value of a transfer in the data, chain 2 in a topic. -/
def mixedConfig (chain : ChainId) : Option AbiIndex :=
  if chain = 1 then some valueDecoder else if chain = 2 then some transferDecoder else none

theorem transfers_of_mixedConfig {chain : ChainId} {decoder : AbiIndex}
    (h : mixedConfig chain = some decoder) : decoder.hasCalls = false ∧
      ∀ raw row, decoder.decode raw = .ok (some row) → row.event.table = transferTable := by
  unfold mixedConfig at h
  split at h
  · cases h
    exact ⟨by decide, fun raw row hdecode => table_of_decode_valueDecoder hdecode⟩
  · obtain ⟨-, heq⟩ := Option.ite_none_right_eq_some.mp h
    cases heq
    exact ⟨by decide, fun raw row hdecode => table_of_decode_transferDecoder hdecode⟩

theorem no_calls_of_mixedConfig {chain : ChainId} {decoder : AbiIndex} {tx : TxCalldata}
    {row : EventRow} (h : mixedConfig chain = some decoder)
    (hdecode : decoder.decodeCall tx = .ok (some row)) : False := by
  have hcalls := AbiIndex.hasCalls_of_decodeCall hdecode
  rw [(transfers_of_mixedConfig h).1] at hcalls
  cases hcalls

def mixedPools : Pools eventLayout where
  config := mixedConfig
  command _ := .run
  tables _ := [transferTable]
  eventTables {_ _ raw row} hconfig hdecode :=
    List.mem_singleton.mpr ((transfers_of_mixedConfig hconfig).2 raw row hdecode)
  callTables hconfig hdecode := (no_calls_of_mixedConfig hconfig hdecode).elim
  refusal := byteaRefusal

theorem ownTables_mixedPools : OwnTables mixedPools := by
  intro chain decoder hconfig
  refine ⟨fun r row hdecode => ?_, fun tx row hdecode => (no_calls_of_mixedConfig hconfig hdecode).elim⟩
  rw [(transfers_of_mixedConfig hconfig).2 r row hdecode]
  decide +kernel

/-- Block 5 of chain 1, whose log its decoder refuses and whose worker has crashed, and of chain 2,
which waits. -/
def crashedQueue : List QueueRow :=
  [⟨1, ⟨1, 5, 5, .backfill, ⟨0⟩⟩, some 0, 1⟩, ⟨2, ⟨2, 5, 5, .backfill, ⟨0⟩⟩, none, 0⟩]

/-- Both blocks are committed, and the worker that takes the first of them dies on it. -/
def crashActs : List Act :=
  [.commit 1 tokenBlock, .commit 2 (transferBlock 2 5 ⟨[8]⟩ 4), .pull 1, .readRaw 1, .fail 1, .tick]

/-- The pool that takes over once the lease is reclaimed. -/
theorem exists_crashed : ∃ s : State eventLayout,
    Transition.exec (system mixedPools (Store.empty : Store eventLayout))
      ⟨Store.empty, 0, fun _ => .idle, History.empty⟩ crashActs = some s ∧
    s.store.workQueue.rows = crashedQueue ∧ tokenLog ∈ s.store.rawRecords ∧
      (s.reclaimed 0).Live mixedPools (fun chain => decide (chain = 2)) 2 := by
  obtain ⟨s, hexec, hobserved⟩ := Option.map_eq_some_iff.mp (show
    (Transition.exec (system mixedPools (Store.empty : Store eventLayout))
      ⟨Store.empty, 0, fun _ => .idle, History.empty⟩ crashActs).map (fun s =>
        (s.store.workQueue.rows, s.now, (s.workers 1).lease?.isNone, s.store.rawRecords.rows,
          (s.store.typed transactionsTable).rows.isEmpty)) =
      some (crashedQueue, 1, true, [tokenLog, transferLog 2 5 ⟨[8]⟩ 4], true)
    by decide +kernel)
  simp only [Prod.mk.injEq] at hobserved
  obtain ⟨hrows, hnow, hlease, hraw, htxs⟩ := hobserved
  have hidle : ∀ w, s.workers w = .idle := by
    intro w
    by_cases hw : w = 1
    · rw [hw]
      cases hphase : s.workers 1 with
      | idle => rfl
      | _ =>
          rw [hphase] at hlease
          cases hlease
    · have hactors : ∀ a ∈ crashActs, a.worker? = none ∨ a.worker? = some 1 := by decide
      refine workers_of_exec crashActs (fun a ha heq => ?_) hexec
      rcases hactors a ha with hnone | hone
      · rw [hnone] at heq
        cases heq
      · rw [hone] at heq
        exact hw (Option.some.inj heq).symm
  have hexpired : ∀ q ∈ s.store.workQueue.rows, ∀ at_, q.lockedAt = some at_ → at_ + 0 < s.now := by
    rw [hrows, hnow]
    intro q hq at_ hat
    have hlocked : ∀ q ∈ crashedQueue, q.lockedAt = some 0 ∨ q.lockedAt = none := by decide
    rcases hlocked q hq with hzero | hnone
    · rw [hzero, Option.some.injEq] at hat
      omega
    · rw [hnone] at hat
      cases hat
  have hdecodes : StoreDecodes mixedPools (fun chain => decide (chain = 2)) s.store := by
    intro w chain decoder hsound hdecoder
    obtain rfl : chain = 2 := of_decide_eq_true hsound
    have hconfig : mixedConfig 2 = some decoder := Pools.config_of_decoder hdecoder
    cases hconfig
    have hnone : ∀ tx, tx ∉ s.store.typed transactionsTable := by
      intro tx htx
      rw [Table.mem_def, List.isEmpty_iff.mp htxs] at htx
      exact List.not_mem_nil htx
    have hchain : s.store.rawRecords.rows.filter (fun r => r.chainId == 2) =
        [transferLog 2 5 ⟨[8]⟩ 4] := by
      rw [hraw]
      rfl
    rw [hchain]
    refine ⟨fun r hr => ?_, fun tx htx => absurd htx (hnone tx), fun table events hne hfrom => ?_⟩
    · rw [List.mem_singleton.mp hr]
      exact ⟨_, decode_transferLog 2 5 ⟨[8]⟩ 4⟩
    · have hevents : ∀ event ∈ events, event = ⟨transferTable, [("value", .bytes [4])]⟩ ∧
          event.table = table := by
        intro event hevent
        obtain ⟨row, ⟨r, hr, hdecode⟩ | ⟨tx, htx, -⟩, rfl, htable⟩ := hfrom event hevent
        · rw [List.mem_singleton.mp hr, decode_transferLog] at hdecode
          cases hdecode
          exact ⟨rfl, htable⟩
        · exact absurd htx (hnone tx)
      obtain ⟨event, hevent⟩ := List.exists_mem_of_ne_nil _ hne
      obtain ⟨rfl, rfl⟩ := hevents event hevent
      exact insertable_transfers rfl fun event hevent => ⟨_, (hevents event hevent).1⟩
  have hstored : tokenLog ∈ s.store.rawRecords := by
    rw [Table.mem_def, hraw]
    exact List.mem_cons_self
  exact ⟨s, hexec, hrows, hstored, live_of_restart hidle hexpired hdecodes⟩

end Topic0.Workers
