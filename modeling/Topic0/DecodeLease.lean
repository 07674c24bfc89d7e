import Topic0.DecodeWorkers

/-! What a lease stands for. Row ids are drawn once and the sequence of a row only grows, so a
lease names one row, and the ack of a lease deletes the row it was granted for or nothing. With
that, a row leaves the queue only by an ack under its current lease. -/

namespace Topic0

/-- What any statement does to the rows that were there: it may delete them and raise their
sequence; new rows have new ids. -/
structure WorkQueue.Later (queue queue' : WorkQueue) : Prop where
  nextId : queue.nextId ≤ queue'.nextId
  rows : ∀ q' ∈ queue'.rows, queue.nextId ≤ q'.id ∨
    ∃ q ∈ queue.rows, q.id = q'.id ∧ q.item = q'.item ∧ q.leaseSeq ≤ q'.leaseSeq

/-- The lease was handed out by the queue: its row, while it stands, has the lease's item, and its
sequence is the lease's until someone else touches it. -/
structure WorkQueue.Granted (queue : WorkQueue) (lease : Lease) : Prop where
  old : lease.id < queue.nextId
  row : ∀ q ∈ queue.rows, q.id = lease.id → q.item = lease.item ∧ lease.leaseSeq ≤ q.leaseSeq

namespace WorkQueue

variable {queue queue' : WorkQueue}

theorem Later.refl (queue : WorkQueue) : Later queue queue :=
  ⟨le_rfl, fun q hq => .inr ⟨q, hq, rfl, rfl, le_rfl⟩⟩

theorem Later.trans {last : WorkQueue} (h : Later queue queue') (h' : Later queue' last) :
    Later queue last := by
  refine ⟨h.nextId.trans h'.nextId, fun p hp => ?_⟩
  rcases h'.rows p hp with hnew | ⟨q', hq', hid', hitem', hseq'⟩
  · exact .inl (h.nextId.trans hnew)
  · rcases h.rows q' hq' with hnew | ⟨q, hq, hid, hitem, hseq⟩
    · exact .inl (hid' ▸ hnew)
    · exact .inr ⟨q, hq, hid.trans hid', hitem.trans hitem', hseq.trans hseq'⟩

theorem later_pushInTx (queue : WorkQueue) (item : WorkItem) :
    Later queue (queue.pushInTx item) := by
  refine ⟨by rw [nextId_pushInTx]; omega, fun q' hq' => ?_⟩
  rcases mem_pushInTx.mp hq' with hq | ⟨rfl, -⟩
  · exact .inr ⟨q', hq, rfl, rfl, le_rfl⟩
  · exact .inl le_rfl

theorem later_ack (queue : WorkQueue) (id leaseSeq : Nat) : Later queue (queue.ack id leaseSeq) :=
  ⟨le_rfl, fun q' hq' => .inr ⟨q', (mem_ack.mp hq').1, rfl, rfl, le_rfl⟩⟩

theorem later_reclaimExpired (queue : WorkQueue) (now olderThanSecs : Nat) :
    Later queue (queue.reclaimExpired now olderThanSecs) := by
  refine ⟨le_rfl, fun q' hq' => .inr ?_⟩
  obtain ⟨q, hq, ⟨rfl, -⟩ | ⟨rfl, -⟩⟩ := mem_reclaimExpired.mp hq'
  · exact ⟨q', hq, rfl, rfl, le_rfl⟩
  · exact ⟨q, hq, rfl, rfl, Nat.le_succ _⟩

theorem later_pullAny {now : Nat} {lease : Lease} (h : queue.pullAny now = some (lease, queue')) :
    Later queue queue' := by
  obtain ⟨hnext, ready, hready, -, hrows⟩ := pullAny_eq_some h
  refine ⟨hnext.ge, fun q' hq' => .inr ?_⟩
  rcases (hrows q').mp hq' with ⟨hq, -⟩ | rfl
  · exact ⟨q', hq, rfl, rfl, le_rfl⟩
  · exact ⟨ready, hready, rfl, rfl, Nat.le_succ _⟩

theorem Granted.later {lease : Lease} (h : queue.Granted lease) (hlater : Later queue queue') :
    queue'.Granted lease := by
  refine ⟨h.old.trans_le hlater.nextId, fun q' hq' hid => ?_⟩
  rcases hlater.rows q' hq' with hnew | ⟨q, hq, hqid, hitem, hseq⟩
  · have := h.old
    omega
  · obtain ⟨hsame, hle⟩ := h.row q hq (hqid.trans hid)
    exact ⟨hitem.symm.trans hsame, hle.trans hseq⟩

theorem granted_pullAny {now : Nat} {lease : Lease}
    (h : queue.pullAny now = some (lease, queue')) : queue'.Granted lease := by
  obtain ⟨hnext, ready, hready, rfl, hrows⟩ := pullAny_eq_some h
  refine ⟨hnext ▸ queue.fresh ready hready, fun q' hq' hid => ?_⟩
  rcases (hrows q').mp hq' with ⟨-, hne⟩ | rfl
  · exact absurd hid hne
  · exact ⟨rfl, le_rfl⟩

/-- Every row is still there, as it was or under a higher sequence. -/
def Keeps (queue queue' : WorkQueue) : Prop :=
  ∀ q ∈ queue.rows, ∃ q' ∈ queue'.rows, q'.id = q.id ∧ q'.item = q.item ∧
    (q' = q ∨ q.leaseSeq < q'.leaseSeq)

theorem keeps_of_subset (h : ∀ q ∈ queue.rows, q ∈ queue'.rows) : queue.Keeps queue' :=
  fun q hq => ⟨q, h q hq, rfl, rfl, .inl rfl⟩

theorem keeps_reclaimExpired (queue : WorkQueue) (now olderThanSecs : Nat) :
    queue.Keeps (queue.reclaimExpired now olderThanSecs) := by
  intro q hq
  cases hold : q.lockedAt.any fun at_ => at_ + olderThanSecs < now with
  | false =>
      exact ⟨q, mem_reclaimExpired.mpr ⟨q, hq, .inl ⟨rfl, hold⟩⟩, rfl, rfl, .inl rfl⟩
  | true =>
      exact ⟨_, mem_reclaimExpired.mpr ⟨q, hq, .inr ⟨rfl, hold⟩⟩, rfl, rfl,
        .inr (Nat.lt_succ_self _)⟩

theorem keeps_pullAny {now : Nat} {lease : Lease} (h : queue.pullAny now = some (lease, queue')) :
    queue.Keeps queue' := by
  obtain ⟨-, ready, hready, -, hrows⟩ := pullAny_eq_some h
  intro q hq
  by_cases hid : q.id = ready.id
  · rw [eq_of_id hq hready hid]
    exact ⟨_, (hrows _).mpr (.inr rfl), rfl, rfl, .inr (Nat.lt_succ_self _)⟩
  · exact ⟨q, (hrows q).mpr (.inl ⟨hq, hid⟩), rfl, rfl, .inl rfl⟩

/-- Only the row named by id and sequence is deleted. -/
theorem of_gone_ack {id leaseSeq : Nat} {q : QueueRow} (hq : q ∈ queue.rows)
    (hgone : ∀ q' ∈ (queue.ack id leaseSeq).rows, q'.id ≠ q.id) :
    q.id = id ∧ q.leaseSeq = leaseSeq := by
  by_contra hother
  exact hgone q (mem_ack.mpr ⟨hq, hother⟩) rfl

theorem gone_or_mem_ack {id leaseSeq : Nat} {q : QueueRow} (hq : q ∈ queue.rows) :
    (∀ q' ∈ (queue.ack id leaseSeq).rows, q'.id ≠ q.id) ∨ q ∈ (queue.ack id leaseSeq).rows := by
  by_cases hnamed : q.id = id ∧ q.leaseSeq = leaseSeq
  · refine .inl fun q' hq' hid => ?_
    obtain ⟨hmem, hother⟩ := mem_ack.mp hq'
    rw [eq_of_id hmem hq hid] at hother
    exact hother hnamed
  · exact .inr (mem_ack.mpr ⟨hq, hnamed⟩)

end WorkQueue

namespace Workers

variable {layout : String → PkColumns} {p : Pools layout} {s t : State layout} {act : Act}

@[simp] theorem State.enter_self (s : State layout) (w : Nat) (phase : Phase) :
    (s.enter w phase).workers w = phase :=
  Function.update_self ..

@[simp] theorem State.enter_of_ne (s : State layout) {w v : Nat} (h : v ≠ w) (phase : Phase) :
    (s.enter w phase).workers v = s.workers v :=
  Function.update_of_ne h ..

/-- What holds of every worker and of the phase one of them enters holds of every worker after. -/
theorem State.forall_enter {P : Nat → Phase → Prop} (hs : ∀ v, P v (s.workers v)) {w : Nat}
    {phase : Phase} (hphase : P w phase) : ∀ v, P v ((s.enter w phase).workers v) :=
  (Function.forall_update_iff s.workers P).mpr ⟨hphase, fun v _ => hs v⟩

@[simp] theorem State.enter_store (s : State layout) (w : Nat) (phase : Phase) :
    (s.enter w phase).store = s.store := rfl

@[simp] theorem State.enter_history (s : State layout) (w : Nat) (phase : Phase) :
    (s.enter w phase).history = s.history := rfl

theorem workQueue_commit {store store' : Store layout} {chain : ChainId} {fetched : FetchedRange}
    {outcome : IngestionService.IngestOutcome}
    (h : IngestionService.commitRange store chain fetched ⟨0⟩ = .ok (store', outcome)) :
    store'.workQueue = if fetched.records.isEmpty then store.workQueue
      else store.workQueue.pushInTx ⟨chain, fetched.fromHeight, fetched.toHeight, .backfill, ⟨0⟩⟩ := by
  rw [(IngestionService.commit_ok h).workQueue, IngestionService.ingestBatch]
  cases fetched.records.isEmpty <;> rfl

theorem State.Step.later (h : State.Step p s act t) : s.store.workQueue.Later t.store.workQueue := by
  cases h with
  | commit hcommit =>
      show WorkQueue.Later _ (Store.workQueue _)
      rw [workQueue_commit hcommit]
      split
      · exact .refl _
      · exact WorkQueue.later_pushInTx _ _
  | rollback hrollback => exact hrollback.workQueue ▸ .refl _
  | reclaim => exact WorkQueue.later_reclaimExpired _ _ _
  | pull hpull => exact WorkQueue.later_pullAny hpull
  | ackDecoded hphase => exact WorkQueue.later_ack _ _ _
  | ackSkipped hphase => exact WorkQueue.later_ack _ _ _
  | _ => exact .refl _

/-- A phase the worker's command can be in, under a lease the queue has granted. -/
structure Phase.Ok (p : Pools layout) (queue : WorkQueue) (finished : List (Nat × Lease)) (w : Nat)
    (phase : Phase) : Prop where
  granted : ∀ lease, phase.lease? = some lease → queue.Granted lease
  decoder : ∀ lease, phase.batch?.isSome → phase.lease? = some lease →
    ∃ decoder, p.decoder w lease.item.chainId = some decoder
  decoded : ∀ lease batch, phase = .decoded lease batch → (w, lease) ∈ finished
  skipped : ∀ lease, phase = .skipped lease → p.decoder w lease.item.chainId = none

def State.Leased (p : Pools layout) (s : State layout) : Prop :=
  ∀ w, Phase.Ok p s.store.workQueue s.history.finished w (s.workers w)

theorem Phase.Ok.later {queue queue' : WorkQueue} {finished finished' : List (Nat × Lease)} {w : Nat}
    {phase : Phase} (h : Phase.Ok p queue finished w phase) (hlater : queue.Later queue')
    (hfinished : finished ⊆ finished') : Phase.Ok p queue' finished' w phase :=
  ⟨fun lease hlease => (h.granted lease hlease).later hlater, h.decoder,
    fun lease batch hphase => hfinished (h.decoded lease batch hphase), h.skipped⟩

theorem State.Leased.enter (hs : s.Leased p) {w : Nat} {phase : Phase}
    (hphase : Phase.Ok p s.store.workQueue s.history.finished w phase) :
    (s.enter w phase).Leased p :=
  State.forall_enter hs hphase

theorem State.Step.finished_subset (h : State.Step p s act t) :
    s.history.finished ⊆ t.history.finished := by
  cases h with
  | finish => exact List.subset_cons_self _ _
  | _ => exact List.Subset.refl _

/-- Moving on with a batch in hand keeps the lease and needs the decoder that read it. -/
theorem Phase.Ok.of_batch {queue : WorkQueue} {finished : List (Nat × Lease)} {w : Nat}
    {phase phase' : Phase} (h : Phase.Ok p queue finished w phase)
    (hlease : phase'.lease? = phase.lease?)
    (hdecoder : ∀ lease, phase.lease? = some lease →
      ∃ decoder, p.decoder w lease.item.chainId = some decoder)
    (hdecoded : ∀ lease batch, phase' = .decoded lease batch → (w, lease) ∈ finished)
    (hskipped : ∀ lease, phase' ≠ .skipped lease) : Phase.Ok p queue finished w phase' :=
  ⟨fun lease hl => h.granted lease (hlease ▸ hl), fun lease _ hl => hdecoder lease (hlease ▸ hl),
    hdecoded, fun lease hl => absurd hl (hskipped lease)⟩

theorem State.leased_step (hs : s.Leased p) (h : State.Step p s act t) : t.Leased p := by
  have hlater : ∀ w, Phase.Ok p t.store.workQueue t.history.finished w (s.workers w) := fun w =>
    (hs w).later h.later h.finished_subset
  cases h with
  | commit hcommit => exact hlater
  | rollback hrollback => exact hlater
  | tick => exact hlater
  | reclaim => exact hlater
  | @pull w lease queue hpull =>
      refine State.Leased.enter (by exact hlater) ⟨?_, nofun, nofun, nofun⟩
      rintro _ ⟨⟩
      exact WorkQueue.granted_pullAny hpull
  | @skip w lease hphase hdecoder =>
      have hok := hs w
      rw [hphase] at hok
      refine hs.enter ⟨?_, nofun, nofun, ?_⟩
      · rintro _ ⟨⟩
        exact hok.granted lease rfl
      · rintro _ ⟨⟩
        exact hdecoder
  | @readRaw w lease decoder hphase hdecoder =>
      have hok := hs w
      rw [hphase] at hok
      refine State.Leased.enter (by exact hlater) (hok.of_batch rfl ?_ nofun nofun)
      rintro _ ⟨⟩
      exact ⟨decoder, hdecoder⟩
  | @readTimes w lease batch hphase =>
      have hok := hs w
      rw [hphase] at hok
      exact hs.enter (hok.of_batch rfl (fun l => hok.decoder l rfl) nofun nofun)
  | @decode w order lease batch times decoder tables hphase hdecoder htables =>
      have hok := hs w
      rw [hphase] at hok
      exact hs.enter (hok.of_batch rfl (fun l => hok.decoder l rfl) nofun nofun)
  | @upsert w lease batch group remaining decoder rows hphase hdecoder hrows =>
      have hok := hs w
      rw [hphase] at hok
      exact State.Leased.enter (by exact hlater) (hok.of_batch rfl (fun l => hok.decoder l rfl) nofun nofun)
  | @finish w lease batch hphase =>
      have hok := hlater w
      rw [hphase] at hok
      refine State.Leased.enter (by exact hlater) (hok.of_batch rfl (fun l => hok.decoder l rfl) ?_ nofun)
      rintro _ _ ⟨⟩
      exact List.mem_cons_self
  | ackDecoded hphase => exact State.Leased.enter (by exact hlater) ⟨nofun, nofun, nofun, nofun⟩
  | ackSkipped hphase => exact State.Leased.enter (by exact hlater) ⟨nofun, nofun, nofun, nofun⟩
  | fail => exact hs.enter ⟨nofun, nofun, nofun, nofun⟩

theorem leased_of_reachable {store : Store layout} {allowed : State layout → Act → Prop}
    (h : Transition.Reachable (system p store) allowed s) : s.Leased p := by
  refine h.invariant (State.Leased p) ?_ fun s act t hs _ hstep =>
    State.leased_step hs (State.step_cases hstep)
  rintro s rfl w
  exact ⟨nofun, nofun, nofun, nofun⟩

/-- The row was deleted by the step. -/
def Removed (s t : State layout) (q : QueueRow) : Prop :=
  q ∈ s.store.workQueue.rows ∧ ∀ q' ∈ t.store.workQueue.rows, q'.id ≠ q.id

/-- The lease is the one the row was under when it was deleted. -/
def LeaseOf (lease : Lease) (q : QueueRow) : Prop :=
  lease.id = q.id ∧ lease.leaseSeq = q.leaseSeq ∧ lease.item = q.item

/-- Only an ack deletes. -/
theorem State.Step.keeps (h : State.Step p s act t) (hack : ∀ w, act ≠ .ack w) :
    s.store.workQueue.Keeps t.store.workQueue := by
  cases h with
  | commit hcommit =>
      show WorkQueue.Keeps _ (Store.workQueue _)
      rw [workQueue_commit hcommit]
      split
      · exact WorkQueue.keeps_of_subset fun _ hq => hq
      · exact WorkQueue.keeps_of_subset fun _ hq => WorkQueue.mem_pushInTx.mpr (.inl hq)
  | rollback hrollback =>
      rw [hrollback.workQueue]
      exact WorkQueue.keeps_of_subset fun _ hq => hq
  | reclaim => exact WorkQueue.keeps_reclaimExpired _ _ _
  | pull hpull => exact WorkQueue.keeps_pullAny hpull
  | @ackDecoded w lease batch hphase => exact absurd rfl (hack w)
  | @ackSkipped w lease hphase => exact absurd rfl (hack w)
  | _ => exact WorkQueue.keeps_of_subset fun _ hq => hq

theorem State.Step.removed_or_kept (h : State.Step p s act t) {q : QueueRow}
    (hq : q ∈ s.store.workQueue.rows) :
    Removed s t q ∨ ∃ q' ∈ t.store.workQueue.rows, q'.id = q.id ∧ q'.item = q.item ∧
      (q' = q ∨ q.leaseSeq < q'.leaseSeq) := by
  by_cases hack : ∃ w, act = .ack w
  · obtain ⟨w, rfl⟩ := hack
    have hrows : ∃ id seq, t.store.workQueue = s.store.workQueue.ack id seq := by
      cases h with
      | ackDecoded hphase => exact ⟨_, _, rfl⟩
      | ackSkipped hphase => exact ⟨_, _, rfl⟩
    obtain ⟨id, seq, heq⟩ := hrows
    rw [Removed, heq]
    rcases WorkQueue.gone_or_mem_ack hq with hgone | hmem
    · exact .inl ⟨hq, hgone⟩
    · exact .inr ⟨q, hmem, rfl, rfl, .inl rfl⟩
  · exact .inr (h.keeps (fun w hact => hack ⟨w, hact⟩) q hq)

/-- A row leaves the queue by the ack of its current lease, by the worker that holds it. -/
theorem State.Step.removed (hs : s.Leased p) (h : State.Step p s act t) {q : QueueRow}
    (hremoved : Removed s t q) :
    ∃ w lease, act = .ack w ∧ LeaseOf lease q ∧
      t.store = { s.store with workQueue := s.store.workQueue.ack lease.id lease.leaseSeq } ∧
      ((∃ batch, s.workers w = .decoded lease batch) ∨ s.workers w = .skipped lease) := by
  have hleaseOf : ∀ w lease, (s.workers w).lease? = some lease → q.id = lease.id →
      q.leaseSeq = lease.leaseSeq → LeaseOf lease q := fun w lease hlease hid hseq =>
    ⟨hid.symm, hseq.symm, (((hs w).granted lease hlease).row q hremoved.1 hid).1.symm⟩
  by_cases hack : ∃ w, act = .ack w
  · obtain ⟨w, rfl⟩ := hack
    cases h with
    | @ackDecoded _ lease batch hphase =>
        obtain ⟨hid, hseq⟩ := WorkQueue.of_gone_ack hremoved.1 hremoved.2
        refine ⟨w, lease, rfl, hleaseOf w lease ?_ hid hseq, rfl, .inl ⟨batch, hphase⟩⟩
        rw [hphase]
        rfl
    | @ackSkipped _ lease hphase =>
        obtain ⟨hid, hseq⟩ := WorkQueue.of_gone_ack hremoved.1 hremoved.2
        refine ⟨w, lease, rfl, hleaseOf w lease ?_ hid hseq, rfl, .inr hphase⟩
        rw [hphase]
        rfl
  · obtain ⟨q', hq', hid, -⟩ := h.keeps (fun w hact => hack ⟨w, hact⟩) q hremoved.1
    exact absurd hid (hremoved.2 q' hq')

theorem Pools.config_of_decoder {w : Nat} {chain : ChainId} {decoder : AbiIndex}
    (h : p.decoder w chain = some decoder) : p.config chain = some decoder := by
  unfold Pools.decoder Command.decoders at h
  cases hcommand : p.command w with
  | run =>
      rw [hcommand] at h
      exact h
  | decode =>
      rw [hcommand] at h
      exact h
  | follow own =>
      rw [hcommand] at h
      exact (Option.ite_none_right_eq_some.mp h).2
  | backfill own =>
      rw [hcommand] at h
      exact (Option.ite_none_right_eq_some.mp h).2

/-- The row's range was decoded to the end under its lease, with its chain's decoder. -/
def DecodedUnderLease (p : Pools layout) (s : State layout) (q : QueueRow) : Prop :=
  ∃ w lease decoder, LeaseOf lease q ∧ p.config q.item.chainId = some decoder ∧
    (w, lease) ∈ s.history.finished

/-- A row is deleted by an ack under its current lease: after its range was decoded under it, or
by a worker whose command has no decoder for the chain, which leaves everything else in the store
as it was. -/
theorem removed_after_decode_or_without_decoder (store : Store layout)
    (h : Transition.Reachable (system p store) Transition.anyStep s) (hstep : s.step p act = some t)
    {q : QueueRow} (hremoved : Removed s t q) :
    ∃ w, act = .ack w ∧
      t.store = { s.store with workQueue := s.store.workQueue.ack q.id q.leaseSeq } ∧
      (DecodedUnderLease p s q ∨ p.decoder w q.item.chainId = none) := by
  have hs := leased_of_reachable h
  obtain ⟨w, lease, hact, hlease, hstore, hphase⟩ := (State.step_cases hstep).removed hs hremoved
  refine ⟨w, hact, hlease.1 ▸ hlease.2.1 ▸ hstore, ?_⟩
  rcases hphase with ⟨batch, hphase⟩ | hphase
  · left
    obtain ⟨decoder, hdecoder⟩ := (hs w).decoder lease (by rw [hphase]; rfl) (by rw [hphase]; rfl)
    exact ⟨w, lease, decoder, hlease, hlease.2.2 ▸ Pools.config_of_decoder hdecoder,
      (hs w).decoded lease batch hphase⟩
  · right
    rw [← hlease.2.2]
    exact (hs w).skipped lease hphase

/-- A fetched range `[height..height]` with one transfer. -/
def transferBlock (chain : ChainId) (height : Nat) (blockHash : Hash) (value : UInt8) :
    FetchedRange :=
  ⟨height, height, [transferLog chain height blockHash value],
    ⟨[⟨chain, height, blockHash, ⟨[]⟩, 0⟩], []⟩, some (height, blockHash)⟩

def isBytes : EventValue → Bool
  | .address _ | .bytes _ | .hash _ => true
  | .uint _ | .int _ | .bool _ | .string _ | .json _ => false

/-- The columns of the transfer table are of type `bytea`. -/
def byteaRefusal (_ : String) (events : List DecodedEvent) : Option String :=
  if events.all fun event => event.fields.all fun field => isBytes field.2 then none
  else some "column \"value\" is of type bytea but expression is of type text"

/-- Two configured chains with the transfer event. -/
def transferPools (command : Nat → Command) : Pools eventLayout where
  config chain := if chain = 1 ∨ chain = 2 then some transferDecoder else none
  command := command
  tables _ := [transferTable]
  eventTables {_ decoder raw row} hconfig hdecode := by
    obtain ⟨-, heq⟩ := Option.ite_none_right_eq_some.mp hconfig
    cases heq
    exact List.mem_singleton.mpr (table_of_decode_transferDecoder hdecode)
  callTables {_ decoder tx row} hconfig hdecode := by
    obtain ⟨-, heq⟩ := Option.ite_none_right_eq_some.mp hconfig
    cases heq
    exact absurd (AbiIndex.hasCalls_of_decodeCall hdecode) (by decide)
  refusal := byteaRefusal

/-- Worker 0 follows chain 1, the others belong to `run`. -/
def followAndRun : Pools eventLayout := transferPools fun w => if w = 0 then .follow 1 else .run

theorem removed_after_decode_transfer :
    ∃ s t : State eventLayout, Removed s t ⟨1, ⟨1, 5, 5, .backfill, ⟨0⟩⟩, some 0, 1⟩ ∧
      DecodedUnderLease followAndRun s ⟨1, ⟨1, 5, 5, .backfill, ⟨0⟩⟩, some 0, 1⟩ := by
  obtain ⟨s, hreach, hobserved⟩ := Transition.Reachable.exists_observed
    (.init rfl : Transition.Reachable (system followAndRun (Store.empty : Store eventLayout))
      Transition.anyStep _)
    [.commit 1 (transferBlock 1 5 ⟨[7]⟩ 3), .pull 0, .readRaw 0, .readTimes 0,
      .decode 0 Order.stable, .upsert 0, .finish 0]
    (fun _ _ _ => trivial)
    (fun s => (s.store.workQueue.rows, (State.step followAndRun s (.ack 0)).map fun t =>
      t.store.workQueue.rows))
    (b := ([⟨1, ⟨1, 5, 5, .backfill, ⟨0⟩⟩, some 0, 1⟩], some [])) (by decide +kernel)
  obtain ⟨hrows, hack⟩ := Prod.mk.inj hobserved
  obtain ⟨t, hstep, hafter⟩ := Option.map_eq_some_iff.mp hack
  have hremoved : Removed s t ⟨1, ⟨1, 5, 5, .backfill, ⟨0⟩⟩, some 0, 1⟩ := by
    refine ⟨hrows ▸ List.mem_singleton_self _, ?_⟩
    rw [hafter]
    exact nofun
  obtain ⟨w, hact, -, hdecoded | hnone⟩ :=
    removed_after_decode_or_without_decoder Store.empty hreach hstep hremoved
  · exact ⟨s, t, hremoved, hdecoded⟩
  · cases hact
    exact absurd hnone nofun

/-- The follower of chain 1 acks an item of chain 2, which nobody has decoded. -/
theorem removed_undecoded_by_follower :
    ¬∀ (s t : State eventLayout) (act : Act) (q : QueueRow),
      Transition.Reachable (system followAndRun Store.empty) Transition.anyStep s →
        s.step followAndRun act = some t → Removed s t q → DecodedUnderLease followAndRun s q := by
  intro hevery
  obtain ⟨s, hreach, hobserved⟩ := Transition.Reachable.exists_observed
    (.init rfl : Transition.Reachable (system followAndRun (Store.empty : Store eventLayout))
      Transition.anyStep _)
    [.commit 2 (transferBlock 2 5 ⟨[7]⟩ 3), .pull 0, .skip 0] (fun _ _ _ => trivial)
    (fun s => (s.store.workQueue.rows, s.history.finished,
      (State.step followAndRun s (.ack 0)).map fun t => t.store.workQueue.rows))
    (b := ([⟨1, ⟨2, 5, 5, .backfill, ⟨0⟩⟩, some 0, 1⟩], [], some [])) (by decide +kernel)
  obtain ⟨hrows, hrest⟩ := Prod.mk.inj hobserved
  obtain ⟨hfinished, hack⟩ := Prod.mk.inj hrest
  obtain ⟨t, hstep, hafter⟩ := Option.map_eq_some_iff.mp hack
  obtain ⟨w, lease, decoder, -, -, hmem⟩ := hevery s t (.ack 0)
    ⟨1, ⟨2, 5, 5, .backfill, ⟨0⟩⟩, some 0, 1⟩ hreach hstep (by
      refine ⟨hrows ▸ List.mem_singleton_self _, ?_⟩
      rw [hafter]
      exact nofun)
  rw [hfinished] at hmem
  exact List.not_mem_nil hmem

end Workers

end Topic0
