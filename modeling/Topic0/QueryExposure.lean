import Topic0.DecodeLease
import Topic0.PipelineGapFree
import Topic0.QueryCache
import Topic0.SourceRange

/-! What readers see of the confirmation window. Any number of backfills and ingest loops write to
one database while chains grow, workers decode and a query service with a read cache answers. The
setting `expose` is checked when the configuration is loaded and read by no query, so that rows of
the window stay hidden exactly as long as nothing commits them. An ingest loop sweeps up to
`head - confirmations`; a backfill runs to whatever block it was given. -/

namespace Topic0.Exposure

open Keyed Transition

variable {layout : String → PkColumns}

/-- `[query].expose`. -/
inductive Expose where
  | finalized
  | provisional
  deriving DecidableEq, Repr

/-- One configuration, its provider and its database engine. `process` is the chain each backfill or
ingest loop was started for. -/
structure Deployment (layout : String → PkColumns) where
  expose : Expose
  chains : ChainId → Pipeline.Config
  chains_id : ∀ chain, (chains chain).chain = chain
  plans : ChainId → RpcLogSource.PlanProfile
  process : Nat → ChainId
  pools : Workers.Pools layout
  /-- What a chain's provider answers during a fetch, by the moment it happens at. -/
  provider : ChainId → Nat → RpcLogSource.Rpc
  repo : PgEventQueryRepository
  pg : Postgres
  format : Coding.StringFormat

structure State (layout : String → PkColumns) where
  heads : ChainId → Nat
  /-- The database and the decode workers on it. -/
  workers : Workers.State layout
  procs : Nat → Pipeline.Proc
  /-- The read cache, with every answer returned so far. -/
  pages : Memo.State QuerySpec (Fault DomainError) (Page Joined)

inductive Act where
  | grow (chain : ChainId) (head : Nat)
  /-- The `j`-th outstanding fetch of a process returns. -/
  | fetch (i j : Nat) (range : Pipeline.Range) (moment density fuel : Nat)
  /-- Any other step of a backfill or an ingest loop. -/
  | ingest (i : Nat) (act : Pipeline.Act)
  | work (act : Workers.Act)
  /-- The cache misses and the database answers. -/
  | query (spec : QuerySpec) (order : Keyset.Sorter (rowLe spec.descending))
  | hit (spec : QuerySpec) (entry : Nat)
  /-- A waiting answer is cached and returned. -/
  | insert (entry : Nat)

variable (d : Deployment layout)

/-- `head - confirmations`. -/
def State.safe (s : State layout) (chain : ChainId) : Nat :=
  s.heads chain - (d.chains chain).confirmations

/-- A polled head is the chain's; completions are `fetch` steps. -/
def polls (head : Nat) : Pipeline.Act → Bool
  | .sweep polled | .checkpoint polled => polled == head
  | .drive (.complete _ _) => false
  | _ => true

/-- Steps of the workers themselves; commits and rollbacks are `ingest` steps. -/
def decodes : Workers.Act → Bool
  | .commit _ _ | .rollback _ _ => false
  | _ => true

/-- A step of one process on the shared database. -/
def State.ingest (s : State layout) (i : Nat) (act : Pipeline.Act) : Option (State layout) :=
  (Pipeline.State.step (d.chains (d.process i)) ⟨s.workers.store, [], s.procs i⟩ act).map fun t =>
    { s with
      workers := { s.workers with store := t.store }
      procs := Function.update s.procs i t.proc }

/-- `fetch_range` of a process at a moment. -/
def Deployment.call (i : Nat) (range : Pipeline.Range) (moment density fuel : Nat) :
    Agreement.FetchCall :=
  ⟨d.process i, range.1, range.2, d.plans (d.process i), density, fuel,
    d.provider (d.process i) moment⟩

def State.lookup (s : State layout) (act : Memo.Act QuerySpec (Fault DomainError) (Page Joined)) :
    Option (State layout) :=
  (s.pages.step (CachingEventQueryRepository.queryKey d.format) act).map fun pages =>
    { s with pages := pages }

def State.step (s : State layout) : Act → Option (State layout)
  | .grow chain head =>
      if s.heads chain ≤ head then
        some { s with heads := Function.update s.heads chain head }
      else none
  | .fetch i j range moment density fuel =>
      match (d.call i range moment density fuel).fetchRange with
      | some (.ok fetched) => s.ingest d i (.drive (.complete j fetched))
      | _ => none
  | .ingest i act => if polls (s.heads (d.process i)) act then s.ingest d i act else none
  | .work act =>
      if decodes act then
        (s.workers.step d.pools act).map fun workers => { s with workers := workers }
      else none
  | .query spec order => s.lookup d (.miss spec (d.repo.query d.pg s.workers.store spec order))
  | .hit spec entry => s.lookup d (.hit spec entry)
  | .insert entry => s.lookup d (.insert entry)

/-- From an empty database, at any heads. -/
def system : System (State layout) Act where
  init s := ∃ heads, s = ⟨heads, ⟨Store.empty, 0, fun _ => .idle, Workers.History.empty⟩,
    fun _ => .idle, Memo.State.empty⟩
  step := State.step d

/-- A result row and the aux rows embedded in it are not above the bound of their chain. -/
structure JoinedUpTo (bound : ChainId → Nat) (j : Joined) : Prop where
  row : j.row.height ≤ bound j.row.chainId
  transaction : ∀ tx ∈ j.transaction, tx.height ≤ bound tx.chainId
  receipt : ∀ rc ∈ j.receipt, rc.height ≤ bound rc.chainId

def AnswerUpTo (bound : ChainId → Nat) (answer : Except (Fault DomainError) (Page Joined)) : Prop :=
  ∀ page, answer = .ok page → ∀ j ∈ page.items, JoinedUpTo bound j

/-- No returned row is inside the confirmation window of its chain. -/
def HidesWindow (s : State layout) : Prop :=
  ∀ p ∈ s.pages.returned, AnswerUpTo (s.safe d) p.2

/-- A backfill that commits a range commits no record above `head - confirmations`. -/
def backfillsConfirmed (s : State layout) : Act → Bool
  | .ingest i (.drive .commit) =>
      match s.procs i with
      | .backfill drive => drive.channel.head?.all fun fetched =>
          fetched.records.all fun r => decide (r.height ≤ s.safe d (d.process i))
      | _ => true
  | _ => true

section Bounded

variable {bound bound' : ChainId → Nat}

def RecordsUpTo (bound : ChainId → Nat) (records : List RawRecord) : Prop :=
  ∀ r ∈ records, r.height ≤ bound r.chainId

def RowsUpTo (bound : ChainId → Nat) (rows : List EventRow) : Prop :=
  ∀ row ∈ rows, row.height ≤ bound row.chainId

structure StoreUpTo (bound : ChainId → Nat) (store : Store layout) : Prop where
  raw : RecordsUpTo bound store.rawRecords.rows
  typed : ∀ t, RowsUpTo bound (store.typed t).rows

/-- What a worker has read, and what it is about to write. -/
def PhaseUpTo (bound : ChainId → Nat) : Workers.Phase → Prop
  | .idle | .leased _ | .skipped _ => True
  | .rawRead _ batch | .timed _ batch _ | .decoded _ batch => RecordsUpTo bound batch.raw
  | .writing _ batch remaining => RecordsUpTo bound batch.raw ∧ ∀ group ∈ remaining,
      RowsUpTo bound group.2

/-- No range of a drive ends above a block. -/
structure DriveUpTo (safe : Nat) (drive : Pipeline.Drive) : Prop where
  todo : ∀ r ∈ drive.todo, r.2 ≤ safe
  channel : ∀ f ∈ drive.channel, f.toHeight ≤ safe

def AllPlaced (chain : ChainId) (drive : Pipeline.Drive) : Prop :=
  ∀ f ∈ drive.channel, Agreement.Placed chain f

/-- A sweep stays below the bound it was started with; a backfill need not. -/
def ProcUpTo (chain : ChainId) (safe : Nat) : Pipeline.Proc → Prop
  | .idle | .loop _ => True
  | .backfill drive => AllPlaced chain drive
  | .sweep drive => AllPlaced chain drive ∧ DriveUpTo safe drive

theorem RecordsUpTo.mono {records : List RawRecord} (h : RecordsUpTo bound records)
    (hle : bound ≤ bound') : RecordsUpTo bound' records :=
  fun r hr => (h r hr).trans (hle r.chainId)

theorem RowsUpTo.mono {rows : List EventRow} (h : RowsUpTo bound rows) (hle : bound ≤ bound') :
    RowsUpTo bound' rows :=
  fun row hrow => (h row hrow).trans (hle row.chainId)

theorem StoreUpTo.mono {store : Store layout} (h : StoreUpTo bound store) (hle : bound ≤ bound') :
    StoreUpTo bound' store :=
  ⟨h.raw.mono hle, fun t => (h.typed t).mono hle⟩

theorem PhaseUpTo.mono {phase : Workers.Phase} (h : PhaseUpTo bound phase) (hle : bound ≤ bound') :
    PhaseUpTo bound' phase := by
  cases phase with
  | idle => trivial
  | leased lease => trivial
  | skipped lease => trivial
  | rawRead lease batch => exact RecordsUpTo.mono h hle
  | timed lease batch times => exact RecordsUpTo.mono h hle
  | decoded lease batch => exact RecordsUpTo.mono h hle
  | writing lease batch remaining =>
      exact ⟨h.1.mono hle, fun group hgroup => (h.2 group hgroup).mono hle⟩

theorem ProcUpTo.mono {chain : ChainId} {safe safe' : Nat} {proc : Pipeline.Proc}
    (h : ProcUpTo chain safe proc) (hle : safe ≤ safe') : ProcUpTo chain safe' proc := by
  cases proc with
  | idle => trivial
  | loop next => trivial
  | backfill drive => exact h
  | sweep drive =>
      exact ⟨h.1, fun r hr => (h.2.todo r hr).trans hle, fun f hf => (h.2.channel f hf).trans hle⟩

theorem AnswerUpTo.mono {answer : Except (Fault DomainError) (Page Joined)}
    (h : AnswerUpTo bound answer) (hle : bound ≤ bound') : AnswerUpTo bound' answer := by
  intro page hpage j hj
  have hj := h page hpage j hj
  exact ⟨hj.row.trans (hle _), fun tx htx => (hj.transaction tx htx).trans (hle _),
    fun rc hrc => (hj.receipt rc hrc).trans (hle _)⟩

/-- A commit of records below the bound: the aux rows are at their heights. -/
theorem StoreUpTo.commit {store store' : Store layout} (h : StoreUpTo bound store) {chain : ChainId}
    {fetched : FetchedRange} (hplaced : Agreement.Placed chain fetched)
    (hrecords : ∀ r ∈ fetched.records, r.height ≤ bound chain)
    {outcome : IngestionService.IngestOutcome}
    (hcommit : IngestionService.commitRange store chain fetched ⟨0⟩ = .ok (store', outcome)) :
    StoreUpTo bound store' := by
  rw [IngestionService.commitRange, IngestionService.commit, Rows.bind_eq_ok] at hcommit
  obtain ⟨stored, hstored, heq⟩ := hcommit
  cases heq
  have hcommitted := UnitOfWork.commitIngest_ok hstored
  refine ⟨fun r hr => ?_, fun t row hrow => ?_⟩
  · rw [hcommitted.rawRecords] at hr
    rcases Table.mem_or_mem_of_mem_insertAll hr with hr | hr
    · exact h.raw r hr
    · rw [(hplaced.records r hr).1]
      exact hrecords r hr
  · obtain ⟨order, horder, htyped⟩ := hcommitted.typed t
    rw [htyped] at hrow
    rcases Table.mem_or_mem_of_mem_insertAll hrow with hrow | hrow
    · exact h.typed t row hrow
    · obtain ⟨hchain, r, hr, hheight⟩ :=
        hplaced.enrichment row (List.mem_filter.mp (horder.mem_iff.mp hrow)).1
      rw [hchain, ← hheight]
      exact hrecords r hr

theorem StoreUpTo.rollback {store store' : Store layout} (h : StoreUpTo bound store)
    {chain : ChainId} {lo : Nat} {tables : List String}
    (hrolled : UnitOfWork.RolledBack store store' chain lo tables) : StoreUpTo bound store' :=
  ⟨fun r hr => h.raw r ((hrolled.rawRecords r).mp hr).1,
    fun t row hrow => h.typed t row ((hrolled.typed t row).mp hrow).1⟩

theorem StoreUpTo.insertRows {store : Store layout} (h : StoreUpTo bound store) {table : String}
    {rows : List EventRow} (hrows : RowsUpTo bound rows) :
    StoreUpTo bound (EventRepo.insertRows store table rows) := by
  refine ⟨h.raw, fun t row hrow => ?_⟩
  by_cases ht : t = table
  · subst ht
    rw [EventRepo.insertRows_typed_self] at hrow
    rcases Table.mem_or_mem_of_mem_insertAll hrow with hrow | hrow
    · exact h.typed t row hrow
    · exact hrows row hrow
  · rw [EventRepo.insertRows_typed_of_ne _ ht] at hrow
    exact h.typed t row hrow

/-- A decoded row stands where its record or its transaction does. -/
theorem rowsUpTo_decodedTables {store : Store layout} (h : StoreUpTo bound store) {order : Order}
    {decoder : AbiIndex} {chain : ChainId} {raw : List RawRecord} {times : List (Nat × Int)}
    {tables : List (String × List EventRow)} (hraw : RecordsUpTo bound raw)
    (htables : decodedTables order decoder store chain raw times = .ok tables) :
    ∀ group ∈ tables, RowsUpTo bound group.2 := by
  intro group hgroup row hrow
  have hmem : row ∈ (tables.filter fun g => g.1 = group.1).flatMap Prod.snd :=
    List.mem_flatMap.mpr ⟨group, List.mem_filter.mpr ⟨hgroup, decide_eq_true rfl⟩, hrow⟩
  obtain ⟨decoded, hdecoded, -, rfl⟩ := (mem_decodedTables htables).mp hmem
  show decoded.height ≤ bound decoded.chainId
  rcases hdecoded with ⟨r, hr, hdecode⟩ | ⟨tx, htx, -, -, calldata, hcalldata, hdecode⟩
  · obtain ⟨event, rfl⟩ := AbiIndex.decode_ok hdecode
    exact hraw r hr
  · obtain ⟨event, rfl⟩ := AbiIndex.decodeCall_ok hdecode
    obtain ⟨hchain, hheight, -⟩ := calldataRow_ok hcalldata
    show calldata.height ≤ bound calldata.chainId
    rw [hchain, hheight]
    exact h.typed _ tx htx

theorem StoreUpTo.workQueue {store : Store layout} (h : StoreUpTo bound store) (queue : WorkQueue) :
    StoreUpTo bound { store with workQueue := queue } :=
  ⟨h.raw, h.typed⟩

/-- A worker's step keeps its reads and its writes below the bound. -/
theorem upTo_workers_step {p : Workers.Pools layout} {s s' : Workers.State layout}
    {act : Workers.Act} (hstore : StoreUpTo bound s.store)
    (hphases : ∀ w, PhaseUpTo bound (s.workers w)) (hown : decodes act = true)
    (h : Workers.State.Step p s act s') :
    StoreUpTo bound s'.store ∧ ∀ w, PhaseUpTo bound (s'.workers w) := by
  have henter : ∀ {w : Nat} {phase : Workers.Phase}, PhaseUpTo bound phase →
      ∀ v, PhaseUpTo bound ((s.enter w phase).workers v) := by
    intro w phase hphase
    exact Workers.State.forall_enter (P := fun _ => PhaseUpTo bound) hphases hphase
  cases h with
  | commit hcommit => cases hown
  | rollback hrollback => cases hown
  | tick => exact ⟨hstore, hphases⟩
  | reclaim => exact ⟨hstore.workQueue _, hphases⟩
  | pull hpull => exact ⟨hstore.workQueue _, henter trivial⟩
  | skip hphase hdecoder => exact ⟨hstore, henter trivial⟩
  | readRaw hphase hdecoder =>
      refine ⟨hstore, henter fun r hr => ?_⟩
      exact hstore.raw r (RawRecordRepo.mem_range.mp hr).1
  | @readTimes w lease batch hphase =>
      have hread := hphases w
      rw [hphase] at hread
      exact ⟨hstore, henter hread⟩
  | @decode w order lease batch times decoder tables hphase hdecoder htables =>
      have hread := hphases w
      rw [hphase] at hread
      exact ⟨hstore, henter ⟨hread, rowsUpTo_decodedTables hstore hread htables⟩⟩
  | @upsert w lease batch group remaining decoder rows hphase hdecoder hrows =>
      have hwrite := hphases w
      rw [hphase] at hwrite
      refine ⟨hstore.insertRows fun row hrow => ?_, henter ⟨hwrite.1, fun g hg => ?_⟩⟩
      · exact hwrite.2 group List.mem_cons_self row (hrows.mem_iff.mp hrow)
      · exact hwrite.2 g (List.mem_cons_of_mem _ hg)
  | @finish w lease batch hphase =>
      have hwrite := hphases w
      rw [hphase] at hwrite
      exact ⟨hstore, henter hwrite.1⟩
  | ackDecoded hphase => exact ⟨hstore.workQueue _, henter trivial⟩
  | ackSkipped hphase => exact ⟨hstore.workQueue _, henter trivial⟩
  | fail => exact ⟨hstore, henter trivial⟩

theorem StoreUpTo.advanceInTx {store : Store layout} (h : StoreUpTo bound store) (chain : ChainId)
    (last : Nat) (lastHash : Hash) :
    StoreUpTo bound (CursorRepo.advanceInTx store chain last lastHash) :=
  ⟨h.raw, h.typed⟩

/-- A sweep that starts at the safe block of a head plans no range above it. -/
theorem driveUpTo_begin (cfg : Pipeline.Config) (next safe : Nat) :
    DriveUpTo safe (Pipeline.Drive.begin cfg next
      (Pipeline.fetchTarget safe next cfg.step cfg.conc true)) := by
  refine ⟨fun r hr => ?_, fun f hf => absurd hf List.not_mem_nil⟩
  have htarget := (Pipeline.mem_planFrom hr cfg.step_pos).2.2
  rw [Pipeline.fetchTarget, if_pos rfl] at htarget
  exact htarget.trans (min_le_left _ _)

theorem DriveUpTo.work {cfg : Pipeline.Config} {safe : Nat} {w w' : Pipeline.Work layout}
    {act : Pipeline.DriveAct} (hdrive : DriveUpTo safe w.drive)
    (h : Pipeline.Work.Step cfg w act w') : DriveUpTo safe w'.drive := by
  cases h with
  | @complete i fetched hplanned =>
      refine ⟨fun r hr => hdrive.todo r (List.mem_of_mem_eraseIdx hr), fun f hf => ?_⟩
      rcases List.mem_append.mp hf with hf | hf
      · exact hdrive.channel f hf
      · rw [List.mem_singleton.mp hf]
        exact hdrive.todo _ hplanned
  | stop hbusy => exact ⟨hdrive.todo, hdrive.channel⟩
  | commit hchannel hdue hcommit =>
      refine ⟨hdrive.todo, fun f hf => hdrive.channel f ?_⟩
      rw [hchannel]
      exact List.mem_cons_of_mem _ hf
  | advance hdue => exact ⟨hdrive.todo, hdrive.channel⟩

/-- A drive writes what it fetched, and it fetched what the provider answered. -/
theorem upTo_work_step {cfg : Pipeline.Config} {w w' : Pipeline.Work layout}
    {act : Pipeline.DriveAct} (hstore : StoreUpTo bound w.store)
    (hplaced : AllPlaced cfg.chain w.drive)
    (hfetched : ∀ j f, act = .complete j f → Agreement.Placed cfg.chain f)
    (hrecords : act = .commit → ∀ f rest, w.drive.channel = f :: rest →
      ∀ r ∈ f.records, r.height ≤ bound cfg.chain)
    (h : Pipeline.Work.Step cfg w act w') :
    StoreUpTo bound w'.store ∧ AllPlaced cfg.chain w'.drive := by
  cases h with
  | complete hplanned =>
      refine ⟨hstore, fun f hf => ?_⟩
      rcases List.mem_append.mp hf with hf | hf
      · exact hplaced f hf
      · rw [List.mem_singleton.mp hf]
        exact hfetched _ _ rfl
  | stop hbusy => exact ⟨hstore, hplaced⟩
  | commit hchannel hdue hcommit =>
      rw [AllPlaced, hchannel] at hplaced
      exact ⟨hstore.commit (hplaced _ List.mem_cons_self) (hrecords rfl _ _ hchannel) hcommit,
        fun f hf => hplaced f (List.mem_cons_of_mem _ hf)⟩
  | advance hdue => exact ⟨hstore.advanceInTx _ _ _, hplaced⟩

theorem StoreUpTo.check {store store' : Store layout} (h : StoreUpTo bound store) {chain : ChainId}
    {supportsReorg : Bool} {blockHash : Nat → Option Hash} {confirmations : Nat}
    {tables : List String} {result : Option Nat}
    (hcheck : ReorgService.check store chain supportsReorg blockHash confirmations tables =
      .ok (store', result)) : StoreUpTo bound store' := by
  rcases ReorgService.check_ok hcheck with ⟨-, rfl⟩ | ⟨tip, -, -, hrolled⟩
  · exact h
  · exact h.rollback hrolled

/-- A step of a backfill or an ingest loop. A sweep needs nothing of its commits: its ranges end at
the safe block. -/
theorem upTo_process_step {cfg : Pipeline.Config} {s s' : Pipeline.State layout}
    {act : Pipeline.Act} (hstore : StoreUpTo bound s.store)
    (hproc : ProcUpTo cfg.chain (bound cfg.chain) s.proc)
    (hhead : ∀ polled, act = .sweep polled → polled - cfg.confirmations = bound cfg.chain)
    (hfetched : ∀ j f, act = .drive (.complete j f) → Agreement.Placed cfg.chain f)
    (hbackfill : ∀ drive f rest, act = .drive .commit → s.proc = .backfill drive →
      drive.channel = f :: rest → ∀ r ∈ f.records, r.height ≤ bound cfg.chain)
    (h : Pipeline.State.Step cfg s act s') :
    StoreUpTo bound s'.store ∧ ProcUpTo cfg.chain (bound cfg.chain) s'.proc := by
  cases h with
  | startBackfill => exact ⟨hstore, fun f hf => absurd hf List.not_mem_nil⟩
  | startLoop => exact ⟨hstore, trivial⟩
  | sweep hbehind =>
      refine ⟨hstore, fun f hf => absurd hf List.not_mem_nil, ?_⟩
      rw [← hhead _ rfl]
      exact driveUpTo_begin cfg _ _
  | checkpoint hbehind => exact ⟨hstore.advanceInTx _ _ _, trivial⟩
  | checkNone hcheck => exact ⟨hstore.check hcheck, trivial⟩
  | checkSome hcheck => exact ⟨hstore.check hcheck, trivial⟩
  | @driveBackfill store committed drive act w hstep =>
      refine upTo_work_step (w := ⟨store, committed, drive⟩) hstore hproc ?_ ?_ hstep
      · intro j f hact
        exact hfetched j f (by rw [hact])
      · intro hact f rest hchannel
        exact hbackfill drive f rest (by rw [hact]) rfl hchannel
  | @driveSweep store committed drive act w hstep =>
      obtain ⟨hplaced, hdrive⟩ := hproc
      have hsteps := upTo_work_step (w := ⟨store, committed, drive⟩) hstore hplaced
        (fun j f hact => hfetched j f (by rw [hact])) (fun _ f rest hchannel r hr => ?_) hstep
      · exact ⟨hsteps.1, hsteps.2, DriveUpTo.work (w := ⟨store, committed, drive⟩) hdrive hstep⟩
      · have hmem : f ∈ drive.channel := by
          rw [show drive.channel = f :: rest from hchannel]
          exact List.mem_cons_self
        exact ((hplaced f hmem).records r hr).2.trans (hdrive.channel f hmem)
  | finishBackfill => exact ⟨hstore, trivial⟩
  | finishSweep hdue =>
      refine ⟨hstore, ?_⟩
      show ProcUpTo _ _ (if _ then _ else _)
      split <;> trivial
  | interrupt => exact ⟨hstore, trivial⟩

theorem joinedUpTo_leftJoin {aux : List EventRow} {embed : Joined → Option EventRow → Joined}
    {rows : List Joined} (haux : RowsUpTo bound aux)
    (hembed : ∀ j a, JoinedUpTo bound j → (∀ row ∈ a, row.height ≤ bound row.chainId) →
      JoinedUpTo bound (embed j a))
    (hrows : ∀ j ∈ rows, JoinedUpTo bound j) :
    ∀ j ∈ leftJoin aux embed rows, JoinedUpTo bound j := by
  intro j hj
  obtain ⟨j', hj', hmem⟩ := List.mem_flatMap.mp hj
  unfold joinRow at hmem
  split at hmem
  · rw [List.mem_singleton.mp hmem]
    exact hembed j' none (hrows j' hj') fun row hrow => absurd hrow (Option.not_mem_none row)
  · obtain ⟨a, ha, rfl⟩ := List.mem_map.mp hmem
    apply hembed j' (some a) (hrows j' hj')
    intro row hrow
    cases hrow
    exact haux a (List.mem_filter.mp ha).1

theorem joinedUpTo_source {store : Store layout} (h : StoreUpTo bound store) (sel : Select) :
    ∀ j ∈ sel.source store, JoinedUpTo bound j := by
  have hplain : ∀ j ∈ (store.typed sel.table).rows.map fun row => (⟨row, none, none⟩ : Joined),
      JoinedUpTo bound j := by
    intro j hj
    obtain ⟨row, hrow, rfl⟩ := List.mem_map.mp hj
    exact ⟨h.typed _ row hrow, fun tx htx => absurd htx (Option.not_mem_none tx),
      fun rc hrc => absurd hrc (Option.not_mem_none rc)⟩
  have htx : ∀ j ∈ (if sel.joinTx then leftJoin (store.typed transactionsTable).rows
        (fun j tx => { j with transaction := tx })
        ((store.typed sel.table).rows.map fun row => (⟨row, none, none⟩ : Joined))
      else (store.typed sel.table).rows.map fun row => (⟨row, none, none⟩ : Joined)),
      JoinedUpTo bound j := by
    split
    · exact joinedUpTo_leftJoin (h.typed _) (fun j a hj ha => ⟨hj.row, ha, hj.receipt⟩) hplain
    · exact hplain
  unfold Select.source
  simp only
  split
  · exact joinedUpTo_leftJoin (h.typed _) (fun j a hj ha => ⟨hj.row, hj.transaction, ha⟩) htx
  · exact htx

/-- A query shows rows of the store. -/
theorem answerUpTo_query {store : Store layout} (h : StoreUpTo bound store)
    (repo : PgEventQueryRepository) (pg : Postgres) (spec : QuerySpec)
    (order : Keyset.Sorter (rowLe spec.descending)) :
    AnswerUpTo bound (repo.query pg store spec order) := by
  intro page hpage j hj
  rw [PgEventQueryRepository.query, Rows.bind_eq_ok] at hpage
  obtain ⟨table, -, hpage⟩ := hpage
  rw [Rows.bind_eq_ok] at hpage
  obtain ⟨conds, -, hpage⟩ := hpage
  rw [Rows.bind_eq_ok] at hpage
  obtain ⟨after, -, hpage⟩ := hpage
  split at hpage
  · cases hpage
  rename_i rows hrun
  cases hpage
  unfold Select.run at hrun
  split at hrun
  · cases hrun
  cases hrun
  have hsorted := List.mem_of_mem_take (List.mem_of_mem_take hj)
  exact joinedUpTo_source h _ j (List.mem_filter.mp ((order.perm _).mem_iff.mp hsorted)).1

end Bounded

/-- Nothing the service holds is above `head - confirmations`. -/
structure Inv (s : State layout) : Prop where
  store : StoreUpTo (s.safe d) s.workers.store
  phases : ∀ w, PhaseUpTo (s.safe d) (s.workers.workers w)
  procs : ∀ i, ProcUpTo (d.process i) (s.safe d (d.process i)) (s.procs i)
  pages : Memo.Sound (CachingEventQueryRepository.queryKey d.format)
    (fun _ answer => AnswerUpTo (s.safe d) answer) s.pages

section Run

variable {d} {s s' : State layout}

theorem Inv.lookup (h : Inv d s) {act : Memo.Act QuerySpec (Fault DomainError) (Page Joined)}
    (hact : Memo.Answered (fun _ answer => AnswerUpTo (s.safe d) answer) act)
    (hstep : s.lookup d act = some s') : Inv d s' := by
  obtain ⟨pages, hpages, rfl⟩ := Option.map_eq_some_iff.mp hstep
  exact ⟨h.store, h.phases, h.procs,
    Memo.sound_step (fun _ _ _ _ hanswer => hanswer) h.pages hact hpages⟩

theorem Inv.ingest (h : Inv d s) {i : Nat} {act : Pipeline.Act}
    (hhead : ∀ polled, act = .sweep polled → polled = s.heads (d.process i))
    (hfetched : ∀ j f, act = .drive (.complete j f) → Agreement.Placed (d.process i) f)
    (hbackfill : ∀ drive f rest, act = .drive .commit → s.procs i = .backfill drive →
      drive.channel = f :: rest → ∀ r ∈ f.records, r.height ≤ s.safe d (d.process i))
    (hstep : s.ingest d i act = some s') : Inv d s' := by
  obtain ⟨t, ht, rfl⟩ := Option.map_eq_some_iff.mp hstep
  have hid := d.chains_id (d.process i)
  obtain ⟨hstore, hproc⟩ := upTo_process_step
    (s := ⟨s.workers.store, [], s.procs i⟩) h.store (by rw [hid]; exact h.procs i)
    (by
      intro polled hact
      rw [hid, hhead polled hact]
      rfl)
    (by rw [hid]; exact hfetched) (by rw [hid]; exact hbackfill) (Pipeline.State.step_cases ht)
  rw [hid] at hproc
  refine ⟨hstore, h.phases, fun k => ?_, h.pages⟩
  show ProcUpTo _ _ (Function.update s.procs i t.proc k)
  by_cases hk : k = i
  · subst hk
    rw [Function.update_self]
    exact hproc
  · rw [Function.update_of_ne hk]
    exact h.procs k

theorem Inv.grow (h : Inv d s) {chain : ChainId} {head : Nat} (hle : s.heads chain ≤ head) :
    Inv d { s with heads := Function.update s.heads chain head } := by
  have hsafe : s.safe d ≤
      State.safe d { s with heads := Function.update s.heads chain head } := by
    intro c
    show s.heads c - _ ≤ Function.update s.heads chain head c - _
    by_cases hc : c = chain
    · subst hc
      rw [Function.update_self]
      exact Nat.sub_le_sub_right hle _
    · rw [Function.update_of_ne hc]
  exact ⟨h.store.mono hsafe, fun w => (h.phases w).mono hsafe, fun i => (h.procs i).mono (hsafe _),
    h.pages.mono fun _ _ hanswer => hanswer.mono hsafe⟩

theorem Inv.step
    (hrange : ∀ chain moment, RpcLogSource.LogsInRange (d.provider chain moment).getLogs)
    (h : Inv d s) {act : Act} (hconfirmed : backfillsConfirmed d s act = true)
    (hstep : s.step d act = some s') : Inv d s' := by
  cases act with
  | grow chain head =>
      rw [State.step] at hstep
      split at hstep
      · rename_i hle
        cases hstep
        exact h.grow hle
      · cases hstep
  | fetch i j range moment density fuel =>
      rw [State.step] at hstep
      split at hstep
      · rename_i fetched hfetched
        apply h.ingest _ _ _ hstep
        · intro polled hact
          cases hact
        · intro j' f hact
          cases hact
          exact Agreement.placed_fetchRange (hrange _ _) hfetched
        · intro drive f rest hact
          cases hact
      · cases hstep
  | ingest i act =>
      rw [State.step] at hstep
      split at hstep
      · rename_i hpolls
        apply h.ingest _ _ _ hstep
        · intro polled hact
          subst hact
          exact beq_iff_eq.mp hpolls
        · intro j f hact
          subst hact
          cases hpolls
        · intro drive f rest hact hproc hchannel r hr
          subst hact
          rw [backfillsConfirmed, hproc] at hconfirmed
          simp only [hchannel, List.head?_cons, Option.all_some, List.all_eq_true] at hconfirmed
          exact of_decide_eq_true (hconfirmed r hr)
      · cases hstep
  | work act =>
      rw [State.step] at hstep
      split at hstep
      · rename_i hown
        obtain ⟨workers, hworkers, rfl⟩ := Option.map_eq_some_iff.mp hstep
        obtain ⟨hstore, hphases⟩ := upTo_workers_step h.store h.phases hown
          (Workers.State.step_cases hworkers)
        exact ⟨hstore, hphases, h.procs, h.pages⟩
      · cases hstep
  | query spec order =>
      have hmiss : s.lookup d (.miss spec (d.repo.query d.pg s.workers.store spec order)) =
        some s' := hstep
      refine h.lookup ?_ hmiss
      exact answerUpTo_query h.store d.repo d.pg spec order
  | hit spec entry =>
      have hhit : s.lookup d (.hit spec entry) = some s' := hstep
      refine h.lookup ?_ hhit
      trivial
  | insert entry =>
      have hinsert : s.lookup d (.insert entry) = some s' := hstep
      refine h.lookup ?_ hinsert
      trivial

theorem inv_init (heads : ChainId → Nat) :
    Inv d ⟨heads, ⟨Store.empty, 0, fun _ => .idle, Workers.History.empty⟩, fun _ => .idle,
      Memo.State.empty⟩ :=
  ⟨⟨fun _ hr => absurd hr List.not_mem_nil, fun _ _ hrow => absurd hrow List.not_mem_nil⟩,
    fun _ => trivial, fun _ => trivial, Memo.sound_empty _ _⟩

/-- As long as backfills commit confirmed blocks only, readers see confirmed blocks only. -/
theorem hidesWindow_of_backfillsConfirmed
    (hrange : ∀ chain moment, RpcLogSource.LogsInRange (d.provider chain moment).getLogs)
    (h : Reachable (system d) (fun s act => backfillsConfirmed d s act = true) s) :
    HidesWindow d s := by
  have hinv : Inv d s := by
    apply h.invariant (Inv d)
    · intro s hinit
      obtain ⟨heads, rfl⟩ := hinit
      exact inv_init heads
    · intro s act s' hs hconfirmed hstep
      exact hs.step hrange hconfirmed hstep
  exact hinv.pages.returned

end Run

/-- One transfer, in block `b`. -/
def oneTransferRpc (b : Nat) : RpcLogSource.Rpc where
  getLogs _ lo hi := .ok ((heights lo hi).flatMap fun h =>
    if h = b then
      [⟨some h, some ⟨[7]⟩, some 0, some ⟨[7]⟩, some 0, ⟨[]⟩, [transferTopic], [3]⟩]
    else [])
  block h := .ok (some ⟨h, ⟨[7]⟩, ⟨[6]⟩, 0, [⟨⟨[7]⟩, [], 0, [], 0, 0, none, none⟩]⟩)
  receipt _ := .ok (some ⟨true, 21000, 1, none⟩)
  heightOrder := id
  txOrder := id
  heightOrder_perm := List.Perm.refl
  txOrder_perm := List.Perm.refl
  block_number h blk hblk := by
    cases hblk
    rfl

theorem logsInRange_oneTransferRpc (b : Nat) :
    RpcLogSource.LogsInRange (oneTransferRpc b).getLogs := by
  intro n lo hi page hpage log hlog h hh
  cases hpage
  obtain ⟨h', hh', hmem⟩ := List.mem_flatMap.mp hlog
  split at hmem
  · rw [List.mem_singleton.mp hmem] at hh
    cases hh
    exact mem_heights.mp hh'
  · exact absurd hmem List.not_mem_nil

/-- Five confirmations on every chain, the transfer in block `b`. -/
def transferDeployment (b : Nat) : Deployment eventLayout where
  expose := .finalized
  chains chain := { Pipeline.fromOne with chain, confirmations := 5, tables := [transferTable] }
  chains_id _ := rfl
  plans _ := ⟨10, 0⟩
  process _ := 1
  pools := Workers.transferPools fun _ => .run
  provider _ _ := oneTransferRpc b
  repo := transferRepo
  pg := chainComparison
  format := Coding.standardFormat

/-- Every chain is at block 10. -/
def atTen : State eventLayout :=
  ⟨fun _ => 10, ⟨Store.empty, 0, fun _ => .idle, Workers.History.empty⟩, fun _ => .idle,
    Memo.State.empty⟩

/-- A worker decodes what was committed, and the table is asked for. -/
def decodeAndQuery : List Act :=
  [.work (.pull 0), .work (.readRaw 0), .work (.readTimes 0), .work (.decode 0 Order.stable),
    .work (.upsert 0), .query (transferSpec []) (rowSorter false), .insert 0]

/-- Chain and height of the rows of each answer. -/
def returnedRows (s : State layout) : List (List (ChainId × Nat)) :=
  s.pages.returned.map fun p =>
    match p.2 with
    | .ok page => page.items.map fun j => (j.row.chainId, j.row.height)
    | .error _ => []

theorem HidesWindow.height_le {d : Deployment layout} {s : State layout} (h : HidesWindow d s)
    {rows : List (ChainId × Nat)} (hrows : rows ∈ returnedRows s) {row : ChainId × Nat}
    (hrow : row ∈ rows) : row.2 ≤ s.safe d row.1 := by
  obtain ⟨p, hp, rfl⟩ := List.mem_map.mp hrows
  split at hrow
  · rename_i page hpage
    obtain ⟨j, hj, rfl⟩ := List.mem_map.mp hrow
    exact (h p hp page hpage j hj).row
  · exact absurd hrow List.not_mem_nil

/-- Block 5 is swept and backfilled at head 10. -/
theorem hidesWindow_sweep :
    ∃ s : State eventLayout, returnedRows s = [[(1, 5)]] ∧
      HidesWindow (transferDeployment 5) s := by
  have hinit : Reachable (system (transferDeployment 5))
      (fun s act => backfillsConfirmed (transferDeployment 5) s act = true) atTen := .init ⟨_, rfl⟩
  have hguard : ∀ s act, backfillsConfirmed (transferDeployment 5) s act = true →
      backfillsConfirmed (transferDeployment 5) s act = true := fun _ _ h => h
  obtain ⟨s, hs, hobserved⟩ := hinit.exists_observed_where hguard
    ([.ingest 0 .startLoop, .ingest 0 (.sweep 10), .fetch 0 0 (1, 5) 0 0 100,
      .ingest 0 (.drive .commit), .ingest 1 (.startBackfill 1 5), .fetch 1 0 (1, 5) 1 0 100,
      .ingest 1 (.drive .commit)] ++ decodeAndQuery) returnedRows (b := [[(1, 5)]])
    (by decide +kernel)
  exact ⟨s, hobserved,
    hidesWindow_of_backfillsConfirmed (fun _ _ => logsInRange_oneTransferRpc 5) hs⟩

/-- A backfill up to the head shows block 10 while blocks above 5 are unconfirmed. -/
theorem not_hidesWindow_backfill :
    ¬∀ (layout : String → PkColumns) (d : Deployment layout), d.expose = .finalized →
      (∀ chain moment, RpcLogSource.LogsInRange (d.provider chain moment).getLogs) →
      ∀ s, Reachable (system d) anyStep s → HidesWindow d s := by
  intro hevery
  have hinit : Reachable (system (transferDeployment 10)) anyStep atTen := .init ⟨_, rfl⟩
  obtain ⟨s, hs, hobserved⟩ := hinit.exists_observed
    ([.ingest 0 (.startBackfill 1 10), .fetch 0 0 (1, 10) 0 0 100, .ingest 0 (.drive .commit)] ++
      decodeAndQuery) (fun _ _ _ => trivial)
    (fun s => (s.safe (transferDeployment 10) 1, returnedRows s)) (b := (5, [[(1, 10)]]))
    (by decide +kernel)
  obtain ⟨hsafe, hrows⟩ := Prod.mk.inj hobserved
  have hhides := hevery eventLayout (transferDeployment 10) rfl
    (fun _ _ => logsInRange_oneTransferRpc 10) s hs
  have hpage : [(1, 10)] ∈ returnedRows s := by
    rw [hrows]
    exact List.mem_cons_self
  have hle := hhides.height_le hpage List.mem_cons_self
  rw [hsafe] at hle
  exact absurd hle (by decide)

end Topic0.Exposure
