import Topic0.BaseTransition
import Topic0.PipelineSource
import Topic0.ReorgCheck

/-! The processes that move a chain's cursor: backfill commands and ingest loops, one after the
other on one database. Each drives `run_pipeline`: up to `rangeConcurrency` fetches complete in any
order into a bounded channel, a writer commits them one by one and advances the cursor in a
transaction of its own, and the drive may be stopped, fail or be killed between any two of these
steps. `committed` is the history of the ranges `commit_range` wrote, less what a rollback took. -/

namespace Topic0.Pipeline

variable {layout : String → PkColumns}

structure Config where
  chain : ChainId
  startBlock : Nat
  step : Nat
  rangeConcurrency : Nat
  confirmations : Nat
  supportsReorg : Bool
  tables : List String
  /-- Every caller takes `max_getlogs_blocks.max(1)`. -/
  step_pos : 0 < step

/-- `range_concurrency.max(1)`. -/
def Config.conc (cfg : Config) : Nat := max cfg.rangeConcurrency 1

/-- One `run_pipeline` call in progress: of the planned ranges still to be fetched the first `conc` are
in flight, and a checkpoint waits to be written to the cursor. A cancellation or an exhausted quota
shuts the producer down. -/
structure Drive where
  start : Nat
  todo : List Range
  channel : List FetchedRange
  tracker : PrefixTracker
  records : Nat
  checkpoint : Option (Nat × Hash)
  shutdown : Bool

def Drive.begin (cfg : Config) (next target : Nat) : Drive :=
  ⟨next, planRanges next target cfg.step, [], PrefixTracker.new next, 0, none, false⟩

/-- Both halves have returned. -/
def Drive.done (d : Drive) : Bool :=
  d.channel.isEmpty && d.checkpoint.isNone && (d.todo.isEmpty || d.shutdown)

/-- Where the caller resumes: `advanced_to + 1`, or where it was. -/
def Drive.resume (d : Drive) : Nat := (d.tracker.advancedTo.map (· + 1)).getD d.start

/-- The producer sends the `i`-th outstanding fetch or finds that it must stop; the writer commits the
next range or persists the checkpoint. -/
inductive DriveAct where
  | complete (i : Nat) (fetched : FetchedRange)
  | stop
  | commit
  | advance

/-- What a drive works on: the store, the history of commits and its own state. -/
structure Work (layout : String → PkColumns) where
  store : Store layout
  committed : List Range
  drive : Drive

/-- A failed fetch, commit or advance ends the process, as a crash does; it is no step of the
drive. -/
def Work.step (cfg : Config) (w : Work layout) : DriveAct → Option (Work layout)
  | .complete i fetched =>
      match w.drive.todo[i]? with
      | none => none
      | some range =>
          if i < cfg.conc ∧ w.drive.shutdown = false ∧ w.drive.channel.length < cfg.conc * 2 ∧
              (fetched.fromHeight, fetched.toHeight) = range then
            some { w with drive := { w.drive with
              todo := w.drive.todo.eraseIdx i
              channel := w.drive.channel ++ [fetched] } }
          else none
  | .stop =>
      if w.drive.todo = [] ∨ w.drive.shutdown = true then none
      else some { w with drive := { w.drive with shutdown := true } }
  | .commit =>
      match w.drive.channel, w.drive.checkpoint with
      | fetched :: rest, none =>
          match IngestionService.commitRange w.store cfg.chain fetched ⟨0⟩ with
          | .error _ => none
          | .ok (store, outcome) =>
              let recorded := w.drive.tracker.record fetched.fromHeight fetched.toHeight
                fetched.lastBlock
              some
                { store := store
                  committed := (fetched.fromHeight, fetched.toHeight) :: w.committed
                  drive := { w.drive with
                    channel := rest
                    tracker := recorded.1
                    records := w.drive.records + outcome.records
                    checkpoint := recorded.2 } }
      | _, _ => none
  | .advance =>
      w.drive.checkpoint.map fun point =>
        { w with
          store := CursorRepo.advanceInTx w.store cfg.chain point.1 point.2
          drive := { w.drive with checkpoint := none } }

/-- What the process of the chain is doing: a sweep is `ingest_loop` inside `catch_up`. -/
inductive Proc where
  | idle
  | backfill (drive : Drive)
  | loop (next : Nat)
  | sweep (drive : Drive)

structure State (layout : String → PkColumns) where
  store : Store layout
  committed : List Range
  proc : Proc

/-- `catch_up` sweeps with a fetch, or checkpoints on its zero-RPC branch; a tick may probe for a
reorg. -/
inductive Act where
  | startBackfill (lo hi : Nat)
  | startLoop
  | sweep (head : Nat)
  | checkpoint (head : Nat)
  | check (blockHash : Nat → Option Hash)
  | drive (act : DriveAct)
  | finish
  /-- An error, a crash, or the loop's own end. -/
  | interrupt

/-- `ingest_loop`'s first block. -/
def resumePoint (cfg : Config) (store : Store layout) : Nat :=
  match store.cursors cfg.chain with
  | some (last, _) => last + 1
  | none => max cfg.startBlock 1

/-- The history below a rollback. -/
def truncate (lo : Nat) (committed : List Range) : List Range :=
  (committed.filter fun r => r.1 < lo).map fun r => (r.1, min r.2 (lo - 1))

def State.step (cfg : Config) (s : State layout) : Act → Option (State layout)
  | .startBackfill lo hi =>
      match s.proc with
      | .idle => some { s with proc := .backfill (Drive.begin cfg lo hi) }
      | _ => none
  | .startLoop =>
      match s.proc with
      | .idle => some { s with proc := .loop (resumePoint cfg s.store) }
      | _ => none
  | .sweep head =>
      match s.proc with
      | .loop next =>
          let safe := head - cfg.confirmations
          if next ≤ safe then
            some { s with
              proc := .sweep (Drive.begin cfg next (fetchTarget safe next cfg.step cfg.conc true)) }
          else none
      | _ => none
  | .checkpoint head =>
      match s.proc with
      | .loop next =>
          let safe := head - cfg.confirmations
          let target := fetchTarget safe next cfg.step cfg.conc false
          if next ≤ safe then
            some { s with
              store := CursorRepo.advanceInTx s.store cfg.chain target ⟨[]⟩
              proc := .loop (target + 1) }
          else none
      | _ => none
  | .check blockHash =>
      match s.proc with
      | .loop _ =>
          match ReorgService.check s.store cfg.chain cfg.supportsReorg blockHash
              cfg.confirmations cfg.tables with
          | .error _ => none
          | .ok (store, none) => some { s with store := store }
          | .ok (store, some reindex) =>
              some ⟨store, truncate reindex s.committed, .loop reindex⟩
      | _ => none
  | .drive act =>
      match s.proc with
      | .backfill d => (Work.step cfg ⟨s.store, s.committed, d⟩ act).map fun w =>
          ⟨w.store, w.committed, .backfill w.drive⟩
      | .sweep d => (Work.step cfg ⟨s.store, s.committed, d⟩ act).map fun w =>
          ⟨w.store, w.committed, .sweep w.drive⟩
      | _ => none
  | .finish =>
      match s.proc with
      | .backfill d => if d.done then some { s with proc := .idle } else none
      | .sweep d =>
          if d.done then
            some { s with proc := if d.shutdown then .idle else .loop d.resume }
          else none
      | _ => none
  | .interrupt => some { s with proc := .idle }

/-- All runs from one database on which nothing has run yet. -/
def system (cfg : Config) (store : Store layout) : Transition.System (State layout) Act where
  init s := s = ⟨store, [], .idle⟩
  step := State.step cfg

/-- The steps of a drive, one constructor each. -/
inductive Work.Step (cfg : Config) (w : Work layout) : DriveAct → Work layout → Prop
  | complete {i : Nat} {fetched : FetchedRange}
      (hplanned : (fetched.fromHeight, fetched.toHeight) ∈ w.drive.todo) :
      Work.Step cfg w (.complete i fetched)
        { w with drive := { w.drive with
          todo := w.drive.todo.eraseIdx i
          channel := w.drive.channel ++ [fetched] } }
  | stop (hbusy : w.drive.todo ≠ []) :
      Work.Step cfg w .stop { w with drive := { w.drive with shutdown := true } }
  | commit {fetched : FetchedRange} {rest : List FetchedRange} {store : Store layout}
      {outcome : IngestionService.IngestOutcome} (hchannel : w.drive.channel = fetched :: rest)
      (hdue : w.drive.checkpoint = none)
      (hcommit : IngestionService.commitRange w.store cfg.chain fetched ⟨0⟩ = .ok (store, outcome)) :
      Work.Step cfg w .commit
        { store := store
          committed := (fetched.fromHeight, fetched.toHeight) :: w.committed
          drive := { w.drive with
            channel := rest
            tracker := (w.drive.tracker.record fetched.fromHeight fetched.toHeight
              fetched.lastBlock).1
            records := w.drive.records + outcome.records
            checkpoint := (w.drive.tracker.record fetched.fromHeight fetched.toHeight
              fetched.lastBlock).2 } }
  | advance {point : Nat × Hash} (hdue : w.drive.checkpoint = some point) :
      Work.Step cfg w .advance
        { w with
          store := CursorRepo.advanceInTx w.store cfg.chain point.1 point.2
          drive := { w.drive with checkpoint := none } }

theorem Work.step_cases {cfg : Config} {w w' : Work layout} {act : DriveAct}
    (h : w.step cfg act = some w') : Work.Step cfg w act w' := by
  cases act with
  | complete i fetched =>
      rw [Work.step] at h
      split at h
      · cases h
      rename_i range hrange
      split at h
      · rename_i hguard
        cases h
        apply Work.Step.complete
        rw [hguard.2.2.2]
        exact List.mem_of_getElem? hrange
      · cases h
  | stop =>
      rw [Work.step] at h
      split at h
      · cases h
      · rename_i hguard
        cases h
        exact .stop fun hnil => hguard (.inl hnil)
  | commit =>
      rw [Work.step] at h
      split at h
      · rename_i fetched rest hchannel hdue
        split at h
        · cases h
        · rename_i store outcome hcommit
          cases h
          exact .commit hchannel hdue hcommit
      · cases h
  | advance =>
      rw [Work.step, Option.map_eq_some_iff] at h
      obtain ⟨point, hpoint, rfl⟩ := h
      exact .advance hpoint

/-- The steps of the whole system, one constructor each. -/
inductive State.Step (cfg : Config) : State layout → Act → State layout → Prop
  | startBackfill {store committed lo hi} :
      State.Step cfg ⟨store, committed, .idle⟩ (.startBackfill lo hi)
        ⟨store, committed, .backfill (Drive.begin cfg lo hi)⟩
  | startLoop {store committed} :
      State.Step cfg ⟨store, committed, .idle⟩ .startLoop
        ⟨store, committed, .loop (resumePoint cfg store)⟩
  | sweep {store committed next head} (hbehind : next ≤ head - cfg.confirmations) :
      State.Step cfg ⟨store, committed, .loop next⟩ (.sweep head)
        ⟨store, committed, .sweep (Drive.begin cfg next
          (fetchTarget (head - cfg.confirmations) next cfg.step cfg.conc true))⟩
  | checkpoint {store committed next head} (hbehind : next ≤ head - cfg.confirmations) :
      State.Step cfg ⟨store, committed, .loop next⟩ (.checkpoint head)
        ⟨CursorRepo.advanceInTx store cfg.chain (head - cfg.confirmations) ⟨[]⟩, committed,
          .loop (head - cfg.confirmations + 1)⟩
  | checkNone {store store' committed next blockHash}
      (hcheck : ReorgService.check store cfg.chain cfg.supportsReorg blockHash cfg.confirmations
        cfg.tables = .ok (store', none)) :
      State.Step cfg ⟨store, committed, .loop next⟩ (.check blockHash)
        ⟨store', committed, .loop next⟩
  | checkSome {store store' committed next blockHash reindex}
      (hcheck : ReorgService.check store cfg.chain cfg.supportsReorg blockHash cfg.confirmations
        cfg.tables = .ok (store', some reindex)) :
      State.Step cfg ⟨store, committed, .loop next⟩ (.check blockHash)
        ⟨store', truncate reindex committed, .loop reindex⟩
  | driveBackfill {store committed d act w} (hstep : Work.Step cfg ⟨store, committed, d⟩ act w) :
      State.Step cfg ⟨store, committed, .backfill d⟩ (.drive act)
        ⟨w.store, w.committed, .backfill w.drive⟩
  | driveSweep {store committed d act w} (hstep : Work.Step cfg ⟨store, committed, d⟩ act w) :
      State.Step cfg ⟨store, committed, .sweep d⟩ (.drive act)
        ⟨w.store, w.committed, .sweep w.drive⟩
  | finishBackfill {store committed d} :
      State.Step cfg ⟨store, committed, .backfill d⟩ .finish ⟨store, committed, .idle⟩
  | finishSweep {store committed d} (hdue : d.checkpoint = none) :
      State.Step cfg ⟨store, committed, .sweep d⟩ .finish
        ⟨store, committed, if d.shutdown then .idle else .loop d.resume⟩
  | interrupt {store committed proc} :
      State.Step cfg ⟨store, committed, proc⟩ .interrupt ⟨store, committed, .idle⟩

theorem State.step_cases {cfg : Config} {s s' : State layout} {act : Act}
    (h : s.step cfg act = some s') : State.Step cfg s act s' := by
  obtain ⟨store, committed, proc⟩ := s
  cases act with
  | startBackfill lo hi =>
      cases proc <;> simp only [State.step, reduceCtorEq, Option.some.injEq] at h
      exact h ▸ .startBackfill
  | startLoop =>
      cases proc <;> simp only [State.step, reduceCtorEq, Option.some.injEq] at h
      exact h ▸ .startLoop
  | sweep head =>
      cases proc <;> simp only [State.step, reduceCtorEq] at h
      split at h
      · rename_i hbehind
        cases h
        exact .sweep hbehind
      · cases h
  | checkpoint head =>
      cases proc <;> simp only [State.step, reduceCtorEq] at h
      split at h
      · rename_i hbehind
        cases h
        exact .checkpoint hbehind
      · cases h
  | check blockHash =>
      cases proc <;> simp only [State.step, reduceCtorEq] at h
      split at h
      · cases h
      · rename_i hcheck
        cases h
        exact .checkNone hcheck
      · rename_i hcheck
        cases h
        exact .checkSome hcheck
  | drive act =>
      cases proc <;> simp only [State.step, reduceCtorEq, Option.map_eq_some_iff] at h
      · obtain ⟨w, hw, rfl⟩ := h
        exact .driveBackfill (Work.step_cases hw)
      · obtain ⟨w, hw, rfl⟩ := h
        exact .driveSweep (Work.step_cases hw)
  | finish =>
      cases proc <;> simp only [State.step, reduceCtorEq] at h
      · split at h
        · cases h
          exact .finishBackfill
        · cases h
      · rename_i d
        split at h
        · rename_i hdone
          cases h
          apply State.Step.finishSweep
          simp only [Drive.done, Bool.and_eq_true, Option.isNone_iff_eq_none] at hdone
          exact hdone.1.2
        · cases h
  | interrupt =>
      cases h
      exact .interrupt

end Topic0.Pipeline
