import Topic0.PipelineDrive

/-! The gap-free checkpoint. A drive that starts where everything below is committed keeps the
persisted cursor over a committed prefix, whatever is committed out of order or lost on the way; a
drive that starts above a gap moves the cursor over the gap. -/

namespace Topic0.Pipeline

open Transition

variable {layout : String → PkColumns} {cfg : Config} {need : Nat → Prop}

/-- Every needed block below `next` lies in a committed range. -/
def CoveredTo (committed : List Range) (need : Nat → Prop) (next : Nat) : Prop :=
  ∀ b, need b → b < next → Covered committed b

instance (committed : List Range) (need : Nat → Prop) [DecidablePred need] (next : Nat) :
    Decidable (CoveredTo committed need next) :=
  decidable_of_iff (∀ b, b < next → need b → Covered committed b)
    ⟨fun h b hn hb => h b hb hn, fun h b hb hn => h b hn hb⟩

theorem CoveredTo.cons {committed : List Range} {next : Nat} (h : CoveredTo committed need next)
    (range : Range) : CoveredTo (range :: committed) need next :=
  fun b hneed hb => (h b hneed hb).cons range

/-- Below a height both cover the same blocks. -/
theorem covered_truncate {committed : List Range} {lo b : Nat} (hb : b < lo) :
    Covered (truncate lo committed) b ↔ Covered committed b := by
  constructor
  · rintro ⟨r, hr, hrb⟩
    obtain ⟨r', hr', rfl⟩ := List.mem_map.mp hr
    simp only at hrb
    exact ⟨r', (List.mem_filter.mp hr').1, hrb.1, by omega⟩
  · rintro ⟨r, hr, hrb⟩
    refine ⟨(r.1, min r.2 (lo - 1)), List.mem_map.mpr ⟨r, List.mem_filter.mpr ⟨hr, ?_⟩, rfl⟩, ?_⟩
    · rw [decide_eq_true_eq]
      omega
    · simp only
      omega

theorem CoveredTo.truncate {committed : List Range} {next lo : Nat}
    (h : CoveredTo committed need next) (hlo : lo ≤ next) :
    CoveredTo (Pipeline.truncate lo committed) need lo := by
  intro b hneed hb
  exact (covered_truncate hb).mpr (h b hneed (by omega))

/-- The persisted cursor ends a committed prefix. -/
def CursorCovered (cfg : Config) (need : Nat → Prop) (store : Store layout) (committed : List Range) :
    Prop :=
  ∀ last hash, store.cursors cfg.chain = some (last, hash) → CoveredTo committed need (last + 1)

/-- The drive started above a committed prefix, and its tracker knows what it has committed. -/
structure Drive.GapFree (d : Drive) (need : Nat → Prop) (committed : List Range) : Prop where
  below : CoveredTo committed need d.start
  tracked : d.tracker.Sound d.start committed
  due : ∀ point, d.checkpoint = some point → d.tracker.frontier = point.1 + 1

theorem Drive.gapFree_begin {committed : List Range} {next target : Nat}
    (h : CoveredTo committed need next) : (Drive.begin cfg next target).GapFree need committed :=
  ⟨h, PrefixTracker.sound_new next committed, by simp [Drive.begin]⟩

theorem Drive.GapFree.coveredTo_frontier {d : Drive} {committed : List Range}
    (h : d.GapFree need committed) : CoveredTo committed need d.tracker.frontier := by
  intro b hneed hb
  by_cases hlow : b < d.start
  · exact h.below b hneed hlow
  · exact h.tracked.prefixCovered b (Nat.not_lt.mp hlow) hb

theorem Drive.GapFree.coveredTo_resume {d : Drive} {committed : List Range}
    (h : d.GapFree need committed) : CoveredTo committed need d.resume := by
  unfold Drive.resume
  cases hadv : d.tracker.advancedTo with
  | none => exact h.below
  | some last =>
      have hfrontier := h.coveredTo_frontier
      rw [h.tracked.frontier_of_some last hadv] at hfrontier
      exact hfrontier

theorem cursors_commitRange {store store' : Store layout} {chain : ChainId}
    {fetched : FetchedRange} {epoch : Epoch} {outcome : IngestionService.IngestOutcome}
    (h : IngestionService.commitRange store chain fetched epoch = .ok (store', outcome)) :
    store'.cursors = store.cursors :=
  (IngestionService.commit_ok h).cursors

/-- The cursor may be moved to the end of a covered prefix. -/
theorem cursorCovered_advanceInTx {store : Store layout} {committed : List Range} {last : Nat}
    {hash : Hash} (h : CoveredTo committed need (last + 1)) :
    CursorCovered cfg need (CursorRepo.advanceInTx store cfg.chain last hash) committed := by
  intro last' hash' hlast
  rw [CursorRepo.advanceInTx_cursors, Option.some.injEq, Prod.mk.injEq] at hlast
  rw [← hlast.1]
  exact h

/-- One step of a gap-free drive, under a covered cursor, keeps both. -/
theorem Work.gapFree_step {w w' : Work layout} {act : DriveAct}
    (hcursor : CursorCovered cfg need w.store w.committed)
    (hdrive : w.drive.GapFree need w.committed) (h : Work.Step cfg w act w') :
    CursorCovered cfg need w'.store w'.committed ∧ w'.drive.GapFree need w'.committed := by
  cases h with
  | complete hplanned => exact ⟨hcursor, hdrive.below, hdrive.tracked, hdrive.due⟩
  | stop hbusy => exact ⟨hcursor, hdrive.below, hdrive.tracked, hdrive.due⟩
  | commit hchannel hdue hcommit =>
      refine ⟨?_, hdrive.below.cons _, PrefixTracker.sound_record _ hdrive.tracked, ?_⟩
      · intro last hash hlast
        rw [cursors_commitRange hcommit] at hlast
        exact (hcursor last hash hlast).cons _
      · intro point hpoint
        exact PrefixTracker.frontier_record hdrive.tracked hpoint
  | advance hdue =>
      rename_i point
      have hfrontier := hdrive.coveredTo_frontier
      rw [hdrive.due _ hdue] at hfrontier
      exact ⟨cursorCovered_advanceInTx hfrontier, hdrive.below, hdrive.tracked, by simp⟩

/-- A drive over an empty window: it has nothing to fetch, commit or advance. -/
def Drive.Inert (d : Drive) : Prop := d.todo = [] ∧ d.channel = [] ∧ d.checkpoint = none

theorem Drive.inert_begin {lo hi : Nat} (h : hi < lo) : (Drive.begin cfg lo hi).Inert := by
  refine ⟨?_, rfl, rfl⟩
  have hfuel : hi + 1 - lo = 0 := by omega
  rw [Drive.begin, planRanges, hfuel, planFrom]

theorem Drive.Inert.not_step {w w' : Work layout} {act : DriveAct} (hinert : w.drive.Inert)
    (h : Work.Step cfg w act w') : False := by
  obtain ⟨htodo, hchannel, hdue⟩ := hinert
  cases h with
  | complete hplanned =>
      rw [htodo] at hplanned
      exact List.not_mem_nil hplanned
  | stop hbusy => exact hbusy htodo
  | commit hchannel' hdue' hcommit =>
      rw [hchannel] at hchannel'
      cases hchannel'
  | advance hdue' =>
      rw [hdue] at hdue'
      cases hdue'

/-- The invariant of the whole system, by what the process is doing. -/
def Proc.GapFree (proc : Proc) (need : Nat → Prop) (committed : List Range) : Prop :=
  match proc with
  | .idle => True
  | .backfill d => d.Inert ∨ d.GapFree need committed
  | .loop next => CoveredTo committed need next
  | .sweep d => d.GapFree need committed

structure State.GapFree (cfg : Config) (need : Nat → Prop) (s : State layout) : Prop where
  cursor : CursorCovered cfg need s.store s.committed
  proc : s.proc.GapFree need s.committed

/-- What a step must find so that it opens no gap: a drive or a loop starts above a committed
prefix, and a rollback does not lead above the block the loop would go on with. -/
def Closed (cfg : Config) (need : Nat → Prop) (s : State layout) : Act → Prop
  | .startBackfill lo hi => lo ≤ hi → CoveredTo s.committed need lo
  | .startLoop =>
      s.store.cursors cfg.chain = none → CoveredTo s.committed need (max cfg.startBlock 1)
  | .checkpoint _ => False
  | .check blockHash => ∀ store' reindex,
      ReorgService.check s.store cfg.chain cfg.supportsReorg blockHash cfg.confirmations
        cfg.tables = .ok (store', some reindex) → ∀ next, s.proc = .loop next → reindex ≤ next
  | _ => True

theorem cursorCovered_rolledBack {store store' : Store layout} {committed : List Range}
    {lo next : Nat} (hlo : 0 < lo)
    (h : UnitOfWork.RolledBack store store' cfg.chain lo cfg.tables)
    (hcovered : CoveredTo committed need next) (hle : lo ≤ next) :
    CursorCovered cfg need store' (truncate lo committed) := by
  intro last hash hlast
  rw [h.cursors, Function.update_self, Option.map_eq_some_iff] at hlast
  obtain ⟨_, -, heq⟩ := hlast
  have hlast : last + 1 = lo := by
    have := (Prod.mk.inj heq).1
    omega
  rw [hlast]
  exact hcovered.truncate hle

/-- A step that opens no gap keeps the checkpoint gap-free. -/
theorem State.gapFree_step {s s' : State layout} {act : Act} (hinv : s.GapFree cfg need)
    (hclosed : Closed cfg need s act) (h : State.Step cfg s act s') : s'.GapFree cfg need := by
  obtain ⟨hcursor, hproc⟩ := hinv
  cases h with
  | startBackfill =>
      rename_i lo hi
      refine ⟨hcursor, ?_⟩
      by_cases hle : lo ≤ hi
      · exact .inr (Drive.gapFree_begin (hclosed hle))
      · exact .inl (Drive.inert_begin (Nat.not_le.mp hle))
  | startLoop =>
      rename_i store committed
      refine ⟨hcursor, ?_⟩
      simp only [Proc.GapFree, resumePoint]
      split
      · rename_i last hash hlast
        exact hcursor last hash hlast
      · rename_i hnone
        exact hclosed hnone
  | sweep hbehind => exact ⟨hcursor, Drive.gapFree_begin hproc⟩
  | checkpoint hbehind => exact hclosed.elim
  | checkNone hcheck =>
      rcases ReorgService.check_ok hcheck with ⟨-, rfl⟩ | ⟨tip, -, hsome, -⟩
      · exact ⟨hcursor, hproc⟩
      · cases hsome
  | checkSome hcheck =>
      have hle := hclosed _ _ hcheck _ rfl
      rcases ReorgService.check_ok hcheck with ⟨hnone, -⟩ | ⟨tip, -, hsome, hrolled⟩
      · cases hnone
      · cases hsome
        exact ⟨cursorCovered_rolledBack (Nat.succ_pos _) hrolled hproc hle, hproc.truncate hle⟩
  | driveBackfill hstep =>
      rcases hproc with hinert | hgap
      · exact (Drive.Inert.not_step hinert hstep).elim
      · obtain ⟨hcursor', hgap'⟩ := Work.gapFree_step hcursor hgap hstep
        exact ⟨hcursor', .inr hgap'⟩
  | driveSweep hstep =>
      have hgap : Drive.GapFree _ need _ := hproc
      obtain ⟨hcursor', hgap'⟩ := Work.gapFree_step hcursor hgap hstep
      exact ⟨hcursor', hgap'⟩
  | finishBackfill => exact ⟨hcursor, trivial⟩
  | finishSweep hdue =>
      rename_i d
      refine ⟨hcursor, ?_⟩
      cases d.shutdown with
      | true => trivial
      | false => exact Drive.GapFree.coveredTo_resume hproc
  | interrupt => exact ⟨hcursor, trivial⟩

theorem State.gapFree_init {store : Store layout} (hfresh : store.cursors cfg.chain = none)
    {s : State layout} (h : (system cfg store).init s) : s.GapFree cfg need := by
  cases h
  refine ⟨fun last hash hlast => ?_, trivial⟩
  simp only [hfresh, reduceCtorEq] at hlast

theorem gapFree_of_reachable {store : Store layout} (hfresh : store.cursors cfg.chain = none)
    {s : State layout} (h : Reachable (system cfg store) (Closed cfg need) s) :
    s.GapFree cfg need :=
  h.invariant (State.GapFree cfg need) (fun _ => State.gapFree_init hfresh)
    fun _ _ _ hinv hclosed hstep => State.gapFree_step hinv hclosed (State.step_cases hstep)

/-- The cursor, and the block a loop goes on with, end a committed prefix from the start block. -/
def SharedCheckpoint (cfg : Config) (s : State layout) : Prop :=
  (∀ last hash, s.store.cursors cfg.chain = some (last, hash) →
    ∀ b, cfg.startBlock ≤ b → b ≤ last → Covered s.committed b) ∧
  ∀ next, s.proc = .loop next → ∀ b, cfg.startBlock ≤ b → b < next → Covered s.committed b

/-- Backfills and loops share a sound checkpoint in every run that never starts one of them above
a gap. -/
theorem sharedCheckpoint_of_closed (cfg : Config) {store : Store layout}
    (hfresh : store.cursors cfg.chain = none) {s : State layout}
    (h : Reachable (system cfg store) (Closed cfg (cfg.startBlock ≤ ·)) s) : SharedCheckpoint cfg s := by
  have hinv := gapFree_of_reachable hfresh h
  constructor
  · intro last hash hlast b hstart hb
    exact hinv.cursor last hash hlast b hstart (Nat.lt_succ_of_le hb)
  · intro next hnext
    have hproc := hinv.proc
    rw [hnext] at hproc
    exact hproc

/-- A chain configured to start at block 1. -/
def fromOne : Config := ⟨1, 1, 10, 1, 0, true, [], by decide⟩

/-- A range without a matching log. -/
def emptyRange (lo hi : Nat) : FetchedRange := ⟨lo, hi, [], AuxData.none, none⟩

theorem sharedCheckpoint_backfill_from_start :
    ∃ s : State eventLayout, s.store.cursors 1 = some (2, ⟨[]⟩) ∧ SharedCheckpoint fromOne s := by
  have hstart : CoveredTo [] (1 ≤ ·) 1 := by decide
  obtain ⟨s, hreach, hcursor⟩ : ∃ s : State eventLayout,
      Reachable (system fromOne Store.empty) (Closed fromOne (fromOne.startBlock ≤ ·)) s ∧
        s.store.cursors 1 = some (2, ⟨[]⟩) :=
    ⟨_, .step (.step (.step (.step (.init rfl) (a := .startBackfill 1 2) (fun _ => hstart) rfl)
      (a := .drive (.complete 0 (emptyRange 1 2))) trivial rfl)
      (a := .drive .commit) trivial rfl) (a := .drive .advance) trivial rfl, rfl⟩
  exact ⟨s, hcursor, sharedCheckpoint_of_closed fromOne rfl hreach⟩

/-- No reorg, and no checkpoint without a fetch. -/
def NoReorg (cfg : Config) (s : State layout) : Act → Prop
  | .checkpoint _ => False
  | .check blockHash => ∀ tip, ¬ReorgService.Mismatch s.store cfg.chain blockHash tip
  | _ => True

/-- A backfill of blocks 5 and 6 of a fresh database leaves the cursor at 6: the loop goes on at
block 7, and block 1 was never fetched. -/
theorem not_sharedCheckpoint_backfill :
    ¬∀ s : State eventLayout,
      Reachable (system fromOne Store.empty) (NoReorg fromOne) s → SharedCheckpoint fromOne s := by
  intro hevery
  have hrun : Reachable (system fromOne (Store.empty : Store eventLayout)) (NoReorg fromOne) _ :=
    Reachable.exec (.init rfl) [.startBackfill 5 6, .drive (.complete 0 (emptyRange 5 6)), .drive .commit,
      .drive .advance, .finish, .startLoop] (by simp [NoReorg]) rfl
  have hcovered := (hevery _ hrun).1 6 ⟨[]⟩ rfl 1 (by decide) (by decide)
  exact absurd hcovered (by decide)

end Topic0.Pipeline
