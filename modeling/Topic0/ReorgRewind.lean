import Topic0.PipelineGapFree

/-! Where a rollback leads. The loop's next block is the one after the persisted cursor, while the
fork is taken from the highest stored block, which an interrupted drive may have left far above the
cursor: the rollback moves the resume point forward exactly when the stored tip is more than
`confirmations` blocks above the cursor. -/

namespace Topic0.Pipeline

open Transition

variable {layout : String → PkColumns} {cfg : Config}

/-- The drive's caller will resume right after the cursor, once the last checkpoint is persisted. -/
structure Drive.Resumes (d : Drive) (cursor : Option (Nat × Hash)) : Prop where
  settled : d.checkpoint = none → ∀ point, cursor = some point → d.resume = point.1 + 1
  due : ∀ point, d.checkpoint = some point → d.tracker.advancedTo = some point.1

theorem Work.resumes_step {w w' : Work layout} {act : DriveAct}
    (hinv : w.drive.Resumes (w.store.cursors cfg.chain)) (h : Work.Step cfg w act w') :
    w'.drive.Resumes (w'.store.cursors cfg.chain) := by
  cases h with
  | complete hplanned => exact ⟨hinv.settled, hinv.due⟩
  | stop hbusy => exact ⟨hinv.settled, hinv.due⟩
  | commit hchannel hdue hcommit =>
      rename_i fetched rest store outcome
      have hadv := PrefixTracker.advancedTo_record w.drive.tracker fetched.fromHeight
        fetched.toHeight fetched.lastBlock
      refine ⟨fun hnone point hpoint => ?_, fun point hpoint => ?_⟩
      · rw [cursors_commitRange hcommit] at hpoint
        simp only at hnone
        rw [hnone] at hadv
        have hresume := hinv.settled hdue point hpoint
        rw [Drive.resume] at hresume ⊢
        simp only [hadv]
        exact hresume
      · simp only at hpoint
        rw [hpoint] at hadv
        exact hadv
  | advance hdue =>
      refine ⟨fun _ point hpoint => ?_, by simp⟩
      rw [CursorRepo.advanceInTx_cursors, Option.some.injEq] at hpoint
      rw [← hpoint, Drive.resume]
      simp only [hinv.due _ hdue, Option.map_some, Option.getD_some]

/-- The loop goes on right after the persisted cursor. -/
def State.Resumes (cfg : Config) (s : State layout) : Prop :=
  match s.proc with
  | .idle | .backfill _ => True
  | .loop next => ∀ point, s.store.cursors cfg.chain = some point → next = point.1 + 1
  | .sweep d => d.Resumes (s.store.cursors cfg.chain)

theorem State.resumes_step {s s' : State layout} {act : Act} (hinv : s.Resumes cfg)
    (h : State.Step cfg s act s') : s'.Resumes cfg := by
  cases h with
  | startBackfill => trivial
  | startLoop =>
      intro point hpoint
      simp only at hpoint
      simp only [resumePoint, hpoint]
  | sweep hbehind => exact ⟨fun _ => hinv, by simp [Drive.begin]⟩
  | checkpoint hbehind =>
      intro point hpoint
      rw [CursorRepo.advanceInTx_cursors, Option.some.injEq] at hpoint
      rw [← hpoint]
  | checkNone hcheck =>
      rcases ReorgService.check_ok hcheck with ⟨-, rfl⟩ | ⟨tip, -, hsome, -⟩
      · exact hinv
      · cases hsome
  | checkSome hcheck =>
      rcases ReorgService.check_ok hcheck with ⟨hnone, -⟩ | ⟨tip, -, hsome, hrolled⟩
      · cases hnone
      · cases hsome
        intro point hpoint
        simp only [hrolled.cursors, Function.update_self, Option.map_eq_some_iff] at hpoint
        obtain ⟨_, -, rfl⟩ := hpoint
        rfl
  | driveBackfill hstep => trivial
  | driveSweep hstep => exact Work.resumes_step (w := ⟨_, _, _⟩) hinv hstep
  | finishBackfill => trivial
  | finishSweep hdue =>
      rename_i d
      have hresume := Drive.Resumes.settled hinv hdue
      simp only [State.Resumes]
      cases d.shutdown with
      | true => trivial
      | false => exact hresume
  | interrupt => trivial

theorem resumes_of_reachable {store : Store layout} {s : State layout}
    (h : Reachable (system cfg store) anyStep s) : s.Resumes cfg := by
  apply h.invariant (State.Resumes cfg)
  · intro s hinit
    cases hinit
    trivial
  · exact fun s act s' hinv _ hstep => State.resumes_step hinv (State.step_cases hstep)

/-- Neither the loop's next block nor the persisted cursor is higher after the rollback. -/
def NotForward (cfg : Config) (store store' : Store layout) (next reindex : Nat) : Prop :=
  reindex ≤ next ∧ ∀ point, store'.cursors cfg.chain = some point →
    ∃ before, store.cursors cfg.chain = some before ∧ point.1 ≤ before.1

/-- The highest stored block is at most `confirmations` blocks ahead of the loop. -/
def TipNear (cfg : Config) (store : Store layout) (next : Nat) : Prop :=
  ∀ tip, BlockRepo.maxHeight store cfg.chain = some tip → tip - cfg.confirmations < next

theorem notForward_iff {s : State layout} (hinv : s.Resumes cfg) {next : Nat}
    (hloop : s.proc = .loop next) {blockHash : Nat → Option Hash} {store' : Store layout}
    {reindex : Nat} (hcheck : ReorgService.check s.store cfg.chain cfg.supportsReorg blockHash
      cfg.confirmations cfg.tables = .ok (store', some reindex)) :
    NotForward cfg s.store store' next reindex ↔ TipNear cfg s.store next := by
  rw [State.Resumes, hloop] at hinv
  rcases ReorgService.check_ok hcheck with ⟨hnone, -⟩ | ⟨tip, hmismatch, hsome, hrolled⟩
  · cases hnone
  cases hsome
  have hnear : TipNear cfg s.store next ↔ tip - cfg.confirmations < next := by
    simp [TipNear, hmismatch.highest]
  rw [hnear, NotForward, hrolled.cursors]
  simp only [Function.update_self, Option.map_eq_some_iff]
  constructor
  · exact fun h => h.1
  · intro h
    refine ⟨h, ?_⟩
    rintro _ ⟨before, hbefore, rfl⟩
    have hnext := hinv before hbefore
    exact ⟨before, hbefore, by simp only; omega⟩

/-- Drives, restarts and reorg checks of one chain, each check finding the stored tip near. -/
def ChecksNear (cfg : Config) (s : State layout) : Act → Prop
  | .startBackfill _ _ => False
  | .checkpoint _ => False
  | .check _ => ∀ next, s.proc = .loop next → TipNear cfg s.store next
  | _ => True

theorem closed_of_checksNear {s : State layout} (hinv : s.Resumes cfg) {act : Act}
    (hact : ChecksNear cfg s act) : Closed cfg (max cfg.startBlock 1 ≤ ·) s act := by
  cases act with
  | startBackfill lo hi => exact hact.elim
  | checkpoint head => exact hact.elim
  | startLoop => exact fun _ b hstart hb => absurd hb (Nat.not_lt.mpr hstart)
  | check blockHash =>
      intro store' reindex hcheck next hloop
      exact ((notForward_iff hinv hloop hcheck).mpr (hact next hloop)).1
  | sweep head => trivial
  | drive act => trivial
  | finish => trivial
  | interrupt => trivial

/-- In every reachable state a rollback does not lead forward exactly when the stored tip is near;
and where every check of a run finds it near, no block below the loop's next one, or up to the
cursor, is ever skipped. -/
theorem rollback_not_forward_iff (cfg : Config) (store : Store layout) :
    (∀ s : State layout, Reachable (system cfg store) anyStep s → ∀ next, s.proc = .loop next →
      ∀ blockHash store' reindex, ReorgService.check s.store cfg.chain cfg.supportsReorg blockHash
        cfg.confirmations cfg.tables = .ok (store', some reindex) →
      (NotForward cfg s.store store' next reindex ↔ TipNear cfg s.store next)) ∧
    (store.cursors cfg.chain = none → ∀ s : State layout,
      Reachable (system cfg store) (ChecksNear cfg) s →
      (∀ next, s.proc = .loop next → CoveredTo s.committed (max cfg.startBlock 1 ≤ ·) next) ∧
      CursorCovered cfg (max cfg.startBlock 1 ≤ ·) s.store s.committed) := by
  constructor
  · intro s h next hloop blockHash store' reindex hcheck
    exact notForward_iff (resumes_of_reachable h) hloop hcheck
  · intro hfresh s h
    have hinv : s.GapFree cfg (max cfg.startBlock 1 ≤ ·) ∧ s.Resumes cfg := by
      refine h.invariant (fun s => s.GapFree cfg (max cfg.startBlock 1 ≤ ·) ∧ s.Resumes cfg) ?_ ?_
      · intro s hinit
        refine ⟨State.gapFree_init hfresh hinit, ?_⟩
        cases hinit
        trivial
      · rintro s act s' ⟨hgap, hresumes⟩ hact hstep
        have hcases := State.step_cases hstep
        exact ⟨State.gapFree_step hgap (closed_of_checksNear hresumes hact) hcases,
          State.resumes_step hresumes hcases⟩
    refine ⟨fun next hloop => ?_, hinv.1.cursor⟩
    have hproc := hinv.1.proc
    rw [hloop] at hproc
    exact hproc

/-- Three ranges of ten blocks in flight, two confirmations. -/
def threeInFlight : Config :=
  { fromOne with
    rangeConcurrency := 3
    confirmations := 2
    tables := [transactionsTable, receiptsTable] }

/-- The chain before and after a reorg from block 24 on; blocks 5 and 25 hold a log. -/
def beforeReorg : Chain := plainChain 1 (fun h => h == 5 || h == 25) fun _ => 0

def afterReorg : Chain := plainChain 1 (fun h => h == 5 || h == 25) fun h => if h < 24 then 0 else 1

/-- The loop's next block, the cursor's height and the outcome of a check. -/
def observe (blockHash : Nat → Option Hash) (s : State eventLayout) :
    Option Nat × Option Nat × Option (Option Nat × Option Nat) :=
  (match s.proc with
    | .loop next => some next
    | _ => none,
    (s.store.cursors 1).map Prod.fst,
    (ReorgService.check s.store 1 true blockHash 2 [transactionsTable, receiptsTable]).toOption.map
      fun checked => (checked.2, (checked.1.cursors 1).map Prod.fst))

theorem of_observe {blockHash : Nat → Option Hash} {s : State eventLayout}
    {next last reindex last' : Nat}
    (h : observe blockHash s = (some next, some last, some (some reindex, some last'))) :
    s.proc = .loop next ∧ ∃ store', ReorgService.check s.store 1 true blockHash 2
      [transactionsTable, receiptsTable] = .ok (store', some reindex) ∧
      (s.store.cursors 1).map Prod.fst = some last ∧
      (store'.cursors 1).map Prod.fst = some last' := by
  simp only [observe, Prod.mk.injEq, Option.map_eq_some_iff] at h
  obtain ⟨hproc, hlast, ⟨store', result⟩, hok, hresult, hlast'⟩ := h
  refine ⟨?_, store', ?_, ?_, ?_⟩
  · split at hproc
    · rename_i heq
      rw [heq, Option.some.inj hproc]
    · cases hproc
  · cases hcheck : ReorgService.check s.store 1 true blockHash 2
      [transactionsTable, receiptsTable] with
    | error e =>
        rw [hcheck] at hok
        cases hok
    | ok checked =>
        rw [hcheck] at hok
        cases hok
        simp only at hresult
        rw [hresult]
  · exact Option.map_eq_some_iff.mpr hlast
  · exact Option.map_eq_some_iff.mpr hlast'

theorem rollback_not_forward_near :
    ∃ s : State eventLayout, ∃ store', TipNear threeInFlight s.store 11 ∧
      NotForward threeInFlight s.store store' 11 4 := by
  have hrun := Reachable.exists_observed
    (.init rfl : Reachable (system threeInFlight (Store.empty : Store eventLayout)) anyStep _)
    [.startLoop, .sweep 32, .drive (.complete 0 (beforeReorg.serve 1 10)), .drive .commit,
      .drive .advance, .interrupt, .startLoop] (fun _ _ _ => trivial)
    (observe fun _ => some ⟨[9]⟩) (b := (some 11, some 10, some (some 4, some 3)))
    (by decide +kernel)
  obtain ⟨s, hreach, hobserved⟩ := hrun
  obtain ⟨hloop, store', hcheck, hlast, hlast'⟩ := of_observe hobserved
  have hforward : NotForward threeInFlight s.store store' 11 4 := by
    refine ⟨by decide, fun point hpoint => ?_⟩
    obtain ⟨before, hbefore, heq⟩ := Option.map_eq_some_iff.mp hlast
    rw [show threeInFlight.chain = 1 from rfl] at hpoint
    rw [hpoint, Option.map_some, Option.some.injEq] at hlast'
    exact ⟨before, hbefore, by omega⟩
  exact ⟨s, store', ((rollback_not_forward_iff threeInFlight Store.empty).1 s hreach 11 hloop _ _ _
    hcheck).mp hforward, hforward⟩

/-- Ranges 1 to 10 and 21 to 30 are committed when the drive fails, the cursor at 10. The reorg of
block 25 rolls back to block 24 and moves the cursor to 23, past the blocks 11 to 20. -/
theorem rollback_forward :
    ¬∀ s : State eventLayout, Reachable (system threeInFlight Store.empty) anyStep s →
      ∀ next, s.proc = .loop next → ∀ blockHash store' reindex,
      ReorgService.check s.store 1 true blockHash 2 [transactionsTable, receiptsTable] =
        .ok (store', some reindex) → NotForward threeInFlight s.store store' next reindex := by
  intro hevery
  have hrun := Reachable.exists_observed
    (.init rfl : Reachable (system threeInFlight (Store.empty : Store eventLayout)) anyStep _)
    [.startLoop, .check fun h => some (beforeReorg.block h).hash, .sweep 32,
      .drive (.complete 0 (beforeReorg.serve 1 10)), .drive .commit, .drive .advance,
      .drive (.complete 1 (beforeReorg.serve 21 30)), .drive .commit, .interrupt, .startLoop]
    (fun _ _ _ => trivial) (observe fun h => some (afterReorg.block h).hash)
    (b := (some 11, some 10, some (some 24, some 23))) (by decide +kernel)
  obtain ⟨s, hreach, hobserved⟩ := hrun
  obtain ⟨hloop, store', hcheck, -, -⟩ := of_observe hobserved
  exact absurd (hevery s hreach 11 hloop _ store' 24 hcheck).1 (by decide)

end Topic0.Pipeline
