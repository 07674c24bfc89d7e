import Topic0.PipelineBounds
import Mathlib.Data.List.TakeWhile

/-! The maximal contiguous prefix. The ranges of a drive partition its window, and each is recorded
when its fetch has committed. Whatever the order, the tracker has absorbed the longest run of
recorded ranges from the start and keeps the recorded ranges behind the first gap waiting, so that a
call moves the prefix over its own range and over all that waited for it. -/

namespace Topic0.Pipeline

/-- A committed range with the highest block that matched in it. -/
structure Committed where
  lo : Nat
  hi : Nat
  lastBlock : Option (Nat × Hash)
  deriving DecidableEq, Repr

/-- Consecutive ranges of a window, each with its highest matched block inside it. -/
def Partition (target : Nat) : Nat → List Committed → Prop
  | start, [] => start = target + 1
  | start, c :: rest => c.lo = start ∧ c.lo ≤ c.hi ∧ c.hi ≤ target ∧
      (∀ b, c.lastBlock = some b → c.lo ≤ b.1 ∧ b.1 ≤ c.hi) ∧ Partition target (c.hi + 1) rest

section Ranges

variable {start target : Nat} {parts : List Committed}

theorem Partition.le_lo (h : Partition target start parts) {c : Committed} (hc : c ∈ parts) :
    start ≤ c.lo ∧ c.lo ≤ c.hi ∧ c.hi ≤ target := by
  induction parts generalizing start with
  | nil => exact absurd hc List.not_mem_nil
  | cons first rest ih =>
      obtain ⟨hlo, hle, htarget, -, hrest⟩ := h
      rcases List.mem_cons.mp hc with rfl | hc
      · exact ⟨hlo.ge, hle, htarget⟩
      · have hmem := ih hrest hc
        omega

theorem Partition.matched (h : Partition target start parts) {c : Committed} (hc : c ∈ parts)
    {b : Nat × Hash} (hb : c.lastBlock = some b) : c.lo ≤ b.1 ∧ b.1 ≤ c.hi := by
  induction parts generalizing start with
  | nil => exact absurd hc List.not_mem_nil
  | cons first rest ih =>
      obtain ⟨-, -, -, hmatched, hrest⟩ := h
      rcases List.mem_cons.mp hc with rfl | hc
      · exact hmatched b hb
      · exact ih hrest hc

/-- The ranges start at different blocks. -/
theorem Partition.pairwise (h : Partition target start parts) :
    parts.Pairwise fun c c' => c.hi < c'.lo := by
  induction parts generalizing start with
  | nil => exact List.Pairwise.nil
  | cons first rest ih =>
      obtain ⟨-, -, -, -, hrest⟩ := h
      refine List.Pairwise.cons ?_ (ih hrest)
      intro c hc
      exact (hrest.le_lo hc).1

theorem Partition.nodup (h : Partition target start parts) : parts.Nodup := by
  refine h.pairwise.imp_of_mem ?_
  intro c c' hc hc' hlt heq
  subst heq
  have hle := (h.le_lo hc).2.1
  omega

theorem Partition.eq_of_lo (h : Partition target start parts) {c c' : Committed} (hc : c ∈ parts)
    (hc' : c' ∈ parts) (hlo : c.lo = c'.lo) : c = c' := by
  induction parts generalizing start with
  | nil => exact absurd hc List.not_mem_nil
  | cons first rest ih =>
      obtain ⟨-, hle, -, -, hrest⟩ := h
      rcases List.mem_cons.mp hc with rfl | hmem
      · rcases List.mem_cons.mp hc' with rfl | hmem'
        · rfl
        · have hlater := (hrest.le_lo hmem').1
          omega
      · rcases List.mem_cons.mp hc' with rfl | hmem'
        · have hlater := (hrest.le_lo hmem).1
          omega
        · exact ih hrest hmem hmem'

/-- Behind the first ranges the others partition what is left. -/
theorem Partition.append {before rest : List Committed}
    (h : Partition target start (before ++ rest)) : ∃ next, start ≤ next ∧
      Partition target next rest ∧
        ∀ c ∈ before, c.hi < next ∧ ∀ b, c.lastBlock = some b → b.1 ≤ c.hi := by
  induction before generalizing start with
  | nil => exact ⟨start, le_rfl, h, by simp⟩
  | cons first before ih =>
      obtain ⟨hlo, hle, htarget, hmatched, hrest⟩ := h
      obtain ⟨next, hnext, hpart, hbefore⟩ := ih hrest
      refine ⟨next, by omega, hpart, ?_⟩
      intro c hc
      rcases List.mem_cons.mp hc with rfl | hc
      · exact ⟨hnext, fun b hb => (hmatched b hb).2⟩
      · exact hbefore c hc

end Ranges

namespace PrefixTracker

/-- The loop of `record` in `u64`; no result is a panic. -/
def closeU64 (build : Build) : Nat → PrefixTracker → Option (PrefixTracker × Bool)
  | 0, p => some (p, false)
  | fuel + 1, p =>
      match p.waiting.lookup p.frontier with
      | none => some (p, false)
      | some (last, lastBlock) => do
          let frontier ← build.add last 1
          let closed ← closeU64 build fuel
            { frontier := frontier
              waiting := p.waiting.filter fun w => w.1 != p.frontier
              best := better p.best lastBlock
              advancedTo := some last }
          some (closed.1, true)

/-- `record` in `u64`. -/
def recordU64 (build : Build) (p : PrefixTracker) (c : Committed) :
    Option (PrefixTracker × Option (Nat × Hash)) := do
  let waiting := (c.lo, c.hi, c.lastBlock) :: p.waiting.filter fun w => w.1 != c.lo
  let closed ← closeU64 build waiting.length { p with waiting := waiting }
  some (closed.1,
    if closed.2 then closed.1.advancedTo.map fun h => (h, closed.1.bestHash) else none)

/-- One call after the other, with what each returned. -/
def recordAll (build : Build) :
    PrefixTracker → List Committed → Option (PrefixTracker × List (Option (Nat × Hash)))
  | p, [] => some (p, [])
  | p, c :: calls => do
      let recorded ← recordU64 build p c
      let rest ← recordAll build recorded.1 calls
      some (rest.1, recorded.2 :: rest.2)

/-- Below the end of `u64` it is the tracker over the natural numbers. -/
theorem closeU64_eq {build : Build} {fuel : Nat} {p : PrefixTracker}
    (h : ∀ w ∈ p.waiting, w.2.1 + 1 < 2 ^ 64) : closeU64 build fuel p = some (close fuel p) := by
  induction fuel generalizing p with
  | zero => rfl
  | succ fuel ih =>
      rw [closeU64, close]
      cases hlookup : p.waiting.lookup p.frontier with
      | none => rfl
      | some w =>
          obtain ⟨last, lastBlock⟩ := w
          have hlast : last + 1 < 2 ^ 64 := h _ (mem_of_lookup hlookup)
          simp only [Build.add, Build.fit_of_lt hlast, Option.bind_eq_bind, Option.bind_some]
          rw [ih fun w hw => h w (List.mem_of_mem_filter hw)]
          rfl

theorem recordU64_eq {build : Build} {p : PrefixTracker} {c : Committed}
    (h : ∀ w ∈ p.waiting, w.2.1 + 1 < 2 ^ 64) (hc : c.hi + 1 < 2 ^ 64) :
    recordU64 build p c = some (p.record c.lo c.hi c.lastBlock) := by
  have hwaiting : ∀ w ∈ (c.lo, c.hi, c.lastBlock) :: p.waiting.filter fun w => w.1 != c.lo,
      w.2.1 + 1 < 2 ^ 64 := by
    intro w hw
    rcases List.mem_cons.mp hw with rfl | hw
    · exact hc
    · exact h w (List.mem_filter.mp hw).1
  rw [recordU64, closeU64_eq hwaiting]
  rfl

/-- The longest run of recorded ranges from the start. -/
def contiguousRun (parts recorded : List Committed) : List Committed :=
  parts.takeWhile fun c => decide (c ∈ recorded)

/-- The ranges from the first gap on. -/
def behindGap (parts recorded : List Committed) : List Committed :=
  parts.dropWhile fun c => decide (c ∈ recorded)

/-- The tracker stands between the ranges it has absorbed and the others. -/
structure Between (target : Nat) (recorded before rest : List Committed) (p : PrefixTracker) :
    Prop where
  absorbed : ∀ c ∈ before, c ∈ recorded
  frontier : ∀ c after, rest = c :: after → p.frontier = c.lo
  done : before ≠ [] → rest = [] → p.frontier = (target + 1) % 2 ^ 64
  waiting : ∀ w, w ∈ p.waiting ↔ ∃ c ∈ recorded, c ∈ rest ∧ w = (c.lo, c.hi, c.lastBlock)
  best : p.best = (before.filterMap Committed.lastBlock).getLast?
  advancedTo : p.advancedTo = before.getLast?.map Committed.hi

section Absorb

variable {build : Build} {start target : Nat} {recorded before rest : List Committed}
  {p : PrefixTracker}

/-- What waits at the frontier is the first range that is not absorbed. -/
theorem Between.of_lookup {c : Committed} {after : List Committed} {w : Waiting}
    (h : Between target recorded before (c :: after) p)
    (hpart : Partition target start (before ++ c :: after))
    (hlookup : p.waiting.lookup p.frontier = some w) :
    c ∈ recorded ∧ w = (c.hi, c.lastBlock) := by
  obtain ⟨next, -, hrest, -⟩ := hpart.append
  obtain ⟨last, lastBlock⟩ := w
  obtain ⟨c', hc', hmem, heq⟩ := (h.waiting _).mp (mem_of_lookup hlookup)
  rw [h.frontier c after rfl, Prod.mk.injEq] at heq
  have hsame := hrest.eq_of_lo hmem List.mem_cons_self heq.1.symm
  subst hsame
  exact ⟨hc', heq.2⟩

theorem Between.lookup_none (h : Between target recorded before rest p)
    (hpart : Partition target start (before ++ rest))
    (hgap : ∀ c after, rest = c :: after → c ∉ recorded) :
    p.waiting.lookup p.frontier = none := by
  cases hlookup : p.waiting.lookup p.frontier with
  | none => rfl
  | some w =>
      cases rest with
      | nil =>
          obtain ⟨last, lastBlock⟩ := w
          obtain ⟨c, -, hmem, -⟩ := (h.waiting _).mp (mem_of_lookup hlookup)
          exact absurd hmem List.not_mem_nil
      | cons c after => exact absurd (h.of_lookup hpart hlookup).1 (hgap c after rfl)

theorem Between.lookup_some {c : Committed} {after : List Committed}
    (h : Between target recorded before (c :: after) p)
    (hpart : Partition target start (before ++ c :: after)) (hc : c ∈ recorded) :
    p.waiting.lookup p.frontier = some (c.hi, c.lastBlock) := by
  cases hlookup : p.waiting.lookup p.frontier with
  | none =>
      have hmem := (h.waiting (c.lo, c.hi, c.lastBlock)).mpr ⟨c, hc, List.mem_cons_self, rfl⟩
      have hne := List.lookup_eq_none_iff.mp hlookup _ hmem
      rw [h.frontier c after rfl] at hne
      simp at hne
  | some w => rw [(h.of_lookup hpart hlookup).2]

/-- The highest matched block of the run is that of the last range with one. -/
theorem better_of_partition {c : Committed} {after : List Committed}
    (hpart : Partition target start (before ++ c :: after)) :
    better (before.filterMap Committed.lastBlock).getLast? c.lastBlock =
      ((before ++ [c]).filterMap Committed.lastBlock).getLast? := by
  obtain ⟨next, -, hrest, hbefore⟩ := hpart.append
  obtain ⟨hlo, -, -, hmatched, -⟩ := hrest
  rw [List.filterMap_append]
  cases hblock : c.lastBlock with
  | none =>
      rw [List.filterMap_cons_none hblock, List.filterMap_nil, List.append_nil]
      rfl
  | some b =>
      obtain ⟨height, hash⟩ := b
      have hall : (before.filterMap Committed.lastBlock).getLast?.all (fun b => b.1 ≤ height) = true := by
        rw [Option.all_eq_true]
        intro b hb
        obtain ⟨c', hc', hb'⟩ := List.mem_filterMap.mp (List.mem_of_getLast? hb)
        have hbelow := hbefore c' hc'
        have hinside := hmatched _ hblock
        have hle := hbelow.2 b hb'
        simp only [decide_eq_true_eq]
        omega
      rw [List.filterMap_cons_some hblock, List.filterMap_nil, List.getLast?_concat, better,
        if_pos hall]

/-- Moving over the first range that is not absorbed. -/
theorem Between.absorb {c : Committed} {after : List Committed} (htarget : target < 2 ^ 64)
    (h : Between target recorded before (c :: after) p)
    (hpart : Partition target start (before ++ c :: after)) (hc : c ∈ recorded) :
    Between target recorded (before ++ [c]) after
      { frontier := (c.hi + 1) % 2 ^ 64
        waiting := p.waiting.filter fun w => w.1 != p.frontier
        best := better p.best c.lastBlock
        advancedTo := some c.hi } := by
  obtain ⟨next, -, hrest, -⟩ := hpart.append
  have hafter := hrest.2.2.2.2
  constructor
  · intro x hx
    rcases List.mem_append.mp hx with hx | hx
    · exact h.absorbed x hx
    · rw [List.mem_singleton.mp hx]
      exact hc
  · intro d after' hafter'
    subst hafter'
    have hd := hafter.1
    have hle := (hafter.le_lo List.mem_cons_self).2
    show (c.hi + 1) % 2 ^ 64 = d.lo
    rw [Nat.mod_eq_of_lt (by omega), hd]
  · intro _ hnil
    rw [hnil] at hafter
    have hend : c.hi + 1 = target + 1 := hafter
    show (c.hi + 1) % 2 ^ 64 = (target + 1) % 2 ^ 64
    rw [hend]
  · intro w
    rw [List.mem_filter, h.waiting, h.frontier c after rfl]
    constructor
    · rintro ⟨⟨x, hx, hmem, rfl⟩, hne⟩
      rcases List.mem_cons.mp hmem with rfl | hmem
      · simp at hne
      · exact ⟨x, hx, hmem, rfl⟩
    · rintro ⟨x, hx, hmem, rfl⟩
      refine ⟨⟨x, hx, List.mem_cons_of_mem _ hmem, rfl⟩, ?_⟩
      have hfirst := hrest.2.1
      have hlater := (hafter.le_lo hmem).1
      show (x.lo != c.lo) = true
      rw [bne_iff_ne]
      omega
  · show better p.best c.lastBlock = _
    rw [h.best]
    exact better_of_partition hpart
  · rw [List.getLast?_concat]
    rfl

theorem add_one {n : Nat} (hbuild : build = .debug → n + 1 < 2 ^ 64) :
    build.add n 1 = some ((n + 1) % 2 ^ 64) := by
  unfold Build.add Build.fit
  split
  · rename_i hlt
    rw [Nat.mod_eq_of_lt hlt]
  · rename_i hge
    cases build with
    | debug => exact absurd (hbuild rfl) hge
    | release => rfl

theorem closeU64_of_none {fuel : Nat} (h : p.waiting.lookup p.frontier = none) :
    closeU64 build fuel p = some (p, false) := by
  cases fuel with
  | zero => rfl
  | succ fuel => rw [closeU64, h]

/-- The loop absorbs the recorded ranges up to the first gap. -/
theorem closeU64_spec (htarget : target < 2 ^ 64) (hbuild : build = .debug → target + 1 < 2 ^ 64)
    {fuel : Nat} (hpart : Partition target start (before ++ rest))
    (h : Between target recorded before rest p) (hfuel : p.waiting.length ≤ fuel) :
    ∃ q, closeU64 build fuel p = some (q, !(contiguousRun rest recorded).isEmpty) ∧
      Between target recorded (before ++ contiguousRun rest recorded) (behindGap rest recorded) q := by
  induction rest generalizing before p fuel with
  | nil =>
      have hnone := h.lookup_none hpart (by simp)
      refine ⟨p, closeU64_of_none hnone, ?_⟩
      rw [contiguousRun, List.takeWhile_nil, List.append_nil]
      exact h
  | cons c after ih =>
      by_cases hc : c ∈ recorded
      · have hsome := h.lookup_some hpart hc
        have hrest : Partition target start ((before ++ [c]) ++ after) := by
          rw [List.append_assoc]
          exact hpart
        have hhi : build = .debug → c.hi + 1 < 2 ^ 64 := by
          intro hdebug
          have hbound := hbuild hdebug
          have hle := (hpart.le_lo (List.mem_append_right _ List.mem_cons_self)).2.2
          omega
        -- The range at the frontier leaves the waiting ones, so the fuel lasts.
        cases fuel with
        | zero =>
            have hnil := List.length_eq_zero_iff.mp (Nat.le_zero.mp hfuel)
            rw [hnil] at hsome
            cases hsome
        | succ fuel =>
            have hshorter : (p.waiting.filter fun w => w.1 != p.frontier).length ≤ fuel := by
              have hlt : (p.waiting.filter fun w => w.1 != p.frontier).length < p.waiting.length :=
                List.length_filter_lt_length_iff_exists.mpr
                  ⟨_, mem_of_lookup hsome, by simp⟩
              omega
            obtain ⟨q, hclose, hq⟩ := ih hrest (h.absorb htarget hpart hc) hshorter
            refine ⟨q, ?_, ?_⟩
            · rw [closeU64, hsome]
              simp only [add_one hhi, Option.bind_eq_bind, Option.bind_some, hclose, contiguousRun,
                List.takeWhile_cons, hc, decide_true, if_true]
              rfl
            · rw [List.append_assoc] at hq
              simp only [contiguousRun, behindGap, List.takeWhile_cons, List.dropWhile_cons, hc,
                decide_true, if_true]
              exact hq
      · have hgap : ∀ d after', c :: after = d :: after' → d ∉ recorded := by
          intro d after' heq
          cases heq
          exact hc
        refine ⟨p, ?_, ?_⟩
        · rw [closeU64_of_none (h.lookup_none hpart hgap)]
          simp [contiguousRun, hc]
        · simpa [contiguousRun, behindGap, hc] using h

end Absorb

def reached (run : List Committed) : Option Nat := run.getLast?.map Committed.hi

/-- The hash of the run's highest matched block, which is not above the checkpoint. -/
def Stamps (run : List Committed) (point : Nat × Hash) : Prop :=
  (run.filterMap Committed.lastBlock = [] ∧ point.2 = ⟨[]⟩) ∨
    ∃ b ∈ run.filterMap Committed.lastBlock, point.2 = b.2 ∧ b.1 ≤ point.1 ∧
      ∀ b' ∈ run.filterMap Committed.lastBlock, b'.1 ≤ b.1

/-- What a call returns and leaves: a checkpoint if the run grew, at its end. -/
structure AfterCall (parts before : List Committed) (c : Committed) (p : PrefixTracker)
    (result : Option (Nat × Hash)) : Prop where
  advancedTo : p.advancedTo = reached (contiguousRun parts (before ++ [c]))
  grew : result.isSome = true ↔
    (contiguousRun parts before).length < (contiguousRun parts (before ++ [c])).length
  height : ∀ point, result = some point → p.advancedTo = some point.1
  hash : ∀ point, result = some point → Stamps (contiguousRun parts (before ++ [c])) point

section Calls

variable {build : Build} {start target : Nat} {parts recorded : List Committed} {p : PrefixTracker}

/-- The tracker after these ranges were recorded. -/
def Tracked (target : Nat) (parts recorded : List Committed) (p : PrefixTracker) : Prop :=
  Between target recorded (contiguousRun parts recorded) (behindGap parts recorded) p

theorem run_append (parts recorded : List Committed) :
    contiguousRun parts recorded ++ behindGap parts recorded = parts :=
  List.takeWhile_append_dropWhile

theorem mem_of_mem_run {c : Committed} (h : c ∈ contiguousRun parts recorded) : c ∈ recorded :=
  of_decide_eq_true (List.all_eq_true.mp List.all_takeWhile c h)

theorem tracked_new (hparts : Partition target start parts) : Tracked target parts [] (new start) := by
  have hrun : contiguousRun parts [] = [] := by
    cases parts with
    | nil => rfl
    | cons c rest => rfl
  have hgap : behindGap parts [] = parts := by
    have hsplit := run_append parts []
    rwa [hrun] at hsplit
  rw [Tracked, hrun, hgap]
  constructor
  · simp
  · intro c after hcons
    rw [hcons] at hparts
    exact hparts.1.symm
  · simp
  · simp [new]
  · rfl
  · rfl

/-- A new range waits with the others. -/
theorem Between.insert {before rest : List Committed} {c : Committed}
    (h : Between target recorded before rest p) (hpart : Partition target start (before ++ rest))
    (hc : c ∈ rest) (hnew : c ∉ recorded) :
    Between target (recorded ++ [c]) before rest
      { p with waiting := (c.lo, c.hi, c.lastBlock) :: p.waiting.filter fun w => w.1 != c.lo } where
  absorbed := fun x hx => List.mem_append_left _ (h.absorbed x hx)
  frontier := h.frontier
  done := h.done
  waiting := by
    intro w
    rw [List.mem_cons, List.mem_filter, h.waiting]
    constructor
    · rintro (rfl | ⟨⟨x, hx, hmem, rfl⟩, -⟩)
      · exact ⟨c, List.mem_append_right _ List.mem_cons_self, hc, rfl⟩
      · exact ⟨x, List.mem_append_left _ hx, hmem, rfl⟩
    · rintro ⟨x, hx, hmem, rfl⟩
      rcases List.mem_append.mp hx with hx | hx
      · -- A range that was recorded before starts elsewhere.
        have hne : x.lo ≠ c.lo := by
          intro hlo
          have hsame := hpart.eq_of_lo (List.mem_append_right _ hmem) (List.mem_append_right _ hc) hlo
          exact hnew (hsame ▸ hx)
        exact .inr ⟨⟨x, hx, hmem, rfl⟩, bne_iff_ne.mpr hne⟩
      · rw [List.mem_singleton.mp hx]
        exact .inl rfl
  best := h.best
  advancedTo := h.advancedTo

/-- After another range the run is the one before and what it closes. -/
theorem run_concat (parts recorded : List Committed) (c : Committed) :
    contiguousRun parts (recorded ++ [c]) =
        contiguousRun parts recorded ++
          contiguousRun (behindGap parts recorded) (recorded ++ [c]) ∧
      behindGap parts (recorded ++ [c]) =
        behindGap (behindGap parts recorded) (recorded ++ [c]) := by
  have hrun : ∀ x ∈ contiguousRun parts recorded, decide (x ∈ recorded ++ [c]) = true := by
    intro x hx
    exact decide_eq_true (List.mem_append_left _ (mem_of_mem_run hx))
  have hsplit := run_append parts recorded
  refine ⟨?_, ?_⟩
  · conv_lhs => rw [← hsplit, contiguousRun, List.takeWhile_append_of_pos hrun]
    rfl
  · conv_lhs => rw [← hsplit, behindGap, List.dropWhile_append_of_pos hrun]
    rfl

/-- What a call returns: the end of the run, if it grew. -/
def checkpoint (parts recorded : List Committed) (c : Committed) (q : PrefixTracker) :
    Option (Nat × Hash) :=
  if (contiguousRun parts recorded).length < (contiguousRun parts (recorded ++ [c])).length then
    q.advancedTo.map fun height => (height, q.bestHash)
  else none

/-- A call moves the tracker over the run as it is after the call. -/
theorem recordU64_spec (htarget : target < 2 ^ 64) (hbuild : build = .debug → target + 1 < 2 ^ 64)
    (hparts : Partition target start parts) (h : Tracked target parts recorded p) {c : Committed}
    (hc : c ∈ parts) (hnew : c ∉ recorded) :
    ∃ q, recordU64 build p c = some (q, checkpoint parts recorded c q) ∧
      Tracked target parts (recorded ++ [c]) q := by
  have hsplit := run_append parts recorded
  have hpart : Partition target start (contiguousRun parts recorded ++ behindGap parts recorded) := by
    rw [hsplit]
    exact hparts
  have hgap : c ∈ behindGap parts recorded := by
    rw [← hsplit] at hc
    rcases List.mem_append.mp hc with hrun | hgap
    · exact absurd (mem_of_mem_run hrun) hnew
    · exact hgap
  obtain ⟨hrun', hgap'⟩ := run_concat parts recorded c
  obtain ⟨q, hclose, hq⟩ := closeU64_spec htarget hbuild hpart (h.insert hpart hgap hnew) le_rfl
  refine ⟨q, ?_, ?_⟩
  · simp only [recordU64, hclose, Option.bind_eq_bind, Option.bind_some, checkpoint, hrun',
      List.length_append]
    cases contiguousRun (behindGap parts recorded) (recorded ++ [c]) with
    | nil => simp
    | cons d closed => simp
  · rw [Tracked, hrun', hgap']
    exact hq

theorem le_getLast {α : Type} {f : α → Nat} {l : List α} {b : α}
    (h : l.Pairwise fun a a' => f a ≤ f a') (hb : l.getLast? = some b) : ∀ a ∈ l, f a ≤ f b := by
  obtain ⟨init, rfl⟩ := List.getLast?_eq_some_iff.mp hb
  intro a ha
  rcases List.mem_append.mp ha with ha | ha
  · exact (List.pairwise_append.mp h).2.2 a ha b List.mem_cons_self
  · rw [List.mem_singleton.mp ha]

theorem run_sublist (parts recorded : List Committed) : (contiguousRun parts recorded).Sublist parts :=
  List.takeWhile_sublist _

/-- The ends of a run ascend. -/
theorem le_reached (hparts : Partition target start parts) {height : Nat} {c : Committed}
    (hheight : reached (contiguousRun parts recorded) = some height)
    (hc : c ∈ contiguousRun parts recorded) : c.hi ≤ height := by
  have hends : (contiguousRun parts recorded).Pairwise fun c c' => c.hi ≤ c'.hi := by
    refine (hparts.pairwise.sublist (run_sublist parts recorded)).imp_of_mem ?_
    intro x y hx hy hlt
    have hle := (hparts.le_lo ((run_sublist parts recorded).subset hy)).2.1
    omega
  obtain ⟨last, hlast, rfl⟩ := Option.map_eq_some_iff.mp hheight
  exact le_getLast hends hlast c hc

/-- So do the heights of its matched blocks. -/
theorem ascending_matched (hparts : Partition target start parts) (recorded : List Committed) :
    ((contiguousRun parts recorded).filterMap Committed.lastBlock).Pairwise
      fun b b' => b.1 ≤ b'.1 := by
  have hsub := run_sublist parts recorded
  rw [List.pairwise_filterMap]
  refine (hparts.pairwise.sublist hsub).imp_of_mem ?_
  intro c c' hc hc' hlt b hb b' hb'
  have hinside := hparts.matched (hsub.subset hc) hb
  have hinside' := hparts.matched (hsub.subset hc') hb'
  omega

theorem stamps_run (hparts : Partition target start parts) (h : Tracked target parts recorded p)
    {height : Nat} (hheight : p.advancedTo = some height) :
    Stamps (contiguousRun parts recorded) (height, p.bestHash) := by
  rw [h.advancedTo] at hheight
  rw [Stamps, bestHash, h.best]
  cases hbest : ((contiguousRun parts recorded).filterMap Committed.lastBlock).getLast? with
  | none => exact .inl ⟨List.getLast?_eq_none_iff.mp hbest, rfl⟩
  | some b =>
      have hmem := List.mem_of_getLast? hbest
      obtain ⟨c, hc, hb⟩ := List.mem_filterMap.mp hmem
      refine .inr ⟨b, hmem, rfl, ?_, ?_⟩
      · have hinside := hparts.matched ((run_sublist parts recorded).subset hc) hb
        exact hinside.2.trans (le_reached hparts hheight hc)
      · exact le_getLast (ascending_matched hparts recorded) hbest

theorem exists_reached {run : List Committed} (h : 0 < run.length) :
    ∃ height, reached run = some height := by
  have hlast := List.getLast?_eq_some_getLast (List.length_pos_iff.mp h)
  exact ⟨_, by rw [reached, hlast, Option.map_some]⟩

/-- A run that grew ends higher. -/
theorem reached_lt (hparts : Partition target start parts) {c : Committed} {height height' : Nat}
    (hgrew : (contiguousRun parts recorded).length <
      (contiguousRun parts (recorded ++ [c])).length)
    (hheight : reached (contiguousRun parts recorded) = some height)
    (hheight' : reached (contiguousRun parts (recorded ++ [c])) = some height') :
    height < height' := by
  have hrun := (run_concat parts recorded c).1
  have hpairwise := hparts.pairwise.sublist (run_sublist parts (recorded ++ [c]))
  rw [hrun] at hpairwise
  rw [hrun, List.length_append] at hgrew
  obtain ⟨last, hlast, rfl⟩ := Option.map_eq_some_iff.mp hheight
  obtain ⟨d, hd⟩ := List.exists_mem_of_length_pos
    (show 0 < (contiguousRun (behindGap parts recorded) (recorded ++ [c])).length by omega)
  have hlt := (List.pairwise_append.mp hpairwise).2.2 last (List.mem_of_getLast? hlast) d hd
  have hmem : d ∈ contiguousRun parts (recorded ++ [c]) := by
    rw [hrun]
    exact List.mem_append_right _ hd
  have hle := (hparts.le_lo ((run_sublist parts _).subset hmem)).2.1
  have hend := le_reached hparts hheight' hmem
  omega

/-- A run that did not grow is the run it was. -/
theorem run_eq_of_not_lt {c : Committed} (hsame : ¬(contiguousRun parts recorded).length <
      (contiguousRun parts (recorded ++ [c])).length) :
    contiguousRun parts (recorded ++ [c]) = contiguousRun parts recorded := by
  have hrun := (run_concat parts recorded c).1
  rw [hrun, List.length_append] at hsame
  have hnil : contiguousRun (behindGap parts recorded) (recorded ++ [c]) = [] :=
    List.length_eq_zero_iff.mp (by omega)
  rw [hrun, hnil, List.append_nil]

theorem of_checkpoint {q : PrefixTracker} {c : Committed} {point : Nat × Hash}
    (h : checkpoint parts recorded c q = some point) :
    ∃ height, q.advancedTo = some height ∧ point = (height, q.bestHash) := by
  rw [checkpoint] at h
  split at h
  · obtain ⟨height, hheight, rfl⟩ := Option.map_eq_some_iff.mp h
    exact ⟨height, hheight, rfl⟩
  · cases h

theorem afterCall {q : PrefixTracker} {c : Committed} (hparts : Partition target start parts)
    (hq : Tracked target parts (recorded ++ [c]) q) :
    AfterCall parts recorded c q (checkpoint parts recorded c q) where
  advancedTo := hq.advancedTo
  grew := by
    rw [checkpoint, hq.advancedTo]
    split
    · rename_i hgrew
      obtain ⟨height, hheight⟩ := exists_reached (Nat.zero_lt_of_lt hgrew)
      rw [show Option.map Committed.hi _ = some height from hheight]
      exact iff_of_true rfl hgrew
    · rename_i hsame
      exact iff_of_false (by simp) hsame
  height := by
    intro point hpoint
    obtain ⟨height, hheight, rfl⟩ := of_checkpoint hpoint
    exact hheight
  hash := by
    intro point hpoint
    obtain ⟨height, hheight, rfl⟩ := of_checkpoint hpoint
    exact stamps_run hparts hq hheight

/-- The heights of the checkpoints, in the order of the calls. -/
def heightsOf (results : List (Option (Nat × Hash))) : List Nat :=
  results.filterMap fun result => result.map Prod.fst

/-- Over any calls the tracker follows the run, and its checkpoints rise. -/
theorem recordAll_spec (htarget : target < 2 ^ 64) (hbuild : build = .debug → target + 1 < 2 ^ 64)
    (hparts : Partition target start parts) {calls : List Committed}
    (h : Tracked target parts recorded p) (hnodup : (recorded ++ calls).Nodup)
    (hcalls : calls ⊆ parts) :
    ∃ q results, recordAll build p calls = some (q, results) ∧
      Tracked target parts (recorded ++ calls) q ∧ (heightsOf results).Pairwise (· < ·) ∧
        ∀ reached, p.advancedTo = some reached → ∀ height ∈ heightsOf results, reached < height := by
  induction calls generalizing recorded p with
  | nil =>
      refine ⟨p, [], rfl, ?_, List.Pairwise.nil, by simp [heightsOf]⟩
      rw [List.append_nil]
      exact h
  | cons c calls ih =>
      have hsplit : recorded ++ c :: calls = (recorded ++ [c]) ++ calls := by
        rw [List.append_assoc, List.singleton_append]
      have hnew : c ∉ recorded := by
        intro hmem
        exact (List.nodup_append.mp hnodup).2.2 c hmem c List.mem_cons_self rfl
      obtain ⟨q, hrecord, hq⟩ := recordU64_spec htarget hbuild hparts h
        (hcalls List.mem_cons_self) hnew
      rw [hsplit] at hnodup ⊢
      obtain ⟨q', results, hall, hq', hpairwise, hrise⟩ := ih hq hnodup
        (List.subset_of_cons_subset hcalls)
      refine ⟨q', checkpoint parts recorded c q :: results, ?_, hq', ?_⟩
      · rw [recordAll, hrecord, Option.bind_eq_bind, Option.bind_some, hall, Option.bind_eq_bind,
          Option.bind_some]
      · by_cases hgrew : (contiguousRun parts recorded).length <
            (contiguousRun parts (recorded ++ [c])).length
        · obtain ⟨height, hheight⟩ := exists_reached (Nat.zero_lt_of_lt hgrew)
          have hadvanced : q.advancedTo = some height := hq.advancedTo.trans hheight
          have hrest := hrise height hadvanced
          rw [checkpoint, if_pos hgrew, hadvanced]
          refine ⟨List.Pairwise.cons hrest hpairwise, ?_⟩
          intro before hbefore height' hheight'
          have hlt := reached_lt hparts hgrew (h.advancedTo.symm.trans hbefore) hheight
          rcases List.mem_cons.mp hheight' with rfl | hlater
          · exact hlt
          · exact hlt.trans (hrest height' hlater)
        · have hadvanced : q.advancedTo = p.advancedTo := by
            rw [hq.advancedTo, run_eq_of_not_lt hgrew, h.advancedTo]
          rw [checkpoint, if_neg hgrew]
          refine ⟨hpairwise, ?_⟩
          intro before hbefore
          exact hrise before (hadvanced.trans hbefore)

/-- When all ranges are recorded, nothing waits and the rest is given by the ranges. -/
theorem Tracked.eq_of_perm {c : Committed} (hc : c ∈ parts) (h : Tracked target parts recorded p)
    (hperm : recorded.Perm parts) :
    p = ⟨(target + 1) % 2 ^ 64, [], (parts.filterMap Committed.lastBlock).getLast?,
      reached parts⟩ := by
  have hall : ∀ x ∈ parts, decide (x ∈ recorded) = true := by
    intro x hx
    exact decide_eq_true (hperm.mem_iff.mpr hx)
  have hrun : contiguousRun parts recorded = parts := List.takeWhile_eq_self_iff.mpr hall
  have hgap : behindGap parts recorded = [] := List.dropWhile_eq_nil_iff.mpr hall
  rw [Tracked, hrun, hgap] at h
  have hwaiting : p.waiting = [] := by
    rw [List.eq_nil_iff_forall_not_mem]
    intro w hw
    obtain ⟨x, -, hx, -⟩ := (h.waiting w).mp hw
    exact absurd hx List.not_mem_nil
  obtain ⟨frontier, waiting, best, advancedTo⟩ := p
  simp only [PrefixTracker.mk.injEq]
  exact ⟨h.done (List.ne_nil_of_mem hc) rfl, hwaiting, h.best, h.advancedTo⟩

end Calls

/-- Whatever the order of the calls, each leaves the tracker at the end of the longest run of
recorded ranges and returns a checkpoint there if the run grew; the checkpoints rise, and when all
ranges are recorded their order is forgotten. -/
theorem maximal_run {build : Build} {start target : Nat} {parts : List Committed}
    (htarget : target < 2 ^ 64) (hbuild : build = .debug → target + 1 < 2 ^ 64)
    (hparts : Partition target start parts) :
    (∀ calls c, (calls ++ [c]).Nodup → calls ++ [c] ⊆ parts →
      ∃ p q results result, recordAll build (new start) calls = some (p, results) ∧
        recordU64 build p c = some (q, result) ∧ AfterCall parts calls c q result) ∧
    (∀ calls, calls.Nodup → calls ⊆ parts →
      ∃ p results, recordAll build (new start) calls = some (p, results) ∧
        (heightsOf results).Pairwise (· < ·)) ∧
    ∀ calls calls', calls.Perm parts → calls'.Perm parts →
      (recordAll build (new start) calls).map Prod.fst =
        (recordAll build (new start) calls').map Prod.fst := by
  have hall : ∀ calls, calls.Nodup → calls ⊆ parts → ∃ p results,
      recordAll build (new start) calls = some (p, results) ∧ Tracked target parts calls p ∧
        (heightsOf results).Pairwise (· < ·) := by
    intro calls hnodup hcalls
    obtain ⟨p, results, hrun, htracked, hpairwise, -⟩ :=
      recordAll_spec htarget hbuild hparts (tracked_new hparts) hnodup hcalls
    exact ⟨p, results, hrun, htracked, hpairwise⟩
  refine ⟨?_, ?_, ?_⟩
  · intro calls c hnodup hcalls
    obtain ⟨hcallsNodup, -, hdisjoint⟩ := List.nodup_append.mp hnodup
    obtain ⟨hsub, hc⟩ := List.append_subset.mp hcalls
    obtain ⟨p, results, hrun, htracked, -⟩ := hall calls hcallsNodup hsub
    have hnew : c ∉ calls := by
      intro hmem
      exact hdisjoint c hmem c List.mem_cons_self rfl
    obtain ⟨q, hrecord, hq⟩ := recordU64_spec htarget hbuild hparts htracked
      (hc List.mem_cons_self) hnew
    exact ⟨p, q, results, _, hrun, hrecord, afterCall hparts hq⟩
  · intro calls hnodup hcalls
    obtain ⟨p, results, hrun, -, hpairwise⟩ := hall calls hnodup hcalls
    exact ⟨p, results, hrun, hpairwise⟩
  · intro calls calls' hperm hperm'
    have hnodup := hparts.nodup
    obtain ⟨p, results, hrun, htracked, -⟩ := hall calls (hperm.nodup_iff.mpr hnodup) hperm.subset
    obtain ⟨q, results', hrun', htracked', -⟩ :=
      hall calls' (hperm'.nodup_iff.mpr hnodup) hperm'.subset
    rw [hrun, hrun', Option.map_some, Option.map_some, Option.some.injEq]
    cases parts with
    | nil =>
        rw [hperm.eq_nil] at hrun
        rw [hperm'.eq_nil, hrun] at hrun'
        exact congrArg Prod.fst (Option.some.inj hrun')
    | cons c rest =>
        exact (htracked.eq_of_perm List.mem_cons_self hperm).trans
          (htracked'.eq_of_perm List.mem_cons_self hperm').symm

theorem maximal_run_out_of_order :
    ∃ p results, recordAll .release (new 1)
        [⟨11, 20, none⟩, ⟨21, 2 ^ 64 - 1, some (25, ⟨[5]⟩)⟩, ⟨1, 10, some (3, ⟨[3]⟩)⟩] =
        some (p, results) ∧ (heightsOf results).Pairwise (· < ·) := by
  have hparts : Partition (2 ^ 64 - 1) 1
      [⟨1, 10, some (3, ⟨[3]⟩)⟩, ⟨11, 20, none⟩, ⟨21, 2 ^ 64 - 1, some (25, ⟨[5]⟩)⟩] := by
    simp [Partition]
  have hbuild : Build.release = .debug → 2 ^ 64 - 1 + 1 < 2 ^ 64 := by simp
  exact (maximal_run (by decide) hbuild hparts).2.1 _ (by decide) (by decide)

end PrefixTracker

end Topic0.Pipeline
