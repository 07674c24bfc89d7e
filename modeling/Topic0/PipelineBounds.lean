import Topic0.PipelinePlan
import Topic0.SourceFetch

/-! Planning in `u64`. `fetch_target`, `plan_ranges` and the seeding loop of `fetch_records` add and
multiply heights without a check: where a result does not fit, a build with overflow checks panics
and a release build goes on with the value modulo `2 ^ 64`. The two loops are one loop, over the step
of the plan or over a suggested span. What they compute is the plan over the natural numbers as long
as every round stays below `2 ^ 64`, and the last planned range decides that for all of them. -/

namespace Topic0

namespace Build

/-- The `u64` for a result; `none` is a panic. -/
def fit (build : Build) (n : Nat) : Option Nat :=
  if n < 2 ^ 64 then some n
  else
    match build with
    | .debug => none
    | .release => some (n % 2 ^ 64)

def add (build : Build) (a b : Nat) : Option Nat := build.fit (a + b)

def mul (build : Build) (a b : Nat) : Option Nat := build.fit (a * b)

def sub (build : Build) (a b : Nat) : Option Nat :=
  if b ≤ a then some (a - b)
  else
    match build with
    | .debug => none
    | .release => some (a + 2 ^ 64 - b)

variable {build : Build} {a b : Nat}

theorem fit_of_lt {n : Nat} (h : n < 2 ^ 64) : build.fit n = some n := if_pos h

theorem lt_of_fit {n m : Nat} (h : Build.debug.fit n = some m) : n < 2 ^ 64 ∧ m = n := by
  unfold fit at h
  split at h
  · rename_i hlt
    cases h
    exact ⟨hlt, rfl⟩
  · cases h

/-- Without overflow checks an operation always has a result. -/
theorem exists_fit (n : Nat) : ∃ m, Build.release.fit n = some m ∧ m < 2 ^ 64 := by
  unfold fit
  split
  · rename_i hlt
    exact ⟨n, rfl, hlt⟩
  · exact ⟨n % 2 ^ 64, rfl, Nat.mod_lt _ (by decide)⟩

theorem exists_sub (a : Nat) : ∃ m, Build.release.sub a 1 = some m := by
  unfold sub
  split
  · exact ⟨_, rfl⟩
  · exact ⟨_, rfl⟩

theorem sub_one (h : 0 < a) : build.sub a 1 = some (a - 1) := if_pos h

end Build

namespace Pipeline

/-- `fetch_target`. -/
def fetchTargetU64 (build : Build) (safe next step rangeConcurrency : Nat) (mustFetch : Bool) :
    Option Nat :=
  if mustFetch then do
    let blocks ← build.mul step rangeConcurrency
    let past ← build.add next blocks
    let last ← build.sub past 1
    some (min safe last)
  else some safe

/-- The end of the range that starts at `s`, and the start of the next one. -/
def rangeEnd (build : Build) (target step s : Nat) : Option (Nat × Nat) := do
  let past ← build.add s step
  let last ← build.sub past 1
  let e := min last target
  let next ← build.add e 1
  some (e, next)

/-- One round of the loop of `plan_ranges`, and of the seeding loop with a span for the step. -/
def planStep (build : Build) (target step : Nat) (s : Nat × List Range) :
    (Nat × List Range) ⊕ Option (List Range) :=
  if s.1 ≤ target then
    match rangeEnd build target step s.1 with
    | none => .inr none
    | some (e, next) => .inl (next, s.2 ++ [(s.1, e)])
  else .inr (some s.2)

/-- The ranges of the loop over `[next..=target]`, given enough rounds. -/
def Plans (build : Build) (next target step : Nat) (ranges : List Range) : Prop :=
  ∃ fuel, Loop.run (planStep build target step) fuel (next, []) = some (some ranges)

/-- Consecutive ranges of at most `step` blocks that hold exactly the window. -/
structure Exact (next target step : Nat) (ranges : List Range) : Prop where
  covered : ∀ b, Covered ranges b ↔ next ≤ b ∧ b ≤ target
  ascending : ranges.Pairwise fun r r' => r.2 < r'.1
  contiguous : ranges.IsChain fun r r' => r'.1 = r.2 + 1
  length : ∀ r ∈ ranges, r.1 ≤ r.2 ∧ r.2 + 1 ≤ r.1 + step

/-- No operation overflows, the window is planned exactly, each planned range can be seeded whatever
span is suggested, and a fetch gets a target of its window. -/
structure ExactPlanning (build : Build) (safe next target step rangeConcurrency : Nat) : Prop where
  fetchTarget : ∀ mustFetch, ∃ t,
    fetchTargetU64 build safe next step rangeConcurrency mustFetch = some t ∧
      (mustFetch = true → next ≤ safe → next ≤ t ∧ t ≤ safe)
  plan : ∃ ranges, Plans build next target step ranges ∧ Exact next target step ranges ∧
    ∀ profile : RpcLogSource.PlanProfile, max profile.maxGetlogsBlocks.toNat 1 = step →
      ∀ density, ∀ r ∈ ranges, ∃ chunks,
        Plans build r.1 r.2 (RpcLogSource.suggestedSpan profile density) chunks

/-- Where the last planned range starts. -/
def lastStart (next target step : Nat) : Nat := next + (target - next) / step * step

/-- What has to stay below `2 ^ 64`: the end of one pipeline's worth of ranges and, unless the window
is empty, the last planned range lengthened to a step, or to two spans that are one block shorter
than it. -/
def FitsU64 (next target step rangeConcurrency : Nat) : Prop :=
  next + step * rangeConcurrency < 2 ^ 64 ∧
    (next ≤ target → lastStart next target step +
      max step (2 * (target - lastStart next target step)) < 2 ^ 64)

section Rounds

variable {build : Build} {target step : Nat}

/-- Every round from `s` on stays below `2 ^ 64`. -/
def RoundsFit (target step s : Nat) : Prop :=
  ∀ k, s + k * step ≤ target → s + k * step + step < 2 ^ 64

theorem rangeEnd_of_lt {s : Nat} (hstep : 0 < step) (h : s + step < 2 ^ 64) :
    rangeEnd build target step s = some (min (s + step - 1) target, min (s + step - 1) target + 1) := by
  have hnext : min (s + step - 1) target + 1 < 2 ^ 64 := by omega
  simp only [rangeEnd, Build.add, Build.fit_of_lt h, Build.sub_one (show 0 < s + step by omega),
    Build.fit_of_lt hnext, Option.bind_eq_bind, Option.bind_some]

theorem of_rangeEnd {s : Nat} {r : Nat × Nat} (hstep : 0 < step)
    (h : rangeEnd .debug target step s = some r) :
    s + step < 2 ^ 64 ∧ r = (min (s + step - 1) target, min (s + step - 1) target + 1) := by
  obtain ⟨past, hpast, -⟩ := Option.bind_eq_some_iff.mp h
  have hlt := (Build.lt_of_fit hpast).1
  rw [rangeEnd_of_lt hstep hlt, Option.some.injEq] at h
  exact ⟨hlt, h.symm⟩

theorem planStep_of_lt {s : Nat} (hstep : 0 < step) (hs : s ≤ target) (h : s + step < 2 ^ 64)
    (ranges : List Range) :
    planStep build target step (s, ranges) =
      .inl (min (s + step - 1) target + 1, ranges ++ [(s, min (s + step - 1) target)]) := by
  simp only [planStep, if_pos hs, rangeEnd_of_lt hstep h]

theorem RoundsFit.next {s : Nat} (hstep : 0 < step) (h : RoundsFit target step s) :
    RoundsFit target step (min (s + step - 1) target + 1) := by
  intro k hk
  have hround := h (k + 1)
  rw [Nat.succ_mul] at hround
  omega

/-- As long as the rounds fit, the loop computes the plan over the natural numbers. -/
theorem run_planStep (hstep : 0 < step) (fuel s : Nat) (ranges : List Range)
    (hfuel : target + 1 - s ≤ fuel) (h : RoundsFit target step s) :
    Loop.run (planStep build target step) (fuel + 1) (s, ranges) =
      some (some (ranges ++ planFrom target step fuel s)) := by
  induction fuel generalizing s ranges with
  | zero =>
      have hs : ¬s ≤ target := by omega
      simp [Loop.run, planStep, if_neg hs, planFrom]
  | succ fuel ih =>
      by_cases hs : s ≤ target
      · have hround := h 0
        rw [Nat.zero_mul, Nat.add_zero] at hround
        rw [Loop.run, planStep_of_lt hstep hs (hround hs), planFrom, if_pos hs]
        show Loop.run (planStep build target step) (fuel + 1) _ = _
        rw [ih _ _ (by omega) (h.next hstep), List.append_assoc, List.singleton_append]
      · simp [Loop.run, planStep, if_neg hs, planFrom]

theorem plans_of_roundsFit {next : Nat} (hstep : 0 < step) (h : RoundsFit target step next) :
    Plans build next target step (planRanges next target step) :=
  ⟨target + 1 - next + 1, run_planStep hstep _ next [] le_rfl h⟩

/-- With overflow checks, a loop that returns has stayed below `2 ^ 64`. -/
theorem roundsFit_of_run (hstep : 0 < step) {fuel s : Nat} {ranges result : List Range}
    (h : Loop.run (planStep .debug target step) fuel (s, ranges) = some (some result)) :
    RoundsFit target step s := by
  induction fuel generalizing s ranges with
  | zero => cases h
  | succ fuel ih =>
      intro k hk
      have hs : s ≤ target := by omega
      rw [Loop.run, planStep, if_pos hs] at h
      cases hend : rangeEnd .debug target step s with
      | none =>
          rw [hend] at h
          cases h
      | some r =>
          obtain ⟨hlt, rfl⟩ := of_rangeEnd hstep hend
          rw [hend] at h
          cases k with
          | zero => omega
          | succ k =>
              rw [Nat.succ_mul] at hk ⊢
              have hround := ih h k
              omega

theorem roundsFit_of_plans {next : Nat} {ranges : List Range} (hstep : 0 < step)
    (h : Plans .debug next target step ranges) : RoundsFit target step next := by
  obtain ⟨fuel, hrun⟩ := h
  exact roundsFit_of_run hstep hrun

theorem Plans.unique {next : Nat} {ranges ranges' : List Range}
    (h : Plans build next target step ranges) (h' : Plans build next target step ranges') :
    ranges = ranges' := by
  obtain ⟨fuel, hrun⟩ := h
  obtain ⟨fuel', hrun'⟩ := h'
  exact Option.some.inj (Loop.run_unique hrun hrun')

/-- Without them no block lies past the end of `u64`, so a window up to it is planned for ever. -/
theorem run_release_max (fuel s : Nat) (ranges : List Range) (hs : s < 2 ^ 64) :
    Loop.run (planStep .release (2 ^ 64 - 1) step) fuel (s, ranges) = none := by
  induction fuel generalizing s ranges with
  | zero => rfl
  | succ fuel ih =>
      obtain ⟨past, hpast, -⟩ := Build.exists_fit (s + step)
      obtain ⟨last, hlast⟩ := Build.exists_sub past
      obtain ⟨next, hnext, hlt⟩ := Build.exists_fit (min last (2 ^ 64 - 1) + 1)
      have hend : rangeEnd .release (2 ^ 64 - 1) step s =
          some (min last (2 ^ 64 - 1), next) := by
        simp only [rangeEnd, Build.add, hpast, hlast, hnext, Option.bind_eq_bind, Option.bind_some]
      rw [Loop.run, planStep, if_pos (Nat.le_sub_one_of_lt hs), hend]
      exact ih next _ hlt

end Rounds

section Plan

variable {next target step : Nat}

/-- The planned ranges start a step apart and are cut off at the target only. -/
theorem start_of_mem_planFrom {fuel s : Nat} {r : Range} (hstep : 0 < step)
    (h : r ∈ planFrom target step fuel s) :
    r.1 ≤ target ∧ ∃ k, r.1 = s + k * step ∧ r.2 = min (r.1 + step - 1) target := by
  refine of_mem_planFrom (P := fun s r =>
    r.1 ≤ target ∧ ∃ k, r.1 = s + k * step ∧ r.2 = min (r.1 + step - 1) target) ?_ ?_ h
  · intro s hle
    exact ⟨hle, 0, by omega, rfl⟩
  · intro s r hr
    obtain ⟨hle, k, hlo, hhi⟩ := hr
    refine ⟨hle, k + 1, ?_, hhi⟩
    rw [Nat.succ_mul]
    omega

theorem isChain_planFrom (fuel s : Nat) :
    (planFrom target step fuel s).IsChain fun r r' => r'.1 = r.2 + 1 := by
  induction fuel generalizing s with
  | zero => exact List.IsChain.nil
  | succ fuel ih =>
      rw [planFrom]
      split
      · refine List.IsChain.cons (ih _) ?_
        intro r hr
        cases fuel with
        | zero => cases hr
        | succ fuel =>
            rw [planFrom] at hr
            split at hr
            · cases hr
              rfl
            · cases hr
      · exact List.IsChain.nil

/-- Over the natural numbers the plan is exact. -/
theorem exact_planRanges (hstep : 0 < step) :
    Exact next target step (planRanges next target step) where
  covered := fun _ => covered_planRanges hstep
  ascending := pairwise_planFrom hstep _ _
  contiguous := isChain_planFrom _ _
  length := by
    intro r hr
    refine ⟨(mem_planFrom hr hstep).2.1, ?_⟩
    have hlen := length_planFrom hr
    rwa [max_eq_left (show 1 ≤ step from hstep)] at hlen

theorem lastStart_le (h : next ≤ target) : lastStart next target step ≤ target := by
  have hle : (target - next) / step * step ≤ target - next := Nat.div_mul_le_self _ _
  rw [lastStart]
  omega

/-- A round that starts by the target starts by the last one. -/
theorem round_le_lastStart {k : Nat} (hstep : 0 < step) (h : next + k * step ≤ target) :
    next + k * step ≤ lastStart next target step := by
  have hk : k ≤ (target - next) / step := by
    apply (Nat.le_div_iff_mul_le hstep).mpr
    omega
  exact Nat.add_le_add_left (Nat.mul_le_mul_right step hk) next

theorem roundsFit_iff (hstep : 0 < step) (hle : next ≤ target) :
    RoundsFit target step next ↔ lastStart next target step + step < 2 ^ 64 := by
  constructor
  · intro h
    exact h _ (lastStart_le hle)
  · intro h k hk
    have hround := round_le_lastStart hstep hk
    omega

/-- Any other planned range ends before the last one starts. -/
theorem eq_last_or_lt {r : Range} (hstep : 0 < step) (h : r ∈ planRanges next target step) :
    (r.1 = lastStart next target step ∧ r.2 ≤ target) ∨ r.2 < lastStart next target step := by
  obtain ⟨-, k, hstart, hend⟩ := start_of_mem_planFrom hstep h
  have hmem := mem_planFrom h hstep
  by_cases hnext : next + (k + 1) * step ≤ target
  · have hround := round_le_lastStart hstep hnext
    rw [Nat.succ_mul] at hround
    exact .inr (by omega)
  · have hquot : (target - next) / step = k := by
      apply Nat.div_eq_of_lt_le
      · omega
      · omega
    refine .inl ⟨?_, hmem.2.2⟩
    rw [lastStart, hquot]
    exact hstart

/-- The last planned range. -/
theorem last_mem_planRanges (hstep : 0 < step) (hle : next ≤ target) :
    (lastStart next target step, target) ∈ planRanges next target step := by
  obtain ⟨r, hr, -, hhi⟩ := (covered_planRanges hstep).mpr ⟨hle, le_rfl⟩
  have hlast : lastStart next target step ≤ target := lastStart_le hle
  have hr2 : r.2 = target := le_antisymm (mem_planFrom hr hstep).2.2 hhi
  rcases eq_last_or_lt hstep hr with ⟨hr1, -⟩ | hlt
  · have heq : r = (lastStart next target step, target) := Prod.ext hr1 hr2
    rwa [heq] at hr
  · omega

end Plan

section Seeding

open RpcLogSource

variable {safe next target step rangeConcurrency : Nat}

theorem suggestedSpan_le (profile : PlanProfile) (density : Nat) :
    suggestedSpan profile density ≤ max profile.maxGetlogsBlocks.toNat 1 := by
  rw [suggestedSpan]
  split
  · exact le_rfl
  · exact min_le_right _ _

/-- Every span up to the step is suggested under some result cap. -/
theorem exists_suggestedSpan {span : Nat} (hpos : 0 < span) (hle : span ≤ step)
    (hlt : step < 2 ^ 32) : ∃ profile : PlanProfile,
      max profile.maxGetlogsBlocks.toNat 1 = step ∧ suggestedSpan profile 800 = span := by
  have hblocks : (UInt32.ofNat step).toNat = step := UInt32.toNat_ofNat_of_lt' hlt
  have hresults : (UInt32.ofNat span).toNat = span :=
    UInt32.toNat_ofNat_of_lt' (Nat.lt_of_le_of_lt hle hlt)
  have hmax : max step 1 = step := max_eq_left (by omega)
  have hcap : ¬(span = 0 ∨ 800 = 0) := by omega
  have hmul : saturatingMul span 800 = span * 800 := min_eq_left (by omega)
  refine ⟨⟨UInt32.ofNat step, UInt32.ofNat span⟩, ?_, ?_⟩
  · rw [hblocks, hmax]
  · rw [suggestedSpan, hblocks, hresults, hmax, if_neg hcap, hmul, Nat.mul_div_cancel _ (by decide)]
    omega

/-- A span of at most a step that starts in a planned range ends below `2 ^ 64`. -/
theorem roundsFit_span {r : Range} {span : Nat} (hstep : 0 < step) (hle : span ≤ step)
    (hfit : FitsU64 next target step rangeConcurrency) (hr : r ∈ planRanges next target step) :
    RoundsFit r.2 span r.1 := by
  intro k hk
  have hmem := mem_planFrom hr hstep
  have hbound := hfit.2 (by omega)
  rcases eq_last_or_lt hstep hr with ⟨hstart, hend⟩ | hlt
  · cases k with
    | zero => omega
    | succ k =>
        rw [Nat.succ_mul] at hk ⊢
        omega
  · omega

/-- What fits is planned exactly, in either build. -/
theorem exactPlanning_of_fits {build : Build} (hstep : 1 ≤ step) (hrc : 1 ≤ rangeConcurrency)
    (hfit : FitsU64 next target step rangeConcurrency) :
    ExactPlanning build safe next target step rangeConcurrency where
  fetchTarget := by
    intro mustFetch
    cases mustFetch with
    | false => exact ⟨safe, rfl, by simp⟩
    | true =>
        have hpos : 1 ≤ step * rangeConcurrency := Nat.mul_pos hstep hrc
        have hpast := hfit.1
        refine ⟨min safe (next + step * rangeConcurrency - 1), ?_, by omega⟩
        simp only [fetchTargetU64, if_true, Build.mul, Build.add,
          Build.fit_of_lt (show step * rangeConcurrency < 2 ^ 64 by omega), Build.fit_of_lt hpast,
          Build.sub_one (show 0 < next + step * rangeConcurrency by omega), Option.bind_eq_bind,
          Option.bind_some]
  plan := by
    have hrounds : RoundsFit target step next := by
      intro k hk
      have hround := round_le_lastStart hstep hk
      have hbound := hfit.2 (by omega)
      omega
    refine ⟨planRanges next target step, plans_of_roundsFit hstep hrounds,
      exact_planRanges hstep, ?_⟩
    intro profile hprofile density r hr
    have hspan := suggestedSpan_le profile density
    rw [hprofile] at hspan
    exact ⟨_, plans_of_roundsFit (suggestedSpan_bounds profile density).1
      (roundsFit_span hstep hspan hfit hr)⟩

/-- With overflow checks, what is planned fits. -/
theorem fits_of_exactPlanning (hstep : 1 ≤ step) (hlt : step < 2 ^ 32)
    (h : ExactPlanning .debug safe next target step rangeConcurrency) :
    FitsU64 next target step rangeConcurrency := by
  refine ⟨?_, ?_⟩
  · obtain ⟨t, ht, -⟩ := h.fetchTarget true
    rw [fetchTargetU64, if_pos rfl] at ht
    obtain ⟨blocks, hblocks, ht⟩ := Option.bind_eq_some_iff.mp ht
    obtain ⟨past, hpast, -⟩ := Option.bind_eq_some_iff.mp ht
    obtain ⟨-, rfl⟩ := Build.lt_of_fit hblocks
    exact (Build.lt_of_fit hpast).1
  · intro hle
    obtain ⟨ranges, hplans, -, hseeds⟩ := h.plan
    have hrounds := roundsFit_of_plans hstep hplans
    have heq : ranges = planRanges next target step :=
      hplans.unique (plans_of_roundsFit hstep hrounds)
    have hround := (roundsFit_iff hstep hle).mp hrounds
    have hlast := last_mem_planRanges hstep hle
    have hstart : lastStart next target step ≤ target := lastStart_le hle
    -- Two spans that are one block shorter than the last range are the longest two rounds of it.
    by_cases hspan : target - lastStart next target step = 0
    · omega
    · have hlen := ((exact_planRanges hstep).length _ hlast).2
      obtain ⟨profile, hprofile, hsuggested⟩ := exists_suggestedSpan
        (show 0 < target - lastStart next target step by omega) (by omega) hlt
      rw [← heq] at hlast
      obtain ⟨chunks, hchunks⟩ := hseeds profile hprofile 800 _ hlast
      rw [hsuggested] at hchunks
      have hspans := roundsFit_of_plans (by omega) hchunks 1
      simp only [Nat.one_mul] at hspans
      omega

/-- Planning is exact and free of overflow, in both builds, exactly where it fits. -/
theorem exactPlanning_iff (hstep : 1 ≤ step) (hlt : step < 2 ^ 32) (hrc : 1 ≤ rangeConcurrency) :
    (∀ build, ExactPlanning build safe next target step rangeConcurrency) ↔
      FitsU64 next target step rangeConcurrency := by
  constructor
  · intro h
    exact fits_of_exactPlanning hstep hlt (h .debug)
  · intro hfit build
    exact exactPlanning_of_fits hstep hrc hfit

theorem exactPlanning_backfill :
    FitsU64 22000000 22999999 2000 4 ∧
      ∀ build, ExactPlanning build 23000000 22000000 22999999 2000 4 := by
  have hfits : FitsU64 22000000 22999999 2000 4 := by
    unfold FitsU64 lastStart
    omega
  exact ⟨hfits, (exactPlanning_iff (by decide) (by decide) (by decide)).mpr hfits⟩

/-- A backfill up to the last `u64` panics with overflow checks and is planned for ever without. -/
theorem backfill_max_overflows :
    (¬∀ safe next target step rangeConcurrency : Nat, safe < 2 ^ 64 → next < 2 ^ 64 →
      target < 2 ^ 64 → 1 ≤ step → step < 2 ^ 32 → 1 ≤ rangeConcurrency →
        ∀ build, ExactPlanning build safe next target step rangeConcurrency) ∧
      ∀ fuel, Loop.run (planStep .release (2 ^ 64 - 1) 10) fuel (2 ^ 64 - 6, []) = none := by
  refine ⟨?_, ?_⟩
  · intro h
    obtain ⟨ranges, hplans, -⟩ := (h (2 ^ 64 - 1) (2 ^ 64 - 6) (2 ^ 64 - 1) 10 1 (by decide)
      (by decide) (by decide) (by decide) (by decide) (by decide) .debug).plan
    have hround := roundsFit_of_plans (by decide) hplans 0
    omega
  · intro fuel
    exact run_release_max fuel _ _ (by decide)

end Seeding

end Pipeline

end Topic0
