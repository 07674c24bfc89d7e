import Topic0.SharedModel

/-! Range planning and the contiguous-prefix tracker of the fetch → write pipeline. Concurrent
fetches commit out of order, while the cursor may only move over a gap-free run from the block the
drive started at: the tracker keeps a committed range waiting until the ranges before it arrive. -/

namespace Topic0.Pipeline

/-- An inclusive range of heights. -/
abbrev Range := Nat × Nat

/-- Some range holds the block. -/
def Covered (ranges : List Range) (b : Nat) : Prop := ∃ r ∈ ranges, r.1 ≤ b ∧ b ≤ r.2

instance (ranges : List Range) (b : Nat) : Decidable (Covered ranges b) :=
  inferInstanceAs (Decidable (∃ r ∈ ranges, r.1 ≤ b ∧ b ≤ r.2))

theorem Covered.cons {ranges : List Range} {b : Nat} (r : Range) (h : Covered ranges b) :
    Covered (r :: ranges) b := by
  obtain ⟨r', hr', hb⟩ := h
  exact ⟨r', List.mem_cons_of_mem _ hr', hb⟩

theorem covered_cons {ranges : List Range} {b lo hi : Nat} :
    Covered ((lo, hi) :: ranges) b ↔ Covered ranges b ∨ (lo ≤ b ∧ b ≤ hi) := by
  constructor
  · rintro ⟨r, hr, hb⟩
    rcases List.mem_cons.mp hr with rfl | hr
    · exact .inr hb
    · exact .inl ⟨r, hr, hb⟩
  · rintro (h | hb)
    · exact h.cons _
    · exact ⟨(lo, hi), List.mem_cons_self, hb⟩

/-- Upper bound of one fetch iteration: the whole safe tip when nothing has to be fetched, else
one pipeline's worth of ranges. -/
def fetchTarget (safe next step rangeConcurrency : Nat) (mustFetch : Bool) : Nat :=
  if mustFetch then min safe (next + step * rangeConcurrency - 1) else safe

/-- The planning loop; `fuel` bounds its iterations. -/
def planFrom (target step : Nat) : Nat → Nat → List Range
  | 0, _ => []
  | fuel + 1, s =>
      if s ≤ target then
        let e := min (s + step - 1) target
        (s, e) :: planFrom target step fuel (e + 1)
      else []

/-- Chunk `[next..=target]` into provider-sized ranges; every caller passes a positive step. -/
def planRanges (next target step : Nat) : List Range := planFrom target step (target + 1 - next) next

example : planRanges 1 25 10 = [(1, 10), (11, 20), (21, 25)] := rfl

/-- What holds of the first range of every plan, and of a planned range also when the plan starts one
range earlier, holds of all planned ranges. -/
theorem of_mem_planFrom {target step : Nat} {P : Nat → Range → Prop}
    (hfirst : ∀ s, s ≤ target → P s (s, min (s + step - 1) target))
    (hlater : ∀ s r, P (min (s + step - 1) target + 1) r → P s r)
    {fuel s : Nat} {r : Range} (h : r ∈ planFrom target step fuel s) : P s r := by
  induction fuel generalizing s with
  | zero => exact absurd h List.not_mem_nil
  | succ fuel ih =>
      rw [planFrom] at h
      split at h
      · rename_i hs
        rcases List.mem_cons.mp h with rfl | h
        · exact hfirst s hs
        · exact hlater s r (ih h)
      · exact absurd h List.not_mem_nil

theorem mem_planFrom {target step fuel : Nat} {s : Nat} {r : Range}
    (h : r ∈ planFrom target step fuel s) (hs : 0 < step) :
    s ≤ r.1 ∧ r.1 ≤ r.2 ∧ r.2 ≤ target := by
  refine of_mem_planFrom (P := fun s r => s ≤ r.1 ∧ r.1 ≤ r.2 ∧ r.2 ≤ target) ?_ ?_ h
  · intro s hle
    refine ⟨le_rfl, ?_, min_le_right _ _⟩
    show s ≤ min (s + step - 1) target
    omega
  · intro s r hr
    omega

theorem covered_planFrom {target step fuel : Nat} {s b : Nat} (hstep : 0 < step)
    (hfuel : target + 1 - s ≤ fuel) (hs : s ≤ b) (hb : b ≤ target) :
    Covered (planFrom target step fuel s) b := by
  induction fuel generalizing s with
  | zero => omega
  | succ fuel ih =>
      rw [planFrom, if_pos (hs.trans hb)]
      rw [covered_cons]
      by_cases hmem : b ≤ min (s + step - 1) target
      · exact .inr ⟨hs, hmem⟩
      · refine .inl (ih ?_ ?_)
        · omega
        · omega

/-- The planned ranges cover exactly the window. -/
theorem covered_planRanges {next target step b : Nat} (hstep : 0 < step) :
    Covered (planRanges next target step) b ↔ next ≤ b ∧ b ≤ target := by
  constructor
  · rintro ⟨r, hr, hb⟩
    have hmem := mem_planFrom hr hstep
    omega
  · rintro ⟨hnext, hb⟩
    exact covered_planFrom hstep le_rfl hnext hb

/-- No planned range is longer than a step. -/
theorem length_planFrom {target step fuel s : Nat} {r : Range}
    (h : r ∈ planFrom target step fuel s) : r.2 + 1 ≤ r.1 + max step 1 := by
  refine of_mem_planFrom (P := fun _ r => r.2 + 1 ≤ r.1 + max step 1) ?_ ?_ h
  · intro s hle
    show min (s + step - 1) target + 1 ≤ s + max step 1
    omega
  · intro s r hr
    exact hr

/-- Planned ranges follow each other. -/
theorem pairwise_planFrom {target step : Nat} (hstep : 0 < step) (fuel s : Nat) :
    (planFrom target step fuel s).Pairwise fun r r' => r.2 < r'.1 := by
  induction fuel generalizing s with
  | zero => exact List.Pairwise.nil
  | succ fuel ih =>
      rw [planFrom]
      split
      · refine List.Pairwise.cons (fun r hr => ?_) (ih _)
        exact (mem_planFrom hr hstep).1
      · exact List.Pairwise.nil

/-- A block is in one planned range only. -/
theorem eq_of_mem_planRanges {next target step b : Nat} {r r' : Range} (hstep : 0 < step)
    (h : r ∈ planRanges next target step) (h' : r' ∈ planRanges next target step)
    (hb : r.1 ≤ b ∧ b ≤ r.2) (hb' : r'.1 ≤ b ∧ b ≤ r'.2) : r = r' := by
  have hpairwise : (planRanges next target step).Pairwise fun r r' => r.2 < r'.1 :=
    pairwise_planFrom hstep _ _
  refine List.Pairwise.forall_of_forall_of_flip
    (R := fun r r' => r.1 ≤ b ∧ b ≤ r.2 → r'.1 ≤ b ∧ b ≤ r'.2 → r = r') (fun _ _ _ _ => rfl)
    (hpairwise.imp ?_) (hpairwise.imp ?_) h h' hb hb'
  · intro r r' hlt hb hb'
    omega
  · intro r r' hlt hb' hb
    omega

theorem nodup_planRanges {next target step : Nat} (hstep : 0 < step) :
    (planRanges next target step).Nodup := by
  refine (pairwise_planFrom hstep _ _).imp_of_mem ?_
  intro r r' hr hr' hlt heq
  subst heq
  have hle := (mem_planFrom hr hstep).2.1
  omega

/-- A step longer than the window is as good as the window. -/
theorem planFrom_min {lo target step fuel s : Nat} (hs : lo ≤ s) :
    planFrom target (min step (target + 1 - lo)) fuel s = planFrom target step fuel s := by
  induction fuel generalizing s with
  | zero => rfl
  | succ fuel ih =>
      rw [planFrom, planFrom]
      split
      · have hend : min (s + min step (target + 1 - lo) - 1) target =
            min (s + step - 1) target := by omega
        have hnext : lo ≤ min (s + step - 1) target + 1 := by omega
        simp only [hend, ih hnext]
      · rfl

/-- What the tracker remembers of a committed range: its end and its highest matched block. -/
abbrev Waiting := Nat × Option (Nat × Hash)

structure PrefixTracker where
  /-- Start of the next range that would extend the prefix. -/
  frontier : Nat
  /-- Committed ranges waiting on an earlier gap, keyed by their start. -/
  waiting : List (Nat × Waiting)
  /-- Highest matched block of the prefix. -/
  best : Option (Nat × Hash)
  /-- Highest block of the prefix. -/
  advancedTo : Option Nat
  deriving DecidableEq, Repr

namespace PrefixTracker

def new (start : Nat) : PrefixTracker := ⟨start, [], none, none⟩

def bestHash (p : PrefixTracker) : Hash := (p.best.map Prod.snd).getD ⟨[]⟩

/-- The better of the prefix's best block and a range's last block; a tie goes to the range. -/
def better (best : Option (Nat × Hash)) : Option (Nat × Hash) → Option (Nat × Hash)
  | none => best
  | some (h, hash) => if best.all fun b => b.1 ≤ h then some (h, hash) else best

/-- The loop of `record`: absorb the range that starts at the frontier, as long as there is one.
The flag says whether any was; `fuel` bounds the number of waiting ranges. -/
def close : Nat → PrefixTracker → PrefixTracker × Bool
  | 0, p => (p, false)
  | fuel + 1, p =>
      match p.waiting.lookup p.frontier with
      | none => (p, false)
      | some (last, lastBlock) =>
          ((close fuel
            { frontier := last + 1
              waiting := p.waiting.filter fun w => w.1 != p.frontier
              best := better p.best lastBlock
              advancedTo := some last }).1, true)

/-- Record a committed range; the new checkpoint when the prefix grew. -/
def record (p : PrefixTracker) (lo hi : Nat) (lastBlock : Option (Nat × Hash)) :
    PrefixTracker × Option (Nat × Hash) :=
  let waiting := (lo, hi, lastBlock) :: p.waiting.filter fun w => w.1 != lo
  let closed := close waiting.length { p with waiting := waiting }
  (closed.1, if closed.2 then closed.1.advancedTo.map fun h => (h, closed.1.bestHash) else none)

/-- The tracker is sound for a drive from `start` over the committed `ranges`. -/
structure Sound (p : PrefixTracker) (start : Nat) (ranges : List Range) : Prop where
  prefixCovered : ∀ b, start ≤ b → b < p.frontier → Covered ranges b
  waitingCommitted : ∀ w ∈ p.waiting, (w.1, w.2.1) ∈ ranges
  frontier_of_none : p.advancedTo = none → p.frontier = start
  frontier_of_some : ∀ a, p.advancedTo = some a → p.frontier = a + 1

theorem sound_new (start : Nat) (ranges : List Range) : (new start).Sound start ranges where
  prefixCovered := by
    intro b hstart hb
    exact absurd hb (Nat.not_lt.mpr hstart)
  waitingCommitted := by simp [new]
  frontier_of_none := fun _ => rfl
  frontier_of_some := by simp [new]

theorem mem_of_lookup {p : PrefixTracker} {last : Nat} {lastBlock : Option (Nat × Hash)}
    (h : p.waiting.lookup p.frontier = some (last, lastBlock)) :
    (p.frontier, last, lastBlock) ∈ p.waiting := by
  obtain ⟨before, after, heq, -⟩ := List.lookup_eq_some_iff.mp h
  rw [heq]
  simp

/-- What absorbing one range keeps, the loop keeps. -/
theorem of_close {P : PrefixTracker → Prop}
    (hstep : ∀ p last lastBlock, p.waiting.lookup p.frontier = some (last, lastBlock) → P p →
      P { frontier := last + 1
          waiting := p.waiting.filter fun w => w.1 != p.frontier
          best := better p.best lastBlock
          advancedTo := some last })
    {fuel : Nat} {p : PrefixTracker} (h : P p) : P (close fuel p).1 := by
  induction fuel generalizing p with
  | zero => exact h
  | succ fuel ih =>
      rw [close]
      split
      · exact h
      · rename_i last lastBlock hlookup
        exact ih (hstep p last lastBlock hlookup h)

theorem sound_close {fuel : Nat} {p : PrefixTracker} {start : Nat} {ranges : List Range}
    (h : p.Sound start ranges) : (close fuel p).1.Sound start ranges := by
  refine of_close (P := fun p => p.Sound start ranges) ?_ h
  intro p last lastBlock hlookup h
  constructor
  · intro b hstart hb
    by_cases hlt : b < p.frontier
    · exact h.prefixCovered b hstart hlt
    · refine ⟨(p.frontier, last), h.waitingCommitted _ (mem_of_lookup hlookup), ?_, ?_⟩
      · exact Nat.not_lt.mp hlt
      · exact Nat.lt_succ_iff.mp hb
  · intro w hw
    exact h.waitingCommitted w (List.mem_filter.mp hw).1
  · simp
  · simp

theorem advancedTo_close {fuel : Nat} {p : PrefixTracker} (h : p.advancedTo ≠ none) :
    (close fuel p).1.advancedTo ≠ none := by
  refine of_close (P := fun p => p.advancedTo ≠ none) ?_ h
  intro p last lastBlock _ _
  exact Option.some_ne_none last

/-- The loop that moved leaves an end of the prefix; the one that did not leaves the tracker. -/
theorem close_moved (fuel : Nat) (p : PrefixTracker) :
    ((close fuel p).2 = true ∧ (close fuel p).1.advancedTo ≠ none) ∨
      ((close fuel p).2 = false ∧ (close fuel p).1 = p) := by
  cases fuel with
  | zero => exact .inr ⟨rfl, rfl⟩
  | succ fuel =>
      rw [close]
      split
      · exact .inr ⟨rfl, rfl⟩
      · exact .inl ⟨rfl, advancedTo_close (by simp)⟩

/-- The checkpoint is the end of the prefix, and without one the prefix has not moved. -/
theorem advancedTo_record (p : PrefixTracker) (lo hi : Nat) (lastBlock : Option (Nat × Hash)) :
    (p.record lo hi lastBlock).1.advancedTo =
      match (p.record lo hi lastBlock).2 with
      | some point => some point.1
      | none => p.advancedTo := by
  simp only [record]
  rcases close_moved ((lo, hi, lastBlock) :: p.waiting.filter fun w => w.1 != lo).length
    { p with waiting := (lo, hi, lastBlock) :: p.waiting.filter fun w => w.1 != lo } with
    ⟨hmoved, hend⟩ | ⟨hmoved, hsame⟩
  · obtain ⟨last, hlast⟩ := Option.ne_none_iff_exists'.mp hend
    simp only [hmoved, if_true, hlast, Option.map_some]
  · simp only [hmoved, hsame, Bool.false_eq_true, if_false]

/-- Recording a committed range keeps the tracker sound. -/
theorem sound_record {p : PrefixTracker} {start lo hi : Nat} {ranges : List Range}
    (lastBlock : Option (Nat × Hash)) (h : p.Sound start ranges) :
    (p.record lo hi lastBlock).1.Sound start ((lo, hi) :: ranges) := by
  apply sound_close
  constructor
  · intro b hstart hb
    exact (h.prefixCovered b hstart hb).cons _
  · intro w hw
    rcases List.mem_cons.mp hw with rfl | hw
    · exact List.mem_cons_self
    · exact List.mem_cons_of_mem _ (h.waitingCommitted w (List.mem_filter.mp hw).1)
  · exact h.frontier_of_none
  · exact h.frontier_of_some

/-- A checkpoint ends right below the frontier. -/
theorem frontier_record {p : PrefixTracker} {start lo hi : Nat} {point : Nat × Hash}
    {ranges : List Range} {lastBlock : Option (Nat × Hash)} (h : p.Sound start ranges)
    (hrec : (p.record lo hi lastBlock).2 = some point) :
    (p.record lo hi lastBlock).1.frontier = point.1 + 1 := by
  have hsound : (p.record lo hi lastBlock).1.Sound start ((lo, hi) :: ranges) :=
    sound_record lastBlock h
  apply hsound.frontier_of_some
  rw [advancedTo_record, hrec]

end PrefixTracker

end Topic0.Pipeline
