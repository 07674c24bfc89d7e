import Topic0.SourceVolume

/-! The log density that a source learns. Every clean page is folded into one estimate that all the
fetches of a drive share, and a fetch that starts cuts its range into spans which, by the estimate,
stay under the result cap. Where logs are spread evenly the estimate never leaves the true bounds once
there is one, in whatever order the pages of concurrent fetches come in. So only the fetches that
start before the first clean page can ask for a page that overflows, and there are no more of them
than fetches run at once. -/

namespace Topic0.Volume

open Pipeline (Range planRanges)
open RpcLogSource Transition

/-- Each block of the window holds between `low` and `high` thousandths of a log, which are less than
a quarter apart. -/
structure Even (g : Setup) (matching : Nat → List Log) (low high : Nat) : Prop where
  pos : 0 < low
  near : 800 * high < 1000 * low
  small : high < 2 ^ 28
  blocks : ∀ b, g.next ≤ b → b ≤ g.target →
    low ≤ 1000 * (matching b).length ∧ 1000 * (matching b).length ≤ high

section Estimate

variable {g : Setup} {matching : Nat → List Log} {low high : Nat}

theorem length_pageLogs (matching : Nat → List Log) (lo hi : Nat) :
    (pageLogs matching lo hi).length = ((heights lo hi).map fun b => (matching b).length).sum :=
  List.length_flatMap

/-- A page holds its share of the bounds. -/
theorem Even.page (h : Even g matching low high) {lo hi : Nat} (hlo : g.next ≤ lo)
    (hhi : hi ≤ g.target) :
    (hi + 1 - lo) * low ≤ 1000 * (pageLogs matching lo hi).length ∧
      1000 * (pageLogs matching lo hi).length ≤ (hi + 1 - lo) * high := by
  have hsum : ∀ bs : List Nat, (∀ b ∈ bs, g.next ≤ b ∧ b ≤ g.target) →
      bs.length * low ≤ 1000 * (bs.map fun b => (matching b).length).sum ∧
        1000 * (bs.map fun b => (matching b).length).sum ≤ bs.length * high := by
    intro bs
    induction bs with
    | nil => simp
    | cons b bs ih =>
        intro hbs
        obtain ⟨hlow, hhigh⟩ := ih fun b' hb' => hbs b' (List.mem_cons_of_mem _ hb')
        have hb := hbs b List.mem_cons_self
        obtain ⟨hlow', hhigh'⟩ := h.blocks b hb.1 hb.2
        simp only [List.length_cons, List.map_cons, List.sum_cons, Nat.mul_add, Nat.add_mul,
          Nat.one_mul]
        omega
  have hpage := hsum (heights lo hi) fun b hb => by
    have hrange := mem_heights.mp hb
    omega
  rwa [← length_pageLogs, heights, List.length_range'] at hpage

/-- A clean page moves the estimate to, or keeps it within, the bounds. -/
theorem Even.recordDensity (h : Even g matching low high) {lo hi density : Nat} (hle : lo ≤ hi)
    (hlo : g.next ≤ lo) (hhi : hi ≤ g.target) (hspan : hi + 1 ≤ lo + 2 ^ 32)
    (hdensity : density = 0 ∨ (low ≤ density ∧ density ≤ high)) :
    low ≤ RpcLogSource.recordDensity density (hi - lo + 1) (pageLogs matching lo hi).length ∧
      RpcLogSource.recordDensity density (hi - lo + 1) (pageLogs matching lo hi).length ≤ high := by
  obtain ⟨hlow, hhigh⟩ := h.page hlo hhi
  have hblocks : hi + 1 - lo = hi - lo + 1 := by omega
  rw [hblocks] at hlow hhigh
  have hsmall := h.small
  have hproduct : (hi - lo + 1) * high ≤ 2 ^ 32 * 2 ^ 28 :=
    Nat.mul_le_mul (by omega) hsmall.le
  have hsample : saturatingMul (pageLogs matching lo hi).length 1000 / (hi - lo + 1) =
      1000 * (pageLogs matching lo hi).length / (hi - lo + 1) := by
    rw [saturatingMul, Nat.mul_comm, min_eq_left (by omega)]
  have hge : low ≤ 1000 * (pageLogs matching lo hi).length / (hi - lo + 1) := by
    rw [Nat.le_div_iff_mul_le (Nat.succ_pos _), Nat.mul_comm]
    exact hlow
  have hle' : 1000 * (pageLogs matching lo hi).length / (hi - lo + 1) ≤ high := by
    apply Nat.div_le_of_le_mul
    exact hhigh
  have hfold : RpcLogSource.recordDensity density (hi - lo + 1) (pageLogs matching lo hi).length =
      if density = 0 then saturatingMul (pageLogs matching lo hi).length 1000 / (hi - lo + 1)
      else (density * 7 + saturatingMul (pageLogs matching lo hi).length 1000 / (hi - lo + 1)) %
        2 ^ 64 / 8 := if_neg (Nat.succ_ne_zero _)
  rw [hfold, hsample]
  generalize 1000 * (pageLogs matching lo hi).length / (hi - lo + 1) = sample at hge hle'
  split
  · exact ⟨hge, hle'⟩
  · rw [Nat.mod_eq_of_lt (by omega)]
    omega

/-- A span cut by an estimate within the bounds does not overflow. -/
theorem Even.not_overflows (h : Even g matching low high) {lo hi density : Nat}
    (hlo : g.next ≤ lo) (hhi : hi ≤ g.target) (hdensity : low ≤ density)
    (hspan : hi + 1 ≤ lo + suggestedSpan g.plan density) : ¬Overflows g.plan matching lo hi := by
  intro hover
  obtain ⟨hlt, hcap, hfull⟩ := hover
  have hpos := h.pos
  have hnear := h.near
  have hpage := (h.page hlo hhi).2
  have hcapLt := g.plan.maxGetlogsResults.toNat_lt
  generalize hc : g.plan.maxGetlogsResults.toNat = cap at *
  have hsaturating : saturatingMul cap 800 = cap * 800 := min_eq_left (by omega)
  have hcut : suggestedSpan g.plan density ≤ max (cap * 800 / density) 1 := by
    rw [suggestedSpan, hc, if_neg (by omega), hsaturating]
    exact min_le_left _ _
  have hblocksPos : 0 < hi + 1 - lo := by omega
  have hblocks : (hi + 1 - lo) * density ≤ cap * 800 := by
    have hle : hi + 1 - lo ≤ cap * 800 / density := by omega
    calc (hi + 1 - lo) * density ≤ cap * 800 / density * density := Nat.mul_le_mul_right _ hle
      _ ≤ cap * 800 := Nat.div_mul_le_self _ _
  generalize (pageLogs matching lo hi).length = logs at *
  generalize hi + 1 - lo = blocks at *
  have hlow : blocks * low ≤ cap * 800 := (Nat.mul_le_mul_left _ hdensity).trans hblocks
  nlinarith

end Estimate

section Run

variable {g : Setup} {matching : Nat → List Log} {low high rangeConc auxConc : Nat} {s s' : State}

/-- A page that has gone out or is the next of its fetch lies in a chunk of a fetch that started. -/
theorem Inv.exists_chunk (h : Inv g matching s) {lo hi : Nat}
    (hcall : Call.getLogs lo hi ∈ s.calls ++ s.flying.flatMap (Flight.future g matching)) :
    ∃ p ∈ s.started, ∃ chunk ∈ planRanges p.1.1 p.1.2 (suggestedSpan g.plan p.2),
      Call.getLogs lo hi ∈ spanCalls g.plan matching chunk.1 chunk.2 := by
  obtain ⟨p, hp, hmem⟩ := List.mem_flatMap.mp (h.calls.mem_iff.mp hcall)
  rcases List.mem_append.mp hmem with hmem | hmem
  · obtain ⟨chunk, hchunk, hspan⟩ := List.mem_flatMap.mp hmem
    exact ⟨p, hp, chunk, hchunk, hspan⟩
  · exact absurd hmem (getLogs_not_mem_auxCalls p.1 lo hi)

/-- Chunks lie in the window, and are no longer than the span they were cut by. -/
theorem Inv.chunk_within (h : Inv g matching s) (hstep : 0 < g.step) {p : Range × Nat}
    (hp : p ∈ s.started) {chunk : Range}
    (hchunk : chunk ∈ planRanges p.1.1 p.1.2 (suggestedSpan g.plan p.2)) :
    p.1.1 ≤ chunk.1 ∧ chunk.1 ≤ chunk.2 ∧ chunk.2 ≤ p.1.2 ∧ g.next ≤ chunk.1 ∧
      chunk.2 ≤ g.target ∧ chunk.2 + 1 ≤ chunk.1 + suggestedSpan g.plan p.2 := by
  have hspan := (suggestedSpan_bounds g.plan p.2).1
  have hrange : p.1 ∈ g.ranges := by
    rw [← h.planned]
    exact List.mem_append_left _ (List.mem_map_of_mem hp)
  obtain ⟨hnext, -, htarget⟩ := Pipeline.mem_planFrom hrange hstep
  obtain ⟨hlo, hle, hhi⟩ := Pipeline.mem_planFrom hchunk hspan
  have hlength := Pipeline.length_planFrom hchunk
  omega

/-- The span a fetch is about to ask for lies in the window and is not long. -/
theorem Inv.pending_within (h : Inv g matching s) (hstep : 0 < g.step) {i : Nat} {range : Range}
    {fetch : FetchState} (hflight : s.flying[i]? = some (.records range fetch)) {lo hi : Nat}
    {rest : List Range} (hpending : fetch.pending = (lo, hi) :: rest) :
    g.next ≤ lo ∧ lo ≤ hi ∧ hi ≤ g.target ∧ hi + 1 ≤ lo + 2 ^ 32 := by
  have hfuture : Call.getLogs lo hi ∈ Flight.future g matching (.records range fetch) := by
    rw [Flight.future, hpending, stackCalls_cons, spanCalls]
    apply List.mem_append_left
    apply List.mem_append_left
    split
    · exact List.mem_cons_self
    · exact List.mem_cons_self
  obtain ⟨p, hp, chunk, hchunk, hspan⟩ := h.exists_chunk (List.mem_append_right _
    (List.mem_flatMap.mpr ⟨_, List.mem_of_getElem? hflight, hfuture⟩))
  obtain ⟨-, hle, -, hnext, htarget, hlength⟩ := h.chunk_within hstep hp hchunk
  obtain ⟨a, b, heq, hlo, hab, hhi⟩ := mem_spanCalls hle hspan
  cases heq
  have hbound := (suggestedSpan_bounds g.plan p.2).2
  omega

/-- What the drive knows of the density: nothing, while every fetch it has started still waits for its
first clean page, or something true. -/
structure Learned (g : Setup) (low high rangeConc : Nat) (s : State) : Prop where
  density : s.density = 0 ∨ (low ≤ s.density ∧ s.density ≤ high)
  started : ∀ p ∈ s.started, p.2 = 0 ∨ low ≤ p.2
  slots : s.flying.length ≤ max rangeConc 1
  cold : s.density = 0 → s.flying.length = s.started.length ∧
    ∀ f ∈ s.flying, ∃ range fetch, f = .records range fetch ∧ fetch.pending ≠ []
  few : (s.started.filter fun p => p.2 = 0).length ≤ max rangeConc 1
  warm : g.density ≠ 0 → s.density ≠ 0 ∧ ∀ p ∈ s.started, p.2 ≠ 0

theorem learned_init (hseen : g.density = 0 ∨ (low ≤ g.density ∧ g.density ≤ high)) :
    Learned g low high rangeConc ⟨g.density, g.ranges, [], [], g.ledger, []⟩ where
  density := hseen
  started _ hp := absurd hp List.not_mem_nil
  slots := Nat.zero_le _
  cold _ := ⟨rfl, fun _ hf => absurd hf List.not_mem_nil⟩
  few := Nat.zero_le _
  warm hwarm := ⟨hwarm, fun _ hp => absurd hp List.not_mem_nil⟩

theorem Learned.start (h : Learned g low high rangeConc s) {range : Range} {todo chunks : List Range}
    (hslot : s.flying.length < max rangeConc 1) (hchunks : chunks ≠ []) :
    Learned g low high rangeConc { s with
      todo := todo
      flying := s.flying ++ [.records range ⟨chunks, [], s.density, 0⟩]
      started := s.started ++ [(range, s.density)] } where
  density := h.density
  started p hp := by
    rcases List.mem_append.mp hp with hp | hp
    · exact h.started p hp
    · rw [List.mem_singleton.mp hp]
      exact h.density.imp_right And.left
  slots := by
    show (s.flying ++ [_]).length ≤ _
    rw [List.length_append]
    exact hslot
  cold hdensity := by
    obtain ⟨hlength, hall⟩ := h.cold hdensity
    refine ⟨?_, ?_⟩
    · show (s.flying ++ [_]).length = (s.started ++ [_]).length
      rw [List.length_append, List.length_append, hlength]
      rfl
    · intro f hf
      rcases List.mem_append.mp hf with hf | hf
      · exact hall f hf
      · rw [List.mem_singleton.mp hf]
        exact ⟨range, _, rfl, hchunks⟩
  few := by
    show ((s.started ++ [_]).filter _).length ≤ _
    rw [List.filter_append, List.length_append, List.filter_singleton]
    by_cases hdensity : s.density = 0
    · have hlength := (h.cold hdensity).1
      have hfilter := List.length_filter_le (fun p : Range × Nat => decide (p.2 = 0)) s.started
      rw [decide_eq_true (p := (range, s.density).2 = 0) hdensity]
      show (s.started.filter _).length + 1 ≤ _
      omega
    · rw [decide_eq_false hdensity]
      exact h.few
  warm hwarm := by
    obtain ⟨hdensity, hall⟩ := h.warm hwarm
    refine ⟨hdensity, ?_⟩
    intro p hp
    rcases List.mem_append.mp hp with hp | hp
    · exact hall p hp
    · rw [List.mem_singleton.mp hp]
      exact hdensity

/-- A page that moves the estimate ends the cold start; one that is halved is still to come. -/
theorem Learned.advance (h : Learned g low high rangeConc s) (hpos : 0 < low) {i : Nat}
    {flight flight' : Flight} (new : List Call) (hflight : s.flying[i]? = some flight)
    {density : Nat}
    (hdensity : (density = s.density ∧ ((∃ range fetch, flight = .records range fetch ∧
        fetch.pending ≠ []) → ∃ range fetch, flight' = .records range fetch ∧ fetch.pending ≠ [])) ∨
      (low ≤ density ∧ density ≤ high)) :
    Learned g low high rangeConc { (s.issue g new).become i flight' with density := density } where
  density := by
    rcases hdensity with ⟨rfl, -⟩ | hlearned
    · exact h.density
    · exact .inr hlearned
  started := h.started
  slots := by
    show (s.flying.set i flight').length ≤ _
    rw [List.length_set]
    exact h.slots
  cold hzero := by
    rcases hdensity with ⟨rfl, hstays⟩ | hlearned
    · obtain ⟨hlength, hall⟩ := h.cold hzero
      refine ⟨?_, ?_⟩
      · show (s.flying.set i flight').length = s.started.length
        rw [List.length_set, hlength]
      · intro f hf
        rcases List.mem_or_eq_of_mem_set hf with hf | rfl
        · exact hall f hf
        · exact hstays (hall flight (List.mem_of_getElem? hflight))
    · obtain rfl : density = 0 := hzero
      omega
  few := h.few
  warm hwarm := by
    obtain ⟨hnonzero, hall⟩ := h.warm hwarm
    refine ⟨?_, hall⟩
    rcases hdensity with ⟨rfl, -⟩ | hlearned
    · exact hnonzero
    · show density ≠ 0
      omega

theorem Learned.land (h : Learned g low high rangeConc s) {i : Nat}
    (hflight : s.flying[i]? = some (.aux [] [])) :
    Learned g low high rangeConc { s with flying := s.flying.eraseIdx i } where
  density := h.density
  started := h.started
  slots := (List.length_eraseIdx_le s.flying i).trans h.slots
  cold hzero := by
    obtain ⟨range, fetch, heq, -⟩ := (h.cold hzero).2 _ (List.mem_of_getElem? hflight)
    cases heq
  few := h.few
  warm := h.warm

theorem Learned.step (h : Learned g low high rangeConc s) (hinv : Inv g matching s)
    (hsteady : Steady g matching) (heven : Even g matching low high) (hstep : 0 < g.step)
    (htarget : g.target < 2 ^ 63) {act : Act}
    (hact : s.step g rangeConc auxConc act = some s') : Learned g low high rangeConc s' := by
  have haux : ∀ {i : Nat} {blocks receipts : List Call} {flight' : Flight} (new : List Call),
      s.flying[i]? = some (.aux blocks receipts) →
      Learned g low high rangeConc ((s.issue g new).become i flight') := by
    intro i blocks receipts flight' new hflight
    refine h.advance heven.pos new hflight (.inl ⟨rfl, ?_⟩)
    rintro ⟨range, fetch, heq, -⟩
    cases heq
  cases act with
  | start =>
      rw [State.step] at hact
      split at hact
      · cases hact
      rename_i range todo htodo
      split at hact
      · rename_i hslot
        obtain ⟨chunks, hseed, rfl⟩ := Option.map_eq_some_iff.mp hact
        apply h.start hslot
        have hrange : range ∈ g.ranges := by
          rw [← hinv.planned, htodo]
          exact List.mem_append_right _ List.mem_cons_self
        rw [seed_of_planned hstep htarget hrange, Option.some.injEq] at hseed
        rintro rfl
        obtain ⟨-, hle, -⟩ := Pipeline.mem_planFrom hrange hstep
        have hfuel : range.2 + 1 - range.1 = range.2 - range.1 + 1 := by omega
        rw [planRanges, hfuel, Pipeline.planFrom, if_pos hle] at hseed
        cases hseed
      · cases hact
  | page i =>
      rw [State.step] at hact
      split at hact
      · rename_i range fetch hflight
        cases hpending : fetch.pending with
        | nil =>
            have hdone : fetchStep g.plan g.getLogs { fetch with density := s.density } =
                .inr (.ok fetch.logs) := by
              rw [fetchStep]
              simp only [hpending]
            rw [hdone] at hact
            simp only at hact
            split at hact
            · cases hact
              refine h.advance heven.pos [] hflight (.inl ⟨rfl, ?_⟩)
              rintro ⟨range', fetch', heq, hne⟩
              cases heq
              exact absurd hpending hne
            · cases hact
        | cons span rest =>
            obtain ⟨lo, hi⟩ := span
            rw [fetchStep_steady hsteady { fetch with density := s.density } hpending] at hact
            cases hact
            by_cases hover : Overflows g.plan matching lo hi
            · rw [if_pos hover]
              refine h.advance heven.pos _ hflight (.inl ⟨rfl, ?_⟩)
              intro _
              exact ⟨range, _, rfl, List.cons_ne_nil _ _⟩
            · rw [if_neg hover]
              obtain ⟨hlo, hle, hhi, hlong⟩ := hinv.pending_within hstep hflight hpending
              exact h.advance heven.pos _ hflight
                (.inr (heven.recordDensity hle hlo hhi hlong h.density))
      · cases hact
  | blocks i j =>
      rw [State.step] at hact
      split at hact
      · rename_i blocks receipts hflight
        obtain ⟨⟨call, rest⟩, -, rfl⟩ := Option.map_eq_some_iff.mp hact
        exact haux [call] hflight
      · cases hact
  | receipts i j =>
      rw [State.step] at hact
      split at hact
      · rename_i blocks receipts hflight
        obtain ⟨⟨call, rest⟩, -, rfl⟩ := Option.map_eq_some_iff.mp hact
        exact haux [call] hflight
      · cases hact
  | land i =>
      rw [State.step] at hact
      split at hact
      · rename_i hflight
        cases hact
        exact h.land hflight
      · cases hact

theorem learned_of_reachable (hsteady : Steady g matching) (heven : Even g matching low high)
    (hstep : 0 < g.step) (htarget : g.target < 2 ^ 63)
    (hseen : g.density = 0 ∨ (low ≤ g.density ∧ g.density ≤ high))
    (hs : Reachable (system g rangeConc auxConc) anyStep s) :
    Inv g matching s ∧ Learned g low high rangeConc s := by
  apply hs.invariant fun s => Inv g matching s ∧ Learned g low high rangeConc s
  · intro s hinit
    rw [hinit]
    exact ⟨inv_init, learned_init hseen⟩
  · intro s act s' hinv _ hact
    exact ⟨hinv.1.step hstep htarget (State.step_cases hsteady hinv.1.ok hact),
      hinv.2.step hinv.1 hsteady heven hstep htarget hact⟩

/-- Over a window whose blocks hold about the same number of logs, every page that overflows is one of
a fetch that started before the source had seen a clean page. At most as many fetches do as run at
once, none when the source knows the density already; the estimate itself stays true. -/
theorem over_cap_pages_are_cold (hsteady : Steady g matching) (heven : Even g matching low high)
    (hstep : 0 < g.step) (htarget : g.target < 2 ^ 63)
    (hseen : g.density = 0 ∨ (low ≤ g.density ∧ g.density ≤ high))
    (hs : Reachable (system g rangeConc auxConc) anyStep s) :
    (∀ lo hi, Call.getLogs lo hi ∈ s.calls → Overflows g.plan matching lo hi →
        ∃ range, (range, 0) ∈ s.started ∧ range.1 ≤ lo ∧ hi ≤ range.2) ∧
      (s.started.filter fun p => p.2 = 0).length ≤ max rangeConc 1 ∧
      (g.density ≠ 0 → ∀ p ∈ s.started, p.2 ≠ 0) ∧
      (s.density = 0 ∨ (low ≤ s.density ∧ s.density ≤ high)) := by
  obtain ⟨hinv, hlearned⟩ := learned_of_reachable hsteady heven hstep htarget hseen hs
  refine ⟨?_, hlearned.few, fun hwarm => (hlearned.warm hwarm).2, hlearned.density⟩
  intro lo hi hcall hover
  obtain ⟨p, hp, chunk, hchunk, hspan⟩ := hinv.exists_chunk (List.mem_append_left _ hcall)
  obtain ⟨hfirst, hle, hlast, hnext, hend, hlength⟩ := hinv.chunk_within hstep hp hchunk
  obtain ⟨a, b, heq, hlo, -, hhi⟩ := mem_spanCalls hle hspan
  cases heq
  rcases hlearned.started p hp with hzero | hknown
  · refine ⟨p.1, ?_, hfirst.trans hlo, hhi.trans hlast⟩
    rw [← hzero]
    exact hp
  · have hclean : ¬Overflows g.plan matching chunk.1 chunk.2 :=
      heven.not_overflows hnext hend hknown hlength
    rw [spanCalls, dif_neg hclean] at hspan
    cases List.mem_singleton.mp hspan
    exact absurd hover hclean

end Run

/-- Forty blocks of one log each, under a result cap of eight. -/
def plainSetup : Setup where
  chainId := 1
  plan := ⟨10, 8⟩
  maxBatch := 100
  getLogs _ lo hi := .ok (pageLogs plainLogs lo hi)
  cost := alchemyCost
  density := 0
  ledger := SpendLedger.new none
  next := 1
  target := 40
  step := 20

theorem steady_plainSetup : Steady plainSetup plainLogs where
  clean _ _ _ _ := rfl
  capped _ _ _ hover := .inl ⟨_, rfl, hover.2.2⟩
  mined _ log hlog := by
    rw [List.mem_singleton.mp hlog]
    exact ⟨_, rfl⟩

theorem even_plainSetup : Even plainSetup plainLogs 1000 1000 where
  pos := by decide
  near := by decide
  small := by decide
  blocks _ _ _ := ⟨le_rfl, le_rfl⟩

/-- The first range is fetched cold and halves its first page; the second one is cut to six blocks. -/
theorem over_cap_pages_are_cold_plain :
    ∃ s, Reachable (system plainSetup 1 1) anyStep s ∧
      (s.started, s.density, s.calls.length) = ([((1, 20), 0), ((21, 40), 1000)], 1000, 9) ∧
      ∀ lo hi, Call.getLogs lo hi ∈ s.calls → Overflows plainSetup.plan plainLogs lo hi →
        ∃ range, (range, 0) ∈ s.started ∧ range.1 ≤ lo ∧ hi ≤ range.2 := by
  have hinit : Reachable (system plainSetup 1 1) anyStep
      ⟨0, plainSetup.ranges, [], [], SpendLedger.new none, []⟩ := .init rfl
  obtain ⟨s, hs, hobserved⟩ := hinit.exists_observed
    [.start, .page 0, .page 0, .page 0, .page 0, .page 0, .page 0, .page 0, .blocks 0 0,
      .receipts 0 0, .land 0, .start, .page 0] (fun _ _ _ => trivial)
    (fun s => (s.started, s.density, s.calls.length))
    (b := ([((1, 20), 0), ((21, 40), 1000)], 1000, 9)) (by decide +kernel)
  exact ⟨s, hs, hobserved, (over_cap_pages_are_cold steady_plainSetup even_plainSetup (by decide)
    (by decide) (.inl rfl) hs).1⟩

end Topic0.Volume
