import Topic0.PipelineQuota
import Topic0.SourceAux

/-! The calls of one fetch. A fetch seeds its spans by the log density it reads, halves the spans
whose page overflows, and then asks for the blocks and receipts of its records in batches. With a
provider that answers one query always alike, which calls go out depends on the range and on the
spans it is first cut into, and on nothing else. -/

namespace Topic0

/-- A call as it is priced. -/
inductive RpcCall where
  | getLogs (blocks results : Nat)
  | blockNumber
  | blockByNumber (count : Nat) (full : Bool)
  | txByHash (count : Nat)
  | receipt (count : Nat)
  | logSubscription
  | other
  deriving DecidableEq, Repr

/-- `AlchemyCost`: compute units by method. -/
def alchemyCost : RpcCall → Nat
  | .getLogs _ _ => 75
  | .blockNumber => 10
  | .blockByNumber count _ => 16 * max count 1
  | .txByHash count => 15 * max count 1
  | .receipt count => 15 * max count 1
  | .logSubscription => 10
  | .other => 0

namespace Volume

open Pipeline (Range planRanges planFrom)
open RpcLogSource

/-- A request as it goes out: one page, or one batch. -/
inductive Call where
  | getLogs (lo hi : Nat)
  | blocks (heights : List Nat)
  | receipts (txIds : List Hash)
  deriving DecidableEq, Repr

/-- What `enter` meters for it. -/
def Call.metered : Call → RpcCall
  | .getLogs lo hi => .getLogs (hi - lo + 1) 0
  | .blocks heights => .blockByNumber heights.length true
  | .receipts txIds => .receipt txIds.length

/-- What `run_pipeline` is given: a source with the density it has seen and what its ledger shows,
and the window. -/
structure Setup where
  chainId : ChainId
  plan : PlanProfile
  maxBatch : Nat
  getLogs : Nat → Nat → Nat → Except String (List Log)
  cost : RpcCall → Nat
  density : Nat
  ledger : SpendLedger
  next : Nat
  target : Nat
  step : Nat

def Setup.ranges (g : Setup) : List Range := planRanges g.next g.target g.step

/-- The block batches of a range, its heights in the order of a `BTreeSet`. -/
def Setup.blockCalls (g : Setup) (records : List RawRecord) : List Call :=
  (Rows.chunks (max g.maxBatch 1) ((heightsOf records).insertionSort (· ≤ ·))).map .blocks

def Setup.receiptCalls (g : Setup) (records : List RawRecord) : List Call :=
  (Rows.chunks (max g.maxBatch 1) ((txIdsOf records).insertionSort fun a b =>
    a.bytes ≤ b.bytes)).map .receipts

/-- A `fetch_range` in progress: in `fetch_records`, or in `fetch_aux` with the batches that have
not gone out. -/
inductive Flight where
  | records (range : Range) (fetch : FetchState)
  | aux (blocks receipts : List Call)

/-- The spans a fetch starts with. -/
def Setup.seed (g : Setup) (density : Nat) (range : Range) : Option (List Range) :=
  Loop.run (seedStep (suggestedSpan g.plan density) range.2) (range.2 + 2 - range.1) (range.1, [])

/-- The attempts of one round of the fetch loop. -/
def attempts (before after : FetchState) : List Call :=
  before.pending.head?.toList.flatMap fun span =>
    List.replicate (after.calls - before.calls) (.getLogs span.1 span.2)

/-- The suggested span, cut to the range. -/
def cutSpan (plan : PlanProfile) (density : Nat) (range : Range) : Nat :=
  min (suggestedSpan plan density) (range.2 + 1 - range.1)

/-- The logs of a span. -/
def pageLogs (matching : Nat → List Log) (lo hi : Nat) : List Log :=
  (heights lo hi).flatMap matching

/-- A page of more than one block would hold as many logs as the result cap. -/
def Overflows (plan : PlanProfile) (matching : Nat → List Log) (lo hi : Nat) : Prop :=
  lo < hi ∧ 0 < plan.maxGetlogsResults.toNat ∧
    plan.maxGetlogsResults.toNat ≤ (pageLogs matching lo hi).length

instance (plan : PlanProfile) (matching : Nat → List Log) (lo hi : Nat) :
    Decidable (Overflows plan matching lo hi) :=
  inferInstanceAs (Decidable (_ ∧ _ ∧ _))

/-- A fixed chain behind a provider without transient errors: a page is exact unless it overflows,
and then it is cut at the cap or refused for its size. Logs of mined blocks have all their
fields. -/
structure Steady (g : Setup) (matching : Nat → List Log) : Prop where
  clean : ∀ n lo hi, ¬Overflows g.plan matching lo hi →
    g.getLogs n lo hi = .ok (pageLogs matching lo hi)
  capped : ∀ n lo hi, Overflows g.plan matching lo hi →
    (∃ page, g.getLogs n lo hi = .ok page ∧ g.plan.maxGetlogsResults.toNat ≤ page.length) ∨
      ∃ e, g.getLogs n lo hi = .error e ∧ isTransient e = false ∧ isRangeCapError e = true
  mined : ∀ h, ∀ log ∈ matching h, ∃ r, mapLog g.chainId log = .ok r

section Calls

variable (g : Setup) (matching : Nat → List Log)

/-- The pages a span takes. -/
def spanCalls (plan : PlanProfile) (matching : Nat → List Log) (lo hi : Nat) : List Call :=
  if _hover : Overflows plan matching lo hi then
    .getLogs lo hi :: (spanCalls plan matching lo (lo + (hi - lo) / 2) ++
      spanCalls plan matching (lo + (hi - lo) / 2 + 1) hi)
  else [.getLogs lo hi]
termination_by hi - lo
decreasing_by
  · have hlt := _hover.1
    omega
  · have hlt := _hover.1
    omega

def stackCalls (plan : PlanProfile) (matching : Nat → List Log) (spans : List Range) : List Call :=
  spans.flatMap fun r => spanCalls plan matching r.1 r.2

def auxCalls (range : Range) : List Call :=
  match (pageLogs matching range.1 range.2).mapM (mapLog g.chainId) with
  | .ok records => g.blockCalls records ++ g.receiptCalls records
  | .error _ => []

/-- The calls a fetch has yet to make. -/
def Flight.future : Flight → List Call
  | .records range fetch => stackCalls g.plan matching fetch.pending ++ auxCalls g matching range
  | .aux blocks receipts => blocks ++ receipts

/-- The calls of a fetch that starts with a density. -/
def rangeCalls (range : Range) (density : Nat) : List Call :=
  stackCalls g.plan matching (planRanges range.1 range.2 (suggestedSpan g.plan density)) ++
    auxCalls g matching range

end Calls

section Pages

variable {g : Setup} {matching : Nat → List Log}

theorem Steady.answers (h : Steady g matching) : Answers g.plan g.getLogs matching := by
  intro n lo hi page hpage
  by_cases hover : Overflows g.plan matching lo hi
  · rcases h.capped n lo hi hover with ⟨page', hpage', hlen⟩ | ⟨e, he, -⟩
    · rw [hpage, Except.ok.injEq] at hpage'
      exact .inr ⟨hover.1, hover.2.1, hpage' ▸ hlen⟩
    · rw [hpage] at he
      cases he
  · have hclean := h.clean n lo hi hover
    rw [hpage, Except.ok.injEq] at hclean
    exact .inl hclean

/-- One attempt, and the span is halved or done. -/
theorem fetchStep_steady (h : Steady g matching) (fetch : FetchState) {lo hi : Nat}
    {rest : List Range} (hpending : fetch.pending = (lo, hi) :: rest) :
    fetchStep g.plan g.getLogs fetch = .inl (if Overflows g.plan matching lo hi then
        overflow fetch lo hi rest (fetch.calls + 1)
      else ⟨rest, fetch.logs ++ pageLogs matching lo hi,
        recordDensity fetch.density (hi - lo + 1) (pageLogs matching lo hi).length,
        fetch.calls + 1⟩) := by
  unfold fetchStep withRetry
  simp only [hpending]
  by_cases hover : Overflows g.plan matching lo hi
  · rw [if_pos hover]
    rcases h.capped fetch.calls lo hi hover with ⟨page, hpage, hlen⟩ | ⟨e, he, hlasting, hcap⟩
    · rw [retry_of_ok (fun n => g.getLogs n lo hi) hpage]
      exact if_pos ⟨hover.1, hover.2.1, hlen⟩
    · rw [retry_of_error (fun n => g.getLogs n lo hi) he hlasting]
      exact if_pos ⟨hover.1, hcap⟩
  · rw [if_neg hover, retry_of_ok (fun n => g.getLogs n lo hi) (h.clean fetch.calls lo hi hover)]
    exact if_neg hover

/-- The records are returned when no span is left. -/
theorem pending_of_fetchStep_ok (h : Steady g matching) {fetch : FetchState} {logs : List Log}
    (hround : fetchStep g.plan g.getLogs fetch = .inr (.ok logs)) : fetch.pending = [] := by
  cases hpending : fetch.pending with
  | nil => rfl
  | cons span rest =>
      rw [fetchStep_steady h fetch hpending] at hround
      cases hround

theorem stackCalls_cons (plan : PlanProfile) (r : Range) (rest : List Range) :
    stackCalls plan matching (r :: rest) =
      spanCalls plan matching r.1 r.2 ++ stackCalls plan matching rest :=
  List.flatMap_cons

/-- A round makes the next call of its fetch. -/
theorem page_advances (h : Steady g matching) (range : Range) {fetch fetch' : FetchState}
    {density : Nat}
    (hround : fetchStep g.plan g.getLogs { fetch with density := density } = .inl fetch') :
    attempts fetch fetch' ++ Flight.future g matching (.records range fetch') =
        Flight.future g matching (.records range fetch) ∧
      spanWeight fetch'.pending < spanWeight fetch.pending := by
  cases hpending : fetch.pending with
  | nil =>
      rw [fetchStep] at hround
      simp only [hpending] at hround
      cases hround
  | cons span rest =>
      obtain ⟨lo, hi⟩ := span
      rw [fetchStep_steady h { fetch with density := density } hpending, Sum.inl.injEq]
        at hround
      have hattempts : fetch'.calls = fetch.calls + 1 →
          attempts fetch fetch' = [.getLogs lo hi] := by
        intro hcalls
        rw [attempts, hpending, hcalls, Nat.add_sub_cancel_left]
        rfl
      simp only [Flight.future, hpending, stackCalls_cons]
      rw [spanCalls]
      by_cases hover : Overflows g.plan matching lo hi
      · rw [if_pos hover] at hround
        subst hround
        rw [hattempts rfl, dif_pos hover]
        refine ⟨?_, spanWeight_splitRange hover.1 rest⟩
        simp only [overflow, splitRange, stackCalls_cons, List.append_assoc, List.cons_append,
          List.nil_append]
      · rw [if_neg hover] at hround
        subst hround
        rw [hattempts rfl, dif_neg hover]
        refine ⟨(List.append_assoc _ _ _).symm, ?_⟩
        rw [spanWeight_cons]
        exact Nat.lt_add_of_pos_left (Nat.succ_pos _)

end Pages

section Seeds

variable {g : Setup} {matching : Nat → List Log}

theorem run_seedStep {span hi : Nat} (hspan : 1 ≤ span ∧ span < 2 ^ 32) (hhi : hi < 2 ^ 63)
    (fuel next : Nat) (chunks : List Range) (hfuel : hi + 1 - next ≤ fuel) :
    Loop.run (seedStep span hi) (fuel + 1) (next, chunks) =
      some (chunks ++ planFrom hi span fuel next) := by
  induction fuel generalizing next chunks with
  | zero =>
      have hnext : ¬next ≤ hi := by omega
      rw [Loop.run, seedStep, if_neg hnext, planFrom, List.append_nil]
  | succ fuel ih =>
      rw [Loop.run, seedStep, planFrom]
      by_cases hnext : next ≤ hi
      · have he : (next + span + (2 ^ 64 - 1)) % 2 ^ 64 = next + span - 1 := by omega
        have hsucc : (min (next + span - 1) hi + 1) % 2 ^ 64 = min (next + span - 1) hi + 1 := by
          omega
        simp only [hnext, if_true, he, hsucc]
        rw [ih _ _ (by omega), List.append_assoc, List.singleton_append]
      · simp only [hnext, if_false, List.append_nil]

/-- The seeding loop plans the range by the suggested span. -/
theorem seed_eq {range : Range} (hle : range.1 ≤ range.2) (hhi : range.2 < 2 ^ 63)
    (density : Nat) :
    g.seed density range =
      some (planRanges range.1 range.2 (suggestedSpan g.plan density)) := by
  have hfuel : range.2 + 2 - range.1 = range.2 + 1 - range.1 + 1 := by omega
  rw [Setup.seed, hfuel, run_seedStep (suggestedSpan_bounds _ _) hhi _ _ _ le_rfl]
  rfl

/-- Densities that cut a range alike lead to the same calls. -/
theorem rangeCalls_congr {range : Range} {density density' : Nat}
    (h : cutSpan g.plan density range = cutSpan g.plan density' range) :
    rangeCalls g matching range density = rangeCalls g matching range density' := by
  have hplan : ∀ d, planRanges range.1 range.2 (suggestedSpan g.plan d) =
      planRanges range.1 range.2 (cutSpan g.plan d range) :=
    fun d => (Pipeline.planFrom_min le_rfl).symm
  rw [rangeCalls, rangeCalls, hplan, hplan, h]

theorem mem_spanCalls {plan : PlanProfile} {lo hi : Nat} {call : Call} (hle : lo ≤ hi)
    (h : call ∈ spanCalls plan matching lo hi) :
    ∃ a b, call = .getLogs a b ∧ lo ≤ a ∧ a ≤ b ∧ b ≤ hi := by
  induction lo, hi using spanCalls.induct plan matching with
  | case1 lo hi hover ihLeft ihRight =>
      have hlt := hover.1
      rw [spanCalls, dif_pos hover] at h
      rcases List.mem_cons.mp h with rfl | h
      · exact ⟨lo, hi, rfl, le_rfl, hle, le_rfl⟩
      · rcases List.mem_append.mp h with h | h
        · obtain ⟨a, b, hcall, hlo, hab, hhi⟩ := ihLeft (by omega) h
          exact ⟨a, b, hcall, hlo, hab, by omega⟩
        · obtain ⟨a, b, hcall, hlo, hab, hhi⟩ := ihRight (by omega) h
          exact ⟨a, b, hcall, by omega, hab, hhi⟩
  | case2 lo hi hover =>
      rw [spanCalls, dif_neg hover] at h
      exact ⟨lo, hi, List.mem_singleton.mp h, le_rfl, hle, le_rfl⟩

theorem getLogs_not_mem_auxCalls (range : Range) (a b : Nat) :
    Call.getLogs a b ∉ auxCalls g matching range := by
  intro h
  unfold auxCalls at h
  split at h
  · rcases List.mem_append.mp h with h | h
    · obtain ⟨part, -, hpart⟩ := List.mem_map.mp h
      cases hpart
    · obtain ⟨part, -, hpart⟩ := List.mem_map.mp h
      cases hpart
  · exact absurd h List.not_mem_nil

/-- The pages of a range are inside it, and one at its start is no longer than the cut span. -/
theorem getLogs_of_mem_rangeCalls {range : Range} {density a b : Nat}
    (h : Call.getLogs a b ∈ rangeCalls g matching range density) :
    range.1 ≤ a ∧ a ≤ range.2 ∧ (a = range.1 → b + 1 ≤ range.1 + cutSpan g.plan density range) := by
  rcases List.mem_append.mp h with h | h
  · obtain ⟨chunk, hchunk, hcall⟩ := List.mem_flatMap.mp h
    have hspan := (suggestedSpan_bounds g.plan density).1
    obtain ⟨hlo, hle, hhi⟩ := Pipeline.mem_planFrom hchunk hspan
    have hlen := Pipeline.length_planFrom hchunk
    obtain ⟨a', b', heq, ha, hab, hb⟩ := mem_spanCalls hle hcall
    cases heq
    refine ⟨hlo.trans ha, by omega, fun hstart => ?_⟩
    unfold cutSpan
    omega
  · exact absurd h (getLogs_not_mem_auxCalls range a b)

/-- The first page of a range. -/
theorem first_mem_rangeCalls {range : Range} (hle : range.1 ≤ range.2) (density : Nat) :
    Call.getLogs range.1 (range.1 + cutSpan g.plan density range - 1) ∈
      rangeCalls g matching range density := by
  have hspan := (suggestedSpan_bounds g.plan density).1
  have hend : min (range.1 + suggestedSpan g.plan density - 1) range.2 =
      range.1 + cutSpan g.plan density range - 1 := by
    unfold cutSpan
    omega
  have hfuel : range.2 + 1 - range.1 = range.2 - range.1 + 1 := by omega
  have hchunk : (range.1, range.1 + cutSpan g.plan density range - 1) ∈
      planRanges range.1 range.2 (suggestedSpan g.plan density) := by
    rw [planRanges, hfuel, planFrom, if_pos hle, hend]
    exact List.mem_cons_self
  refine List.mem_append_left _ (List.mem_flatMap.mpr ⟨_, hchunk, ?_⟩)
  rw [spanCalls]
  split
  · exact List.mem_cons_self
  · exact List.mem_cons_self

end Seeds

end Volume

end Topic0
