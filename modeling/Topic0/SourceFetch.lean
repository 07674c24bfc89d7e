import Topic0.BaseLoop
import Topic0.PipelineSource

/-! The record half of the RPC source. A range is fetched from a stack of pending spans, seeded in
pieces sized by the observed log density; a span whose answer hits the result cap is halved and
both halves go back on the stack. The provider is a function of the number of the call: it may
answer the same query differently each time. Block numbers are `u64`, so sums are taken modulo
`2 ^ 64`. -/

namespace Topic0

inductive SourceError where
  | transport (message : String)
  | malformed (message : String)
  | unknownKind (kind : String)
  | unsupported (message : String)
  deriving DecidableEq, Repr

def SourceError.toDomain : SourceError → DomainError
  | .transport message => .source ("rpc transport error: " ++ message)
  | .malformed message => .source ("rpc returned malformed data: " ++ message)
  | .unknownKind kind => .source ("provider kind '" ++ kind ++ "' unknown")
  | .unsupported message => .source ("unsupported: " ++ message)

/-- A log as the provider returns it. -/
structure Log where
  blockNumber : Option Nat
  blockHash : Option Hash
  logIndex : Option Nat
  transactionHash : Option Hash
  transactionIndex : Option Nat
  address : AddressBytes
  topics : List Hash
  data : List UInt8
  deriving DecidableEq, Repr

def mapLog (chainId : ChainId) (log : Log) : Except SourceError RawRecord :=
  match log.blockNumber with
  | none => .error (.malformed "log missing block_number")
  | some height =>
      match log.blockHash with
      | none => .error (.malformed "log missing block_hash")
      | some blockHash =>
          match log.logIndex with
          | none => .error (.malformed "log missing log_index")
          | some index =>
              match log.transactionHash with
              | none => .error (.malformed "log missing tx_hash")
              | some txHash =>
                  .ok ⟨chainId, height, blockHash, index, log.address, log.topics, log.data, txHash,
                    log.transactionIndex.getD 0, none⟩

/-- A log that is mapped has all four fields that may be missing. -/
theorem mapLog_ok {chainId : ChainId} {log : Log} {r : RawRecord}
    (h : mapLog chainId log = .ok r) :
    ∃ height blockHash index txHash, log.blockNumber = some height ∧
      log.blockHash = some blockHash ∧ log.logIndex = some index ∧
      log.transactionHash = some txHash ∧
      r = ⟨chainId, height, blockHash, index, log.address, log.topics, log.data, txHash,
        log.transactionIndex.getD 0, none⟩ := by
  unfold mapLog at h
  split at h
  · cases h
  split at h
  · cases h
  split at h
  · cases h
  split at h
  · cases h
  rename_i height hheight _ blockHash hhash _ index hindex _ txHash htx
  cases h
  exact ⟨height, blockHash, index, txHash, hheight, hhash, hindex, htx, rfl⟩

namespace RpcLogSource

open Pipeline (Range)

/-- The caps of a provider plan that a log fetch reads. -/
structure PlanProfile where
  maxGetlogsBlocks : UInt32
  maxGetlogsResults : UInt32

section Retry

/-- `str::contains`. -/
def containsText (pattern text : String) : Bool := decide (pattern.toList <:+: text.toList)

def toAsciiLowercase (text : String) : String := text.map Char.toLower

/-- Errors worth another attempt. -/
def isTransient (e : String) : Bool :=
  let el := toAsciiLowercase e
  containsText "429" el || containsText "limit" el || containsText "too many requests" el ||
    containsText "timeout" el || containsText "timed out" el || containsText "503" el ||
    containsText "502" el || containsText "connection" el

/-- The error says that the range or result cap was exceeded. -/
def isRangeCapError (e : String) : Bool :=
  let e := toAsciiLowercase e
  containsText "more than" e || containsText "too large" e || containsText "response size" e ||
    containsText "range is too" e || containsText "query timeout" e

variable {α : Type}

/-- The attempts left after a failed one; `calls` numbers the calls to the provider. -/
def retry (op : Nat → Except String α) : Nat → Nat → Except SourceError α × Nat
  | left, calls =>
      match op calls with
      | .ok v => (.ok v, calls + 1)
      | .error e =>
          match left with
          | 0 => (.error (.transport e), calls + 1)
          | left + 1 =>
              if isTransient e then retry op left (calls + 1)
              else (.error (.transport e), calls + 1)

/-- Six attempts in all. -/
def withRetry (op : Nat → Except String α) (calls : Nat) : Except SourceError α × Nat :=
  retry op 5 calls

theorem retry_of_ok (op : Nat → Except String α) {left calls : Nat} {v : α}
    (h : op calls = .ok v) : retry op left calls = (.ok v, calls + 1) := by
  cases left with
  | zero => rw [retry, h]
  | succ left => rw [retry, h]

theorem retry_of_error (op : Nat → Except String α) {left calls : Nat} {e : String}
    (h : op calls = .error e) (hlasting : isTransient e = false) :
    retry op left calls = (.error (.transport e), calls + 1) := by
  cases left with
  | zero => rw [retry, h]
  | succ left =>
      rw [retry, h]
      simp only [hlasting, Bool.false_eq_true, if_false]

/-- A retried call returns what one of its attempts returned. -/
theorem of_retry_ok {op : Nat → Except String α} {left calls : Nat} {v : α}
    (h : (retry op left calls).1 = .ok v) : ∃ n, op n = .ok v := by
  induction left generalizing calls with
  | zero =>
      rw [retry] at h
      split at h
      · rename_i v' hv
        cases h
        exact ⟨calls, hv⟩
      · cases h
  | succ left ih =>
      rw [retry] at h
      split at h
      · rename_i v' hv
        cases h
        exact ⟨calls, hv⟩
      · simp only at h
        split at h
        · exact ih h
        · cases h

end Retry

/-- `split_range`: contiguous halves. -/
def splitRange (lo hi : Nat) : Range × Range :=
  let mid := lo + (hi - lo) / 2
  ((lo, mid), (mid + 1, hi))

example : splitRange 0 2000 = ((0, 1000), (1001, 2000)) := rfl

def saturatingMul (a b : Nat) : Nat := min (a * b) (2 ^ 64 - 1)

/-- The span to seed at: about 80% of the result cap under the observed density, at most the
provider's block ceiling. -/
def suggestedSpan (plan : PlanProfile) (density : Nat) : Nat :=
  let maxBlocks := max plan.maxGetlogsBlocks.toNat 1
  let cap := plan.maxGetlogsResults.toNat
  if cap = 0 ∨ density = 0 then maxBlocks
  else min (max (saturatingMul cap 800 / density) 1) maxBlocks

/-- A clean page's logs per block, in thousandths, folded into the estimate with weight 1/8. -/
def recordDensity (density blocks logs : Nat) : Nat :=
  if blocks = 0 then density
  else
    let sample := saturatingMul logs 1000 / blocks
    if density = 0 then sample else (density * 7 + sample) % 2 ^ 64 / 8

/-- One round of the seeding loop, over the next block and the chunks so far. -/
def seedStep (span hi : Nat) (s : Nat × List Range) : (Nat × List Range) ⊕ List Range :=
  if s.1 ≤ hi then
    let e := min ((s.1 + span + (2 ^ 64 - 1)) % 2 ^ 64) hi
    .inl ((e + 1) % 2 ^ 64, s.2 ++ [(s.1, e)])
  else .inr s.2

/-- The fetch loop's state. The top of the stack is the head of `pending`. -/
structure FetchState where
  pending : List Range
  logs : List Log
  density : Nat
  calls : Nat

/-- Put both halves of an overflowing span back, the lower one on top. -/
def overflow (s : FetchState) (lo hi : Nat) (rest : List Range) (calls : Nat) : FetchState :=
  let halves := splitRange lo hi
  { s with pending := halves.1 :: halves.2 :: rest, calls := calls }

variable (plan : PlanProfile) (getLogs : Nat → Nat → Nat → Except String (List Log))

/-- One round of the fetch loop. -/
def fetchStep (s : FetchState) : FetchState ⊕ Except SourceError (List Log) :=
  match s.pending with
  | [] => .inr (.ok s.logs)
  | (lo, hi) :: rest =>
      match withRetry (fun n => getLogs n lo hi) s.calls with
      | (.ok page, calls) =>
          if lo < hi ∧ 0 < plan.maxGetlogsResults.toNat ∧
              plan.maxGetlogsResults.toNat ≤ page.length then
            .inl (overflow s lo hi rest calls)
          else
            .inl ⟨rest, s.logs ++ page, recordDensity s.density (hi - lo + 1) page.length, calls⟩
      | (.error (.transport e), calls) =>
          if lo < hi ∧ isRangeCapError e then .inl (overflow s lo hi rest calls)
          else .inr (.error (.transport e))
      | (.error e, _) => .inr (.error e)

/-- What a round can do: end, halve the span on top, append a page of it, or fail. -/
inductive Round (s : FetchState) : FetchState ⊕ Except SourceError (List Log) → Prop
  | done (hpending : s.pending = []) : Round s (.inr (.ok s.logs))
  | halve {lo hi : Nat} {rest : List Range} (hpending : s.pending = (lo, hi) :: rest) (hlt : lo < hi)
      (calls : Nat) : Round s (.inl (overflow s lo hi rest calls))
  | page {n lo hi : Nat} {rest : List Range} {page : List Log}
      (hpending : s.pending = (lo, hi) :: rest) (hpage : getLogs n lo hi = .ok page)
      (hcap : ¬(lo < hi ∧ 0 < plan.maxGetlogsResults.toNat ∧
        plan.maxGetlogsResults.toNat ≤ page.length)) (density calls : Nat) :
      Round s (.inl ⟨rest, s.logs ++ page, density, calls⟩)
  | fail (e : SourceError) : Round s (.inr (.error e))

theorem fetchStep_cases (s : FetchState) : Round plan getLogs s (fetchStep plan getLogs s) := by
  unfold fetchStep
  split
  · rename_i hpending
    exact .done hpending
  · rename_i lo hi rest hpending
    split
    · rename_i page calls hres
      split
      · rename_i hcap
        exact .halve hpending hcap.1 calls
      · rename_i hcap
        obtain ⟨n, hn⟩ := of_retry_ok (congrArg Prod.fst hres)
        exact .page hpending hn hcap _ calls
    · rename_i e calls hres
      split
      · rename_i hcap
        exact .halve hpending hcap.1 calls
      · exact .fail _
    · exact .fail _

/-- `fetch_records` of `[lo..hi]`, each of its loops on the given fuel. The seeded chunks are
reversed onto a stack whose end is popped, so the lowest is fetched first. -/
def fetchRecords (chainId : ChainId) (density lo hi fuel : Nat) :
    Option (Except DomainError (List RawRecord)) := do
  let chunks ← Loop.run (seedStep (suggestedSpan plan density) hi) fuel (lo, [])
  let logs ← Loop.run (fetchStep plan getLogs) fuel ⟨chunks, [], density, 0⟩
  some ((do
    let logs ← logs
    logs.mapM (mapLog chainId)).mapError SourceError.toDomain)

variable {plan getLogs} in
/-- A fetch that returns has seeded its spans, fetched them and mapped what it got. -/
theorem fetchRecords_ok {chainId : ChainId} {density lo hi fuel : Nat} {records : List RawRecord}
    (h : fetchRecords plan getLogs chainId density lo hi fuel = some (.ok records)) :
    ∃ chunks logs, Loop.run (seedStep (suggestedSpan plan density) hi) fuel (lo, []) = some chunks ∧
      Loop.run (fetchStep plan getLogs) fuel ⟨chunks, [], density, 0⟩ = some (.ok logs) ∧
      logs.mapM (mapLog chainId) = .ok records := by
  unfold fetchRecords at h
  obtain ⟨chunks, hchunks, h⟩ := Option.bind_eq_some_iff.mp h
  obtain ⟨answer, hanswer, h⟩ := Option.bind_eq_some_iff.mp h
  rw [Option.some.injEq] at h
  have hok := Rows.mapError_eq_ok.mp h
  rw [Rows.bind_eq_ok] at hok
  obtain ⟨logs, rfl, hmap⟩ := hok
  exact ⟨chunks, logs, hchunks, hanswer, hmap⟩

/-- The blocks of a list of spans, in its order. -/
def blocksOf (spans : List Range) : List Nat := spans.flatMap fun r => heights r.1 r.2

@[simp] theorem blocksOf_nil : blocksOf [] = [] := rfl

@[simp] theorem blocksOf_cons (r : Range) (spans : List Range) :
    blocksOf (r :: spans) = heights r.1 r.2 ++ blocksOf spans := List.flatMap_cons

theorem heights_append {lo mid hi : Nat} (hlo : lo ≤ mid + 1) (hhi : mid ≤ hi) :
    heights lo mid ++ heights (mid + 1) hi = heights lo hi := by
  have hlen : hi + 1 - lo = (mid + 1 - lo) + (hi + 1 - (mid + 1)) := by omega
  have hmid : mid + 1 = lo + (mid + 1 - lo) := by omega
  rw [heights, heights, heights, hlen, ← List.range'_append_1]
  congr 2

/-- The halves of a span hold its blocks. -/
theorem blocksOf_splitRange {lo hi : Nat} (hlt : lo < hi) (rest : List Range) :
    blocksOf ((splitRange lo hi).1 :: (splitRange lo hi).2 :: rest) =
      blocksOf ((lo, hi) :: rest) := by
  have hhalves : heights lo (lo + (hi - lo) / 2) ++ heights (lo + (hi - lo) / 2 + 1) hi =
      heights lo hi := heights_append (by omega) (by omega)
  rw [blocksOf_cons, blocksOf_cons, blocksOf_cons, ← List.append_assoc]
  exact congrArg (fun blocks => blocks ++ blocksOf rest) hhalves

/-- How often spans can still be popped: a span of `n` blocks has `2 * n - 1` nodes when it is
halved down to single blocks. -/
def spanWeight (spans : List Range) : Nat := (spans.map fun r => 2 * (r.2 - r.1) + 1).sum

@[simp] theorem spanWeight_cons (r : Range) (spans : List Range) :
    spanWeight (r :: spans) = 2 * (r.2 - r.1) + 1 + spanWeight spans := List.sum_cons

theorem spanWeight_splitRange {lo hi : Nat} (hlt : lo < hi) (rest : List Range) :
    spanWeight ((splitRange lo hi).1 :: (splitRange lo hi).2 :: rest) <
      spanWeight ((lo, hi) :: rest) := by
  simp only [spanWeight_cons, splitRange]
  omega

theorem spanWeight_le {spans : List Range} (hspans : ∀ r ∈ spans, r.1 ≤ r.2) :
    spanWeight spans ≤ 2 * (blocksOf spans).length := by
  induction spans with
  | nil => exact Nat.le_refl _
  | cons r spans ih =>
      have hle := hspans r List.mem_cons_self
      have hrest := ih fun r' hr' => hspans r' (List.mem_cons_of_mem _ hr')
      rw [spanWeight_cons, blocksOf_cons, List.length_append, heights, List.length_range']
      omega

theorem suggestedSpan_bounds (plan : PlanProfile) (density : Nat) :
    1 ≤ suggestedSpan plan density ∧ suggestedSpan plan density < 2 ^ 32 := by
  have hblocks := plan.maxGetlogsBlocks.toNat_lt
  rw [suggestedSpan]
  split
  · omega
  · omega

/-- The seeded chunks hold the blocks of the range, in order. -/
structure Seeded (lo hi : Nat) (chunks : List Range) : Prop where
  blocks : blocksOf chunks = heights lo hi
  spans : ∀ r ∈ chunks, r.1 ≤ r.2

/-- Where the seeding loop stands: the chunks so far end right before the next block. -/
structure Seeding (lo hi : Nat) (s : Nat × List Range) : Prop where
  blocks : blocksOf s.2 ++ heights s.1 hi = heights lo hi
  spans : ∀ r ∈ s.2, r.1 ≤ r.2

theorem seeding_step {span lo hi : Nat} (hspan : 1 ≤ span ∧ span < 2 ^ 32) (hhi : hi < 2 ^ 63)
    (s : Nat × List Range) (hs : Seeding lo hi s) :
    Loop.Advances (Seeding lo hi) (fun s => hi + 1 - s.1) (Seeded lo hi) s
      (seedStep span hi s) := by
  obtain ⟨next, chunks⟩ := s
  unfold seedStep
  by_cases hnext : next ≤ hi
  · have he : (next + span + (2 ^ 64 - 1)) % 2 ^ 64 = next + span - 1 := by omega
    have hsucc : (min (next + span - 1) hi + 1) % 2 ^ 64 = min (next + span - 1) hi + 1 := by omega
    simp only [hnext, if_true, he, hsucc]
    refine ⟨⟨?_, ?_⟩, ?_⟩
    · have hjoin : heights next (min (next + span - 1) hi) ++
          heights (min (next + span - 1) hi + 1) hi = heights next hi :=
        heights_append (by omega) (by omega)
      simp only [blocksOf, List.flatMap_append, List.flatMap_cons, List.flatMap_nil,
        List.append_nil, List.append_assoc, hjoin]
      exact hs.blocks
    · intro r hr
      rcases List.mem_append.mp hr with hr | hr
      · exact hs.spans r hr
      · rw [List.mem_singleton.mp hr]
        show next ≤ min (next + span - 1) hi
        omega
    · show hi + 1 - (min (next + span - 1) hi + 1) < hi + 1 - next
      omega
  · simp only [hnext, if_false]
    refine ⟨?_, hs.spans⟩
    have hempty : heights next hi = [] := by
      rw [heights, List.range'_eq_nil_iff]
      omega
    have hblocks := hs.blocks
    simp only [hempty, List.append_nil] at hblocks
    exact hblocks

theorem exists_seed {span lo hi fuel : Nat} (hspan : 1 ≤ span ∧ span < 2 ^ 32) (hhi : hi < 2 ^ 63)
    (hfuel : hi + 1 - lo < fuel) :
    ∃ chunks, Loop.run (seedStep span hi) fuel (lo, []) = some chunks ∧ Seeded lo hi chunks :=
  Loop.exists_run (Seeding lo hi) (fun s => hi + 1 - s.1) (Seeded lo hi)
    (seeding_step hspan hhi) ⟨rfl, nofun⟩ hfuel

/-- What the provider may return for a query: the matching logs of its blocks in block order, or
a page of more than one block that reaches the result cap. Errors are any. -/
def Answers (matching : Nat → List Log) : Prop :=
  ∀ n lo hi page, getLogs n lo hi = .ok page → page = (heights lo hi).flatMap matching ∨
    (lo < hi ∧ 0 < plan.maxGetlogsResults.toNat ∧ plan.maxGetlogsResults.toNat ≤ page.length)

section Complete

variable {plan getLogs} {matching : Nat → List Log} {lo hi : Nat}

/-- The fetched logs are those of the blocks below the pending spans. -/
def Fetching (matching : Nat → List Log) (lo hi : Nat) (s : FetchState) : Prop :=
  s.logs ++ (blocksOf s.pending).flatMap matching = (heights lo hi).flatMap matching

theorem fetching_overflow {s : FetchState} (hs : Fetching matching lo hi s) {lo' hi' : Nat}
    {rest : List Range} (hpending : s.pending = (lo', hi') :: rest) (hlt : lo' < hi')
    (calls : Nat) :
    Fetching matching lo hi (overflow s lo' hi' rest calls) ∧
      spanWeight (overflow s lo' hi' rest calls).pending < spanWeight s.pending := by
  refine ⟨?_, hpending ▸ spanWeight_splitRange hlt rest⟩
  have hblocks := blocksOf_splitRange hlt rest
  unfold Fetching at hs ⊢
  rw [hpending] at hs
  simp only [overflow, hblocks]
  exact hs

/-- A round pops a span whose logs are complete, or halves it. -/
theorem fetching_step (hanswers : Answers plan getLogs matching) (s : FetchState)
    (hs : Fetching matching lo hi s) :
    Loop.Advances (Fetching matching lo hi) (fun s => spanWeight s.pending)
      (fun result => ∀ logs, result = .ok logs → logs = (heights lo hi).flatMap matching) s
      (fetchStep plan getLogs s) := by
  have hround := fetchStep_cases plan getLogs s
  generalize fetchStep plan getLogs s = result at hround ⊢
  cases hround with
  | done hpending =>
      intro logs heq
      cases heq
      rw [Fetching, hpending, blocksOf_nil, List.flatMap_nil, List.append_nil] at hs
      exact hs
  | halve hpending hlt calls => exact fetching_overflow hs hpending hlt calls
  | @page n lo' hi' rest page hpending hpage hcap density calls =>
      have heq : page = (heights lo' hi').flatMap matching :=
        (hanswers n lo' hi' page hpage).resolve_right hcap
      constructor
      · rw [Fetching, hpending, blocksOf_cons, List.flatMap_append, ← List.append_assoc] at hs
        rw [Fetching, heq]
        exact hs
      · show spanWeight rest < spanWeight s.pending
        rw [hpending, spanWeight_cons]
        omega
  | fail e =>
      intro logs heq
      cases heq

/-- Whatever the provider answers, the fetch returns; and what it returns is an error or exactly
the matching logs of the range, each once and in block order. -/
theorem fetchRecords_exact (hhi : hi < 2 ^ 63) (hanswers : Answers plan getLogs matching)
    (chainId : ChainId) (density : Nat) {fuel : Nat} (hfuel : 2 * (hi + 1 - lo) < fuel) :
    ∃ result, fetchRecords plan getLogs chainId density lo hi fuel = some result ∧
      ∀ records, result = .ok records →
        ((heights lo hi).flatMap matching).mapM (mapLog chainId) = .ok records := by
  obtain ⟨chunks, hchunks, hseeded⟩ := exists_seed (suggestedSpan_bounds plan density) hhi
    (show hi + 1 - lo < fuel by omega)
  have hweight : spanWeight chunks < fuel := by
    have hle := spanWeight_le hseeded.spans
    rw [hseeded.blocks, heights, List.length_range'] at hle
    omega
  have hstart : Fetching matching lo hi ⟨chunks, [], density, 0⟩ := by
    rw [Fetching, hseeded.blocks, List.nil_append]
  obtain ⟨logs, hlogs, hexact⟩ := Loop.exists_run (Fetching matching lo hi)
    (fun s => spanWeight s.pending) _ (fetching_step hanswers) hstart hweight
  obtain ⟨result, hresult⟩ : ∃ result,
      fetchRecords plan getLogs chainId density lo hi fuel = some result := by
    rw [fetchRecords, hchunks, Option.bind_eq_bind, Option.bind_some, hlogs]
    exact ⟨_, rfl⟩
  refine ⟨result, hresult, ?_⟩
  intro records hrecords
  rw [hrecords] at hresult
  obtain ⟨chunks', logs', hchunks', hlogs', hmap⟩ := fetchRecords_ok hresult
  rw [hchunks, Option.some.injEq] at hchunks'
  subst hchunks'
  rw [hlogs, Option.some.injEq] at hlogs'
  rw [← hexact logs' hlogs']
  exact hmap

end Complete

/-- One log in each block. -/
def plainLogs (h : Nat) : List Log :=
  [⟨some h, some ⟨[7]⟩, some 0, some ⟨[8]⟩, some 0, ⟨[]⟩, [], []⟩]

def cappedPlan : PlanProfile := ⟨10, 2⟩

/-- A provider that throttles its first call and cuts pages of several blocks at two logs, every
second time with an error. -/
def cappedProvider (n lo hi : Nat) : Except String (List Log) :=
  if n = 0 then .error "429 too many requests"
  else if lo < hi then
    if n % 2 = 0 then .error "query returned more than 2 results"
    else .ok (plainLogs lo ++ plainLogs hi)
  else .ok ((heights lo hi).flatMap plainLogs)

theorem answers_cappedProvider : Answers cappedPlan cappedProvider plainLogs := by
  intro n lo hi page h
  unfold cappedProvider at h
  split at h
  · cases h
  · split at h
    · rename_i hlt
      split at h
      · cases h
      · cases h
        exact .inr ⟨hlt, by decide, Nat.le_refl _⟩
    · cases h
      exact .inl rfl

theorem fetchRecords_exact_capped :
    ∃ records, fetchRecords cappedPlan cappedProvider 1 0 1 4 9 = some (.ok records) ∧
      ((heights 1 4).flatMap plainLogs).mapM (mapLog 1) = .ok records := by
  obtain ⟨result, hresult, hexact⟩ := fetchRecords_exact (show 4 < 2 ^ 63 by decide)
    answers_cappedProvider 1 0 (show 2 * (4 + 1 - 1) < 9 by decide)
  have hok : (fetchRecords cappedPlan cappedProvider 1 0 1 4 9).map (fun r => r.toOption.isSome) =
      some true := by
    decide +kernel
  rw [hresult] at hok
  cases result with
  | error e => cases hok
  | ok records => exact ⟨records, hresult, hexact records rfl⟩

end RpcLogSource

end Topic0
