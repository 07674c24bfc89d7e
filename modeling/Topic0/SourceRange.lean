import Topic0.SourceAux

/-! Where the rows of a fetched range stand. Seeding and halving never reach past the end of the
range, so with a provider that answers a query by the logs of its blocks no record is above it; a
transaction or a receipt stands at the height of a record of its range. -/

namespace Topic0

namespace RpcLogSource

open Pipeline (Range)

/-- `eth_getLogs` returns logs of the blocks it was asked for. -/
def LogsInRange (getLogs : Nat → Nat → Nat → Except String (List Log)) : Prop :=
  ∀ n lo hi page, getLogs n lo hi = .ok page → ∀ log ∈ page, ∀ h, log.blockNumber = some h →
    lo ≤ h ∧ h ≤ hi

variable {plan : PlanProfile} {getLogs : Nat → Nat → Nat → Except String (List Log)} {hi : Nat}

/-- No span ends above the range. -/
def SpansUpTo (hi : Nat) (spans : List Range) : Prop := ∀ r ∈ spans, r.2 ≤ hi

def LogsUpTo (hi : Nat) (logs : List Log) : Prop :=
  ∀ log ∈ logs, ∀ h, log.blockNumber = some h → h ≤ hi

theorem spansUpTo_seed {span lo fuel : Nat} {chunks : List Range}
    (h : Loop.run (seedStep span hi) fuel (lo, []) = some chunks) : SpansUpTo hi chunks := by
  refine Loop.of_run (fun s : Nat × List Range => SpansUpTo hi s.2) (SpansUpTo hi) ?_
    (fun r hr => absurd hr List.not_mem_nil) h
  intro s hs
  unfold seedStep
  split
  · intro r hr
    rcases List.mem_append.mp hr with hr | hr
    · exact hs r hr
    · rw [List.mem_singleton.mp hr]
      exact min_le_right _ _
  · exact hs

theorem spansUpTo_overflow {s : FetchState} {lo' hi' calls : Nat} {rest : List Range}
    (hs : SpansUpTo hi s.pending) (hpending : s.pending = (lo', hi') :: rest) (hlt : lo' < hi') :
    SpansUpTo hi (overflow s lo' hi' rest calls).pending := by
  rw [hpending] at hs
  have htop : hi' ≤ hi := hs (lo', hi') List.mem_cons_self
  intro r hr
  rcases List.mem_cons.mp hr with rfl | hr
  · show lo' + (hi' - lo') / 2 ≤ hi
    omega
  · rcases List.mem_cons.mp hr with rfl | hr
    · exact htop
    · exact hs r (List.mem_cons_of_mem _ hr)

theorem logsUpTo_fetchStep (hrange : LogsInRange getLogs) (s : FetchState)
    (hs : SpansUpTo hi s.pending ∧ LogsUpTo hi s.logs) :
    Sum.elim (fun s : FetchState => SpansUpTo hi s.pending ∧ LogsUpTo hi s.logs)
      (fun result => ∀ logs, result = .ok logs → LogsUpTo hi logs) (fetchStep plan getLogs s) := by
  have hround := fetchStep_cases plan getLogs s
  generalize fetchStep plan getLogs s = result at hround ⊢
  cases hround with
  | done hpending =>
      intro logs heq
      cases heq
      exact hs.2
  | halve hpending hlt calls => exact ⟨spansUpTo_overflow hs.1 hpending hlt, hs.2⟩
  | @page n lo' hi' rest page hpending hpage hcap density calls =>
      have hspans := hs.1
      rw [hpending] at hspans
      refine ⟨fun r hr => hspans r (List.mem_cons_of_mem _ hr), fun log hlog h hh => ?_⟩
      rcases List.mem_append.mp hlog with hlog | hlog
      · exact hs.2 log hlog h hh
      · exact (hrange n lo' hi' page hpage log hlog h hh).2.trans
          (hspans (lo', hi') List.mem_cons_self)
  | fail e =>
      intro logs heq
      cases heq

/-- No record is above its range. -/
theorem height_le_of_fetchRecords (hrange : LogsInRange getLogs) {chainId : ChainId}
    {density lo fuel : Nat} {records : List RawRecord}
    (h : fetchRecords plan getLogs chainId density lo hi fuel = some (.ok records)) :
    ∀ r ∈ records, r.height ≤ hi := by
  obtain ⟨chunks, logs, hchunks, hanswer, hmap⟩ := fetchRecords_ok h
  have hlogs := Loop.of_run _ _ (logsUpTo_fetchStep hrange)
    ⟨spansUpTo_seed hchunks, fun log hlog => absurd hlog List.not_mem_nil⟩ hanswer logs rfl
  intro r hr
  obtain ⟨log, hlog, hr⟩ := (Rows.mem_mapM_ok hmap).mp hr
  obtain ⟨height, blockHash, index, txHash, hheight, -, -, -, rfl⟩ := mapLog_ok hr
  exact hlogs log hlog height hheight

/-- An aux row is its source's, at the height of a record. -/
theorem placed_of_fetchAux {chainId : ChainId} {rpc : Rpc} {records : List RawRecord}
    {aux : AuxData} (h : fetchAux chainId rpc records = .ok aux) {row : EventRow}
    (hrow : row ∈ aux.enrichment) :
    row.chainId = chainId ∧ ∃ r ∈ records, r.height = row.height := by
  rw [fetchAux_eq] at h
  obtain ⟨blocks, receipts, hfound, rfl⟩ := fetchAuxIn_ok h
  rw [List.flatten_singleton, List.flatten_singleton] at hfound
  rcases mem_auxOf hrow with ⟨p, hp, tx, i, rfl⟩ | ⟨id, rcpt, hid, rfl⟩
  · have hmem : p.1 ∈ heightsOf records := by
      rw [← (rpc.heightOrder_perm _).mem_iff, ← hfound.heights]
      exact List.mem_map_of_mem hp
    obtain ⟨r, hr, heq⟩ := List.mem_map.mp (List.mem_dedup.mp hmem)
    refine ⟨rfl, r, hr, ?_⟩
    rw [heq]
    exact (rpc.block_number p.1 p.2 (hfound.block p hp)).symm
  · have hmem : id ∈ txIdsOf records := by
      rw [← (rpc.txOrder_perm _).mem_iff, ← hfound.txIds]
      exact List.mem_map_of_mem hid
    obtain ⟨r, hr, heq⟩ := List.mem_map.mp (List.mem_dedup.mp hmem)
    refine ⟨rfl, ?_⟩
    show ∃ r ∈ records, r.height = (Enrichment.txLoc records id).1
    unfold Enrichment.txLoc
    cases hfind : records.find? fun x => x.txId = id with
    | none => exact absurd (decide_eq_true heq) (List.find?_eq_none.mp hfind r hr)
    | some first => exact ⟨first, List.mem_of_find?_eq_some hfind, rfl⟩

end RpcLogSource

namespace Agreement

/-- Where a fetched range's rows stand. -/
structure Placed (chain : ChainId) (fetched : FetchedRange) : Prop where
  records : ∀ r ∈ fetched.records, r.chainId = chain ∧ r.height ≤ fetched.toHeight
  enrichment : ∀ row ∈ fetched.aux.enrichment, row.chainId = chain ∧
    ∃ r ∈ fetched.records, r.height = row.height

theorem placed_fetchRange {call : FetchCall} {fetched : FetchedRange}
    (hrange : RpcLogSource.LogsInRange call.rpc.getLogs)
    (h : call.fetchRange = some (.ok fetched)) : Placed call.chain fetched := by
  obtain ⟨records, aux, hanswer, haux, rfl⟩ := call.fetchRange_ok h
  refine ⟨fun r hr => ⟨RpcLogSource.chainId_of_fetchRecords hanswer r hr,
    RpcLogSource.height_le_of_fetchRecords hrange hanswer r hr⟩, fun row hrow => ?_⟩
  by_cases hempty : records.isEmpty = true
  · rw [IngestionService.fetchRange, if_pos hempty] at hrow
    exact absurd hrow List.not_mem_nil
  · rw [IngestionService.fetchRange, if_neg hempty] at hrow
    rw [FetchCall.auxOf, if_neg hempty] at haux
    exact RpcLogSource.placed_of_fetchAux haux hrow

end Agreement

end Topic0
