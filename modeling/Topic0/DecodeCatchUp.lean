import Topic0.DecodeProgress

/-! What a pool left alone comes to. On chains that are not reorganised the event tables are at every
moment the decode of the raw store up to the queued ranges, and a pool left alone empties the queue of
the sound chains. So it stops, and wherever it stops the event tables of those chains have caught up
with the raw store. -/

namespace Topic0.Workers

open Transition

variable {layout : String → PkColumns} {p : Pools layout} {s t : State layout} {n : Nat}
  {sound : ChainId → Bool} {logs : RawRecord → Prop}

/-- The event tables hold nothing but what raw records decode to, and of each raw record of a sound
chain that decodes exactly one row. -/
structure CaughtUp (p : Pools layout) (sound : ChainId → Bool) (store : Store layout) : Prop where
  matchesRaw : MatchesRaw p store
  complete : ∀ r ∈ store.rawRecords, sound r.chainId = true → ∀ d, DecodesInto p r d →
    ∃! row, row ∈ store.typed d.event.table ∧ DecodesTo p r row

theorem View.caughtUp {store : Store layout} (hview : View p store)
    (hqueue : ∀ q ∈ store.workQueue.rows, sound q.item.chainId = false) :
    CaughtUp p sound store where
  matchesRaw := hview.sound
  complete r hr hsound d hd := by
    rcases hview.complete r hr d hd with ⟨q, hq, hchain, -⟩ | hrow
    · rw [hchain, hqueue q hq] at hsound
      cases hsound
    · exact hrow

/-- A worker neither commits nor rolls back. -/
theorem final_of_works {act : Act} (h : s.works n sound act = true) : Final layout logs act := by
  obtain ⟨v, -, hactor, -⟩ := worker_of_works h
  cases act with
  | commit chain fetched => cases hactor
  | rollback chain lo => cases hactor
  | _ => trivial

/-- What the workers' steps keep of the state they start from. -/
structure Continues (p : Pools layout) (sound : ChainId → Bool) (n : Nat) (logs : RawRecord → Prop)
    (s t : State layout) : Prop where
  live : t.Live p sound n
  reachable : Reachable (system p Store.empty) (fun _ act => Final layout logs act) t
  stored : ∀ r ∈ s.store.rawRecords, r ∈ t.store.rawRecords

theorem continues_ranked (hown : OwnTables p) :
    Ranked (system p Store.empty) (State.works n sound) (Continues p sound n logs s)
      (State.left n) := by
  rintro u act v ⟨hlive, hreach, hstored⟩ hworks hstep
  obtain ⟨hlive', hlt⟩ := live_step hown hlive hworks hstep
  have hfinal : Final layout logs act := final_of_works hworks
  have hmono := fun r hr => (State.step_cases hstep).rawRecords_mono hfinal (hstored r hr)
  exact ⟨⟨hlive', .step hreach hfinal hstep, hmono⟩, hlt⟩

/-- The matching logs of the two chains, of which the first chain's decoder refuses its own. -/
def mixedLogs (r : RawRecord) : Prop := r = tokenLog ∨ r = transferLog 2 5 ⟨[8]⟩ 4

theorem mixedLogs_keys (r r' : RawRecord) (h : mixedLogs r) (h' : mixedLogs r')
    (hkey : r.key = r'.key) : r = r' := by
  rcases h with rfl | rfl <;> rcases h' with rfl | rfl
  · rfl
  · cases hkey
  · cases hkey
  · rfl

/-- The logs of each chain are those of its block 5. -/
theorem mixedLogs_iff (r : RawRecord) :
    (r = tokenLog ↔ mixedLogs r ∧ r.chainId = 1 ∧ 5 ≤ r.height ∧ r.height ≤ 5) ∧
      (r = transferLog 2 5 ⟨[8]⟩ 4 ↔ mixedLogs r ∧ r.chainId = 2 ∧ 5 ≤ r.height ∧ r.height ≤ 5) := by
  refine ⟨⟨?_, ?_⟩, ?_, ?_⟩
  · rintro rfl
    exact ⟨.inl rfl, rfl, le_refl 5, le_refl 5⟩
  · rintro ⟨rfl | rfl, hchain, -⟩
    · rfl
    · cases hchain
  · rintro rfl
    exact ⟨.inr rfl, rfl, le_refl 5, le_refl 5⟩
  · rintro ⟨rfl | rfl, hchain, -⟩
    · cases hchain
    · rfl

theorem final_crashActs : ∀ act ∈ crashActs, Final eventLayout mixedLogs act := by
  intro act hact
  simp only [crashActs, List.mem_cons, List.not_mem_nil, or_false] at hact
  rcases hact with rfl | rfl | rfl | rfl | rfl | rfl
  · refine ⟨fun r => ?_, fun row hrow => absurd hrow List.not_mem_nil⟩
    rw [show tokenBlock.records = [tokenLog] from rfl, List.mem_singleton]
    exact (mixedLogs_iff r).1
  · refine ⟨fun r => ?_, fun row hrow => absurd hrow List.not_mem_nil⟩
    rw [show (transferBlock 2 5 ⟨[8]⟩ 4).records = [transferLog 2 5 ⟨[8]⟩ 4] from rfl,
      List.mem_singleton]
    exact (mixedLogs_iff r).2
  all_goals trivial

end Topic0.Workers
