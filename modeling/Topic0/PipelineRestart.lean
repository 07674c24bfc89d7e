import Topic0.PipelineGapFree

/-! Restarts are equivalent to one clean run. On a fixed chain whose ranges are served completely,
the raw, block and aux tables are at every moment the chain's over the committed ranges, so once
the cursor is past a target they are over the whole window what one sequential ingest writes. -/

namespace Topic0.Pipeline

open Transition

variable {layout : String → PkColumns} {cfg : Config} {c : Chain}

/-- A fixed chain on the poll path: fetches return what the chain has, block hashes are the
chain's, and only the chain's own loop runs. -/
def OnChain (c : Chain) (_ : State layout) : Act → Prop
  | .startBackfill _ _ => False
  | .checkpoint _ => False
  | .check blockHash => ∀ h hash, blockHash h = some hash → hash = (c.block h).hash
  | .drive (.complete _ fetched) => Serves c fetched.fromHeight fetched.toHeight fetched
  | _ => True

/-- Whatever waits for the writer is the chain's. -/
def Proc.Served (c : Chain) : Proc → Prop
  | .idle | .loop _ => True
  | .backfill d | .sweep d => ∀ f ∈ d.channel, Serves c f.fromHeight f.toHeight f

structure State.Faithful (c : Chain) (s : State layout) : Prop where
  holds : Holds c s.store (Covered s.committed)
  served : s.proc.Served c

theorem Work.faithful_step (hlayout : AuxLayout layout) (hid : cfg.chain = c.id)
    {w w' : Work layout} {act : DriveAct} (hholds : Holds c w.store (Covered w.committed))
    (hserved : ∀ f ∈ w.drive.channel, Serves c f.fromHeight f.toHeight f)
    (hact : ∀ i f, act = .complete i f → Serves c f.fromHeight f.toHeight f)
    (h : Work.Step cfg w act w') :
    Holds c w'.store (Covered w'.committed) ∧
      ∀ f ∈ w'.drive.channel, Serves c f.fromHeight f.toHeight f := by
  cases h with
  | complete hplanned =>
      refine ⟨hholds, fun f hf => ?_⟩
      rcases List.mem_append.mp hf with hf | hf
      · exact hserved f hf
      · rw [List.mem_singleton.mp hf]
        exact hact _ _ rfl
  | stop hbusy => exact ⟨hholds, hserved⟩
  | commit hchannel hdue hcommit =>
      rw [hchannel] at hserved
      rw [hid] at hcommit
      refine ⟨?_, fun f hf => hserved f (List.mem_cons_of_mem _ hf)⟩
      have hgrown := IngestionService.holds_commit hlayout (hserved _ List.mem_cons_self) hholds
        hcommit
      exact hgrown.congr fun b => covered_cons.symm
  | advance hdue => exact ⟨holds_advanceInTx hholds _ _ _, hserved⟩

/-- The stored tip of a fixed chain is canonical. -/
theorem not_mismatch_of_holds (hid : cfg.chain = c.id) {store : Store layout}
    {covered : Nat → Prop} (hholds : Holds c store covered) {blockHash : Nat → Option Hash}
    (hchain : ∀ h hash, blockHash h = some hash → hash = (c.block h).hash) (tip : Nat) :
    ¬ReorgService.Mismatch store cfg.chain blockHash tip := by
  rintro ⟨-, stored, canon, hstored, hcanon, hne⟩
  obtain ⟨hmem, hkey⟩ := Keyed.Table.of_find?_eq_some hstored
  rw [BlockMeta.key, Prod.mk.injEq] at hkey
  obtain ⟨-, hblock⟩ := (hholds.blocks stored (hkey.1.trans hid)).mp hmem
  rw [hkey.2] at hblock
  apply hne
  rw [(Chain.mem_blocksAt.mp hblock).2, hchain tip canon hcanon]

theorem closed_of_onChain (hid : cfg.chain = c.id) {s : State layout} {act : Act}
    (hfaithful : s.Faithful c) (hact : OnChain c s act) :
    Closed cfg (max cfg.startBlock 1 ≤ ·) s act := by
  cases act with
  | startBackfill lo hi => exact hact.elim
  | checkpoint head => exact hact.elim
  | startLoop => exact fun _ b hstart hb => absurd hb (Nat.not_lt.mpr hstart)
  | check blockHash =>
      intro store' reindex hcheck
      rw [ReorgService.check_of_not_mismatch (not_mismatch_of_holds hid hfaithful.holds hact)] at hcheck
      cases hcheck
  | sweep head => trivial
  | drive act => trivial
  | finish => trivial
  | interrupt => trivial

theorem State.faithful_step (hlayout : AuxLayout layout) (hid : cfg.chain = c.id)
    {s s' : State layout} {act : Act} (hinv : s.Faithful c) (hact : OnChain c s act)
    (h : State.Step cfg s act s') : s'.Faithful c := by
  obtain ⟨hholds, hserved⟩ := hinv
  cases h with
  | startBackfill => exact hact.elim
  | checkpoint hbehind => exact hact.elim
  | startLoop => exact ⟨hholds, trivial⟩
  | sweep hbehind => exact ⟨hholds, fun f hf => absurd hf List.not_mem_nil⟩
  | checkNone hcheck =>
      rw [ReorgService.check_of_not_mismatch (not_mismatch_of_holds hid hholds hact)] at hcheck
      cases hcheck
      exact ⟨hholds, trivial⟩
  | checkSome hcheck =>
      rw [ReorgService.check_of_not_mismatch (not_mismatch_of_holds hid hholds hact)] at hcheck
      cases hcheck
  | driveBackfill hstep =>
      obtain ⟨hholds', hserved'⟩ := Work.faithful_step (w := ⟨_, _, _⟩) hlayout hid hholds hserved
        (by rintro i f rfl; exact hact) hstep
      exact ⟨hholds', hserved'⟩
  | driveSweep hstep =>
      obtain ⟨hholds', hserved'⟩ := Work.faithful_step (w := ⟨_, _, _⟩) hlayout hid hholds hserved
        (by rintro i f rfl; exact hact) hstep
      exact ⟨hholds', hserved'⟩
  | finishBackfill => exact ⟨hholds, trivial⟩
  | finishSweep hdue =>
      rename_i d
      refine ⟨hholds, ?_⟩
      cases d.shutdown <;> trivial
  | interrupt => exact ⟨hholds, trivial⟩

/-- On a fixed chain every reachable state is gap-free and holds the chain over what it committed. -/
theorem sound_of_reachable (hlayout : AuxLayout layout) (hid : cfg.chain = c.id)
    {store : Store layout} (hfresh : Holds c store fun _ => False)
    (hcursor : store.cursors cfg.chain = none) {s : State layout}
    (h : Reachable (system cfg store) (OnChain c) s) :
    s.GapFree cfg (max cfg.startBlock 1 ≤ ·) ∧ s.Faithful c := by
  refine h.invariant (fun s => s.GapFree cfg (max cfg.startBlock 1 ≤ ·) ∧ s.Faithful c) ?_ ?_
  · intro s hinit
    refine ⟨State.gapFree_init hcursor hinit, ?_⟩
    cases hinit
    exact ⟨hfresh.congr fun b => by simp [Covered], trivial⟩
  · rintro s act s' ⟨hgap, hfaithful⟩ hact hstep
    have hcases := State.step_cases hstep
    exact ⟨State.gapFree_step hgap (closed_of_onChain hid hfaithful hact) hcases,
      State.faithful_step hlayout hid hfaithful hact hcases⟩

/-- The two stores agree on the chain's rows of a window in the four ingested tables. -/
structure SameWindow (chain : ChainId) (lo hi : Nat) (a b : Store layout) : Prop where
  rawRecords : ∀ r : RawRecord, r.chainId = chain → lo ≤ r.height → r.height ≤ hi →
    (r ∈ a.rawRecords ↔ r ∈ b.rawRecords)
  blocks : ∀ m : BlockMeta, m.chainId = chain → lo ≤ m.height → m.height ≤ hi →
    (m ∈ a.blocks ↔ m ∈ b.blocks)
  aux : ∀ t, t = transactionsTable ∨ t = receiptsTable → ∀ row : EventRow, row.chainId = chain →
    lo ≤ row.height → row.height ≤ hi → (row ∈ a.typed t ↔ row ∈ b.typed t)

theorem sameWindow_of_holds {lo hi : Nat} {a b : Store layout} {covered covered' : Nat → Prop}
    (ha : Holds c a covered) (hb : Holds c b covered')
    (hcovered : ∀ h, lo ≤ h → h ≤ hi → covered h ∧ covered' h) : SameWindow c.id lo hi a b := by
  have hiff : ∀ h, lo ≤ h → h ≤ hi → (covered h ↔ covered' h) :=
    fun h hlo hhi => iff_of_true (hcovered h hlo hhi).1 (hcovered h hlo hhi).2
  constructor
  · exact fun r hr hlo hhi => ha.rawRecords.eq_on hb.rawRecords hr (hiff _ hlo hhi)
  · exact fun m hm hlo hhi => ha.blocks.eq_on hb.blocks hm (hiff _ hlo hhi)
  · rintro t (rfl | rfl) row hrow hlo hhi
    · exact ha.transactions.eq_on hb.transactions hrow (hiff _ hlo hhi)
    · exact ha.receipts.eq_on hb.receipts hrow (hiff _ hlo hhi)

/-- At every moment of every run on a fixed chain the cursor ends a committed prefix, and once it
has reached a target, one clean sequential ingest of the same database, whatever its range size,
returns and writes the same window. -/
theorem restart_equivalent_to_clean_run (cfg : Config) (c : Chain) (hid : cfg.chain = c.id)
    (hlayout : AuxLayout layout) {store : Store layout} (hfresh : Holds c store fun _ => False)
    (hcursor : store.cursors cfg.chain = none) {s : State layout}
    (h : Reachable (system cfg store) (OnChain c) s) {last : Nat} {hash : Hash}
    (hlast : s.store.cursors cfg.chain = some (last, hash)) :
    (∀ b, max cfg.startBlock 1 ≤ b → b ≤ last → Covered s.committed b) ∧
    ∀ target, target ≤ last → ∀ step, 0 < step → ∀ source : Nat → Nat → FetchedRange,
      (∀ lo hi, Serves c lo hi (source lo hi)) →
      ∃ clean, IngestionService.ingestAll source store cfg.chain (max cfg.startBlock 1) target
          step = .ok clean ∧
        SameWindow cfg.chain (max cfg.startBlock 1) target clean s.store := by
  obtain ⟨hgap, hfaithful⟩ := sound_of_reachable hlayout hid hfresh hcursor h
  have hcovered : ∀ b, max cfg.startBlock 1 ≤ b → b ≤ last → Covered s.committed b :=
    fun b hstart hb => hgap.cursor last hash hlast b hstart (Nat.lt_succ_of_le hb)
  refine ⟨hcovered, fun target htarget step hstep source hsource => ?_⟩
  obtain ⟨clean, hclean, hholds, -⟩ :=
    IngestionService.exists_ingestAll_ok hlayout hsource (max cfg.startBlock 1) target hstep hfresh
  rw [hid]
  refine ⟨clean, hclean, sameWindow_of_holds hholds hfaithful.holds fun b hlo hhi => ?_⟩
  exact ⟨.inr ⟨hlo, hhi⟩, hcovered b hlo (hhi.trans htarget)⟩

/-- A loop over blocks 1 and 2, of which the second holds a log. -/
theorem restart_equivalent_on_plainChain :
    ∃ s : State eventLayout,
      s.store.cursors 1 = some (2, plainHash (fun _ => 0) 2) ∧ Covered s.committed 1 := by
  let c := plainChain 1 (fun h => h == 2) fun _ => 0
  have hfresh : Holds c (Store.empty : Store eventLayout) fun _ => False := holds_empty c
  have hallowed : ∀ a ∈ [Act.startLoop, .check fun h => some (c.block h).hash, .sweep 2,
      .drive (.complete 0 (c.serve 1 2)), .drive .commit, .drive .advance],
      ∀ u : State eventLayout, OnChain c u a := by
    simp only [List.mem_cons, List.not_mem_nil, or_false, forall_eq_or_imp, forall_eq, OnChain,
      implies_true, true_and, and_true, Option.some.injEq]
    exact ⟨fun _ _ _ h => h.symm, fun _ => c.serves_serve 1 2⟩
  obtain ⟨s, hreach, hcursor⟩ := Reachable.exists_observed
    (.init rfl : Reachable (system fromOne Store.empty) (OnChain c) _) _ hallowed
    (fun s => s.store.cursors 1) (b := some (2, plainHash (fun _ => 0) 2)) (by decide +kernel)
  exact ⟨s, hcursor, (restart_equivalent_to_clean_run fromOne c rfl auxLayout_eventLayout hfresh rfl hreach
    hcursor).1 1 (by decide) (by decide)⟩

end Topic0.Pipeline
