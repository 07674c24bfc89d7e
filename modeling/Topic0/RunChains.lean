import Topic0.ConfigValidate
import Topic0.PipelineRestart
import Topic0.StoreChains

/-! The loops of `run`. Once every chain's decoder is built and its tables are there, each chain has its
own supervised ingest loop, and all of them write to one database, whose queue the workers change
meanwhile. A loop reads what its chain has written and nothing else, so each of them goes, step by
step, as it would go with the database to itself; and what is proved of one loop holds of each of
them. -/

namespace Topic0.Run

open Keyed Transition Chains

variable {layout : String → PkColumns} {chain : ChainId} {cfg : Pipeline.Config}

/-- The database, and of each loop what it has committed and what it is doing. -/
structure State (layout : String → PkColumns) where
  store : Store layout
  committed : ChainId → List Pipeline.Range
  procs : ChainId → Pipeline.Proc

def State.fresh : State layout := ⟨Store.empty, fun _ => [], fun _ => .idle⟩

/-- What one loop sees. -/
def State.own (s : State layout) (chain : ChainId) : Pipeline.State layout :=
  ⟨s.store, s.committed chain, s.procs chain⟩

inductive Act where
  | loop (chain : ChainId) (act : Pipeline.Act)
  /-- Whatever the workers do to the queue. -/
  | queue (workQueue : WorkQueue)

def Act.of (chain : ChainId) : Act → Option Pipeline.Act
  | .loop c act => if c = chain then some act else none
  | .queue _ => none

/-- Without a websocket `must_fetch` holds, and no checkpoint moves the cursor. -/
def takes (loop : IngestLoop) : Pipeline.Act → Bool
  | .checkpoint _ => loop.wsEnabled
  | _ => true

def State.step (loops : ChainId → Option IngestLoop) (s : State layout) :
    Act → Option (State layout)
  | .loop chain act =>
      ((loops chain).filter (takes · act)).bind fun loop =>
        (Pipeline.State.step loop.cfg (s.own chain) act).map fun own =>
          { store := own.store
            committed := Function.update s.committed chain own.committed
            procs := Function.update s.procs chain own.proc }
  | .queue workQueue => some { s with store := { s.store with workQueue := workQueue } }

/-- The runs of `run` over a new database. -/
def system (loops : ChainId → Option IngestLoop) : System (State layout) Act where
  init s := s = State.fresh
  step := State.step loops

/-- The source returned rows of the chain only. -/
def FetchedOf (chain : ChainId) (fetched : FetchedRange) : Prop :=
  OfChain chain (IngestionService.ingestBatch chain fetched ⟨0⟩ false)

def OwnAct (chain : ChainId) : Pipeline.Act → Prop
  | .drive (.complete _ fetched) => FetchedOf chain fetched
  | _ => True

/-- Every loop's source keeps to its chain. -/
def Act.Own : Act → Prop
  | .loop chain act => OwnAct chain act
  | .queue _ => True

/-- What waits for the writer is of the chain. -/
def OwnProc (chain : ChainId) : Pipeline.Proc → Prop
  | .idle | .loop _ => True
  | .backfill d | .sweep d => ∀ f ∈ d.channel, FetchedOf chain f

section Same

variable {s t : Store layout} (h : Alike chain s t)

include h

theorem sameOutcome_commitRange {fetched : FetchedRange} (hof : FetchedOf chain fetched) :
    SameOutcome (fun a b => Alike chain a.1 b.1 ∧ a.2 = b.2)
      (IngestionService.commitRange s chain fetched ⟨0⟩)
      (IngestionService.commitRange t chain fetched ⟨0⟩) := by
  rw [IngestionService.commitRange, IngestionService.commitRange, IngestionService.commit,
    IngestionService.commit]
  apply (sameOutcome_commit h hof).bind
  intro a b hab
  exact .ok ⟨hab, rfl⟩

/-- A reorg check reads the chain's highest block and rolls back the chain. -/
theorem sameOutcome_check (supportsReorg : Bool) (blockHash : Nat → Option Hash)
    (confirmations : Nat) (tables : List String) :
    SameOutcome (fun a b => Alike chain a.1 b.1 ∧ a.2 = b.2)
      (ReorgService.check s chain supportsReorg blockHash confirmations tables)
      (ReorgService.check t chain supportsReorg blockHash confirmations tables) := by
  have hreads := sameReads_of_alike h
  unfold ReorgService.check
  rw [hreads.maxHeight]
  split
  · exact .ok ⟨h, rfl⟩
  split
  · exact .ok ⟨h, rfl⟩
  rename_i tip htip
  rw [hreads.get tip]
  split
  · exact .ok ⟨h, rfl⟩
  split
  · exact .ok ⟨h, rfl⟩
  split
  · exact .ok ⟨h, rfl⟩
  apply (sameOutcome_rollback h _ tables).bind
  intro a b hab
  exact .ok ⟨hab, rfl⟩

end Same

/-- The result on the other side of a computation that succeeds. -/
theorem exists_ok_of_sameOutcome {ε α β : Type} {R : α → β → Prop} {x : Except ε α} {y : Except ε β}
    {a : α} (h : SameOutcome R x y) (hx : x = .ok a) : ∃ b, y = .ok b ∧ R a b := by
  cases h with
  | ok hR =>
      cases hx
      exact ⟨_, rfl, hR⟩
  | error e => cases hx

/-- A commit of a range on a store that is alike. -/
theorem commitRange_alike {s s' u : Store layout} {fetched : FetchedRange}
    {outcome : IngestionService.IngestOutcome} (halike : Alike chain s u)
    (hof : FetchedOf chain fetched)
    (h : IngestionService.commitRange s chain fetched ⟨0⟩ = .ok (s', outcome)) :
    ∃ u', IngestionService.commitRange u chain fetched ⟨0⟩ = .ok (u', outcome) ∧
      Alike chain s' u' := by
  obtain ⟨⟨u', outcome'⟩, hcommit, halike', heq⟩ :=
    exists_ok_of_sameOutcome (sameOutcome_commitRange halike hof) h
  obtain rfl : outcome = outcome' := heq
  exact ⟨u', hcommit, halike'⟩

/-- A reorg check on a store that is alike. -/
theorem check_alike {s s' u : Store layout} {supportsReorg : Bool} {blockHash : Nat → Option Hash}
    {confirmations : Nat} {tables : List String} {r : Option Nat} (halike : Alike chain s u)
    (h : ReorgService.check s chain supportsReorg blockHash confirmations tables = .ok (s', r)) :
    ∃ u', ReorgService.check u chain supportsReorg blockHash confirmations tables = .ok (u', r) ∧
      Alike chain s' u' := by
  obtain ⟨⟨u', r'⟩, hcheck, halike', heq⟩ := exists_ok_of_sameOutcome
    (sameOutcome_check halike supportsReorg blockHash confirmations tables) h
  obtain rfl : r = r' := heq
  exact ⟨u', hcheck, halike'⟩

/-- A drive's step on a store that is alike. -/
theorem work_alike {w w' : Pipeline.Work layout} {u : Store layout} {act : Pipeline.DriveAct}
    (halike : Alike cfg.chain w.store u) (hown : ∀ f ∈ w.drive.channel, FetchedOf cfg.chain f)
    (h : Pipeline.Work.step cfg w act = some w') :
    ∃ u', Pipeline.Work.step cfg ⟨u, w.committed, w.drive⟩ act =
        some ⟨u', w'.committed, w'.drive⟩ ∧ Alike cfg.chain w'.store u' := by
  obtain ⟨store, committed, drive⟩ := w
  cases act with
  | complete i fetched =>
      rw [Pipeline.Work.step] at h
      split at h
      · cases h
      rename_i range hrange
      split at h
      · rename_i hguard
        cases h
        refine ⟨u, ?_, halike⟩
        simp only [Pipeline.Work.step, hrange]
        rw [if_pos hguard]
      · cases h
  | stop =>
      rw [Pipeline.Work.step] at h
      split at h
      · cases h
      · rename_i hguard
        cases h
        exact ⟨u, if_neg hguard, halike⟩
  | commit =>
      rw [Pipeline.Work.step] at h
      split at h
      · rename_i fetched rest hchannel hdue
        split at h
        · cases h
        · rename_i store' outcome hcommit
          cases h
          have hof := hown fetched (by rw [hchannel]; exact List.mem_cons_self)
          obtain ⟨u', hcommit', halike'⟩ := commitRange_alike halike hof hcommit
          refine ⟨u', ?_, halike'⟩
          simp only at hchannel hdue
          simp only [Pipeline.Work.step, hchannel, hdue, hcommit']
      · cases h
  | advance =>
      rw [Pipeline.Work.step, Option.map_eq_some_iff] at h
      obtain ⟨point, hpoint, rfl⟩ := h
      refine ⟨CursorRepo.advanceInTx u cfg.chain point.1 point.2, ?_, alike_advance halike _ _⟩
      rw [Pipeline.Work.step, Option.map_eq_some_iff]
      exact ⟨point, hpoint, rfl⟩

/-- A loop's step on a store that is alike. -/
theorem step_alike {s s' : Pipeline.State layout} {u : Store layout} {act : Pipeline.Act}
    (halike : Alike cfg.chain s.store u) (hown : OwnProc cfg.chain s.proc)
    (h : Pipeline.State.step cfg s act = some s') :
    ∃ u', Pipeline.State.step cfg ⟨u, s.committed, s.proc⟩ act =
        some ⟨u', s'.committed, s'.proc⟩ ∧ Alike cfg.chain s'.store u' := by
  obtain ⟨store, committed, proc⟩ := s
  cases act with
  | startBackfill lo hi =>
      cases proc with
      | idle =>
          cases h
          exact ⟨u, rfl, halike⟩
      | _ => cases h
  | startLoop =>
      cases proc with
      | idle =>
          cases h
          refine ⟨u, ?_, halike⟩
          have hresume : Pipeline.resumePoint cfg u = Pipeline.resumePoint cfg store := by
            rw [Pipeline.resumePoint, Pipeline.resumePoint, halike.cursor]
          rw [← hresume]
          rfl
      | _ => cases h
  | sweep head =>
      cases proc with
      | loop next =>
          simp only [Pipeline.State.step] at h ⊢
          split at h
          · rename_i hbehind
            cases h
            exact ⟨u, if_pos hbehind, halike⟩
          · cases h
      | _ => cases h
  | checkpoint head =>
      cases proc with
      | loop next =>
          simp only [Pipeline.State.step] at h ⊢
          split at h
          · rename_i hbehind
            cases h
            exact ⟨_, if_pos hbehind, alike_advance halike _ _⟩
          · cases h
      | _ => cases h
  | check blockHash =>
      cases proc with
      | loop next =>
          simp only [Pipeline.State.step] at h ⊢
          split at h
          · cases h
          · rename_i store' hcheck
            cases h
            obtain ⟨u', hcheck', halike'⟩ := check_alike halike hcheck
            exact ⟨u', by rw [hcheck'], halike'⟩
          · rename_i store' reindex hcheck
            cases h
            obtain ⟨u', hcheck', halike'⟩ := check_alike halike hcheck
            exact ⟨u', by rw [hcheck'], halike'⟩
      | _ => cases h
  | drive act =>
      cases proc with
      | backfill d =>
          simp only [Pipeline.State.step, Option.map_eq_some_iff] at h ⊢
          obtain ⟨w', hstep, rfl⟩ := h
          obtain ⟨u', hstep', halike'⟩ := work_alike (w := ⟨_, _, _⟩) halike hown hstep
          exact ⟨u', ⟨_, hstep', rfl⟩, halike'⟩
      | sweep d =>
          simp only [Pipeline.State.step, Option.map_eq_some_iff] at h ⊢
          obtain ⟨w', hstep, rfl⟩ := h
          obtain ⟨u', hstep', halike'⟩ := work_alike (w := ⟨_, _, _⟩) halike hown hstep
          exact ⟨u', ⟨_, hstep', rfl⟩, halike'⟩
      | _ => cases h
  | finish =>
      cases proc with
      | backfill d =>
          simp only [Pipeline.State.step] at h ⊢
          split at h
          · rename_i hdone
            cases h
            exact ⟨u, if_pos hdone, halike⟩
          · cases h
      | sweep d =>
          simp only [Pipeline.State.step] at h ⊢
          split at h
          · rename_i hdone
            cases h
            exact ⟨u, if_pos hdone, halike⟩
          · cases h
      | _ => cases h
  | interrupt =>
      cases h
      exact ⟨u, rfl, halike⟩

section Others

variable (hne : cfg.chain ≠ chain)

include hne

theorem unseen_work {w w' : Pipeline.Work layout} {act : Pipeline.DriveAct}
    (hown : ∀ f ∈ w.drive.channel, FetchedOf cfg.chain f) (h : Pipeline.Work.Step cfg w act w') :
    Alike chain w'.store w.store := by
  cases h with
  | complete hplanned => exact Alike.refl _
  | stop hbusy => exact Alike.refl _
  | @commit fetched rest store outcome hchannel hdue hcommit =>
      rw [IngestionService.commitRange, IngestionService.commit, Rows.bind_eq_ok] at hcommit
      obtain ⟨written, hwritten, heq⟩ := hcommit
      cases heq
      exact unseen_commit hne (hown fetched (hchannel ▸ List.mem_cons_self)) hwritten
  | @advance point hdue =>
      exact ⟨rfl, rfl, fun _ => rfl, Function.update_of_ne hne.symm _ _⟩

/-- A check changes the store by a rollback of its own chain, if at all. -/
theorem unseen_check {store store' : Store layout} {supportsReorg : Bool}
    {blockHash : Nat → Option Hash} {confirmations : Nat} {tables : List String} {r : Option Nat}
    (h : ReorgService.check store cfg.chain supportsReorg blockHash confirmations tables =
      .ok (store', r)) : Alike chain store' store := by
  unfold ReorgService.check at h
  split at h
  · cases h
    exact Alike.refl _
  split at h
  · cases h
    exact Alike.refl _
  split at h
  · cases h
    exact Alike.refl _
  split at h
  · cases h
    exact Alike.refl _
  split at h
  · cases h
    exact Alike.refl _
  rw [Rows.bind_eq_ok] at h
  obtain ⟨rolled, hrolled, heq⟩ := h
  cases heq
  exact unseen_rollback hne hrolled

/-- The steps of another loop cannot be seen. -/
theorem unseen_step {s s' : Pipeline.State layout} {act : Pipeline.Act}
    (hown : OwnProc cfg.chain s.proc) (h : Pipeline.State.Step cfg s act s') :
    Alike chain s'.store s.store := by
  cases h with
  | checkpoint hbehind => exact ⟨rfl, rfl, fun _ => rfl, Function.update_of_ne hne.symm _ _⟩
  | checkNone hcheck => exact unseen_check hne hcheck
  | checkSome hcheck => exact unseen_check hne hcheck
  | driveBackfill hstep => exact unseen_work (w := ⟨_, _, _⟩) hne hown hstep
  | driveSweep hstep => exact unseen_work (w := ⟨_, _, _⟩) hne hown hstep
  | _ => exact Alike.refl _

end Others

theorem own_work {w w' : Pipeline.Work layout} {act : Pipeline.DriveAct}
    (hown : ∀ f ∈ w.drive.channel, FetchedOf chain f)
    (hact : ∀ i f, act = .complete i f → FetchedOf chain f) (h : Pipeline.Work.Step cfg w act w') :
    ∀ f ∈ w'.drive.channel, FetchedOf chain f := by
  cases h with
  | complete hplanned =>
      intro f hf
      rcases List.mem_append.mp hf with hf | hf
      · exact hown f hf
      · rw [List.mem_singleton.mp hf]
        exact hact _ _ rfl
  | stop hbusy => exact hown
  | commit hchannel hdue hcommit =>
      rw [hchannel] at hown
      exact fun f hf => hown f (List.mem_cons_of_mem _ hf)
  | advance hdue => exact hown

/-- What waits for a writer stays of its chain. -/
theorem own_step {s s' : Pipeline.State layout} {act : Pipeline.Act} (hown : OwnProc chain s.proc)
    (hact : OwnAct chain act) (h : Pipeline.State.Step cfg s act s') : OwnProc chain s'.proc := by
  cases h with
  | startBackfill => exact fun f hf => absurd hf List.not_mem_nil
  | startLoop => trivial
  | sweep hbehind => exact fun f hf => absurd hf List.not_mem_nil
  | checkpoint hbehind => trivial
  | checkNone hcheck => trivial
  | checkSome hcheck => trivial
  | driveBackfill hstep =>
      refine own_work (w := ⟨_, _, _⟩) hown ?_ hstep
      rintro i f rfl
      exact hact
  | driveSweep hstep =>
      refine own_work (w := ⟨_, _, _⟩) hown ?_ hstep
      rintro i f rfl
      exact hact
  | finishBackfill => trivial
  | @finishSweep store committed d hdue => cases d.shutdown <;> trivial
  | interrupt => trivial

section Projection

variable {loops : ChainId → Option IngestLoop}

/-- The loop of one chain, with the database to itself. -/
structure Alone (chain : ChainId) (s : State layout) (u : Pipeline.State layout) : Prop where
  committed : u.committed = s.committed chain
  proc : u.proc = s.procs chain
  alike : Alike chain s.store u.store

theorem Alone.eq {s : State layout} {u : Pipeline.State layout} (h : Alone chain s u) :
    u = ⟨u.store, s.committed chain, s.procs chain⟩ := by
  rw [← h.committed, ← h.proc]

/-- A loop's step is one its kind of source takes. -/
theorem step_loop {s t : State layout} {id : ChainId} {act : Pipeline.Act}
    (h : s.step loops (.loop id act) = some t) : ∃ loop own, loops id = some loop ∧
      takes loop act = true ∧ Pipeline.State.step loop.cfg (s.own id) act = some own ∧
      t = ⟨own.store, Function.update s.committed id own.committed,
        Function.update s.procs id own.proc⟩ := by
  obtain ⟨loop, hfilter, h⟩ := Option.bind_eq_some_iff.mp h
  obtain ⟨own, hstep, rfl⟩ := Option.map_eq_some_iff.mp h
  obtain ⟨hloop, htakes⟩ := Option.filter_eq_some_iff.mp hfilter
  exact ⟨loop, own, hloop, htakes, hstep, rfl⟩

/-- So is every step of a run. -/
theorem takes_of_exec {acts : List Act} {s t : State layout}
    (hexec : exec (system loops) s acts = some t) {id : ChainId} {act : Pipeline.Act}
    (hact : .loop id act ∈ acts) : ∃ loop, loops id = some loop ∧ takes loop act = true := by
  induction acts generalizing s with
  | nil => exact absurd hact List.not_mem_nil
  | cons a acts ih =>
      rw [exec] at hexec
      obtain ⟨u, hu, hrest⟩ := Option.bind_eq_some_iff.mp hexec
      rcases List.mem_cons.mp hact with rfl | hact
      · obtain ⟨loop, -, hloop, htakes, -⟩ := step_loop hu
        exact ⟨loop, hloop, htakes⟩
      · exact ih hrest hact

/-- The loops project to each of them. -/
theorem projects (layout : String → PkColumns)
    (hloops : ∀ id loop, loops id = some loop → loop.cfg.chain = id) {loop : IngestLoop}
    (hloop : loops chain = some loop) :
    Projects (system loops : System (State layout) Act) (Pipeline.system loop.cfg Store.empty) Act.Own
      (Act.of chain) fun s u => (∀ id, OwnProc id (s.procs id)) ∧ Alone chain s u := by
  rintro s t u a ⟨hown, halone⟩ hact h
  cases a with
  | queue workQueue =>
      cases h
      obtain ⟨hcommitted, hproc, halike⟩ := halone
      exact .inl ⟨rfl, hown, hcommitted, hproc, halike.rawRecords, halike.blocks, halike.typed,
        halike.cursor⟩
  | loop id act =>
      obtain ⟨other, own, hother, -, hstep, rfl⟩ := step_loop h
      have hid := hloops id other hother
      have hcase := Pipeline.State.step_cases hstep
      have hprocs : ∀ other, OwnProc other (Function.update s.procs id own.proc other) :=
        (Function.forall_update_iff s.procs OwnProc).mpr
          ⟨own_step (hown id) hact hcase, fun other _ => hown other⟩
      by_cases hsame : id = chain
      · subst hsame
        rw [hloop, Option.some.injEq] at hother
        subst hother
        subst hid
        obtain ⟨u', hstep', halike⟩ := step_alike halone.alike (hown loop.cfg.chain) hstep
        refine .inr ⟨act, ⟨u', own.committed, own.proc⟩, if_pos rfl, ?_, hprocs, ?_, ?_, halike⟩
        · rw [halone.eq]
          exact hstep'
        · show own.committed = Function.update s.committed loop.cfg.chain own.committed loop.cfg.chain
          rw [Function.update_self]
        · show own.proc = Function.update s.procs loop.cfg.chain own.proc loop.cfg.chain
          rw [Function.update_self]
      · have hne : other.cfg.chain ≠ chain := fun heq => hsame (hid.symm.trans heq)
        have hunseen := unseen_step hne (hid.symm ▸ hown id) hcase
        refine .inl ⟨if_neg hsame, hprocs, ?_, ?_, hunseen.trans halone.alike⟩
        · show u.committed = Function.update s.committed id own.committed chain
          rw [Function.update_of_ne (Ne.symm hsame), halone.committed]
        · show u.proc = Function.update s.procs id own.proc chain
          rw [Function.update_of_ne (Ne.symm hsame), halone.proc]

end Projection

section Configured

variable {config : App.Config} {readToString : String → Except String String} {alloy : Alloy}
  {baseDir : String} {live : Catalog} {rangeConcurrency : Nat} {tables : EvmDecoder → List String}
  {loops : ChainId → Option IngestLoop} {acts : List Act} {t : State layout}

/-- The run of one configured chain by itself. -/
theorem exists_alone_of_valid (hvalid : config.Valid)
    (hrun : config.run readToString alloy baseDir live rangeConcurrency tables = .ok loops)
    (hown : ∀ a ∈ acts, a.Own) (hexec : exec (system loops) State.fresh acts = some t)
    {chainCfg : ChainCfg} (hchain : chainCfg ∈ config.chains)
    (hkind : (CostModel.forKind chainCfg.source.kind).isSome) :
    ∃ decoder loop u, buildDecoder readToString alloy baseDir chainCfg = .ok decoder ∧
      loops chainCfg.id = some loop ∧
      chainCfg.ingest (max rangeConcurrency 1) (tables decoder) = some loop ∧
      (∀ c ∈ chainCfg.contracts, ∀ b, c.startBlock = some b → loop.cfg.startBlock ≤ b) ∧
      exec (Pipeline.system loop.cfg Store.empty) ⟨Store.empty, [], .idle⟩
        (acts.filterMap (Act.of chainCfg.id)) = some u ∧ Alone chainCfg.id t u := by
  obtain ⟨decoder, loop, hdecoder, -, hloop, hingest, hstart⟩ := hvalid.exists_loop hrun hchain hkind
  have hfresh : Alone chainCfg.id (State.fresh : State layout) ⟨Store.empty, [], .idle⟩ :=
    ⟨rfl, rfl, Alike.refl Store.empty⟩
  have hidle : ∀ id, OwnProc id ((State.fresh : State layout).procs id) := fun _ => trivial
  have hprojects := projects layout (fun _ _ => App.Config.chain_of_run hrun) hloop
  obtain ⟨u, hu, -, halone⟩ := hprojects.exec ⟨hidle, hfresh⟩ acts hown hexec
  exact ⟨decoder, loop, u, hdecoder, hloop, hingest, hstart, hu, halone⟩

/-- Under an accepted config, once `run` has built every decoder and found every table, every chain with
a known kind of source has its loop, and in every run of all of them over one database, reorgs,
crashes and restarts included, each loop goes as it goes by itself and reads what it would read by
itself. -/
theorem loops_run_alone (hvalid : validate config = .ok ())
    (hrun : config.run readToString alloy baseDir live rangeConcurrency tables = .ok loops)
    (hown : ∀ a ∈ acts, a.Own) (hexec : exec (system loops) State.fresh acts = some t) :
    ∀ chainCfg ∈ config.chains, (CostModel.forKind chainCfg.source.kind).isSome →
      ∃ decoder loop u, buildDecoder readToString alloy baseDir chainCfg = .ok decoder ∧
        chainCfg.ingest (max rangeConcurrency 1) (tables decoder) = some loop ∧
        exec (Pipeline.system loop.cfg Store.empty) ⟨Store.empty, [], .idle⟩
          (acts.filterMap (Act.of chainCfg.id)) = some u ∧
        u.committed = t.committed chainCfg.id ∧ u.proc = t.procs chainCfg.id ∧
        SameReads chainCfg.id t.store u.store := by
  intro chainCfg hchain hkind
  obtain ⟨decoder, loop, u, hdecoder, -, hingest, -, hu, halone⟩ :=
    exists_alone_of_valid (validate_ok.mp hvalid) hrun hown hexec hchain hkind
  exact ⟨decoder, loop, u, hdecoder, hingest, hu, halone.committed, halone.proc,
    sameReads_of_alike halone.alike⟩

/-- Every chain is fixed, its source returns what it has, and no backfill runs. -/
def Act.OnChain (chains : ChainId → Chain) : Act → Prop
  | .loop _ (.startBackfill _ _) => False
  | .loop id (.check blockHash) =>
      ∀ h hash, blockHash h = some hash → hash = ((chains id).block h).hash
  | .loop id (.drive (.complete _ fetched)) =>
      Serves (chains id) fetched.fromHeight fetched.toHeight fetched
  | _ => True

theorem own_of_onChain {chains : ChainId → Chain} (hids : ∀ id, (chains id).id = id) {a : Act}
    (h : a.OnChain chains) : a.Own := by
  cases a with
  | queue workQueue => trivial
  | loop id act =>
      cases act with
      | drive act =>
          cases act with
          | complete i fetched =>
              have hof := ofChain_ingestBatch h ⟨0⟩ false
              rw [hids id] at hof
              exact hof
          | _ => trivial
      | _ => trivial

/-- A loop without a websocket is on the poll path. -/
theorem onChain_of_takes {chains : ChainId → Chain} {loop : IngestLoop} {id : ChainId}
    {act : Pipeline.Act} (h : (Act.loop id act).OnChain chains) (hpoll : loop.wsEnabled = false)
    (htakes : takes loop act = true) (s : Pipeline.State layout) :
    Pipeline.OnChain (chains id) s act := by
  cases act with
  | startBackfill lo hi => exact h
  | checkpoint head => exact Bool.false_ne_true (hpoll.symm.trans htakes)
  | check blockHash => exact h
  | drive act =>
      cases act with
      | complete i fetched => exact h
      | _ => trivial
  | _ => trivial

theorem wsEnabled_of_ingest {chainCfg : ChainCfg} {tables : List String} {loop : IngestLoop}
    (h : chainCfg.ingest rangeConcurrency tables = some loop) (hws : chainCfg.source.ws = none) :
    loop.wsEnabled = false := by
  obtain ⟨model, -, hstart⟩ := Option.bind_eq_some_iff.mp h
  obtain ⟨start, -, rfl⟩ := Option.map_eq_some_iff.mp hstart
  show chainCfg.source.ws.any _ = false
  rw [hws]
  rfl

/-- The steps of a loop without a websocket, taken by themselves, are a run on the poll path. -/
theorem reachable_of_poll {chains : ChainId → Chain} {loop : IngestLoop} {id : ChainId}
    (hloop : loops id = some loop) (hpoll : loop.wsEnabled = false)
    (hon : ∀ a ∈ acts, a.OnChain chains) (hexec : exec (system loops) State.fresh acts = some t)
    {u : Pipeline.State layout} (hu : exec (Pipeline.system loop.cfg Store.empty)
      ⟨Store.empty, [], .idle⟩ (acts.filterMap (Act.of id)) = some u) :
    Reachable (Pipeline.system loop.cfg Store.empty) (Pipeline.OnChain (chains id)) u := by
  refine Reachable.exec (.init rfl) _ (fun act hact s => ?_) hu
  obtain ⟨a, ha, hof⟩ := List.mem_filterMap.mp hact
  cases a with
  | queue workQueue => cases hof
  | loop other act' =>
      obtain ⟨rfl, heq⟩ := Option.ite_none_right_eq_some.mp hof
      cases heq
      obtain ⟨loop', hloop', htakes⟩ := takes_of_exec hexec ha
      rw [hloop, Option.some.injEq] at hloop'
      exact onChain_of_takes (hon _ ha) hpoll (hloop' ▸ htakes) s

/-- Under an accepted config, on fixed chains and whatever the other chains do: between the start
block of a contract, block 0 aside, and the cursor of its chain, the raw store holds the logs of a
chain without a websocket and nothing else. -/
theorem configured_logs_are_stored (hvalid : validate config = .ok ())
    (hrun : config.run readToString alloy baseDir live rangeConcurrency tables = .ok loops)
    (hlayout : AuxLayout layout) {chains : ChainId → Chain} (hids : ∀ id, (chains id).id = id)
    (hon : ∀ a ∈ acts, a.OnChain chains) (hexec : exec (system loops) State.fresh acts = some t) :
    ∀ chainCfg ∈ config.chains, (CostModel.forKind chainCfg.source.kind).isSome →
      chainCfg.source.ws = none →
      ∀ contract ∈ chainCfg.contracts, ∀ b, contract.startBlock = some b →
      ∀ last hash, t.store.cursors chainCfg.id = some (last, hash) →
        ∀ r : RawRecord, r.chainId = chainCfg.id → b ≤ r.height → 0 < r.height → r.height ≤ last →
          (r ∈ t.store.rawRecords ↔ r ∈ (chains chainCfg.id).logs r.height) := by
  intro chainCfg hchain hkind hws contract hcontract b hb last hash hlast r hr hle hpos htop
  have hown : ∀ a ∈ acts, a.Own := fun a ha => own_of_onChain hids (hon a ha)
  obtain ⟨decoder, loop, u, -, hloop, hingest, hstart, hu, halone⟩ :=
    exists_alone_of_valid (validate_ok.mp hvalid) hrun hown hexec hchain hkind
  have hid : loop.cfg.chain = chainCfg.id := App.Config.chain_of_run hrun hloop
  have hpoll := wsEnabled_of_ingest hingest hws
  have hreach := reachable_of_poll hloop hpoll hon hexec hu
  obtain ⟨hgap, hfaithful⟩ := Pipeline.sound_of_reachable hlayout (hid.trans (hids _).symm)
    (holds_empty _) rfl hreach
  have hcursor : u.store.cursors loop.cfg.chain = some (last, hash) := by
    rw [hid, ← halone.alike.cursor]
    exact hlast
  have hcovered : Pipeline.Covered u.committed r.height := by
    apply hgap.cursor last hash hcursor
    · have hfirst := hstart contract hcontract b hb
      show max loop.cfg.startBlock 1 ≤ r.height
      omega
    · omega
  calc r ∈ t.store.rawRecords
      ↔ r ∈ u.store.rawRecords := halone.alike.mem_rawRecords hr
    _ ↔ Pipeline.Covered u.committed r.height ∧ r ∈ (chains chainCfg.id).logs r.height :=
        hfaithful.holds.rawRecords r (hr.trans (hids _).symm)
    _ ↔ r ∈ (chains chainCfg.id).logs r.height := and_iff_right hcovered

end Configured

/-- Two chains with one contract each, the first from block 2 on. -/
def twoChains : App.Config where
  database := ⟨"postgres://localhost/idx"⟩
  queue := QueueCfg.default
  query := QueryCfg.default
  chains :=
    [⟨1, "evm", 0, ⟨"alchemy", "https://x", none, none⟩,
      [⟨"0xA0b86991c6218b36c1d19D4a2e9Eb0cE3606eB48", "abis/erc20.json", [], [], none, some 2⟩]⟩,
    ⟨2, "evm", 0, ⟨"quicknode", "https://y", none, none⟩,
      [⟨"0xdAC17F958D2ee523a2206206994597C13D831ec7", "abis/erc20.json", [], [], none, some 1⟩]⟩]

theorem validate_twoChains : validate twoChains = .ok () :=
  validate_default.mpr ⟨by decide, by decide +kernel⟩

def erc20Files (path : String) : Except String String :=
  if path = "abis/erc20.json" then .ok erc20Json
  else .error "No such file or directory (os error 2)"

/-- The tables are there, which is all the preflight asks. -/
def erc20Live : Catalog where
  relation table :=
    if table ∈ ["evt_erc20_transfer", transactionsTable, receiptsTable] then some (.table Table.empty)
    else none
  receiptsTxFk := true

/-- Each chain has a log in block 2. -/
def secondBlocks (id : ChainId) : Chain := plainChain id (fun h => h == 2) fun _ => 0

/-- Both loops sweep, their steps interleaved. -/
def bothSweep : List Act :=
  [.loop 1 .startLoop, .loop 2 .startLoop, .loop 1 (.sweep 3), .loop 2 (.sweep 2),
    .loop 2 (.drive (.complete 0 ((secondBlocks 2).serve 1 2))),
    .loop 1 (.drive (.complete 0 ((secondBlocks 1).serve 2 3))), .loop 1 (.drive .commit),
    .loop 2 (.drive .commit), .loop 1 (.drive .advance), .queue WorkQueue.empty,
    .loop 2 (.drive .advance)]

theorem exists_bothSweep : ∃ (loops : ChainId → Option IngestLoop) (t : State eventLayout),
    twoChains.run erc20Files transferAlloy "" erc20Live 4 (fun _ => []) = .ok loops ∧
      exec (system loops) State.fresh bothSweep = some t ∧
      (t.store.cursors 1).map Prod.fst = some 3 ∧ t.store.rawRecords.rows.length = 2 := by
  obtain ⟨loops, hrun, hobserved⟩ := Option.bind_eq_some_iff.mp (show
    (twoChains.run erc20Files transferAlloy "" erc20Live 4 (fun _ => [])).toOption.bind (fun loops =>
        (exec (system loops) (State.fresh : State eventLayout) bothSweep).map fun t =>
          ((t.store.cursors 1).map Prod.fst, t.store.rawRecords.rows.length)) = some (some 3, 2)
    by decide +kernel)
  obtain ⟨t, hexec, hobserved⟩ := Option.map_eq_some_iff.mp hobserved
  obtain ⟨hcursor, hlength⟩ := Prod.mk.inj hobserved
  refine ⟨loops, t, ?_, hexec, hcursor, hlength⟩
  cases hok : twoChains.run erc20Files transferAlloy "" erc20Live 4 fun _ => [] with
  | error e =>
      rw [hok] at hrun
      cases hrun
  | ok loops' =>
      rw [hok] at hrun
      cases hrun
      rfl

theorem onChain_bothSweep : ∀ a ∈ bothSweep, a.OnChain secondBlocks := by
  intro a ha
  simp only [bothSweep, List.mem_cons, List.not_mem_nil, or_false] at ha
  rcases ha with rfl | rfl | rfl | rfl | rfl | rfl | rfl | rfl | rfl | rfl | rfl
  case inr.inr.inr.inr.inl => exact Chain.serves_serve (secondBlocks 2) 1 2
  case inr.inr.inr.inr.inr.inl => exact Chain.serves_serve (secondBlocks 1) 2 3
  all_goals trivial

theorem loops_run_alone_both_sweep : ∃ t : State eventLayout,
    t.store.rawRecords.rows.length = 2 ∧ ∀ chainCfg ∈ twoChains.chains,
      (CostModel.forKind chainCfg.source.kind).isSome → ∃ decoder loop u,
        buildDecoder erc20Files transferAlloy "" chainCfg = .ok decoder ∧
        chainCfg.ingest 4 [] = some loop ∧
        exec (Pipeline.system loop.cfg Store.empty) ⟨Store.empty, [], .idle⟩
          (bothSweep.filterMap (Act.of chainCfg.id)) = some u ∧
        SameReads chainCfg.id t.store u.store := by
  obtain ⟨loops, t, hrun, hexec, -, hlength⟩ := exists_bothSweep
  refine ⟨t, hlength, fun chainCfg hchain hkind => ?_⟩
  have hids : ∀ id, (secondBlocks id).id = id := fun _ => rfl
  obtain ⟨decoder, loop, u, hdecoder, hingest, hu, -, -, hreads⟩ :=
    loops_run_alone validate_twoChains hrun
      (fun a ha => own_of_onChain hids (onChain_bothSweep a ha)) hexec chainCfg hchain hkind
  exact ⟨decoder, loop, u, hdecoder, hingest, hu, hreads⟩

/-- The log in block 2 of the first chain is stored, its cursor being at block 3. -/
theorem configured_logs_are_stored_both_sweep : ∃ t : State eventLayout,
    ∀ r ∈ (secondBlocks 1).logs 2, r ∈ t.store.rawRecords := by
  obtain ⟨loops, t, hrun, hexec, hcursor, -⟩ := exists_bothSweep
  obtain ⟨⟨last, hash⟩, hlast, heq⟩ := Option.map_eq_some_iff.mp hcursor
  obtain rfl : last = 3 := heq
  refine ⟨t, fun r hr => ?_⟩
  obtain ⟨hchain, hheight, -⟩ := (secondBlocks 1).logs_at 2 r hr
  rw [← hheight] at hr
  exact (configured_logs_are_stored validate_twoChains hrun auxLayout_eventLayout (fun _ => rfl)
    onChain_bothSweep hexec _ List.mem_cons_self rfl rfl _ List.mem_cons_self 2 rfl 3 hash hlast r
    hchain (by omega) (by omega) (by omega)).mpr hr

end Topic0.Run
