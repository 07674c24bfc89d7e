import Topic0.SourceCalls

/-! How many calls a window costs. The fetches of a drive share the log density that a source has
observed: each clean page moves it, and a fetch that starts seeds its spans by it. The rest of a
fetch depends on its range alone. So a drive issues the same calls in every order exactly when no
fetch starts with a density that cuts its range otherwise than the one the drive began with. The
drives compared are those that fetch all of their ranges; one that is cancelled, fails or runs out of
quota is cut short. -/

namespace Topic0.Volume

open Pipeline (Range planRanges)
open RpcLogSource Transition

structure State where
  /-- `density_milli`, shared by all fetches. -/
  density : Nat
  /-- Planned ranges whose fetch has not started. -/
  todo : List Range
  flying : List Flight
  /-- Every call that went out. -/
  calls : List Call
  ledger : SpendLedger
  /-- The ranges whose fetch has started, each with the density it read. -/
  started : List (Range × Nat)

inductive Act where
  | start
  /-- A page of a fetch is answered, or the last one was and its records are mapped. -/
  | page (i : Nat)
  | blocks (i j : Nat)
  | receipts (i j : Nat)
  /-- A fetch completes and leaves its slot. -/
  | land (i : Nat)

def State.issue (g : Setup) (s : State) (new : List Call) : State :=
  { s with
    calls := new ++ s.calls
    ledger := new.foldr (fun call ledger => ledger.record (g.cost call.metered)) s.ledger }

def State.become (s : State) (i : Nat) (flight : Flight) : State :=
  { s with flying := s.flying.set i flight }

/-- The `j`-th batch that has not gone out, among those a concurrency lets out. -/
def pick (concurrency : Nat) (calls : List Call) (j : Nat) : Option (Call × List Call) :=
  if j < max concurrency 1 then calls[j]?.map fun call => (call, calls.eraseIdx j) else none

def State.step (g : Setup) (rangeConcurrency auxConcurrency : Nat) (s : State) : Act → Option State
  | .start =>
      match s.todo with
      | [] => none
      | range :: todo =>
          if s.flying.length < max rangeConcurrency 1 then
            (g.seed s.density range).map fun chunks =>
              { s with
                todo := todo
                flying := s.flying ++ [.records range ⟨chunks, [], s.density, 0⟩]
                started := s.started ++ [(range, s.density)] }
          else none
  | .page i =>
      match s.flying[i]? with
      | some (.records range fetch) =>
          match fetchStep g.plan g.getLogs { fetch with density := s.density } with
          | .inl fetch' =>
              some { (s.issue g (attempts fetch fetch')).become i (.records range fetch') with
                density := fetch'.density }
          | .inr (.ok logs) =>
              match logs.mapM (mapLog g.chainId) with
              | .ok records =>
                  some (s.become i (.aux (g.blockCalls records) (g.receiptCalls records)))
              | .error _ => none
          | .inr (.error _) => none
      | _ => none
  | .blocks i j =>
      match s.flying[i]? with
      | some (.aux blocks receipts) =>
          (pick auxConcurrency blocks j).map fun (call, rest) =>
            (s.issue g [call]).become i (.aux rest receipts)
      | _ => none
  | .receipts i j =>
      match s.flying[i]? with
      | some (.aux blocks receipts) =>
          (pick auxConcurrency receipts j).map fun (call, rest) =>
            (s.issue g [call]).become i (.aux blocks rest)
      | _ => none
  | .land i =>
      match s.flying[i]? with
      | some (.aux [] []) => some { s with flying := s.flying.eraseIdx i }
      | _ => none

/-- The drives of a window under given concurrencies. -/
def system (g : Setup) (rangeConcurrency auxConcurrency : Nat) : System State Act where
  init s := s = ⟨g.density, g.ranges, [], [], g.ledger, []⟩
  step := State.step g rangeConcurrency auxConcurrency

/-- Every range was fetched. -/
def State.Finished (s : State) : Prop := s.todo = [] ∧ s.flying = []

/-- Whatever the concurrencies and the order of the fetches, a window costs the same calls and
leaves the same total in the ledger. -/
def SameVolume (g : Setup) : Prop :=
  ∀ rangeConc auxConc rangeConc' auxConc' s s', Reachable (system g rangeConc auxConc) anyStep s →
    s.Finished → Reachable (system g rangeConc' auxConc') anyStep s' → s'.Finished →
    s.calls.Perm s'.calls ∧ s.ledger.units = s'.ledger.units

/-- Every fetch starts with a density that cuts its range as the drive's first one does. -/
def SeedsAlike (g : Setup) : Prop :=
  ∀ rangeConc auxConc s, Reachable (system g rangeConc auxConc) anyStep s → s.Finished →
    ∀ p ∈ s.started, cutSpan g.plan p.2 p.1 = cutSpan g.plan g.density p.1

section Run

variable {g : Setup} {matching : Nat → List Log} {rangeConc auxConc : Nat} {s s' : State}

/-- The logs of a fetch are its range's, as far as it has come. -/
def Flight.Ok (matching : Nat → List Log) : Flight → Prop
  | .records range fetch => Fetching matching range.1 range.2 fetch
  | .aux _ _ => True

/-- What a drive can do: start a fetch, let one go on, or let one that is done leave. -/
inductive State.Step (g : Setup) (matching : Nat → List Log) (s : State) : State → Prop
  | start {range : Range} {todo chunks : List Range} (htodo : s.todo = range :: todo)
      (hseed : g.seed s.density range = some chunks) :
      State.Step g matching s { s with
        todo := todo
        flying := s.flying ++ [.records range ⟨chunks, [], s.density, 0⟩]
        started := s.started ++ [(range, s.density)] }
  | advance {i : Nat} {flight flight' : Flight} (new : List Call) (density : Nat)
      (hflight : s.flying[i]? = some flight)
      (hcalls : (new ++ flight'.future g matching).Perm (flight.future g matching))
      (hok : flight.Ok matching → flight'.Ok matching) :
      State.Step g matching s { (s.issue g new).become i flight' with density := density }
  | land {i : Nat} (hflight : s.flying[i]? = some (.aux [] [])) :
      State.Step g matching s { s with flying := s.flying.eraseIdx i }

theorem pick_eq_some {concurrency j : Nat} {calls rest : List Call} {call : Call}
    (h : pick concurrency calls j = some (call, rest)) : (call :: rest).Perm calls := by
  unfold pick at h
  split at h
  · obtain ⟨call', hcall, heq⟩ := Option.map_eq_some_iff.mp h
    cases heq
    obtain ⟨hlt, hget⟩ := List.getElem?_eq_some_iff.mp hcall
    rw [← hget]
    exact List.getElem_cons_eraseIdx_perm hlt
  · cases h

theorem State.step_cases (h : Steady g matching) (hok : ∀ f ∈ s.flying, f.Ok matching) {act : Act}
    (hstep : s.step g rangeConc auxConc act = some s') : State.Step g matching s s' := by
  cases act with
  | start =>
      rw [State.step] at hstep
      split at hstep
      · cases hstep
      rename_i range todo htodo
      split at hstep
      · obtain ⟨chunks, hseed, rfl⟩ := Option.map_eq_some_iff.mp hstep
        exact .start htodo hseed
      · cases hstep
  | page i =>
      rw [State.step] at hstep
      split at hstep
      · rename_i range fetch hflight
        have hfetching : Fetching matching range.1 range.2 { fetch with density := s.density } :=
          hok _ (List.mem_of_getElem? hflight)
        have hadvances := fetching_step h.answers _ hfetching
        split at hstep
        · rename_i fetch' hround
          cases hstep
          rw [hround] at hadvances
          refine .advance _ _ hflight (.of_eq (page_advances h range hround).1) fun _ => hadvances.1
        · rename_i logs hround
          rw [hround] at hadvances
          split at hstep
          · rename_i records hrecords
            cases hstep
            have hfuture : Flight.future g matching (.records range fetch) =
                g.blockCalls records ++ g.receiptCalls records := by
              rw [Flight.future, pending_of_fetchStep_ok h hround, auxCalls, pageLogs,
                ← hadvances logs rfl, hrecords]
              rfl
            exact .advance [] s.density hflight (.of_eq hfuture.symm)
              fun _ => trivial
          · cases hstep
        · cases hstep
      · cases hstep
  | blocks i j =>
      rw [State.step] at hstep
      split at hstep
      · rename_i blocks receipts hflight
        obtain ⟨⟨call, rest⟩, hpick, rfl⟩ := Option.map_eq_some_iff.mp hstep
        exact .advance [call] s.density hflight ((pick_eq_some hpick).append_right receipts)
          fun _ => trivial
      · cases hstep
  | receipts i j =>
      rw [State.step] at hstep
      split at hstep
      · rename_i blocks receipts hflight
        obtain ⟨⟨call, rest⟩, hpick, rfl⟩ := Option.map_eq_some_iff.mp hstep
        have hcalls : (call :: (blocks ++ rest)).Perm (blocks ++ receipts) :=
          List.perm_middle.symm.trans ((pick_eq_some hpick).append_left blocks)
        exact .advance [call] s.density hflight hcalls fun _ => trivial
      · cases hstep
  | land i =>
      rw [State.step] at hstep
      split at hstep
      · rename_i hflight
        cases hstep
        exact .land hflight
      · cases hstep

/-- What the calls left in the ledger. -/
def Setup.spent (g : Setup) (calls : List Call) : SpendLedger :=
  calls.foldr (fun call ledger => ledger.record (g.cost call.metered)) g.ledger

/-- The calls made and those to come are the calls of the fetches that started. -/
structure Inv (g : Setup) (matching : Nat → List Log) (s : State) : Prop where
  planned : s.started.map Prod.fst ++ s.todo = g.ranges
  ok : ∀ f ∈ s.flying, f.Ok matching
  calls : (s.calls ++ s.flying.flatMap (Flight.future g matching)).Perm
    (s.started.flatMap fun p => rangeCalls g matching p.1 p.2)
  ledger : s.ledger = g.spent s.calls

theorem spent_append (new calls : List Call) :
    g.spent (new ++ calls) =
      new.foldr (fun call ledger => ledger.record (g.cost call.metered)) (g.spent calls) :=
  List.foldr_append

/-- A fetch among others: its calls, then theirs. -/
theorem flatMap_perm_of_getElem? {flights : List Flight} {i : Nat} {flight : Flight}
    (h : flights[i]? = some flight) (future : Flight → List Call) :
    (flights.flatMap future).Perm (future flight ++ (flights.eraseIdx i).flatMap future) := by
  obtain ⟨hlt, hget⟩ := List.getElem?_eq_some_iff.mp h
  rw [← hget, ← List.flatMap_cons]
  exact ((List.getElem_cons_eraseIdx_perm hlt).symm).flatMap_right future

theorem flatMap_set_perm {flights : List Flight} {i : Nat} {flight : Flight}
    (h : flights[i]? = some flight) (flight' : Flight) (future : Flight → List Call) :
    ((flights.set i flight').flatMap future).Perm
      (future flight' ++ (flights.eraseIdx i).flatMap future) := by
  obtain ⟨hlt, -⟩ := List.getElem?_eq_some_iff.mp h
  rw [← List.flatMap_cons]
  exact (List.set_perm_cons_eraseIdx hlt flight').flatMap_right future

/-- A call goes out: it is made instead of to come. -/
theorem issued_perm {flights : List Flight} {i : Nat} {flight flight' : Flight} {new : List Call}
    (hflight : flights[i]? = some flight)
    (hcalls : (new ++ flight'.future g matching).Perm (flight.future g matching))
    (calls : List Call) :
    (new ++ calls ++ (flights.set i flight').flatMap (Flight.future g matching)).Perm
      (calls ++ flights.flatMap (Flight.future g matching)) := by
  have hset := flatMap_set_perm hflight flight' (Flight.future g matching)
  have hsplit := flatMap_perm_of_getElem? hflight (Flight.future g matching)
  calc (new ++ calls ++ (flights.set i flight').flatMap (Flight.future g matching)).Perm
        (calls ++ new ++ (flight'.future g matching ++
          (flights.eraseIdx i).flatMap (Flight.future g matching))) :=
        List.perm_append_comm.append hset
    _ = calls ++ (new ++ flight'.future g matching ++
          (flights.eraseIdx i).flatMap (Flight.future g matching)) := by
        simp only [List.append_assoc]
    List.Perm _ (calls ++ (flight.future g matching ++
          (flights.eraseIdx i).flatMap (Flight.future g matching))) :=
        (hcalls.append_right _).append_left calls
    List.Perm _ (calls ++ flights.flatMap (Flight.future g matching)) :=
        hsplit.symm.append_left calls

variable (hstep : 0 < g.step) (htarget : g.target < 2 ^ 63)

include hstep htarget in
/-- A planned range is seeded as a plan of its own. -/
theorem seed_of_planned {range : Range} (h : range ∈ g.ranges)
    (density : Nat) :
    g.seed density range = some (planRanges range.1 range.2 (suggestedSpan g.plan density)) := by
  obtain ⟨-, hle, hhi⟩ := Pipeline.mem_planFrom h hstep
  exact seed_eq hle (hhi.trans_lt htarget) density

include hstep htarget in
theorem fetching_seed {range : Range} (h : range ∈ g.ranges)
    {density : Nat} {chunks : List Range} (hseed : g.seed density range = some chunks) :
    Fetching matching range.1 range.2 ⟨chunks, [], density, 0⟩ := by
  obtain ⟨-, hle, hhi⟩ := Pipeline.mem_planFrom h hstep
  obtain ⟨chunks', hrun, hseeded⟩ : ∃ chunks', g.seed density range = some chunks' ∧
      Seeded range.1 range.2 chunks' :=
    exists_seed (suggestedSpan_bounds g.plan density) (hhi.trans_lt htarget) (by omega)
  have heq : some chunks' = some chunks := hrun.symm.trans hseed
  cases heq
  rw [Fetching, hseeded.blocks, List.nil_append]

include hstep htarget in
theorem Inv.step (h : Inv g matching s) (hs : State.Step g matching s s') : Inv g matching s' := by
  cases hs with
  | @start range todo chunks htodo hseed =>
      have hplanned := h.planned
      rw [htodo] at hplanned
      have hmem : range ∈ g.ranges := by
        rw [← hplanned]
        exact List.mem_append_right _ List.mem_cons_self
      have hchunks : planRanges range.1 range.2 (suggestedSpan g.plan s.density) = chunks := by
        rw [seed_of_planned hstep htarget hmem, Option.some.injEq] at hseed
        exact hseed
      refine ⟨?_, ?_, ?_, h.ledger⟩
      · rw [← hplanned, List.map_append, List.append_assoc]
        rfl
      · intro f hf
        rcases List.mem_append.mp hf with hf | hf
        · exact h.ok f hf
        · rw [List.mem_singleton.mp hf]
          exact fetching_seed hstep htarget hmem hseed
      · show (s.calls ++ (s.flying ++ [_]).flatMap _).Perm ((s.started ++ [_]).flatMap _)
        rw [List.flatMap_append, List.flatMap_append, ← List.append_assoc, List.flatMap_singleton,
          List.flatMap_singleton, ← hchunks]
        exact h.calls.append_right _
  | @advance i flight flight' new density hflight hcalls hok =>
      refine ⟨h.planned, ?_, ?_, ?_⟩
      · intro f hf
        rcases List.mem_or_eq_of_mem_set hf with hf | rfl
        · exact h.ok f hf
        · exact hok (h.ok flight (List.mem_of_getElem? hflight))
      · refine List.Perm.trans ?_ h.calls
        show (new ++ s.calls ++ (s.flying.set i flight').flatMap _).Perm _
        exact issued_perm hflight hcalls s.calls
      · show new.foldr _ s.ledger = g.spent (new ++ s.calls)
        rw [spent_append, h.ledger]
  | @land i hflight =>
      refine ⟨h.planned, fun f hf => h.ok f (List.mem_of_mem_eraseIdx hf), ?_, h.ledger⟩
      have hsplit := flatMap_perm_of_getElem? hflight (Flight.future g matching)
      exact (hsplit.symm.append_left s.calls).trans h.calls

theorem inv_init :
    Inv g matching ⟨g.density, g.ranges, [], [], g.ledger, []⟩ :=
  ⟨rfl, fun _ hf => absurd hf List.not_mem_nil, .refl _, rfl⟩

include hstep htarget in
theorem inv_of_reachable (h : Steady g matching)
    (hs : Reachable (system g rangeConc auxConc) anyStep s) : Inv g matching s := by
  apply hs.invariant (Inv g matching)
  · intro s hinit
    rw [hinit]
    exact inv_init
  · intro s act s' hinv _ hact
    exact hinv.step hstep htarget (State.step_cases h hinv.ok hact)

/-- What a fetch has still to do. -/
def Flight.weight (g : Setup) (matching : Nat → List Log) : Flight → Nat
  | .records range fetch => spanWeight fetch.pending + (auxCalls g matching range).length + 2
  | .aux blocks receipts => blocks.length + receipts.length + 1

def flyingWeight (g : Setup) (matching : Nat → List Log) (flights : List Flight) : Nat :=
  (flights.map (Flight.weight g matching)).sum

theorem flyingWeight_set_zero {flight flight' : Flight} {rest : List Flight}
    (hflying : s.flying = flight :: rest)
    (h : flight'.weight g matching < flight.weight g matching) :
    flyingWeight g matching (s.flying.set 0 flight') < flyingWeight g matching s.flying := by
  rw [hflying, List.set_cons_zero, flyingWeight, flyingWeight, List.map_cons, List.map_cons,
    List.sum_cons, List.sum_cons]
  exact Nat.add_lt_add_right h _

/-- Some act lets the fetches in flight have less to do and starts none. -/
def State.GoesOn (g : Setup) (matching : Nat → List Log) (rangeConc auxConc : Nat) (s : State) : Prop :=
  ∃ act s', s.step g rangeConc auxConc act = some s' ∧ s'.todo = s.todo ∧ s'.started = s.started ∧
    flyingWeight g matching s'.flying < flyingWeight g matching s.flying

theorem goesOn_records (h : Steady g matching) {range : Range} {fetch : FetchState}
    {rest : List Flight} (hflying : s.flying = .records range fetch :: rest)
    (hok : (Flight.records range fetch).Ok matching) : s.GoesOn g matching rangeConc auxConc := by
  have hfirst : s.flying[0]? = some (.records range fetch) := by
    rw [hflying]
    rfl
  cases hpending : fetch.pending with
  | nil =>
      have hround : fetchStep g.plan g.getLogs { fetch with density := s.density } =
          .inr (.ok fetch.logs) := by
        rw [fetchStep, hpending]
      have hlogs : fetch.logs = pageLogs matching range.1 range.2 := by
        rw [Flight.Ok, Fetching, hpending, blocksOf_nil, List.flatMap_nil, List.append_nil] at hok
        exact hok
      have hmapped : ∀ log ∈ fetch.logs, ∃ r, mapLog g.chainId log = .ok r := by
        intro log hlog
        rw [hlogs] at hlog
        obtain ⟨height, -, hmem⟩ := List.mem_flatMap.mp hlog
        exact h.mined height log hmem
      obtain ⟨records, hrecords⟩ := Rows.exists_mapM_ok hmapped
      refine ⟨.page 0, s.become 0 (.aux (g.blockCalls records) (g.receiptCalls records)), ?_,
        rfl, rfl, flyingWeight_set_zero hflying ?_⟩
      · simp only [State.step, hfirst, hround, hrecords]
      · rw [Flight.weight, Flight.weight, auxCalls, ← hlogs, hrecords, List.length_append]
        omega
  | cons span pending =>
      obtain ⟨fetch', hround⟩ : ∃ fetch',
          fetchStep g.plan g.getLogs { fetch with density := s.density } = .inl fetch' :=
        ⟨_, fetchStep_steady h { fetch with density := s.density } hpending⟩
      refine ⟨.page 0,
        { (s.issue g (attempts fetch fetch')).become 0 (.records range fetch') with
          density := fetch'.density }, ?_, rfl, rfl, flyingWeight_set_zero hflying ?_⟩
      · simp only [State.step, hfirst, hround]
      · have hlt := (page_advances h range hround).2
        rw [Flight.weight, Flight.weight]
        omega

theorem goesOn_aux {blocks receipts : List Call} {rest : List Flight}
    (hflying : s.flying = .aux blocks receipts :: rest) : s.GoesOn g matching rangeConc auxConc := by
  have hfirst : s.flying[0]? = some (.aux blocks receipts) := by
    rw [hflying]
    rfl
  cases blocks with
  | cons call blocks =>
      refine ⟨.blocks 0 0, (s.issue g [call]).become 0 (.aux blocks receipts), ?_, rfl, rfl,
        flyingWeight_set_zero hflying ?_⟩
      · simp [State.step, hfirst, pick]
      · simp [Flight.weight]
  | nil =>
      cases receipts with
      | cons call receipts =>
          refine ⟨.receipts 0 0, (s.issue g [call]).become 0 (.aux [] receipts), ?_, rfl, rfl,
            flyingWeight_set_zero hflying ?_⟩
          · simp [State.step, hfirst, pick]
          · simp [Flight.weight]
      | nil =>
          refine ⟨.land 0, { s with flying := s.flying.eraseIdx 0 }, ?_, rfl, rfl, ?_⟩
          · simp only [State.step, hfirst]
          · simp [hflying, flyingWeight, Flight.weight]

/-- The first fetch in flight can always go on. -/
theorem goesOn_of_flying (h : Steady g matching) {flight : Flight} {rest : List Flight}
    (hflying : s.flying = flight :: rest) (hok : flight.Ok matching) :
    s.GoesOn g matching rangeConc auxConc := by
  cases flight with
  | records range fetch => exact goesOn_records h hflying hok
  | aux blocks receipts => exact goesOn_aux hflying

include hstep htarget in
/-- Once every fetch has started, the drive can end. -/
theorem exists_finished (h : Steady g matching)
    (hs : Reachable (system g rangeConc auxConc) anyStep s) (htodo : s.todo = []) :
    ∃ t, Reachable (system g rangeConc auxConc) anyStep t ∧ t.Finished ∧ t.started = s.started := by
  induction hweight : flyingWeight g matching s.flying using Nat.strong_induction_on
    generalizing s with
  | _ n ih =>
      cases hflying : s.flying with
      | nil => exact ⟨s, hs, ⟨htodo, hflying⟩, rfl⟩
      | cons flight rest =>
          have hok := (inv_of_reachable hstep htarget h hs).ok flight
            (hflying ▸ List.mem_cons_self)
          obtain ⟨act, s', hact, htodo', hstarted, hlt⟩ := goesOn_of_flying h hflying hok
          obtain ⟨t, ht, hfinished, heq⟩ := ih _ (hweight ▸ hlt) (.step hs trivial hact)
            (htodo'.trans htodo) rfl
          exact ⟨t, ht, hfinished, heq.trans hstarted⟩

/-- The ranges in `done` have started, with the density of the beginning. -/
structure State.StartedOnly (g : Setup) (done todo : List Range) (s : State) : Prop where
  todo : s.todo = todo
  density : s.density = g.density
  flying : s.flying.length = done.length
  started : s.started = done.map fun range => (range, g.density)

include hstep htarget in
theorem exists_start (auxConc : Nat) {done todo : List Range} {range : Range}
    (hplanned : done ++ range :: todo = g.ranges) (hs : s.StartedOnly g done (range :: todo)) :
    ∃ s', (system g g.ranges.length auxConc).step s .start = some s' ∧
      s'.StartedOnly g (done ++ [range]) todo := by
  have hmem : range ∈ g.ranges := by
    rw [← hplanned]
    exact List.mem_append_right _ List.mem_cons_self
  have hslot : s.flying.length < max g.ranges.length 1 := by
    rw [hs.flying, ← hplanned, List.length_append, List.length_cons]
    omega
  refine ⟨{ s with
    todo := todo
    flying := s.flying ++ [.records range ⟨planRanges range.1 range.2
      (suggestedSpan g.plan s.density), [], s.density, 0⟩]
    started := s.started ++ [(range, s.density)] }, ?_, rfl, hs.density, ?_, ?_⟩
  · show s.step g g.ranges.length auxConc .start = _
    simp only [State.step, hs.todo, if_pos hslot, seed_of_planned hstep htarget hmem,
      Option.map_some]
  · simp [hs.flying]
  · simp [hs.started, hs.density]

include hstep htarget in
/-- With a slot for every range, all fetches can start before any page is answered. -/
theorem exists_all_started (auxConc : Nat) :
    ∃ s, Reachable (system g g.ranges.length auxConc) anyStep s ∧
      s.todo = [] ∧
      s.started = g.ranges.map fun range => (range, g.density) := by
  have hstart : ∀ todo done : List Range, done ++ todo = g.ranges →
      ∀ s, Reachable (system g g.ranges.length auxConc) anyStep s → s.StartedOnly g done todo →
      ∃ t, Reachable (system g g.ranges.length auxConc) anyStep t ∧ t.StartedOnly g g.ranges [] := by
    intro todo
    induction todo with
    | nil =>
        intro done hplanned s hs hstarted
        rw [List.append_nil] at hplanned
        exact ⟨s, hs, hplanned ▸ hstarted⟩
    | cons range todo ih =>
        intro done hplanned s hs hstarted
        obtain ⟨s', hact, hstarted'⟩ := exists_start hstep htarget auxConc hplanned hstarted
        apply ih (done ++ [range]) _ s' (.step hs trivial hact) hstarted'
        rw [← hplanned, List.append_assoc, List.singleton_append]
  obtain ⟨s, hs, hstarted⟩ := hstart g.ranges [] rfl _ (.init rfl) ⟨rfl, rfl, rfl, rfl⟩
  exact ⟨s, hs, hstarted.todo, hstarted.started⟩

theorem record_comm (ledger : SpendLedger) (a b : Nat) :
    (ledger.record a).record b = (ledger.record b).record a := by
  simp only [SpendLedger.record, Nat.mod_add_mod, Nat.add_right_comm]

/-- The ledger does not see the order of the calls. -/
theorem spent_perm {calls calls' : List Call} (h : calls.Perm calls') :
    g.spent calls = g.spent calls' :=
  h.foldr_eq' (fun _ _ _ _ ledger => record_comm ledger _ _) g.ledger

theorem Inv.finished (h : Inv g matching s) (hs : s.Finished) :
    s.started.map Prod.fst = g.ranges ∧
      s.calls.Perm (s.started.flatMap fun p => rangeCalls g matching p.1 p.2) := by
  have hplanned := h.planned
  have hcalls := h.calls
  rw [hs.1, List.append_nil] at hplanned
  rw [hs.2, List.flatMap_nil, List.append_nil] at hcalls
  exact ⟨hplanned, hcalls⟩

include hstep in
/-- A page at the start of a range is one of that range's. -/
theorem eq_of_getLogs {range range' : Range} {density b : Nat} (h : range ∈ g.ranges)
    (h' : range' ∈ g.ranges)
    (hcall : Call.getLogs range.1 b ∈ rangeCalls g matching range' density) : range' = range := by
  obtain ⟨hlo, hhi, -⟩ := getLogs_of_mem_rangeCalls hcall
  have hle := (Pipeline.mem_planFrom h hstep).2.1
  exact Pipeline.eq_of_mem_planRanges hstep h' h ⟨hlo, hhi⟩ ⟨le_rfl, hle⟩

include hstep in
/-- Drives of equal volume cut every range alike: each has the first page of the other. -/
theorem cutSpan_le {s t : State} (hs : s.started.map Prod.fst = g.ranges)
    (hsCalls : s.calls.Perm (s.started.flatMap fun p => rangeCalls g matching p.1 p.2))
    (ht : t.started.map Prod.fst = g.ranges)
    (htCalls : t.calls.Perm (t.started.flatMap fun p => rangeCalls g matching p.1 p.2))
    (hperm : s.calls.Perm t.calls) {range : Range} {density density' : Nat}
    (hmem : (range, density) ∈ s.started) (hmem' : (range, density') ∈ t.started) :
    cutSpan g.plan density range ≤ cutSpan g.plan density' range := by
  have hrange : range ∈ g.ranges := hs ▸ List.mem_map_of_mem hmem
  have hfirst : Call.getLogs range.1 (range.1 + cutSpan g.plan density range - 1) ∈ t.calls := by
    rw [← hperm.mem_iff, hsCalls.mem_iff]
    exact List.mem_flatMap.mpr
      ⟨_, hmem, first_mem_rangeCalls (Pipeline.mem_planFrom hrange hstep).2.1 density⟩
  obtain ⟨q, hq, hcall⟩ := List.mem_flatMap.mp (htCalls.mem_iff.mp hfirst)
  have hsame : q.1 = range := eq_of_getLogs hstep hrange (ht ▸ List.mem_map_of_mem hq) hcall
  have hnodup : (t.started.map Prod.fst).Nodup := ht ▸ Pipeline.nodup_planRanges hstep
  have heq : q = (range, density') := List.inj_on_of_nodup_map hnodup hq hmem' hsame
  subst heq
  have hle : range.1 + cutSpan g.plan density range - 1 + 1 ≤
      range.1 + cutSpan g.plan density' range := (getLogs_of_mem_rangeCalls hcall).2.2 rfl
  omega

/-- Drives whose seeds are alike make the same calls. -/
theorem calls_perm_of_alike (h : Inv g matching s) (hs : s.Finished)
    (halike : ∀ p ∈ s.started, cutSpan g.plan p.2 p.1 = cutSpan g.plan g.density p.1) :
    s.calls.Perm (g.ranges.flatMap fun range => rangeCalls g matching range g.density) := by
  obtain ⟨hranges, hcalls⟩ := h.finished hs
  have hsame : (s.started.flatMap fun p => rangeCalls g matching p.1 p.2) =
      s.started.flatMap fun p => rangeCalls g matching p.1 g.density :=
    List.flatMap_congr fun p hp => rangeCalls_congr (halike p hp)
  rw [hsame] at hcalls
  rw [← hranges, List.flatMap_map]
  exact hcalls

/-- A window costs the same in every order exactly when every fetch cuts its range as the first
density does. -/
theorem sameVolume_iff_seedsAlike (h : Steady g matching) (hstep : 0 < g.step)
    (htarget : g.target < 2 ^ 63) : SameVolume g ↔ SeedsAlike g := by
  constructor
  · intro hsame rangeConc auxConc s hs hfinished p hp
    obtain ⟨t₀, ht₀, htodo, hstarted₀⟩ := exists_all_started hstep htarget 1
    obtain ⟨t, ht, htFinished, hstarted⟩ := exists_finished hstep htarget h ht₀ htodo
    have hperm := (hsame _ _ _ _ s t hs hfinished ht htFinished).1
    obtain ⟨hsRanges, hsCalls⟩ := (inv_of_reachable hstep htarget h hs).finished hfinished
    obtain ⟨htRanges, htCalls⟩ := (inv_of_reachable hstep htarget h ht).finished htFinished
    have hrange : p.1 ∈ g.ranges := hsRanges ▸ List.mem_map_of_mem hp
    have hmem : (p.1, g.density) ∈ t.started := by
      rw [hstarted, hstarted₀]
      exact List.mem_map_of_mem hrange
    exact le_antisymm (cutSpan_le hstep hsRanges hsCalls htRanges htCalls hperm hp hmem)
      (cutSpan_le hstep htRanges htCalls hsRanges hsCalls hperm.symm hmem hp)
  · intro halike rangeConc auxConc rangeConc' auxConc' s s' hs hfinished hs' hfinished'
    have hinv := inv_of_reachable hstep htarget h hs
    have hinv' := inv_of_reachable hstep htarget h hs'
    have hperm : s.calls.Perm s'.calls :=
      (calls_perm_of_alike hinv hfinished (halike _ _ s hs hfinished)).trans
        (calls_perm_of_alike hinv' hfinished' (halike _ _ s' hs' hfinished')).symm
    refine ⟨hperm, ?_⟩
    rw [hinv.ledger, hinv'.ledger, spent_perm hperm]

/-- Without a result cap the density is not read. -/
theorem seedsAlike_of_no_cap (h : g.plan.maxGetlogsResults.toNat = 0) : SeedsAlike g := by
  intro rangeConc auxConc s hs hfinished p hp
  have hspan : ∀ density, suggestedSpan g.plan density = max g.plan.maxGetlogsBlocks.toNat 1 :=
    fun density => if_pos (.inl h)
  rw [cutSpan, cutSpan, hspan, hspan]

end Run

/-- One log in each of the first nine blocks. -/
def nineLogs (h : Nat) : List Log := if 1 ≤ h ∧ h ≤ 9 then plainLogs h else []

/-- Two ranges of ten blocks, under a result cap. -/
def nineLogsSetup (cap : UInt32) : Setup where
  chainId := 1
  plan := ⟨10, cap⟩
  maxBatch := 100
  getLogs _ lo hi := .ok (pageLogs nineLogs lo hi)
  cost := alchemyCost
  density := 0
  ledger := SpendLedger.new none
  next := 1
  target := 20
  step := 10

theorem steady_nineLogsSetup (cap : UInt32) : Steady (nineLogsSetup cap) nineLogs where
  clean _ _ _ _ := rfl
  capped _ _ _ hover := .inl ⟨_, rfl, hover.2.2⟩
  mined h log hlog := by
    unfold nineLogs at hlog
    split at hlog
    · rw [List.mem_singleton.mp hlog]
      exact ⟨_, rfl⟩
    · exact absurd hlog List.not_mem_nil

theorem sameVolume_uncapped : SameVolume (nineLogsSetup 0) :=
  (sameVolume_iff_seedsAlike (steady_nineLogsSetup 0) (by decide) (by decide)).mpr
    (seedsAlike_of_no_cap rfl)

/-- One range after the other costs a page more than both at once: the first page's nine logs cut
the second range to spans of eight blocks. -/
theorem not_sameVolume_capped :
    ¬∀ (g : Setup) (matching : Nat → List Log), Steady g matching → 0 < g.step →
      g.target < 2 ^ 63 → SameVolume g := by
  intro hevery
  have hsame := hevery (nineLogsSetup 10) nineLogs (steady_nineLogsSetup 10) (by decide) (by decide)
  have hserial : Reachable (system (nineLogsSetup 10) 1 1) anyStep
    ⟨0, (nineLogsSetup 10).ranges, [], [], SpendLedger.new none, []⟩ := .init rfl
  have hboth : Reachable (system (nineLogsSetup 10) 2 1) anyStep
    ⟨0, (nineLogsSetup 10).ranges, [], [], SpendLedger.new none, []⟩ := .init rfl
  obtain ⟨s, hs, hobserved⟩ := hserial.exists_observed
    [.start, .page 0, .page 0, .blocks 0 0, .receipts 0 0, .land 0,
      .start, .page 0, .page 0, .page 0, .land 0] (fun _ _ _ => trivial)
    (fun s => (s.todo, s.flying.length, s.ledger.units)) (b := ([], 0, 384)) (by decide +kernel)
  obtain ⟨t, ht, hobserved'⟩ := hboth.exists_observed
    [.start, .start, .page 0, .page 0, .blocks 0 0, .receipts 0 0, .land 0,
      .page 0, .page 0, .land 0] (fun _ _ _ => trivial)
    (fun s => (s.todo, s.flying.length, s.ledger.units)) (b := ([], 0, 309)) (by decide +kernel)
  simp only [Prod.mk.injEq, List.length_eq_zero_iff] at hobserved hobserved'
  obtain ⟨htodo, hflying, hunits⟩ := hobserved
  obtain ⟨htodo', hflying', hunits'⟩ := hobserved'
  have hequal := (hsame 1 1 2 1 s t hs ⟨htodo, hflying⟩ ht ⟨htodo', hflying'⟩).2
  rw [hunits, hunits'] at hequal
  exact absurd hequal (by decide)

end Topic0.Volume
