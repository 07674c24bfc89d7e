import Topic0.BaseTimed
import Topic0.QueryCache

/-! The read cache over data that changes. Nothing tells the cache of a write; its entries live for a
fixed time instead. So an answer may be behind the tables, but not by more than that time and the
time the repository took to answer, and it is what the repository would have answered then. -/

namespace Topic0.CachingEventQueryRepository

open Coding Transition Memo

variable {layout : String → PkColumns} (format : StringFormat) (repo : PgEventQueryRepository)
  (pg : Postgres) (timeline : Nat → Store layout)
  (ties : (spec : QuerySpec) → Set (Keyset.Sorter (rowLe spec.descending))) (ttl : Nat)

/-- The two caches, which expire by one clock. -/
structure TimedState where
  now : Nat
  queries : Timed.State QuerySpec (Fault DomainError) (Page Joined)
  counts : Timed.State QuerySpec (Fault DomainError) Nat

def TimedState.empty : TimedState := ⟨0, Timed.State.empty, Timed.State.empty⟩

inductive TimedAct where
  | tick
  | query (act : Timed.Act QuerySpec (Fault DomainError) (Page Joined))
  | count (act : Timed.Act QuerySpec (Fault DomainError) Nat)

def TimedState.step (s : TimedState) : TimedAct → Option TimedState
  | .tick => some { s with now := s.now + 1 }
  | .query act => (s.queries.step (queryKey format) ttl s.now act).map fun queries =>
      { s with queries := queries }
  | .count act => (s.counts.step (countKey format) ttl s.now act).map fun counts =>
      { s with counts := counts }

def timedSystem : System TimedState TimedAct where
  init s := s = TimedState.empty
  step := TimedState.step format ttl

/-- A miss is answered by the repository, from the tables as they stand at that moment. -/
def DelegatedAt (s : TimedState) : TimedAct → Prop
  | .tick => True
  | .query act => Timed.Answered (fun t => QueryAnswers repo pg (timeline t) ties) s.now act
  | .count act => Timed.Answered (fun t => CountAnswers repo pg (timeline t)) s.now act

variable {format repo pg timeline ties ttl}

theorem timed_sound_of_reachable {s : TimedState}
    (h : Reachable (timedSystem format ttl) (DelegatedAt repo pg timeline ties) s) :
    Timed.Sound (fun t => QueryAnswers repo pg (timeline t) ties) ttl s.now s.queries ∧
      Timed.Sound (fun t => CountAnswers repo pg (timeline t)) ttl s.now s.counts := by
  apply h.invariant fun s =>
    Timed.Sound (fun t => QueryAnswers repo pg (timeline t) ties) ttl s.now s.queries ∧
      Timed.Sound (fun t => CountAnswers repo pg (timeline t)) ttl s.now s.counts
  · intro s hinit
    rw [hinit]
    exact ⟨Timed.sound_empty _ _ _, Timed.sound_empty _ _ _⟩
  · intro s act s' hinv hact hstep
    cases act with
    | tick =>
        cases hstep
        exact ⟨hinv.1.later (Nat.le_succ _), hinv.2.later (Nat.le_succ _)⟩
    | query act =>
        obtain ⟨queries, hnext, rfl⟩ := Option.map_eq_some_iff.mp hstep
        exact ⟨Timed.sound_step (fun t => determines_query format repo pg (timeline t) ties) hinv.1
          hact hnext, hinv.2⟩
    | count act =>
        obtain ⟨counts, hnext, rfl⟩ := Option.map_eq_some_iff.mp hstep
        exact ⟨hinv.1, Timed.sound_step (fun t => determines_count format repo pg (timeline t))
          hinv.2 hact hnext⟩

/-- An answer returned at a moment is the repository's answer at a moment before. It was kept for less
than its time to live after its insertion, so it has seen everything that was written longer ago than
that and the call took; and a failure is the repository's own, of that moment. -/
structure BoundedStaleness {α : Type} (answer : Store layout → QuerySpec → Except (Fault DomainError) α → Prop)
    (timeline : Nat → Store layout) (ttl : Nat) (r : Timed.Return QuerySpec (Fault DomainError) α) :
    Prop where
  answered : answer (timeline r.asked) r.call r.answer
  asked : r.asked ≤ r.stored
  stored : r.stored ≤ r.at_
  seen : ∀ written latency, r.stored ≤ r.asked + latency → written + latency + ttl ≤ r.at_ →
    written ≤ r.asked
  fresh : ∀ e, r.answer = .error e → r.at_ = r.asked

/-- However the tables change, whatever is asked, and whenever entries go, no answer of the cache is
further behind than the time to live and the time the repository took for it. -/
theorem cache_bounded_staleness {s : TimedState}
    (h : Reachable (timedSystem format ttl) (DelegatedAt repo pg timeline ties) s) :
    (∀ r ∈ s.queries.returned, BoundedStaleness (fun store => QueryAnswers repo pg store ties)
        timeline ttl r) ∧
      ∀ r ∈ s.counts.returned, BoundedStaleness (fun store => CountAnswers repo pg store)
        timeline ttl r := by
  obtain ⟨hqueries, hcounts⟩ := timed_sound_of_reachable h
  constructor
  · intro r hr
    have hrecent := hqueries.returned r hr
    exact ⟨hrecent.answered, hrecent.asked, hrecent.stored, fun _ _ => hrecent.asked_ge, hrecent.fresh⟩
  · intro r hr
    have hrecent := hcounts.returned r hr
    exact ⟨hrecent.answered, hrecent.asked, hrecent.stored, fun _ _ => hrecent.asked_ge, hrecent.fresh⟩

/-- The shared table, emptied after the first tick. -/
def emptied (t : Nat) : Store eventLayout := if t = 0 then sharedTable else Store.empty

/-- Counts that the repository answers now. -/
def answeredNow (s : TimedState) : TimedAct → Bool
  | .count (.miss call answer) =>
      decide (transferRepo.count chainComparison (emptied s.now) call = answer)
  | .query (.miss _ _) => false
  | _ => true

theorem delegatedAt_of_answeredNow (s : TimedState) (act : TimedAct)
    (hguard : answeredNow s act = true) :
    DelegatedAt transferRepo chainComparison emptied oneOrder s act := by
  cases act with
  | tick => trivial
  | query act =>
      cases act with
      | hit call i => trivial
      | miss call answer => cases hguard
      | insert i => trivial
  | count act =>
      cases act with
      | hit call i => trivial
      | miss call answer =>
          rw [answeredNow, decide_eq_true_eq] at hguard
          exact hguard
      | insert i => trivial

/-- A count is kept for two ticks: the second call is given the first one's answer, the third asks
again. -/
theorem cache_bounded_staleness_after_delete :
    ∃ s : TimedState, (s.counts.returned.map fun r => (r.asked, r.at_)) = [(2, 2), (0, 1), (0, 0)] ∧
      ∀ r ∈ s.counts.returned, BoundedStaleness
        (fun store => CountAnswers transferRepo chainComparison store) emptied 2 r := by
  have hinit : Reachable (timedSystem standardFormat 2)
      (DelegatedAt transferRepo chainComparison emptied oneOrder) TimedState.empty := .init rfl
  obtain ⟨s, hs, hobserved⟩ := Reachable.exists_observed_where delegatedAt_of_answeredNow hinit
    [.count (.miss (transferSpec []) (transferRepo.count chainComparison sharedTable
        (transferSpec []))),
      .count (.insert 0), .tick, .count (.hit { transferSpec [] with first := 7 } 0), .tick,
      .count (.miss (transferSpec []) (.ok 0)), .count (.insert 0)]
    (fun s => s.counts.returned.map fun r => (r.asked, r.at_)) (b := [(2, 2), (0, 1), (0, 0)])
    (by decide +kernel)
  exact ⟨s, hobserved, (cache_bounded_staleness hs).2⟩

end Topic0.CachingEventQueryRepository
