import Topic0.BaseHistory
import Topic0.QueueLedger

/-! The order in which a chain's items are served by pulls that do not overlap. A pull takes the
oldest row of a chain that has none in flight, so the leased row of a chain is always its oldest,
also after a crash: a reclaimed row comes first again. Since only the latest lease of a row deletes
it, the rows of a chain leave the queue in the order they were pushed, and a row is leased only when
all rows of its chain pushed before it are gone. Chains do not wait for each other. -/

namespace Topic0

namespace WorkQueue

variable {queue queue' : WorkQueue}

/-- The row a pull takes is the oldest of its chain, and none of the chain is in flight. -/
theorem oldest_of_nextReady {ready : QueueRow} (h : queue.nextReady = some ready) :
    ready ∈ queue.rows ∧ ∀ q ∈ queue.rows, q.item.chainId = ready.item.chainId →
      q.lockedAt.isSome = false ∧ ready.id ≤ q.id := by
  obtain ⟨hready, before, after, hrows, hbefore⟩ := List.find?_eq_some_iff_append.mp h
  simp only [Bool.and_eq_true, decide_eq_true_eq] at hready
  have hidle : ∀ q ∈ queue.rows, q.item.chainId = ready.item.chainId → q.lockedAt.isSome = false := by
    intro q hq hchain
    by_contra hlocked
    rw [Bool.not_eq_false] at hlocked
    apply hready.2
    rw [inFlight, ← hchain]
    exact List.mem_map.mpr ⟨q, List.mem_filter.mpr ⟨hq, hlocked⟩, rfl⟩
  refine ⟨List.mem_of_find?_eq_some h, fun q hq hchain => ⟨hidle q hq hchain, ?_⟩⟩
  have hordered := queue.ordered
  have hcases : q ∈ before ∨ q = ready ∨ q ∈ after := by
    rw [hrows] at hq
    simpa using hq
  rcases hcases with hq' | rfl | hq'
  · -- an older row of the chain would have been found first
    have hskipped := hbefore q hq'
    have hunlocked : q.lockedAt.isNone = true := by
      rw [← Option.not_isSome, hidle q hq hchain, Bool.not_false]
    rw [hunlocked, hchain, decide_eq_true hready.2] at hskipped
    cases hskipped
  · exact le_refl _
  · rw [hrows, List.pairwise_append] at hordered
    exact (List.rel_of_pairwise_cons hordered.2.1 hq').le

/-- What a pull did: the oldest row of an idle chain was locked, the others are as they were. -/
theorem oldest_of_pullAny {now : Nat} {lease : Lease} (h : queue.pullAny now = some (lease, queue')) :
    ∃ ready ∈ queue.rows, lease = ⟨ready.id, ready.leaseSeq + 1, ready.item⟩ ∧
      (∀ q ∈ queue.rows, q.item.chainId = ready.item.chainId →
        q.lockedAt.isSome = false ∧ ready.id ≤ q.id) ∧
      ∀ q, q ∈ queue'.rows ↔ (q ∈ queue.rows ∧ q.id ≠ ready.id) ∨
        q = { ready with lockedAt := some now, leaseSeq := ready.leaseSeq + 1 } := by
  obtain ⟨-, ready, hready, hlease, hrows⟩ := pullAny_eq_some h
  rw [pullAny, Option.map_eq_some_iff] at h
  obtain ⟨found, hfound, heq⟩ := h
  obtain ⟨hmem, holdest⟩ := oldest_of_nextReady hfound
  have hid : found.id = ready.id := by
    rw [hlease] at heq
    exact congrArg (fun pulled => pulled.1.id) heq
  rw [eq_of_id hmem hready hid] at holdest
  exact ⟨ready, hready, hlease, holdest, hrows⟩

/-- A pull that comes back empty finds each queued chain with a row in flight. -/
theorem inFlight_of_pullAny_none {now : Nat} (h : queue.pullAny now = none) {q : QueueRow}
    (hq : q ∈ queue.rows) :
    ∃ q' ∈ queue.rows, q'.item.chainId = q.item.chainId ∧ q'.lockedAt.isSome = true := by
  rw [pullAny, Option.map_eq_none_iff, nextReady, List.find?_eq_none] at h
  cases hlocked : q.lockedAt.isSome with
  | true => exact ⟨q, hq, rfl, hlocked⟩
  | false =>
      have hskipped := h q hq
      rw [← Option.not_isSome, hlocked, Bool.not_false, Bool.true_and, decide_eq_true_eq,
        not_not] at hskipped
      obtain ⟨q', hq', hchain⟩ := List.mem_map.mp hskipped
      obtain ⟨hmem, hsome⟩ := List.mem_filter.mp hq'
      exact ⟨q', hmem, hchain, hsome⟩

end WorkQueue

namespace Ledger

open Transition

/-- The row that was leased or deleted. -/
def Event.served? : Event → Option Nat
  | .leased lease => some lease.id
  | .deleted id _ => some id
  | _ => none

def Deleted (log : List Event) (id : Nat) : Prop := ∃ leaseSeq, .deleted id leaseSeq ∈ log

/-- Whatever was pushed for the row's chain before the row is gone. -/
def InTurn (id : Nat) (earlier : List Event) : Prop :=
  ∃ item, .pushed id item ∈ earlier ∧ ∀ id' item', .pushed id' item' ∈ earlier →
    item'.chainId = item.chainId → id' < id → Deleted earlier id'

/-- The leased row of a chain is its oldest. -/
def HeadOfLine (queue : WorkQueue) : Prop :=
  ∀ q ∈ queue.rows, q.lockedAt.isSome = true → ∀ q' ∈ queue.rows,
    q'.item.chainId = q.item.chainId → q.id ≤ q'.id

structure State.Ordered (s : State) : Prop where
  accounted : s.Accounted
  pushed : ∀ q ∈ s.queue.rows, .pushed q.id q.item ∈ s.log
  headOfLine : HeadOfLine s.queue
  inTurn : History.Before Event.served? InTurn s.log

variable {s t : State}

/-- The oldest queued row of a chain is the next of the chain in push order. -/
theorem State.Ordered.inTurn_of_oldest (hs : s.Ordered) {q : QueueRow} (hq : q ∈ s.queue.rows)
    (holdest : ∀ q' ∈ s.queue.rows, q'.item.chainId = q.item.chainId → q.id ≤ q'.id) :
    InTurn q.id s.log := by
  refine ⟨q.item, hs.pushed q hq, fun id' item' hpushed hchain hlt => ?_⟩
  rcases (hs.accounted.pushed id' item' hpushed).2 with ⟨q', hq', rfl, rfl⟩ | ⟨-, leaseSeq, hdeleted, -⟩
  · exact absurd (holdest q' hq' hchain) (Nat.not_le_of_lt hlt)
  · exact ⟨leaseSeq, hdeleted⟩

theorem headOfLine_pull {queue queue' : WorkQueue} {now : Nat} {lease : Lease}
    (hline : HeadOfLine queue) (hpull : queue.pullAny now = some (lease, queue')) :
    HeadOfLine queue' := by
  obtain ⟨ready, hready, -, holdest, hrows⟩ := WorkQueue.oldest_of_pullAny hpull
  intro q hq hlocked q' hq' hchain
  rcases (hrows q).mp hq with ⟨hold, -⟩ | rfl
  · rcases (hrows q').mp hq' with ⟨hold', -⟩ | rfl
    · exact hline q hold hlocked q' hold' hchain
    · -- the chain of the pulled row had nothing in flight
      rw [(holdest q hold hchain.symm).1] at hlocked
      cases hlocked
  · rcases (hrows q').mp hq' with ⟨hold', -⟩ | rfl
    · exact (holdest q' hold' hchain).2
    · exact le_refl _

theorem headOfLine_reclaim {queue : WorkQueue} (hline : HeadOfLine queue) (now olderThanSecs : Nat) :
    HeadOfLine (queue.reclaimExpired now olderThanSecs) := by
  intro q hq hlocked q' hq' hchain
  obtain ⟨p', hp', heq'⟩ := WorkQueue.mem_reclaimExpired.mp hq'
  have hsame : q'.id = p'.id ∧ q'.item = p'.item := by
    rcases heq' with ⟨rfl, -⟩ | ⟨rfl, -⟩
    · exact ⟨rfl, rfl⟩
    · exact ⟨rfl, rfl⟩
  obtain ⟨p, hp, ⟨rfl, -⟩ | ⟨rfl, -⟩⟩ := WorkQueue.mem_reclaimExpired.mp hq
  · rw [hsame.1]
    exact hline q hp hlocked p' hp' (hsame.2 ▸ hchain)
  · cases hlocked

section Step

variable (hs : s.Ordered)

include hs

theorem ordered_push (item : WorkItem) (h : s.step (.push item) = some t) : t.Ordered := by
  have haccounted := accounted_push hs.accounted item t h
  cases h
  refine ⟨haccounted, fun q hq => ?_, fun q hq hlocked q' hq' hchain => ?_, ?_⟩
  · rcases WorkQueue.mem_pushInTx.mp hq with hold | ⟨rfl, hfree⟩
    · show _ ∈ (if _ then s.log else _ :: s.log)
      split
      · exact hs.pushed q hold
      · exact List.mem_cons_of_mem _ (hs.pushed q hold)
    · have hnone : (s.queue.rows.any fun q => q.item.dedupKey == item.dedupKey) = false := by
        rw [List.any_eq_false]
        intro p hp
        simpa using hfree p hp
      simp [hnone]
  · rcases WorkQueue.mem_pushInTx.mp hq with hold | ⟨rfl, -⟩
    · rcases WorkQueue.mem_pushInTx.mp hq' with hold' | ⟨rfl, -⟩
      · exact hs.headOfLine q hold hlocked q' hold' hchain
      · exact (s.queue.fresh q hold).le
    · cases hlocked
  · show History.Before _ _ (if _ then s.log else _ :: s.log)
    split
    · exact hs.inTurn
    · exact hs.inTurn.record rfl

theorem ordered_pull (now : Nat) (h : s.step (.pull now) = some t) : t.Ordered := by
  have haccounted := accounted_step hs.accounted (show Honest s (.pull now) from trivial) h
  rw [State.step] at h
  split at h
  · cases h
    exact hs
  · rename_i lease queue hpull
    cases h
    obtain ⟨ready, hready, rfl, holdest, hrows⟩ := WorkQueue.oldest_of_pullAny hpull
    refine ⟨haccounted, fun q hq => ?_, headOfLine_pull hs.headOfLine hpull, ?_⟩
    · rcases (hrows q).mp hq with ⟨hold, -⟩ | rfl
      · exact List.mem_cons_of_mem _ (hs.pushed q hold)
      · exact List.mem_cons_of_mem _ (hs.pushed ready hready)
    · refine History.before_cons.mpr ⟨?_, hs.inTurn⟩
      intro id hid
      cases hid
      exact hs.inTurn_of_oldest hready fun q hq hchain => (holdest q hq hchain).2

/-- An ack that deletes a row is of the row's current lease, so the row is the oldest of its chain. -/
theorem ordered_ack {id leaseSeq : Nat} (hact : Honest s (.ack id leaseSeq))
    (h : s.step (.ack id leaseSeq) = some t) : t.Ordered := by
  have haccounted := accounted_step hs.accounted hact h
  cases h
  have hmem : ∀ q ∈ (s.queue.ack id leaseSeq).rows, q ∈ s.queue.rows := fun q hq =>
    (WorkQueue.mem_ack.mp hq).1
  refine ⟨haccounted, fun q hq => ?_, fun q hq hlocked q' hq' hchain =>
    hs.headOfLine q (hmem q hq) hlocked q' (hmem q' hq') hchain, ?_⟩
  · show _ ∈ (if _ then _ :: s.log else s.log)
    split
    · exact List.mem_cons_of_mem _ (hs.pushed q (hmem q hq))
    · exact hs.pushed q (hmem q hq)
  · show History.Before _ _ (if _ then _ :: s.log else s.log)
    split
    · rename_i hany
      obtain ⟨q, hq, hnamed⟩ := List.any_eq_true.mp hany
      simp only [Bool.and_eq_true, beq_iff_eq] at hnamed
      obtain ⟨lease, hlease, rfl, rfl⟩ := hact
      have hcurrent := ((named_iff_current hs.accounted hq hlease).mp hnamed).2
      have hlocked : q.lockedAt.isSome = true := by
        rw [(hs.accounted.rows q hq).locked, hnamed.1, hcurrent]
        rfl
      refine History.before_cons.mpr ⟨?_, hs.inTurn⟩
      intro id hid
      cases hid
      rw [← hnamed.1]
      exact hs.inTurn_of_oldest hq fun q' hq' hchain => hs.headOfLine q hq hlocked q' hq' hchain
    · exact hs.inTurn

theorem ordered_reclaim (now olderThanSecs : Nat) (h : s.step (.reclaim now olderThanSecs) = some t) :
    t.Ordered := by
  cases h
  refine ⟨accounted_reclaim hs.accounted now olderThanSecs, fun q hq => ?_,
    headOfLine_reclaim hs.headOfLine now olderThanSecs, ?_⟩
  · obtain ⟨p, hp, ⟨rfl, -⟩ | ⟨rfl, -⟩⟩ := WorkQueue.mem_reclaimExpired.mp hq
    · exact List.mem_append_right _ (hs.pushed q hp)
    · exact List.mem_append_right _ (hs.pushed p hp)
  · apply hs.inTurn.append
    intro e he
    obtain ⟨id, -, rfl⟩ := List.mem_map.mp he
    rfl

end Step

/-- In every state of a run of pushes, whole pulls, reclaims and acks of what was handed out: the
leased row of a chain is the chain's oldest; a row was leased, and a row was deleted, only after
every row pushed before it for its chain was deleted; and a pull comes back empty only if each queued
chain has a row in flight. -/
theorem served_in_order (h : Reachable system Honest s) :
    HeadOfLine s.queue ∧ History.Before Event.served? InTurn s.log ∧
      ∀ now, s.queue.pullAny now = none → ∀ q ∈ s.queue.rows,
        ∃ q' ∈ s.queue.rows, q'.item.chainId = q.item.chainId ∧ q'.lockedAt.isSome = true := by
  have hordered : s.Ordered := by
    apply h.invariant State.Ordered
    · intro s hinit
      rw [hinit]
      refine ⟨accounted_of_reachable (.init rfl), fun q hq => absurd hq List.not_mem_nil,
        fun q hq => absurd hq List.not_mem_nil, History.before_nil⟩
    · intro s act t hs hact hstep
      cases act with
      | push item => exact ordered_push hs item hstep
      | pull now => exact ordered_pull hs now hstep
      | ack id leaseSeq => exact ordered_ack hs hact hstep
      | reclaim now olderThanSecs => exact ordered_reclaim hs now olderThanSecs hstep
  exact ⟨hordered.headOfLine, hordered.inTurn, fun now hnone q hq =>
    WorkQueue.inFlight_of_pullAny_none hnone hq⟩

/-- Two ranges of chain 1 and one of chain 2: the first range of chain 1 is reclaimed and leased again
before the second one is. -/
theorem served_in_order_after_reclaim : ∃ s, Reachable system Honest s ∧
    s.log = [.leased ⟨2, 1, ⟨1, 10, 14, .backfill, ⟨0⟩⟩⟩, .deleted 1 3, .leased ⟨1, 3, oneRange⟩,
      .reclaimed 1, .leased ⟨3, 1, ⟨2, 5, 9, .backfill, ⟨0⟩⟩⟩, .leased ⟨1, 1, oneRange⟩,
      .pushed 3 ⟨2, 5, 9, .backfill, ⟨0⟩⟩, .pushed 2 ⟨1, 10, 14, .backfill, ⟨0⟩⟩,
      .pushed 1 oneRange] ∧
    History.Before Event.served? InTurn s.log := by
  obtain ⟨s, hreach, hlog⟩ := Transition.Reachable.exists_observed_where honest_of_guard
    (.init rfl : Transition.Reachable system Honest _)
    [.push oneRange, .push ⟨1, 10, 14, .backfill, ⟨0⟩⟩, .push ⟨2, 5, 9, .backfill, ⟨0⟩⟩, .pull 0,
      .pull 90, .pull 95, .reclaim 100 60, .ack 1 1, .pull 100, .ack 1 3, .pull 100] State.log
    (b := [.leased ⟨2, 1, ⟨1, 10, 14, .backfill, ⟨0⟩⟩⟩, .deleted 1 3, .leased ⟨1, 3, oneRange⟩,
      .reclaimed 1, .leased ⟨3, 1, ⟨2, 5, 9, .backfill, ⟨0⟩⟩⟩, .leased ⟨1, 1, oneRange⟩,
      .pushed 3 ⟨2, 5, 9, .backfill, ⟨0⟩⟩, .pushed 2 ⟨1, 10, 14, .backfill, ⟨0⟩⟩,
      .pushed 1 oneRange]) (by decide +kernel)
  exact ⟨s, hreach, hlog, (served_in_order hreach).2.1⟩

end Ledger

end Topic0
