import Topic0.SharedModel

/-! The `work_queue` table and the four statements the queue repository runs on it. Each statement
is one transaction, taken as atomic. `now` is the database clock in seconds. -/

namespace Topic0

/-- One row of `work_queue`; `locked_at` is set while the row is leased. -/
structure QueueRow where
  id : Nat
  item : WorkItem
  lockedAt : Option Nat
  leaseSeq : Nat
  deriving DecidableEq, Repr

/-- The columns of `work_queue_item_uniq`. -/
def WorkItem.dedupKey (item : WorkItem) : ChainId × Nat × Nat × WorkKind :=
  (item.chainId, item.fromHeight, item.toHeight, item.kind)

/-- The queue, in id order, with its serial primary key and its unique index. -/
structure WorkQueue where
  rows : List QueueRow
  nextId : Nat
  ordered : rows.Pairwise (fun a b => a.id < b.id)
  fresh : ∀ q ∈ rows, q.id < nextId
  uniq : (rows.map fun q => q.item.dedupKey).Nodup

namespace WorkQueue

def empty : WorkQueue := ⟨[], 1, List.Pairwise.nil, by simp, by simp⟩

/-- `UPDATE work_queue SET locked_at, lease_seq` of the rows a statement selects: ids and items
are never written. -/
def updateRows (queue : WorkQueue) (f : QueueRow → QueueRow)
    (hid : ∀ q, (f q).id = q.id) (hitem : ∀ q, (f q).item = q.item) : WorkQueue where
  rows := queue.rows.map f
  nextId := queue.nextId
  ordered := by
    rw [List.pairwise_map]
    exact queue.ordered.imp fun h => by rw [hid, hid]; exact h
  fresh := by
    intro q hq
    obtain ⟨q', hq', rfl⟩ := List.mem_map.mp hq
    rw [hid]
    exact queue.fresh q' hq'
  uniq := by
    rw [List.map_map]
    have heq : ((fun q : QueueRow => q.item.dedupKey) ∘ f) = fun q => q.item.dedupKey := by
      funext q
      rw [Function.comp_apply, hitem]
    rw [heq]
    exact queue.uniq

/-- `push_in_tx`: `INSERT … ON CONFLICT (chain_id, from_height, to_height, kind) DO NOTHING`. The
serial is drawn before the conflict is found. -/
def pushInTx (queue : WorkQueue) (item : WorkItem) : WorkQueue :=
  if h : item.dedupKey ∈ queue.rows.map fun q => q.item.dedupKey then
    { queue with
      nextId := queue.nextId + 1
      fresh := fun q hq => Nat.lt_succ_of_lt (queue.fresh q hq) }
  else
    { rows := queue.rows ++ [⟨queue.nextId, item, none, 0⟩]
      nextId := queue.nextId + 1
      ordered := by
        refine List.pairwise_append.mpr ⟨queue.ordered, List.pairwise_singleton _ _, ?_⟩
        intro q hq q' hq'
        rw [List.mem_singleton.mp hq']
        exact queue.fresh q hq
      fresh := by
        intro q hq
        rcases List.mem_append.mp hq with hq | hq
        · exact Nat.lt_succ_of_lt (queue.fresh q hq)
        · rw [List.mem_singleton.mp hq]
          exact Nat.lt_succ_self _
      uniq := by
        rw [List.map_append, List.map_cons, List.map_nil]
        refine List.nodup_append.mpr ⟨queue.uniq, List.nodup_singleton _, ?_⟩
        intro k hk k' hk' heq
        rw [List.mem_singleton.mp hk'] at heq
        exact h (heq ▸ hk) }

/-- The chains with a row in flight: `SELECT chain_id … WHERE locked_at IS NOT NULL`. -/
def inFlight (queue : WorkQueue) : List ChainId :=
  (queue.rows.filter fun q => q.lockedAt.isSome).map fun q => q.item.chainId

/-- The oldest ready row whose chain has nothing in flight. -/
def nextReady (queue : WorkQueue) : Option QueueRow :=
  queue.rows.find? fun q => q.lockedAt.isNone && decide (q.item.chainId ∉ queue.inFlight)

/-- `pull_any`: lock the oldest ready row of an idle chain and bump its sequence. -/
def pullAny (queue : WorkQueue) (now : Nat) : Option (Lease × WorkQueue) :=
  queue.nextReady.map fun ready =>
    (⟨ready.id, ready.leaseSeq + 1, ready.item⟩,
      queue.updateRows
        (fun q => if q.id = ready.id then
          { q with lockedAt := some now, leaseSeq := q.leaseSeq + 1 } else q)
        (fun q => by split <;> rfl) (fun q => by split <;> rfl))

/-- `ack`: `DELETE … WHERE id = $1 AND lease_seq = $2`. -/
def ack (queue : WorkQueue) (id leaseSeq : Nat) : WorkQueue where
  rows := queue.rows.filter fun q => !(q.id == id && q.leaseSeq == leaseSeq)
  nextId := queue.nextId
  ordered := queue.ordered.sublist List.filter_sublist
  fresh := fun q hq => queue.fresh q (List.mem_filter.mp hq).1
  uniq := queue.uniq.sublist (List.filter_sublist.map _)

/-- `reclaim_expired`: unlock every row whose lease is older than the timeout and bump its
sequence. -/
def reclaimExpired (queue : WorkQueue) (now olderThanSecs : Nat) : WorkQueue :=
  queue.updateRows
    (fun q => if q.lockedAt.any fun at_ => at_ + olderThanSecs < now then
      { q with lockedAt := none, leaseSeq := q.leaseSeq + 1 } else q)
    (fun q => by split <;> rfl) (fun q => by split <;> rfl)

theorem eq_of_id {queue : WorkQueue} {q q' : QueueRow} (hq : q ∈ queue.rows)
    (hq' : q' ∈ queue.rows) (hid : q.id = q'.id) : q = q' := by
  have hnodup : (queue.rows.map QueueRow.id).Nodup :=
    List.pairwise_map.mpr (queue.ordered.imp Nat.ne_of_lt)
  exact List.inj_on_of_nodup_map hnodup hq hq' hid

theorem mem_pushInTx {queue : WorkQueue} {item : WorkItem} {q : QueueRow} :
    q ∈ (queue.pushInTx item).rows ↔ q ∈ queue.rows ∨
      (q = ⟨queue.nextId, item, none, 0⟩ ∧ ∀ p ∈ queue.rows, p.item.dedupKey ≠ item.dedupKey) := by
  rw [pushInTx]
  split
  · rename_i hdup
    refine ⟨.inl, ?_⟩
    rintro (hq | ⟨-, hfree⟩)
    · exact hq
    · obtain ⟨p, hp, hkey⟩ := List.mem_map.mp hdup
      exact absurd hkey (hfree p hp)
  · rename_i hfree
    rw [List.mem_append, List.mem_singleton]
    refine or_congr_right (iff_self_and.mpr fun _ p hp hkey => hfree ?_)
    exact List.mem_map.mpr ⟨p, hp, hkey⟩

/-- After a push the item's range is queued, in a new row or in the one that was there. -/
theorem exists_pushInTx (queue : WorkQueue) (item : WorkItem) :
    ∃ q ∈ (queue.pushInTx item).rows, q.item.dedupKey = item.dedupKey ∧
      (q ∈ queue.rows ∨ q.id = queue.nextId) := by
  by_cases hdup : ∃ p ∈ queue.rows, p.item.dedupKey = item.dedupKey
  · obtain ⟨p, hp, hkey⟩ := hdup
    exact ⟨p, mem_pushInTx.mpr (.inl hp), hkey, .inl hp⟩
  · push Not at hdup
    exact ⟨_, mem_pushInTx.mpr (.inr ⟨rfl, hdup⟩), rfl, .inr rfl⟩

theorem nextId_pushInTx (queue : WorkQueue) (item : WorkItem) :
    (queue.pushInTx item).nextId = queue.nextId + 1 := by
  rw [pushInTx]
  split <;> rfl

theorem mem_ack {queue : WorkQueue} {id leaseSeq : Nat} {q : QueueRow} :
    q ∈ (queue.ack id leaseSeq).rows ↔ q ∈ queue.rows ∧ ¬(q.id = id ∧ q.leaseSeq = leaseSeq) := by
  rw [ack, List.mem_filter, Bool.not_eq_true', Bool.eq_false_iff]
  simp only [ne_eq, Bool.and_eq_true, beq_iff_eq]

/-- What a pull did to the rows: one idle row was locked, the others are as they were. -/
theorem pullAny_eq_some {queue queue' : WorkQueue} {now : Nat} {lease : Lease}
    (h : queue.pullAny now = some (lease, queue')) :
    queue'.nextId = queue.nextId ∧ ∃ ready ∈ queue.rows,
      lease = ⟨ready.id, ready.leaseSeq + 1, ready.item⟩ ∧
      ∀ q, q ∈ queue'.rows ↔
        (q ∈ queue.rows ∧ q.id ≠ ready.id) ∨
          q = { ready with lockedAt := some now, leaseSeq := ready.leaseSeq + 1 } := by
  rw [pullAny, Option.map_eq_some_iff] at h
  obtain ⟨ready, hready, heq⟩ := h
  cases heq
  have hmem : ready ∈ queue.rows := List.mem_of_find?_eq_some hready
  refine ⟨rfl, ready, hmem, rfl, fun q => ?_⟩
  simp only [updateRows, List.mem_map]
  constructor
  · rintro ⟨p, hp, rfl⟩
    by_cases hid : p.id = ready.id
    · rw [if_pos hid, eq_of_id hp hmem hid]
      exact .inr rfl
    · rw [if_neg hid]
      exact .inl ⟨hp, hid⟩
  · rintro (⟨hq, hid⟩ | rfl)
    · exact ⟨q, hq, if_neg hid⟩
    · exact ⟨ready, hmem, if_pos rfl⟩

/-- A reclaim keeps every row, unlocked under a new sequence where its lease was too old. -/
theorem mem_reclaimExpired {queue : WorkQueue} {now olderThanSecs : Nat} {q : QueueRow} :
    q ∈ (queue.reclaimExpired now olderThanSecs).rows ↔
      ∃ p ∈ queue.rows, q = p ∧ (p.lockedAt.any fun at_ => at_ + olderThanSecs < now) = false ∨
        q = { p with lockedAt := none, leaseSeq := p.leaseSeq + 1 } ∧
          (p.lockedAt.any fun at_ => at_ + olderThanSecs < now) = true := by
  simp only [reclaimExpired, updateRows, List.mem_map]
  constructor
  · rintro ⟨p, hp, rfl⟩
    refine ⟨p, hp, ?_⟩
    split
    · rename_i hold
      exact .inr ⟨rfl, hold⟩
    · rename_i hold
      exact .inl ⟨rfl, by simpa using hold⟩
  · rintro ⟨p, hp, ⟨rfl, hold⟩ | ⟨rfl, hold⟩⟩
    · exact ⟨q, hp, by simp [hold]⟩
    · exact ⟨p, hp, by simp [hold]⟩

end WorkQueue

end Topic0
