import Topic0.DecodeLease

/-! The queue with a ledger of what happened to its rows. Any number of workers push, pull, ack and
reclaim, each call one atomic statement at whatever the clock says; an ack carries a pair that some
pull has handed out, and may come late, twice or out of order. The ledger is written by the steps
and never read by them: it says which lease of a row is its latest and whether it was reclaimed
since, and the sequence numbers turn out to say the same. -/

namespace Topic0.Ledger

/-- What a statement did to one row. -/
inductive Event where
  /-- A new row; a push that finds its range queued adds none. -/
  | pushed (id : Nat) (item : WorkItem)
  | leased (lease : Lease)
  | reclaimed (id : Nat)
  | deleted (id leaseSeq : Nat)
  deriving DecidableEq, Repr

/-- The queue and its ledger, the newest entry first. -/
structure State where
  queue : WorkQueue
  log : List Event

inductive Act where
  | push (item : WorkItem)
  | pull (now : Nat)
  | ack (id leaseSeq : Nat)
  | reclaim (now olderThanSecs : Nat)

/-- The rows a reclaim unlocks. -/
def expired (queue : WorkQueue) (now olderThanSecs : Nat) : List Nat :=
  (queue.rows.filter fun q => q.lockedAt.any fun at_ => at_ + olderThanSecs < now).map QueueRow.id

def State.step (s : State) : Act → Option State
  | .push item =>
      some ⟨s.queue.pushInTx item,
        if s.queue.rows.any fun q => q.item.dedupKey == item.dedupKey then s.log
        else .pushed s.queue.nextId item :: s.log⟩
  | .pull now =>
      match s.queue.pullAny now with
      | none => some s
      | some (lease, queue) => some ⟨queue, .leased lease :: s.log⟩
  | .ack id leaseSeq =>
      some ⟨s.queue.ack id leaseSeq,
        if s.queue.rows.any fun q => q.id == id && q.leaseSeq == leaseSeq then
          .deleted id leaseSeq :: s.log
        else s.log⟩
  | .reclaim now olderThanSecs =>
      some ⟨s.queue.reclaimExpired now olderThanSecs,
        (expired s.queue now olderThanSecs).map Event.reclaimed ++ s.log⟩

def system : Transition.System State Act where
  init s := s = ⟨WorkQueue.empty, []⟩
  step := State.step

/-- The leases ever handed out. -/
def handed : List Event → List Lease
  | [] => []
  | .leased lease :: log => lease :: handed log
  | _ :: log => handed log

/-- The sequence of a row's most recent lease, unless the row was reclaimed since. -/
def currentLease : List Event → Nat → Option Nat
  | [], _ => none
  | .leased lease :: log, id => if lease.id = id then some lease.leaseSeq else currentLease log id
  | .reclaimed i :: log, id => if i = id then none else currentLease log id
  | _ :: log, id => currentLease log id

/-- Workers ack only what they were handed. -/
def Honest (s : State) : Act → Prop
  | .ack id leaseSeq => ∃ lease ∈ handed s.log, lease.id = id ∧ lease.leaseSeq = leaseSeq
  | _ => True

/-- The row of the ledger entry is queued. -/
def Queued (queue : WorkQueue) (id : Nat) (item : WorkItem) : Prop :=
  ∃ q ∈ queue.rows, q.id = id ∧ q.item = item

/-- The row was deleted by an ack of its latest lease. -/
def DeletedUnderLease (queue : WorkQueue) (log : List Event) (id : Nat) : Prop :=
  (∀ q ∈ queue.rows, q.id ≠ id) ∧
    ∃ leaseSeq, .deleted id leaseSeq ∈ log ∧ currentLease log id = some leaseSeq

@[simp] theorem handed_reclaimed (ids : List Nat) (log : List Event) :
    handed (ids.map Event.reclaimed ++ log) = handed log := by
  induction ids with
  | nil => rfl
  | cons id ids ih => exact ih

theorem currentLease_reclaimed (ids : List Nat) (log : List Event) (id : Nat) :
    currentLease (ids.map Event.reclaimed ++ log) id =
      if id ∈ ids then none else currentLease log id := by
  induction ids with
  | nil => rfl
  | cons i ids ih =>
      rw [List.map_cons, List.cons_append, currentLease, ih]
      by_cases hi : i = id
      · simp [hi]
      · have hi' : ¬id = i := fun h => hi h.symm
        simp [hi, hi']

theorem mem_expired {queue : WorkQueue} {now olderThanSecs : Nat} {q : QueueRow}
    (hq : q ∈ queue.rows) : q.id ∈ expired queue now olderThanSecs ↔
      (q.lockedAt.any fun at_ => at_ + olderThanSecs < now) = true := by
  rw [expired, List.mem_map]
  constructor
  · rintro ⟨p, hp, hid⟩
    obtain ⟨hp, hold⟩ := List.mem_filter.mp hp
    rw [← WorkQueue.eq_of_id hp hq hid]
    exact hold
  · intro hold
    exact ⟨q, List.mem_filter.mpr ⟨hq, hold⟩, rfl⟩

theorem exists_handed {log : List Event} {id leaseSeq : Nat}
    (h : currentLease log id = some leaseSeq) :
    ∃ lease ∈ handed log, lease.id = id ∧ lease.leaseSeq = leaseSeq := by
  induction log with
  | nil => cases h
  | cons event log ih =>
      cases event with
      | pushed i item => exact ih h
      | deleted i seq => exact ih h
      | leased lease =>
          rw [currentLease] at h
          split at h
          · rename_i hid
            exact ⟨lease, List.mem_cons_self, hid, Option.some.inj h⟩
          · obtain ⟨lease', hlease', hnamed⟩ := ih h
            exact ⟨lease', List.mem_cons_of_mem _ hlease', hnamed⟩
      | reclaimed i =>
          rw [currentLease] at h
          split at h
          · cases h
          · exact ih h

/-- What the ledger says of a queued row: it is locked while its latest lease stands, under that
lease's sequence, and every other lease it ever had is of a lower one. -/
structure RowOk (log : List Event) (q : QueueRow) : Prop where
  locked : q.lockedAt.isSome = (currentLease log q.id).isSome
  current : ∀ leaseSeq, currentLease log q.id = some leaseSeq → leaseSeq = q.leaseSeq
  bound : ∀ lease ∈ handed log, lease.id = q.id →
    lease.leaseSeq < q.leaseSeq ∨ currentLease log q.id = some lease.leaseSeq

theorem RowOk.le {log : List Event} {q : QueueRow} (h : RowOk log q) {lease : Lease}
    (hlease : lease ∈ handed log) (hid : lease.id = q.id) : lease.leaseSeq ≤ q.leaseSeq := by
  rcases h.bound lease hlease hid with hlt | hcurrent
  · exact hlt.le
  · exact (h.current _ hcurrent).le

structure State.Accounted (s : State) : Prop where
  old : ∀ lease ∈ handed s.log, lease.id < s.queue.nextId
  distinct : ((handed s.log).map fun lease => (lease.id, lease.leaseSeq)).Nodup
  rows : ∀ q ∈ s.queue.rows, RowOk s.log q
  pushed : ∀ id item, .pushed id item ∈ s.log → id < s.queue.nextId ∧
    (Queued s.queue id item ∨ DeletedUnderLease s.queue s.log id)

theorem Queued.keeps {queue queue' : WorkQueue} {id : Nat} {item : WorkItem}
    (h : Queued queue id item) (hkeeps : queue.Keeps queue') : Queued queue' id item := by
  obtain ⟨q, hq, rfl, rfl⟩ := h
  obtain ⟨q', hq', hid, hitem, -⟩ := hkeeps q hq
  exact ⟨q', hq', hid, hitem⟩

/-- Entries about other rows and rows with other ids do not bring a deleted row back. -/
theorem DeletedUnderLease.frame {queue queue' : WorkQueue} {log log' : List Event} {id : Nat}
    (h : DeletedUnderLease queue log id) (hlater : queue.Later queue') (hold : id < queue.nextId)
    (hlog : log ⊆ log') (hcurrent : currentLease log' id = currentLease log id) :
    DeletedUnderLease queue' log' id := by
  obtain ⟨hgone, leaseSeq, hdeleted, hlease⟩ := h
  refine ⟨fun q' hq' hid => ?_, leaseSeq, hlog hdeleted, hcurrent.trans hlease⟩
  rcases hlater.rows q' hq' with hnew | ⟨q, hq, hqid, -⟩
  · omega
  · exact hgone q hq (hqid.trans hid)

section Step

variable {s : State} (hs : s.Accounted)

include hs

theorem accounted_push (item : WorkItem) : ∀ t, s.step (.push item) = some t → t.Accounted := by
  rintro t ⟨⟩
  have hlater := WorkQueue.later_pushInTx s.queue item
  have hkeeps : s.queue.Keeps (s.queue.pushInTx item) :=
    WorkQueue.keeps_of_subset fun q hq => WorkQueue.mem_pushInTx.mpr (.inl hq)
  by_cases hdup : (s.queue.rows.any fun q => q.item.dedupKey == item.dedupKey) = true
  · have hrows : ∀ q ∈ (s.queue.pushInTx item).rows, q ∈ s.queue.rows := by
      intro q hq
      rcases WorkQueue.mem_pushInTx.mp hq with hq | ⟨-, hfree⟩
      · exact hq
      · obtain ⟨p, hp, hkey⟩ := List.any_eq_true.mp hdup
        exact absurd (beq_iff_eq.mp hkey) (hfree p hp)
    simp only [hdup, if_true]
    refine ⟨fun lease hlease => (hs.old lease hlease).trans_le hlater.nextId, hs.distinct,
      fun q hq => hs.rows q (hrows q hq), fun id item' hpushed => ?_⟩
    obtain ⟨hold, hqueued | hdeleted⟩ := hs.pushed id item' hpushed
    · exact ⟨hold.trans_le hlater.nextId, .inl (hqueued.keeps hkeeps)⟩
    · exact ⟨hold.trans_le hlater.nextId,
        .inr (hdeleted.frame hlater hold (List.Subset.refl _) rfl)⟩
  · have hfree : ∀ p ∈ s.queue.rows, p.item.dedupKey ≠ item.dedupKey := fun p hp hkey =>
      hdup (List.any_eq_true.mpr ⟨p, hp, beq_iff_eq.mpr hkey⟩)
    simp only [hdup, Bool.false_eq_true, if_false]
    refine ⟨fun lease hlease => (hs.old lease hlease).trans_le hlater.nextId, hs.distinct,
      fun q hq => ?_, fun id item' hpushed => ?_⟩
    · rcases WorkQueue.mem_pushInTx.mp hq with hq | ⟨rfl, -⟩
      · exact ⟨(hs.rows q hq).locked, (hs.rows q hq).current, (hs.rows q hq).bound⟩
      -- a fresh row: no lease carries its id
      · have hnone : currentLease s.log s.queue.nextId = none := by
          cases hcurrent : currentLease s.log s.queue.nextId with
          | none => rfl
          | some leaseSeq =>
              obtain ⟨lease, hlease, hid, -⟩ := exists_handed hcurrent
              have := hs.old lease hlease
              omega
        refine ⟨?_, ?_, fun lease hlease hid => ?_⟩
        · simp [currentLease, hnone]
        · simp [currentLease, hnone]
        · have : lease.id < s.queue.nextId := hs.old lease hlease
          have : lease.id = s.queue.nextId := hid
          omega
    · rcases List.mem_cons.mp hpushed with heq | hpushed
      · cases heq
        refine ⟨by rw [WorkQueue.nextId_pushInTx]; omega, .inl ?_⟩
        exact ⟨_, WorkQueue.mem_pushInTx.mpr (.inr ⟨rfl, hfree⟩), rfl, rfl⟩
      · obtain ⟨hold, hqueued | hdeleted⟩ := hs.pushed id item' hpushed
        · exact ⟨hold.trans_le hlater.nextId, .inl (hqueued.keeps hkeeps)⟩
        · exact ⟨hold.trans_le hlater.nextId,
            .inr (hdeleted.frame hlater hold (List.subset_cons_self _ _) rfl)⟩

theorem accounted_pull {now : Nat} {lease : Lease} {queue : WorkQueue}
    (hpull : s.queue.pullAny now = some (lease, queue)) :
    State.Accounted ⟨queue, .leased lease :: s.log⟩ := by
  have hlater := WorkQueue.later_pullAny hpull
  have hkeeps := WorkQueue.keeps_pullAny hpull
  obtain ⟨hnext, ready, hready, rfl, hrows⟩ := WorkQueue.pullAny_eq_some hpull
  refine ⟨?_, ?_, ?_, ?_⟩
  · intro lease hlease
    rcases List.mem_cons.mp hlease with rfl | hlease
    · exact (s.queue.fresh ready hready).trans_le hlater.nextId
    · exact (hs.old lease hlease).trans_le hlater.nextId
  · refine List.nodup_cons.mpr ⟨fun hmem => ?_, hs.distinct⟩
    obtain ⟨lease, hlease, heq⟩ := List.mem_map.mp hmem
    obtain ⟨hid, hseq⟩ := Prod.mk.inj heq
    have hle := (hs.rows ready hready).le hlease hid
    simp only at hseq
    omega
  · intro q hq
    rcases (hrows q).mp hq with ⟨hq, hne⟩ | rfl
    · have hother : currentLease (.leased ⟨ready.id, ready.leaseSeq + 1, ready.item⟩ :: s.log) q.id =
          currentLease s.log q.id := if_neg (Ne.symm hne)
      refine ⟨hother ▸ (hs.rows q hq).locked, hother ▸ (hs.rows q hq).current, ?_⟩
      intro lease hlease hid
      rw [hother]
      rcases List.mem_cons.mp hlease with rfl | hlease
      · exact absurd hid.symm hne
      · exact (hs.rows q hq).bound lease hlease hid
    · have hnow : currentLease (.leased ⟨ready.id, ready.leaseSeq + 1, ready.item⟩ :: s.log) ready.id =
          some (ready.leaseSeq + 1) := if_pos rfl
      refine ⟨by rw [hnow]; rfl, ?_, ?_⟩
      · intro leaseSeq hcurrent
        rw [hnow, Option.some.injEq] at hcurrent
        exact hcurrent.symm
      · intro lease hlease hid
        rcases List.mem_cons.mp hlease with rfl | hlease
        · exact .inr hnow
        · exact .inl (Nat.lt_succ_of_le ((hs.rows ready hready).le hlease hid))
  · intro id item hpushed
    have hpushed : Event.pushed id item ∈ s.log := (List.mem_cons.mp hpushed).resolve_left nofun
    obtain ⟨hold, hqueued | hdeleted⟩ := hs.pushed id item hpushed
    · exact ⟨hold.trans_le hlater.nextId, .inl (hqueued.keeps hkeeps)⟩
    · refine ⟨hold.trans_le hlater.nextId, .inr ?_⟩
      exact hdeleted.frame hlater hold (List.subset_cons_self _ _)
        (if_neg (hdeleted.1 ready hready))

theorem accounted_reclaim (now olderThanSecs : Nat) :
    State.Accounted ⟨s.queue.reclaimExpired now olderThanSecs,
      (expired s.queue now olderThanSecs).map Event.reclaimed ++ s.log⟩ := by
  have hlater := WorkQueue.later_reclaimExpired s.queue now olderThanSecs
  have hkeeps := WorkQueue.keeps_reclaimExpired s.queue now olderThanSecs
  refine ⟨?_, ?_, ?_, ?_⟩
  · rw [handed_reclaimed]
    exact hs.old
  · rw [handed_reclaimed]
    exact hs.distinct
  · intro q hq
    obtain ⟨p, hp, ⟨rfl, hold⟩ | ⟨rfl, hold⟩⟩ := WorkQueue.mem_reclaimExpired.mp hq
    · have hkept : q.id ∉ expired s.queue now olderThanSecs := by
        rw [mem_expired hp, hold]
        exact nofun
      have hsame := hs.rows q hp
      refine ⟨?_, ?_, ?_⟩
      · rw [currentLease_reclaimed, if_neg hkept]
        exact hsame.locked
      · rw [currentLease_reclaimed, if_neg hkept]
        exact hsame.current
      · rw [currentLease_reclaimed, if_neg hkept, handed_reclaimed]
        exact hsame.bound
    · have hgone : currentLease ((expired s.queue now olderThanSecs).map Event.reclaimed ++ s.log)
          p.id = none := by
        rw [currentLease_reclaimed, if_pos ((mem_expired hp).mpr hold)]
      refine ⟨by rw [hgone], ?_, ?_⟩
      · intro leaseSeq hcurrent
        rw [hgone] at hcurrent
        cases hcurrent
      · intro lease hlease hid
        rw [handed_reclaimed] at hlease
        exact .inl (Nat.lt_succ_of_le ((hs.rows p hp).le hlease hid))
  · intro id item hpushed
    have hpushed : Event.pushed id item ∈ s.log := by
      rcases List.mem_append.mp hpushed with hmem | hmem
      · obtain ⟨i, -, heq⟩ := List.mem_map.mp hmem
        cases heq
      · exact hmem
    obtain ⟨hold, hqueued | hdeleted⟩ := hs.pushed id item hpushed
    · exact ⟨hold.trans_le hlater.nextId, .inl (hqueued.keeps hkeeps)⟩
    · refine ⟨hold.trans_le hlater.nextId, .inr ?_⟩
      refine hdeleted.frame hlater hold (List.subset_append_right _ _) ?_
      rw [currentLease_reclaimed, if_neg]
      intro hmem
      obtain ⟨p, hp, hid⟩ := List.mem_map.mp hmem
      exact hdeleted.1 p (List.mem_filter.mp hp).1 hid

/-- Among the pairs handed out, an ack names a queued row when it is of the row's current lease. -/
theorem named_iff_current {q : QueueRow} (hq : q ∈ s.queue.rows) {lease : Lease}
    (hlease : lease ∈ handed s.log) :
    (q.id = lease.id ∧ q.leaseSeq = lease.leaseSeq) ↔
      q.id = lease.id ∧ currentLease s.log lease.id = some lease.leaseSeq := by
  refine and_congr_right fun hid => ⟨fun hseq => ?_, fun hcurrent => ?_⟩
  · rcases (hs.rows q hq).bound lease hlease hid.symm with hlt | hcurrent
    · omega
    · exact hid ▸ hcurrent
  · exact ((hs.rows q hq).current _ (hid ▸ hcurrent)).symm

theorem accounted_ack {lease : Lease} (hlease : lease ∈ handed s.log) :
    ∀ t, s.step (.ack lease.id lease.leaseSeq) = some t → t.Accounted := by
  rintro t ⟨⟩
  have hlater := WorkQueue.later_ack s.queue lease.id lease.leaseSeq
  by_cases hany : (s.queue.rows.any fun q => q.id == lease.id && q.leaseSeq == lease.leaseSeq) = true
  · simp only [hany, if_true]
    obtain ⟨q, hq, hnamed⟩ := List.any_eq_true.mp hany
    simp only [Bool.and_eq_true, beq_iff_eq] at hnamed
    refine ⟨hs.old, hs.distinct, fun p hp => ?_, fun id item hpushed => ?_⟩
    · have hsame := hs.rows p (WorkQueue.mem_ack.mp hp).1
      exact ⟨hsame.locked, hsame.current, hsame.bound⟩
    · have hpushed : Event.pushed id item ∈ s.log := (List.mem_cons.mp hpushed).resolve_left nofun
      obtain ⟨hold, ⟨p, hp, rfl, rfl⟩ | hdeleted⟩ := hs.pushed id item hpushed
      · refine ⟨hold, ?_⟩
        by_cases hsame : p.id = lease.id ∧ p.leaseSeq = lease.leaseSeq
        · right
          refine ⟨fun p' hp' hid => ?_, lease.leaseSeq, hsame.1 ▸ List.mem_cons_self, ?_⟩
          · obtain ⟨hmem, hother⟩ := WorkQueue.mem_ack.mp hp'
            rw [WorkQueue.eq_of_id hmem hp hid] at hother
            exact hother hsame
          · rw [hsame.1]
            exact ((named_iff_current hs hp hlease).mp hsame).2
        · exact .inl ⟨p, WorkQueue.mem_ack.mpr ⟨hp, hsame⟩, rfl, rfl⟩
      · exact ⟨hold, .inr (hdeleted.frame hlater hold (List.subset_cons_self _ _) rfl)⟩
  · simp only [hany]
    refine ⟨hs.old, hs.distinct, fun p hp => hs.rows p (WorkQueue.mem_ack.mp hp).1,
      fun id item hpushed => ?_⟩
    obtain ⟨hold, ⟨p, hp, rfl, rfl⟩ | hdeleted⟩ := hs.pushed id item hpushed
    · refine ⟨hold, .inl ⟨p, WorkQueue.mem_ack.mpr ⟨hp, fun hsame => ?_⟩, rfl, rfl⟩⟩
      exact hany (List.any_eq_true.mpr ⟨p, hp, by simp [hsame]⟩)
    · exact ⟨hold, .inr (hdeleted.frame hlater hold (List.Subset.refl _) rfl)⟩

theorem accounted_step {act : Act} (hact : Honest s act) {t : State} (h : s.step act = some t) :
    t.Accounted := by
  cases act with
  | push item => exact accounted_push hs item t h
  | pull now =>
      rw [State.step] at h
      split at h
      · cases h
        exact hs
      · rename_i lease queue hpull
        cases h
        exact accounted_pull hs hpull
  | ack id leaseSeq =>
      obtain ⟨lease, hlease, rfl, rfl⟩ := hact
      exact accounted_ack hs hlease t h
  | reclaim now olderThanSecs =>
      cases h
      exact accounted_reclaim hs now olderThanSecs

end Step

theorem accounted_of_reachable {s : State} (h : Transition.Reachable system Honest s) :
    s.Accounted := by
  refine h.invariant State.Accounted ?_ fun s act t hs hact hstep => accounted_step hs hact hstep
  rintro s rfl
  exact ⟨nofun, List.nodup_nil, nofun, nofun⟩

theorem later_step {s t : State} {act : Act} (h : s.step act = some t) :
    s.queue.Later t.queue := by
  cases act with
  | push item =>
      cases h
      exact WorkQueue.later_pushInTx _ _
  | pull now =>
      rw [State.step] at h
      split at h
      · cases h
        exact .refl _
      · rename_i lease queue hpull
        cases h
        exact WorkQueue.later_pullAny hpull
  | ack id leaseSeq =>
      cases h
      exact WorkQueue.later_ack _ _ _
  | reclaim now olderThanSecs =>
      cases h
      exact WorkQueue.later_reclaimExpired _ _ _

theorem later_exec {s t : State} (acts : List Act)
    (h : Transition.exec system s acts = some t) : s.queue.Later t.queue := by
  induction acts generalizing s with
  | nil =>
      cases h
      exact .refl _
  | cons act acts ih =>
      rw [Transition.exec] at h
      obtain ⟨u, hu, hrest⟩ := Option.bind_eq_some_iff.mp h
      exact (later_step hu).trans (ih hrest)

/-- The row of the id leaves the queue with the ack. -/
def AckDeletes (queue : WorkQueue) (id leaseSeq : Nat) (q : QueueRow) : Prop :=
  ∀ q' ∈ (queue.ack id leaseSeq).rows, q'.id ≠ q.id

/-- Lease fencing. In every state of a run in which workers ack only what they were handed: no two
leases ever handed out are the same pair; in whatever follows a row's sequence never decreases; an
ack deletes a row exactly when it is of the row's most recent lease and the row was not reclaimed
since; and every row ever pushed is queued or was deleted by the ack of its latest lease. -/
theorem lease_fencing {s : State} (h : Transition.Reachable system Honest s) :
    ((handed s.log).map fun lease => (lease.id, lease.leaseSeq)).Nodup ∧
    (∀ acts t, Transition.exec system s acts = some t → ∀ q ∈ s.queue.rows, ∀ q' ∈ t.queue.rows,
      q'.id = q.id → q.leaseSeq ≤ q'.leaseSeq) ∧
    (∀ lease ∈ handed s.log, ∀ q ∈ s.queue.rows, AckDeletes s.queue lease.id lease.leaseSeq q ↔
      q.id = lease.id ∧ currentLease s.log lease.id = some lease.leaseSeq) ∧
    ∀ id item, .pushed id item ∈ s.log →
      Queued s.queue id item ∨ DeletedUnderLease s.queue s.log id := by
  have hs := accounted_of_reachable h
  refine ⟨hs.distinct, ?_, ?_, fun id item hpushed => (hs.pushed id item hpushed).2⟩
  · intro acts t hexec q hq q' hq' hid
    rcases (later_exec acts hexec).rows q' hq' with hnew | ⟨p, hp, hpid, -, hseq⟩
    · have := s.queue.fresh q hq
      omega
    · rw [WorkQueue.eq_of_id hq hp (hid.symm.trans hpid.symm)]
      exact hseq
  · intro lease hlease q hq
    rw [← named_iff_current hs hq hlease]
    constructor
    · exact WorkQueue.of_gone_ack hq
    · intro hnamed q' hq' hid
      obtain ⟨hmem, hother⟩ := WorkQueue.mem_ack.mp hq'
      rw [WorkQueue.eq_of_id hmem hq hid] at hother
      exact hother hnamed

def honestGuard (s : State) : Act → Bool
  | .ack id leaseSeq => (handed s.log).any fun lease => lease.id == id && lease.leaseSeq == leaseSeq
  | _ => true

theorem honest_of_guard (s : State) (act : Act) (h : honestGuard s act = true) : Honest s act := by
  cases act with
  | ack id leaseSeq =>
      obtain ⟨lease, hlease, hnamed⟩ := List.any_eq_true.mp h
      simp only [Bool.and_eq_true, beq_iff_eq] at hnamed
      exact ⟨lease, hlease, hnamed⟩
  | _ => trivial

def oneRange : WorkItem := ⟨1, 5, 9, .backfill, ⟨0⟩⟩

/-- An item acked, queued again, reclaimed and leased a second time: the ack of its reclaimed lease
deletes nothing, that of its last one does. -/
theorem lease_fencing_stale :
    ∃ s : State, Transition.Reachable system Honest s ∧
      s.queue.rows = [⟨3, oneRange, some 100, 3⟩] ∧
      ¬AckDeletes s.queue 3 1 ⟨3, oneRange, some 100, 3⟩ ∧
      AckDeletes s.queue 3 3 ⟨3, oneRange, some 100, 3⟩ := by
  obtain ⟨s, hreach, hobserved⟩ := Transition.Reachable.exists_observed_where honest_of_guard
    (.init rfl : Transition.Reachable system Honest _)
    [.push oneRange, .push oneRange, .pull 0, .ack 1 1, .push oneRange, .pull 0, .reclaim 100 60,
      .ack 3 1, .pull 100, .ack 1 1] (fun s => (s.queue.rows, s.log))
    (b := ([⟨3, oneRange, some 100, 3⟩], [.leased ⟨3, 3, oneRange⟩, .reclaimed 3,
      .leased ⟨3, 1, oneRange⟩, .pushed 3 oneRange, .deleted 1 1, .leased ⟨1, 1, oneRange⟩,
      .pushed 1 oneRange])) (by decide +kernel)
  obtain ⟨hrows, hlog⟩ := Prod.mk.inj hobserved
  have hrow : (⟨3, oneRange, some 100, 3⟩ : QueueRow) ∈ s.queue.rows := by simp [hrows]
  obtain ⟨-, -, hdeletes, -⟩ := lease_fencing hreach
  refine ⟨s, hreach, hrows, fun hstale => ?_, ?_⟩
  · have hcurrent := ((hdeletes ⟨3, 1, oneRange⟩ (by simp [hlog, handed]) _ hrow).mp hstale).2
    simp [hlog, currentLease] at hcurrent
  · exact (hdeletes ⟨3, 3, oneRange⟩ (by simp [hlog, handed]) _ hrow).mpr
      ⟨rfl, by simp [hlog, currentLease]⟩

end Topic0.Ledger
