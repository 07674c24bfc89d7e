import Topic0.DecodeLease

/-! Pulls that overlap. Under read committed a pull is a statement of several moments: it takes a
snapshot, its sub-selects read that snapshot, it locks the first candidate no open statement holds
and whose live version still is a candidate, and its update is seen by others only when it commits.
Push, ack and reclaim are one moment each. With nothing in between, the moments of a pull are
`pullAny`; with another pull in between, the sub-select that keeps a chain serial reads a queue in
which the other's lease is not there yet. -/

namespace Topic0.ReadCommitted

/-- Where a worker's pull stands; `now` is the time its statement started. -/
inductive Stmt where
  | idle
  | started (snapshot : WorkQueue) (now : Nat)
  | holding (id : Nat) (now : Nat)

structure State where
  /-- The committed rows. -/
  queue : WorkQueue
  stmts : Nat → Stmt
  /-- The worker whose open statement has locked and updated the row. -/
  rowLock : Nat → Option Nat

inductive Act where
  | push (item : WorkItem)
  | ack (id leaseSeq : Nat)
  | reclaim (now olderThanSecs : Nat)
  | start (w now : Nat)
  | lock (w id : Nat)
  /-- No candidate is left: the pull returns nothing. -/
  | miss (w : Nat)
  | commit (w : Nat)
  | abort (w : Nat)

/-- `SET locked_at = now(), lease_seq = lease_seq + 1` of one row. -/
def leaseRow (queue : WorkQueue) (id now : Nat) : WorkQueue :=
  queue.updateRows
    (fun q => if q.id = id then
      { q with lockedAt := some now, leaseSeq := q.leaseSeq + 1 } else q)
    (fun q => by split <;> rfl) (fun q => by split <;> rfl)

/-- The row is a candidate of the snapshot. -/
def candidate (snapshot : WorkQueue) (q : QueueRow) : Bool :=
  q.lockedAt.isNone && decide (q.item.chainId ∉ snapshot.inFlight)

/-- `FOR UPDATE SKIP LOCKED` gets the row: no open statement holds it, and the version it waits for
is still unlocked. -/
def State.lockable (s : State) (q : QueueRow) : Bool :=
  (s.rowLock q.id).isNone && s.queue.rows.any fun live => live.id == q.id && live.lockedAt.isNone

/-- The row a pull with this snapshot locks now. -/
def State.pick (s : State) (snapshot : WorkQueue) : Option QueueRow :=
  snapshot.rows.find? fun q => candidate snapshot q && s.lockable q

def State.step (s : State) : Act → Option State
  | .push item => some { s with queue := s.queue.pushInTx item }
  | .ack id leaseSeq =>
      -- a delete waits for the statement that holds its row
      if (s.queue.rows.any fun q => q.id == id && q.leaseSeq == leaseSeq) && (s.rowLock id).isSome
      then none
      else some { s with queue := s.queue.ack id leaseSeq }
  | .reclaim now olderThanSecs =>
      some { s with queue := s.queue.reclaimExpired now olderThanSecs }
  | .start w now =>
      match s.stmts w with
      | .idle => some { s with stmts := Function.update s.stmts w (.started s.queue now) }
      | _ => none
  | .lock w id =>
      match s.stmts w with
      | .started snapshot now =>
          match s.pick snapshot with
          | some q =>
              if q.id = id then
                some { s with
                  stmts := Function.update s.stmts w (.holding id now)
                  rowLock := Function.update s.rowLock id (some w) }
              else none
          | none => none
      | _ => none
  | .miss w =>
      match s.stmts w with
      | .started snapshot _ =>
          match s.pick snapshot with
          | some _ => none
          | none => some { s with stmts := Function.update s.stmts w .idle }
      | _ => none
  | .commit w =>
      match s.stmts w with
      | .holding id now =>
          some
            { queue := leaseRow s.queue id now
              stmts := Function.update s.stmts w .idle
              rowLock := Function.update s.rowLock id none }
      | _ => none
  | .abort w =>
      match s.stmts w with
      | .idle => none
      | .started _ _ => some { s with stmts := Function.update s.stmts w .idle }
      | .holding id _ =>
          some { s with
            stmts := Function.update s.stmts w .idle
            rowLock := Function.update s.rowLock id none }

def system : Transition.System State Act where
  init s := s = ⟨WorkQueue.empty, fun _ => .idle, fun _ => none⟩
  step := State.step

/-- At most one row of a chain is in flight. -/
def SerialWithinChain (queue : WorkQueue) : Prop :=
  ∀ q ∈ queue.rows, ∀ q' ∈ queue.rows, q.lockedAt.isSome → q'.lockedAt.isSome →
    q.item.chainId = q'.item.chainId → q = q'

/-- The row is leased, or about to be by an open statement. -/
def State.Busy (s : State) (q : QueueRow) : Prop :=
  q.lockedAt.isSome = true ∨ (s.rowLock q.id).isSome = true

/-- The snapshot shows the row as in flight. -/
def Shows (snapshot : WorkQueue) (q : QueueRow) : Prop :=
  ∃ p ∈ snapshot.rows, p.id = q.id ∧ p.lockedAt.isSome = true

/-- A pull locks a row only when its snapshot shows every row of the chain that is in flight by
then: no lease of the chain was still open when the snapshot was taken, or came after it. -/
def SnapshotCurrent (s : State) : Act → Prop
  | .lock w id => ∀ snapshot now, s.stmts w = .started snapshot now →
      ∀ q ∈ s.queue.rows, q.id = id → ∀ q' ∈ s.queue.rows,
        q'.item.chainId = q.item.chainId → s.Busy q' → Shows snapshot q'
  | _ => True

/-- The condition checked by evaluation, rows of the queue being finitely many. -/
def currentGuard (s : State) : Act → Bool
  | .lock w id =>
      match s.stmts w with
      | .started snapshot _ => s.queue.rows.all fun q => q.id != id || s.queue.rows.all fun q' =>
          q'.item.chainId != q.item.chainId || (q'.lockedAt.isNone && (s.rowLock q'.id).isNone) ||
            snapshot.rows.any fun p => p.id == q'.id && p.lockedAt.isSome
      | _ => true
  | _ => true

theorem currentGuard_sound (s : State) (act : Act) (h : currentGuard s act = true) :
    SnapshotCurrent s act := by
  cases act with
  | lock w id =>
      intro snapshot now hw q hq hid q' hq' hchain hbusy
      simp only [currentGuard, hw, List.all_eq_true, Bool.or_eq_true, bne_iff_ne] at h
      rcases (h q hq).resolve_left (not_not.mpr hid) q' hq' with (hne | hfree) | hshown
      · exact absurd hchain hne
      · obtain ⟨hlocked, hheld⟩ := Bool.and_eq_true_iff.mp hfree
        rcases hbusy with hb | hb
        · rw [Option.isNone_iff_eq_none.mp hlocked] at hb
          cases hb
        · rw [Option.isNone_iff_eq_none.mp hheld] at hb
          cases hb
      · obtain ⟨p, hp, hsame⟩ := List.any_eq_true.mp hshown
        obtain ⟨hpid, hplocked⟩ := Bool.and_eq_true_iff.mp hsame
        exact ⟨p, hp, eq_of_beq hpid, hplocked⟩
  | _ => trivial

theorem mem_leaseRow {queue : WorkQueue} {id now : Nat} {q' : QueueRow} :
    q' ∈ (leaseRow queue id now).rows ↔ ∃ q ∈ queue.rows, q' =
      if q.id = id then { q with lockedAt := some now, leaseSeq := q.leaseSeq + 1 } else q := by
  simp only [leaseRow, WorkQueue.updateRows, List.mem_map, eq_comm]

theorem later_leaseRow (queue : WorkQueue) (id now : Nat) :
    queue.Later (leaseRow queue id now) := by
  refine ⟨le_rfl, fun q' hq' => .inr ?_⟩
  obtain ⟨q, hq, rfl⟩ := mem_leaseRow.mp hq'
  refine ⟨q, hq, ?_⟩
  split
  · exact ⟨rfl, rfl, Nat.le_succ _⟩
  · exact ⟨rfl, rfl, le_rfl⟩

theorem exists_commit {s : State} {w id now : Nat} (h : s.stmts w = .holding id now) :
    ∃ t, s.step (.commit w) = some t ∧ t.queue = leaseRow s.queue id now ∧
      ∀ v, v ≠ w → t.stmts v = s.stmts v := by
  simp only [State.step, h]
  exact ⟨_, rfl, rfl, fun v hv => Function.update_of_ne hv ..⟩

/-- With nothing in between, the moments of a pull are the atomic one. -/
theorem exec_pull {s : State} {w now : Nat} {lease : Lease} {queue : WorkQueue}
    (hidle : s.stmts w = .idle) (hfree : ∀ id, s.rowLock id = none)
    (hpull : s.queue.pullAny now = some (lease, queue)) :
    ∃ t, Transition.exec system s [.start w now, .lock w lease.id, .commit w] = some t ∧
      t.queue = queue ∧ t.stmts = s.stmts ∧ t.rowLock = s.rowLock := by
  rw [WorkQueue.pullAny, Option.map_eq_some_iff] at hpull
  obtain ⟨ready, hready, heq⟩ := hpull
  cases heq
  have hpick : s.pick s.queue = some ready := by
    rw [← hready, State.pick, WorkQueue.nextReady]
    refine List.find?_congr fun q hq => ?_
    cases hlocked : q.lockedAt with
    | some at_ => simp [candidate, hlocked]
    | none =>
        have hlive : (s.queue.rows.any fun live => live.id == q.id && live.lockedAt.isNone) = true :=
          List.any_eq_true.mpr ⟨q, hq, by simp [hlocked]⟩
        rw [State.lockable, hfree, hlive, candidate, hlocked]
        simp
  obtain ⟨s₁, hstart, hstmts₁, hsame₁⟩ : ∃ s₁, s.step (.start w now) = some s₁ ∧
      s₁.stmts = Function.update s.stmts w (.started s.queue now) ∧
      (s₁.queue = s.queue ∧ s₁.rowLock = s.rowLock) := by
    simp only [State.step, hidle]
    exact ⟨_, rfl, rfl, rfl, rfl⟩
  obtain ⟨s₂, hlock, hstmts₂, hqueue₂, hlock₂⟩ : ∃ s₂, s₁.step (.lock w ready.id) = some s₂ ∧
      s₂.stmts = Function.update s₁.stmts w (.holding ready.id now) ∧ s₂.queue = s.queue ∧
      s₂.rowLock = Function.update s.rowLock ready.id (some w) := by
    have hpick₁ : s₁.pick s.queue = some ready := by
      rw [← hpick, State.pick, State.pick]
      simp only [State.lockable, hsame₁]
    simp only [State.step, hstmts₁, Function.update_self, hpick₁, if_true]
    exact ⟨_, rfl, rfl, hsame₁.1, congrArg (Function.update · ready.id (some w)) hsame₁.2⟩
  obtain ⟨t, hcommit, hqueue, hstmts, hrowLock⟩ : ∃ t, s₂.step (.commit w) = some t ∧
      t.queue = leaseRow s.queue ready.id now ∧ t.stmts = Function.update s₂.stmts w .idle ∧
      t.rowLock = Function.update s₂.rowLock ready.id none := by
    simp only [State.step, hstmts₂, Function.update_self]
    exact ⟨_, rfl, by rw [hqueue₂], rfl, rfl⟩
  refine ⟨t, ?_, hqueue, ?_, ?_⟩
  · calc Transition.exec system s [.start w now, .lock w ready.id, .commit w]
        = Transition.exec system s₁ [.lock w ready.id, .commit w] := Transition.exec_cons hstart _
      _ = Transition.exec system s₂ [.commit w] := Transition.exec_cons hlock _
      _ = some t := Transition.exec_cons hcommit []
  · rw [hstmts, hstmts₂, hstmts₁, Function.update_idem, Function.update_idem, ← hidle,
      Function.update_eq_self]
  · rw [hrowLock, hlock₂, Function.update_idem, ← hfree ready.id, Function.update_eq_self]

/-- The open statements and the row locks say the same, a held row is there and unlocked, snapshots
are of earlier queues, and no two busy rows are of one chain. -/
structure State.Sound (s : State) : Prop where
  holder : ∀ w id now, s.stmts w = .holding id now → s.rowLock id = some w
  held : ∀ id w, s.rowLock id = some w → ∃ now, s.stmts w = .holding id now
  there : ∀ id w, s.rowLock id = some w → ∃ q ∈ s.queue.rows, q.id = id ∧ q.lockedAt = none
  earlier : ∀ w snapshot now, s.stmts w = .started snapshot now → snapshot.Later s.queue
  serial : ∀ q ∈ s.queue.rows, ∀ q' ∈ s.queue.rows, s.Busy q → s.Busy q' →
    q.item.chainId = q'.item.chainId → q = q'

theorem State.Sound.serialWithinChain {s : State} (h : s.Sound) : SerialWithinChain s.queue :=
  fun q hq q' hq' hbusy hbusy' => h.serial q hq q' hq' (.inl hbusy) (.inl hbusy')

/-- Busy rows that were busy before keep their chains serial. -/
theorem serial_of_busy {s t : State} (hs : s.Sound)
    (hbusy : ∀ q' ∈ t.queue.rows, t.Busy q' →
      ∃ q ∈ s.queue.rows, q.id = q'.id ∧ q.item = q'.item ∧ s.Busy q) :
    ∀ q ∈ t.queue.rows, ∀ q' ∈ t.queue.rows, t.Busy q → t.Busy q' →
      q.item.chainId = q'.item.chainId → q = q' := by
  intro q hq q' hq' hb hb' hchain
  obtain ⟨p, hp, hid, hitem, hpb⟩ := hbusy q hq hb
  obtain ⟨p', hp', hid', hitem', hpb'⟩ := hbusy q' hq' hb'
  have heq : p = p' := hs.serial p hp p' hp' hpb hpb' (by rw [hitem, hitem', hchain])
  exact WorkQueue.eq_of_id hq hq' (by rw [← hid, ← hid', heq])

/-- A statement that ends, or that has not locked a row yet, holds none. -/
theorem State.Sound.stmt {s : State} (hs : s.Sound) {w : Nat}
    (hnone : ∀ id, s.rowLock id ≠ some w) {stmt : Stmt} (hstmt : ∀ id now, stmt ≠ .holding id now)
    (hearlier : ∀ snapshot now, stmt = .started snapshot now → snapshot.Later s.queue) :
    State.Sound { s with stmts := Function.update s.stmts w stmt } := by
  refine ⟨fun v id now hv => ?_, fun id v hlock => ?_, hs.there, fun v snapshot now hv => ?_,
    hs.serial⟩
  · by_cases hvw : v = w
    · subst hvw
      simp only [Function.update_self] at hv
      exact absurd hv (hstmt id now)
    · simp only [Function.update_of_ne hvw] at hv
      exact hs.holder v id now hv
  · obtain ⟨now, hv⟩ := hs.held id v hlock
    refine ⟨now, ?_⟩
    have hvw : v ≠ w := by
      rintro rfl
      exact hnone id hlock
    simp only [Function.update_of_ne hvw]
    exact hv
  · by_cases hvw : v = w
    · subst hvw
      simp only [Function.update_self] at hv
      exact hearlier snapshot now hv
    · simp only [Function.update_of_ne hvw] at hv
      exact hs.earlier v snapshot now hv

theorem State.Sound.not_holding {s : State} (hs : s.Sound) {w : Nat}
    (hstmt : ∀ id now, s.stmts w ≠ .holding id now) (id : Nat) : s.rowLock id ≠ some w := by
  intro hlock
  obtain ⟨now, hw⟩ := hs.held id w hlock
  exact hstmt id now hw

/-- The row a pull takes is of a chain with nothing in flight in its snapshot; it is in the live
queue, unlocked and held by nobody. -/
theorem of_pick {s : State} {snapshot : WorkQueue} {q : QueueRow}
    (h : s.pick snapshot = some q) :
    q ∈ snapshot.rows ∧ q.item.chainId ∉ snapshot.inFlight ∧
      ∃ live ∈ s.queue.rows, live.id = q.id ∧ live.lockedAt = none ∧ s.rowLock q.id = none := by
  have hprop := List.find?_some h
  simp only [candidate, State.lockable, Bool.and_eq_true, Option.isNone_iff_eq_none,
    List.any_eq_true, beq_iff_eq, decide_eq_true_eq] at hprop
  obtain ⟨⟨-, hidle⟩, hfree, live, hlive, hid, hnone⟩ := hprop
  exact ⟨List.mem_of_find?_eq_some h, hidle, live, hlive, hid, hnone, hfree⟩

/-- A live row has the item it had in the snapshot. -/
theorem item_eq_of_later {snapshot queue : WorkQueue} (h : snapshot.Later queue) {p q : QueueRow}
    (hp : p ∈ snapshot.rows) (hq : q ∈ queue.rows) (hid : p.id = q.id) : p.item = q.item := by
  rcases h.rows q hq with hnew | ⟨p', hp', hid', hitem, -⟩
  · have hold := snapshot.fresh p hp
    omega
  · rw [WorkQueue.eq_of_id hp hp' (hid.trans hid'.symm)]
    exact hitem

/-- What the snapshot shows of a chain is in flight there. -/
theorem mem_inFlight_of_shows {snapshot queue : WorkQueue} (h : snapshot.Later queue)
    {q : QueueRow} (hq : q ∈ queue.rows) (hshows : Shows snapshot q) :
    q.item.chainId ∈ snapshot.inFlight := by
  obtain ⟨p, hp, hid, hlocked⟩ := hshows
  rw [← item_eq_of_later h hp hq hid]
  exact List.mem_map.mpr ⟨p, List.mem_filter.mpr ⟨hp, hlocked⟩, rfl⟩

theorem exists_lock_step {s t : State} {w id : Nat} (h : s.step (.lock w id) = some t) :
    ∃ snapshot now q, s.stmts w = .started snapshot now ∧ s.pick snapshot = some q ∧ q.id = id ∧
      t = { s with
        stmts := Function.update s.stmts w (.holding id now)
        rowLock := Function.update s.rowLock id (some w) } := by
  rw [State.step] at h
  split at h
  · rename_i snapshot now hw
    split at h
    · rename_i q hpick
      split at h
      · rename_i hid
        cases h
        exact ⟨snapshot, now, q, hw, hpick, hid, rfl⟩
      · cases h
    · cases h
  · cases h

section Step

variable {s : State} (hs : s.Sound)

include hs

/-- A statement that does not lock rows: rows keep ids and items, none becomes busy, and the held
ones stay as they are. -/
theorem sound_of_queue {queue : WorkQueue}
    (hrows : ∀ q' ∈ queue.rows, q'.lockedAt.isSome = true ∨ (s.rowLock q'.id).isSome = true →
      ∃ q ∈ s.queue.rows, q.id = q'.id ∧ q.item = q'.item ∧ s.Busy q)
    (hthere : ∀ q ∈ s.queue.rows, q.lockedAt = none → (s.rowLock q.id).isSome = true →
      q ∈ queue.rows) (hlater : s.queue.Later queue) : State.Sound { s with queue := queue } := by
  refine ⟨hs.holder, hs.held, fun id w hlock => ?_,
    fun w snapshot now hw => (hs.earlier w snapshot now hw).trans hlater, serial_of_busy hs hrows⟩
  obtain ⟨q, hq, rfl, hnone⟩ := hs.there id w hlock
  have hheld : (s.rowLock q.id).isSome = true := Option.isSome_of_eq_some hlock
  exact ⟨q, hthere q hq hnone hheld, rfl, hnone⟩

theorem sound_push (item : WorkItem) : State.Sound { s with queue := s.queue.pushInTx item } := by
  refine sound_of_queue hs (fun q' hq' hbusy => ?_)
    (fun q hq _ _ => WorkQueue.mem_pushInTx.mpr (.inl hq)) (s.queue.later_pushInTx item)
  rcases WorkQueue.mem_pushInTx.mp hq' with hq' | ⟨rfl, -⟩
  · exact ⟨q', hq', rfl, rfl, hbusy⟩
  -- a fresh row is not held: held rows are there, and their ids are old
  · rcases hbusy with hlocked | hheld
    · cases hlocked
    · obtain ⟨w, hlock⟩ := Option.isSome_iff_exists.mp hheld
      obtain ⟨q, hq, hid, -⟩ := hs.there _ w hlock
      have hfresh := s.queue.fresh q hq
      simp only at hid
      omega

theorem sound_ack {id leaseSeq : Nat}
    (hwait : ((s.queue.rows.any fun q => q.id == id && q.leaseSeq == leaseSeq) &&
      (s.rowLock id).isSome) = false) :
    State.Sound { s with queue := s.queue.ack id leaseSeq } := by
  refine sound_of_queue hs (fun q' hq' hbusy => ⟨q', (WorkQueue.mem_ack.mp hq').1, rfl, rfl, hbusy⟩)
    (fun q hq _ hheld => WorkQueue.mem_ack.mpr ⟨hq, fun hnamed => ?_⟩)
    (s.queue.later_ack id leaseSeq)
  rw [Bool.and_eq_false_iff] at hwait
  rcases hwait with hnot | hnot
  · have hany : (s.queue.rows.any fun q => q.id == id && q.leaseSeq == leaseSeq) = true :=
      List.any_eq_true.mpr ⟨q, hq, by simp [hnamed]⟩
    rw [hany] at hnot
    cases hnot
  · rw [hnamed.1, hnot] at hheld
    cases hheld

theorem sound_reclaim (now olderThanSecs : Nat) :
    State.Sound { s with queue := s.queue.reclaimExpired now olderThanSecs } := by
  refine sound_of_queue hs (fun q' hq' hbusy => ?_) (fun q hq hnone _ => ?_)
    (s.queue.later_reclaimExpired now olderThanSecs)
  · obtain ⟨p, hp, ⟨rfl, -⟩ | ⟨rfl, -⟩⟩ := WorkQueue.mem_reclaimExpired.mp hq'
    · exact ⟨q', hp, rfl, rfl, hbusy⟩
    · rcases hbusy with hlocked | hheld
      · cases hlocked
      · exact ⟨p, hp, rfl, rfl, .inr hheld⟩
  · exact WorkQueue.mem_reclaimExpired.mpr ⟨q, hq, .inl ⟨rfl, by rw [hnone]; rfl⟩⟩

/-- The end of a statement that held a row. -/
theorem sound_release {w id now : Nat} (hw : s.stmts w = .holding id now) {queue : WorkQueue}
    (hrows : ∀ q' ∈ queue.rows, ∃ q ∈ s.queue.rows, q.id = q'.id ∧ q.item = q'.item ∧
      (q' = q ∨ q.id = id)) (hkept : ∀ q ∈ s.queue.rows, q.id ≠ id → q ∈ queue.rows)
    (hlater : s.queue.Later queue) :
    State.Sound ⟨queue, Function.update s.stmts w .idle, Function.update s.rowLock id none⟩ := by
  have hmine := hs.holder w id now hw
  have hold : ∀ i v, Function.update s.rowLock id none i = some v → i ≠ id ∧ s.rowLock i = some v := by
    intro i v hlock
    by_cases hi : i = id
    · subst hi
      rw [Function.update_self] at hlock
      cases hlock
    · rw [Function.update_of_ne hi] at hlock
      exact ⟨hi, hlock⟩
  refine ⟨fun v i m hv => ?_, fun i v hlock => ?_, fun i v hlock => ?_,
    fun v snapshot m hv => ?_, ?_⟩
  · by_cases hvw : v = w
    · subst hvw
      simp only [Function.update_self] at hv
      cases hv
    · simp only [Function.update_of_ne hvw] at hv
      have hlock := hs.holder v i m hv
      have hi : i ≠ id := by
        rintro rfl
        rw [hmine, Option.some.injEq] at hlock
        exact hvw hlock.symm
      simp only [Function.update_of_ne hi]
      exact hlock
  · obtain ⟨hi, hlock⟩ := hold i v hlock
    obtain ⟨m, hv⟩ := hs.held i v hlock
    have hvw : v ≠ w := by
      rintro rfl
      rw [hw] at hv
      cases hv
      exact hi rfl
    refine ⟨m, ?_⟩
    simp only [Function.update_of_ne hvw]
    exact hv
  · obtain ⟨hi, hlock⟩ := hold i v hlock
    obtain ⟨q, hq, rfl, hnone⟩ := hs.there i v hlock
    exact ⟨q, hkept q hq hi, rfl, hnone⟩
  · by_cases hvw : v = w
    · subst hvw
      simp only [Function.update_self] at hv
      cases hv
    · simp only [Function.update_of_ne hvw] at hv
      exact (hs.earlier v snapshot m hv).trans hlater
  · refine serial_of_busy hs fun q' hq' hbusy => ?_
    obtain ⟨q, hq, hid, hitem, rfl | hheld⟩ := hrows q' hq'
    · refine ⟨q', hq, rfl, rfl, ?_⟩
      rcases hbusy with hlocked | hlock
      · exact .inl hlocked
      · obtain ⟨v, hv⟩ := Option.isSome_iff_exists.mp hlock
        exact .inr (Option.isSome_of_eq_some (hold _ v hv).2)
    · exact ⟨q, hq, hid, hitem, .inr (by rw [hheld, hmine]; rfl)⟩

theorem sound_lock {w now : Nat} {snapshot : WorkQueue} {q : QueueRow}
    (hw : s.stmts w = .started snapshot now) (hpick : s.pick snapshot = some q)
    (hcurrent : SnapshotCurrent s (.lock w q.id)) :
    State.Sound { s with
      stmts := Function.update s.stmts w (.holding q.id now)
      rowLock := Function.update s.rowLock q.id (some w) } := by
  obtain ⟨hq, hidle, live, hlive, hid, hnone, hfree⟩ := of_pick hpick
  have hearlier := hs.earlier w snapshot now hw
  have hnothing := hs.not_holding (w := w) (by rw [hw]; exact nofun)
  refine ⟨fun v i m hv => ?_, fun i v hlock => ?_, fun i v hlock => ?_,
    fun v snapshot' m hv => ?_, ?_⟩
  · by_cases hvw : v = w
    · subst hvw
      simp only [Function.update_self] at hv ⊢
      cases hv
      simp
    · simp only [Function.update_of_ne hvw] at hv
      have hlock := hs.holder v i m hv
      have hi : i ≠ q.id := by
        rintro rfl
        rw [hfree] at hlock
        cases hlock
      simp only [Function.update_of_ne hi]
      exact hlock
  · by_cases hi : i = q.id
    · subst hi
      simp only [Function.update_self, Option.some.injEq] at hlock
      subst hlock
      exact ⟨now, by simp⟩
    · simp only [Function.update_of_ne hi] at hlock
      have hvw : v ≠ w := by
        rintro rfl
        exact hnothing i hlock
      obtain ⟨m, hv⟩ := hs.held i v hlock
      refine ⟨m, ?_⟩
      simp only [Function.update_of_ne hvw]
      exact hv
  · by_cases hi : i = q.id
    · exact ⟨live, hlive, hid.trans hi.symm, hnone⟩
    · simp only [Function.update_of_ne hi] at hlock
      exact hs.there i v hlock
  · by_cases hvw : v = w
    · subst hvw
      simp only [Function.update_self] at hv
      cases hv
    · simp only [Function.update_of_ne hvw] at hv
      exact hs.earlier v snapshot' m hv
  · have hbusy : ∀ p ∈ s.queue.rows, State.Busy { s with
        stmts := Function.update s.stmts w (.holding q.id now)
        rowLock := Function.update s.rowLock q.id (some w) } p → p = live ∨ s.Busy p := by
      intro p hp hb
      by_cases hpid : p.id = q.id
      · exact .inl (WorkQueue.eq_of_id hp hlive (hpid.trans hid.symm))
      · right
        simp only [State.Busy, Function.update_of_ne hpid] at hb
        exact hb
    -- a busy row of the chain would be in flight in the snapshot, whose candidate the picked row is
    have hnobody : ∀ p ∈ s.queue.rows, p.item.chainId = live.item.chainId → ¬s.Busy p := by
      intro p hp hchain hb
      have hflight := mem_inFlight_of_shows hearlier hp
        (hcurrent snapshot now hw live hlive hid p hp hchain hb)
      rw [hchain, ← item_eq_of_later hearlier hq hlive hid.symm] at hflight
      exact hidle hflight
    intro p hp p' hp' hb hb' hchain
    rcases hbusy p hp hb with rfl | hb
    · rcases hbusy p' hp' hb' with rfl | hb'
      · rfl
      · exact absurd hb' (hnobody p' hp' hchain.symm)
    · rcases hbusy p' hp' hb' with rfl | hb'
      · exact absurd hb (hnobody p hp hchain)
      · exact hs.serial p hp p' hp' hb hb' hchain

theorem sound_commit {w id now : Nat} (hw : s.stmts w = .holding id now) :
    State.Sound ⟨leaseRow s.queue id now, Function.update s.stmts w .idle,
      Function.update s.rowLock id none⟩ := by
  refine sound_release hs hw (fun q' hq' => ?_)
    (fun q hq hne => mem_leaseRow.mpr ⟨q, hq, (if_neg hne).symm⟩) (later_leaseRow s.queue id now)
  obtain ⟨q, hq, rfl⟩ := mem_leaseRow.mp hq'
  by_cases hid : q.id = id
  · rw [if_pos hid]
    exact ⟨q, hq, rfl, rfl, .inr hid⟩
  · rw [if_neg hid]
    exact ⟨q, hq, rfl, rfl, .inl rfl⟩

theorem sound_step {act : Act} (hact : SnapshotCurrent s act) {t : State}
    (h : s.step act = some t) : t.Sound := by
  cases act with
  | push item =>
      cases h
      exact sound_push hs item
  | ack id leaseSeq =>
      rw [State.step] at h
      split at h
      · cases h
      · rename_i hwait
        cases h
        exact sound_ack hs (Bool.eq_false_iff.mpr hwait)
  | reclaim now olderThanSecs =>
      cases h
      exact sound_reclaim hs now olderThanSecs
  | start w now =>
      rw [State.step] at h
      split at h
      · rename_i hidle
        cases h
        refine hs.stmt (hs.not_holding (by rw [hidle]; exact nofun)) nofun ?_
        rintro _ _ ⟨⟩
        exact WorkQueue.Later.refl _
      · cases h
  | lock w id =>
      obtain ⟨snapshot, now, q, hw, hpick, rfl, rfl⟩ := exists_lock_step h
      exact sound_lock hs hw hpick hact
  | miss w =>
      rw [State.step] at h
      split at h
      · rename_i snapshot now hw
        split at h
        · cases h
        · cases h
          exact hs.stmt (hs.not_holding (by rw [hw]; exact nofun)) nofun nofun
      · cases h
  | commit w =>
      rw [State.step] at h
      split at h
      · rename_i id now hw
        cases h
        exact sound_commit hs hw
      · cases h
  | abort w =>
      rw [State.step] at h
      split at h
      · cases h
      · rename_i snapshot now hw
        cases h
        exact hs.stmt (hs.not_holding (by rw [hw]; exact nofun)) nofun nofun
      · rename_i id now hw
        cases h
        exact sound_release hs hw (fun q hq => ⟨q, hq, rfl, rfl, .inl rfl⟩) (fun q hq _ => hq)
          (WorkQueue.Later.refl _)

end Step

theorem sound_of_reachable {s : State} (h : Transition.Reachable system SnapshotCurrent s) :
    s.Sound := by
  refine h.invariant State.Sound ?_ fun s act t hs hact hstep => sound_step hs hact hstep
  rintro s rfl
  exact ⟨nofun, nofun, nofun, nofun, nofun⟩

/-- In every run whose pulls lock rows only while their snapshots show all that is in flight of the
row's chain, a chain has at most one row in flight in every state. -/
theorem serial_of_current_snapshots {s : State}
    (h : Transition.Reachable system SnapshotCurrent s) : SerialWithinChain s.queue :=
  (sound_of_reachable h).serialWithinChain

/-- The row of an id is in flight. -/
def InFlight (queue : WorkQueue) (q : QueueRow) : Prop :=
  ∃ q' ∈ queue.rows, q'.id = q.id ∧ q'.item = q.item ∧ q'.lockedAt.isSome = true

theorem inFlight_leaseRow {queue : WorkQueue} {q : QueueRow} (hq : q ∈ queue.rows) (now : Nat) :
    InFlight (leaseRow queue q.id now) q :=
  ⟨_, mem_leaseRow.mpr ⟨q, hq, (if_pos rfl).symm⟩, rfl, rfl, rfl⟩

theorem InFlight.leaseRow {queue : WorkQueue} {q : QueueRow} (h : InFlight queue q) {id : Nat}
    (hne : q.id ≠ id) (now : Nat) : InFlight (leaseRow queue id now) q := by
  obtain ⟨q', hq', hid, hitem, hlocked⟩ := h
  exact ⟨q', mem_leaseRow.mpr ⟨q', hq', (if_neg (hid ▸ hne)).symm⟩, hid, hitem, hlocked⟩

theorem not_serial_of_inFlight {queue : WorkQueue} {q q' : QueueRow} (hq : InFlight queue q)
    (hq' : InFlight queue q') (hne : q.id ≠ q'.id) (hchain : q.item.chainId = q'.item.chainId) :
    ¬SerialWithinChain queue := by
  obtain ⟨p, hp, hid, hitem, hlocked⟩ := hq
  obtain ⟨p', hp', hid', hitem', hlocked'⟩ := hq'
  intro hserial
  have heq := hserial p hp p' hp' hlocked hlocked' (by rw [hitem, hitem', hchain])
  exact hne (by rw [← hid, ← hid', heq])

/-- The condition is what the sub-select misses: where a pull breaks it, committing the open pulls
leaves two rows of the chain in flight. -/
theorem exists_not_serial_of_stale {s t : State} (hs : s.Sound) {w id : Nat}
    (h : s.step (.lock w id) = some t) (hstale : ¬SnapshotCurrent s (.lock w id)) :
    ∃ acts u, Transition.exec system t acts = some u ∧ ¬SerialWithinChain u.queue := by
  obtain ⟨snapshot, now, q, hw, hpick, rfl, rfl⟩ := exists_lock_step h
  obtain ⟨-, -, live, hlive, hid, hnone, hfree⟩ := of_pick hpick
  simp only [SnapshotCurrent, not_forall] at hstale
  obtain ⟨-, -, -, p, hp, hpid, other, hother, hchain, hbusy, -⟩ := hstale
  rw [WorkQueue.eq_of_id hp hlive (hpid.trans hid.symm)] at hchain
  have hne : other.id ≠ live.id := by
    intro heq
    rw [WorkQueue.eq_of_id hother hlive heq] at hbusy
    rcases hbusy with hlocked | hheld
    · rw [hnone] at hlocked
      cases hlocked
    · rw [hid, hfree] at hheld
      cases hheld
  rw [← hid]
  rcases hbusy with hlocked | hheld
  · obtain ⟨u, hcommit, hqueue, -⟩ := exists_commit (s := { s with
      stmts := Function.update s.stmts w (.holding live.id now)
      rowLock := Function.update s.rowLock live.id (some w) }) (Function.update_self ..)
    refine ⟨[.commit w], u, Transition.exec_cons hcommit [], ?_⟩
    rw [hqueue]
    have hflight : InFlight s.queue other := ⟨other, hother, rfl, rfl, hlocked⟩
    exact not_serial_of_inFlight (hflight.leaseRow hne now) (inFlight_leaseRow hlive now) hne hchain
  · obtain ⟨v, hlock⟩ := Option.isSome_iff_exists.mp hheld
    obtain ⟨m, hv⟩ := hs.held _ v hlock
    have hvw : v ≠ w := by
      rintro rfl
      rw [hw] at hv
      cases hv
    obtain ⟨t, hcommit, hqueue, hstmts⟩ := exists_commit (s := { s with
      stmts := Function.update s.stmts w (.holding live.id now)
      rowLock := Function.update s.rowLock live.id (some w) })
      ((Function.update_of_ne hvw ..).trans hv)
    obtain ⟨u, hcommit', hqueue', -⟩ := exists_commit (s := t)
      ((hstmts w (Ne.symm hvw)).trans (Function.update_self ..))
    refine ⟨[.commit v, .commit w], u, ?_, ?_⟩
    · exact (Transition.exec_cons hcommit _).trans (Transition.exec_cons hcommit' [])
    · rw [hqueue', hqueue]
      have hrow : live ∈ (leaseRow s.queue other.id m).rows :=
        mem_leaseRow.mpr ⟨live, hlive, (if_neg (Ne.symm hne)).symm⟩
      exact not_serial_of_inFlight ((inFlight_leaseRow hother m).leaseRow hne now)
        (inFlight_leaseRow hrow now) hne hchain

def firstRange : WorkItem := ⟨1, 1, 4, .backfill, ⟨0⟩⟩

def secondRange : WorkItem := ⟨1, 5, 9, .backfill, ⟨0⟩⟩

/-- Two pulls, one after the other: the second finds the chain in flight. -/
theorem serial_two_pulls :
    ∃ s : State, s.queue.rows = [⟨1, firstRange, some 7, 1⟩, ⟨2, secondRange, none, 0⟩] ∧
      SerialWithinChain s.queue := by
  obtain ⟨s, hreach, hrows⟩ := Transition.Reachable.exists_observed_where currentGuard_sound
    (.init rfl : Transition.Reachable system SnapshotCurrent _)
    [.push firstRange, .push secondRange, .start 0 7, .lock 0 1, .commit 0, .start 1 8, .miss 1]
    (fun s => s.queue.rows)
    (b := [⟨1, firstRange, some 7, 1⟩, ⟨2, secondRange, none, 0⟩]) (by decide +kernel)
  exact ⟨s, hrows, serial_of_current_snapshots hreach⟩

/-- Two pulls that overlap: each sees the chain idle, the second skips the locked row and takes the
next one of the same chain. -/
theorem not_serial_overlapping_pulls :
    ¬∀ s : State, Transition.Reachable system Transition.anyStep s → SerialWithinChain s.queue := by
  intro hevery
  obtain ⟨s, hreach, hrows⟩ := Transition.Reachable.exists_observed
    (.init rfl : Transition.Reachable system Transition.anyStep _)
    [.push firstRange, .push secondRange, .start 0 7, .lock 0 1, .start 1 7, .lock 1 2, .commit 0,
      .commit 1] (fun _ _ _ => trivial) (fun s => s.queue.rows)
    (b := [⟨1, firstRange, some 7, 1⟩, ⟨2, secondRange, some 7, 1⟩]) (by decide +kernel)
  have heq := hevery s hreach ⟨1, firstRange, some 7, 1⟩ (by simp [hrows])
    ⟨2, secondRange, some 7, 1⟩ (by simp [hrows]) rfl rfl rfl
  cases heq

end Topic0.ReadCommitted
