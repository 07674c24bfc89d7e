import Topic0.TipLoop

/-! What the stream lets the loop skip. The zero-RPC branch moves the cursor below the first
pending height, so it is sound as long as every matching block the loop has not fetched is pending,
still in the stream's buffer, or later than anything the stream has pushed. A sweep ends at
`head - confirmations` though, and the stream begins above the head it was opened at: what lies
between the two is covered by neither. -/

namespace Topic0.Tip

open Pipeline Transition

variable {layout : String → PkColumns} {cfg : Config} {matched : Nat → Bool}

/-- The steps of the loop and of its environment, one constructor each. -/
inductive State.Step (cfg : Config) (matched : Nat → Bool) (s : State layout) :
    Act → State layout → Prop
  | grow (hpushed : pushedHead matched s = true) :
      State.Step cfg matched s .grow { s with head := s.head + 1 }
  | push {stream : Stream} (hsub : s.tip.sub = some stream) (hup : stream.up = true)
      (hopened : stream.openedAt < s.head) :
      State.Step cfg matched s .push { s with tip := { s.tip with sub := some { stream with
        buffer := stream.buffer ++ [s.head]
        last := s.head } } }
  | streamDown {stream : Stream} (hsub : s.tip.sub = some stream) :
      State.Step cfg matched s .streamDown
        { s with tip := { s.tip with sub := some { stream with up := false } } }
  | subscribe {next : Nat} {accepted : Bool} (hpc : s.pc = .top next) :
      State.Step cfg matched s (.subscribe accepted)
        { s with
          tip := s.tip.ensureSubscribed
            (if accepted then some ⟨s.head, [], s.head, true⟩ else none)
          pc := .ready next }
  | fetch {next : Nat} (hpc : s.pc = .ready next) (target : Nat) :
      State.Step cfg matched s .poll
        { s with
          tip := s.tip.takeReorgSignal.2
          pc := .fetching (s.head - cfg.confirmations) (Drive.begin cfg next target) }
  | checkpoint {next : Nat} (hpc : s.pc = .ready next) (hpoll : s.tip.shouldPollHead = true)
      (hfetch : s.tip.mustFetch (s.head - cfg.confirmations) = false) :
      State.Step cfg matched s .poll
        { s with
          store := CursorRepo.advanceInTx s.store cfg.chain (s.head - cfg.confirmations) ⟨[]⟩
          tip := s.tip.takeReorgSignal.2
          pc := .waiting (s.head - cfg.confirmations + 1) }
  | skip {next : Nat} (hpc : s.pc = .ready next) :
      State.Step cfg matched s .poll
        { s with tip := s.tip.takeReorgSignal.2, pc := .waiting next }
  | drive {safe : Nat} {d : Drive} {act : DriveAct} {w : Work layout}
      (hpc : s.pc = .fetching safe d) (hstep : Work.Step cfg ⟨s.store, s.committed, d⟩ act w) :
      State.Step cfg matched s (.drive act)
        { s with store := w.store, committed := w.committed, pc := .fetching safe w.drive }
  | shutdown {safe : Nat} {d : Drive} (hpc : s.pc = .fetching safe d) :
      State.Step cfg matched s .finish { s with pc := .stopped }
  | finish {safe : Nat} {d : Drive} (hpc : s.pc = .fetching safe d) (hrun : d.shutdown = false) :
      State.Step cfg matched s .finish
        { s with
          tip := TipState.clearThrough { s.tip with reconcile := decide (d.resume ≤ safe) }
            (d.resume - 1)
          pc := if d.resume ≤ safe then .top d.resume else .waiting d.resume }
  | event {next : Nat} {stream : Stream} {height : Nat} {rest : List Nat}
      (hpc : s.pc = .waiting next) (hsub : s.tip.sub = some stream)
      (hbuffer : stream.buffer = height :: rest) :
      State.Step cfg matched s .event
        { s with
          tip := { s.tip with
            sub := some { stream with buffer := rest }
            pending := insert height s.tip.pending }
          pc := .top next }
  | lost {next : Nat} {act : Act} (hpc : s.pc = .waiting next) :
      State.Step cfg matched s act { s with tip := { s.tip with sub := none }, pc := .top next }
  | timer {next : Nat} (hpc : s.pc = .waiting next) :
      State.Step cfg matched s .timer { s with pc := .top next }
  | cancel : State.Step cfg matched s .cancel { s with pc := .stopped }

theorem State.step_cases {s s' : State layout} {act : Act}
    (h : s.step cfg matched act = some s') : State.Step cfg matched s act s' := by
  cases act with
  | grow =>
      rw [State.step] at h
      split at h
      · rename_i hpushed
        cases h
        exact .grow hpushed
      · cases h
  | push =>
      rw [State.step] at h
      split at h
      · rename_i stream hsub
        split at h
        · rename_i hguard
          cases h
          exact .push hsub hguard.1 hguard.2.1
        · cases h
      · cases h
  | streamDown =>
      rw [State.step, Option.map_eq_some_iff] at h
      obtain ⟨stream, hsub, rfl⟩ := h
      exact .streamDown hsub
  | subscribe accepted =>
      rw [State.step] at h
      split at h
      · rename_i next hpc
        cases h
        exact .subscribe hpc
      · cases h
  | poll =>
      rw [State.step] at h
      split at h
      · rename_i next hpc
        simp only at h
        split at h
        · rename_i hpoll
          split at h
          · cases h
            exact .fetch hpc _
          · rename_i hfetch
            rw [Bool.not_eq_true] at hfetch
            cases h
            rw [hfetch]
            exact .checkpoint hpc hpoll.1 hfetch
        · cases h
          exact .skip hpc
      · cases h
  | drive act =>
      rw [State.step] at h
      split at h
      · rename_i safe d hpc
        rw [Option.map_eq_some_iff] at h
        obtain ⟨w, hw, rfl⟩ := h
        exact .drive hpc (Work.step_cases hw)
      · cases h
  | finish =>
      rw [State.step] at h
      split at h
      · rename_i safe d hpc
        split at h
        · split at h
          · cases h
            exact .shutdown hpc
          · rename_i hrun
            rw [Bool.not_eq_true] at hrun
            cases h
            exact .finish hpc hrun
        · cases h
      · cases h
  | event =>
      rw [State.step] at h
      split at h
      · rename_i next stream hpc hsub
        split at h
        · rename_i height rest hbuffer
          cases h
          exact .event hpc hsub hbuffer
        · split at h
          · cases h
          · cases h
            exact .lost hpc
      · cases h
  | streamError =>
      rw [State.step] at h
      split at h
      · rename_i next stream hpc hsub
        cases h
        exact .lost hpc
      · cases h
  | timer =>
      rw [State.step] at h
      split at h
      · rename_i next hpc
        cases h
        exact .timer hpc
      · cases h
  | cancel =>
      rw [State.step] at h
      split at h
      · cases h
        exact .cancel
      · cases h
        exact .cancel
      · cases h

/-- What a stream has pushed so far, against what the loop has read and committed. -/
structure Stream.Ok (need : Nat → Prop) (head : Nat) (pending : Finset Nat) (committed : List Range)
    (stream : Stream) : Prop where
  opened_le : stream.openedAt ≤ stream.last
  last_le : stream.last ≤ head
  sorted : stream.buffer.Pairwise (· ≤ ·)
  buffer_le : ∀ q ∈ stream.buffer, q ≤ stream.last
  pending_le : ∀ p ∈ pending, p ≤ stream.last
  pending_buffer : ∀ p ∈ pending, ∀ q ∈ stream.buffer, p ≤ q
  /-- Everything it has pushed for is pending, unread or committed. -/
  seen : ∀ b, need b → stream.openedAt < b → b ≤ stream.last →
    b ∈ pending ∨ b ∈ stream.buffer ∨ Covered committed b
  /-- While up, it has pushed for everything below the head. -/
  live : stream.up = true → ∀ b, need b → stream.openedAt < b → b < head → b ≤ stream.last

/-- The blocks no push can still announce before a pending height: up to the head the held stream
was opened at, or up to the last pending height when there is no stream. -/
def TipState.Unannounced (t : TipState) (b : Nat) : Prop :=
  match t.sub with
  | some stream => b ≤ stream.openedAt
  | none => ∃ p ∈ t.pending, b ≤ p

/-- The loop's own progress. -/
def Pc.GapFree (pc : Pc) (need : Nat → Prop) (committed : List Range) : Prop :=
  match pc with
  | .top next | .ready next | .waiting next => CoveredTo committed need next
  | .fetching _ d => d.GapFree need committed
  | .stopped => True

structure State.Inv (cfg : Config) (need : Nat → Prop) (s : State layout) : Prop where
  cursor : CursorCovered cfg need s.store s.committed
  pc : s.pc.GapFree need s.committed
  pending_le : ∀ p ∈ s.tip.pending, p ≤ s.head
  stream : ∀ stream, s.tip.sub = some stream →
    stream.Ok need s.head s.tip.pending s.committed
  /-- Once the stream is trusted, nothing it cannot announce is still missing. -/
  trusted : s.tip.reconcile = false → ∀ b, need b → s.tip.Unannounced b →
    b ∈ s.tip.pending ∨ Covered s.committed b

variable {need : Nat → Prop}

theorem Stream.ok_fresh {head : Nat} {pending : Finset Nat} {committed : List Range}
    (hpending : ∀ p ∈ pending, p ≤ head) :
    Stream.Ok need head pending committed ⟨head, [], head, true⟩ where
  opened_le := le_rfl
  last_le := le_rfl
  sorted := List.Pairwise.nil
  buffer_le := by simp
  pending_le := hpending
  pending_buffer := by simp
  seen b _ hgt hle := absurd hle (Nat.not_le.mpr hgt)
  live _ b _ hgt hlt := absurd hlt (Nat.not_lt.mpr (Nat.le_of_lt hgt))

theorem Stream.Ok.grow {head : Nat} {pending : Finset Nat} {committed : List Range}
    {stream : Stream} (h : stream.Ok need head pending committed)
    (hhead : stream.up = true → need head → stream.openedAt < head → head ≤ stream.last) :
    stream.Ok need (head + 1) pending committed where
  opened_le := h.opened_le
  last_le := Nat.le_succ_of_le h.last_le
  sorted := h.sorted
  buffer_le := h.buffer_le
  pending_le := h.pending_le
  pending_buffer := h.pending_buffer
  seen := h.seen
  live hup b hneed hgt hlt := by
    by_cases heq : b = head
    · subst heq
      exact hhead hup hneed hgt
    · exact h.live hup b hneed hgt (by omega)

theorem Stream.Ok.push {head : Nat} {pending : Finset Nat} {committed : List Range}
    {stream : Stream} (h : stream.Ok need head pending committed) (hup : stream.up = true)
    (hopened : stream.openedAt < head) :
    Stream.Ok need head pending committed
      { stream with buffer := stream.buffer ++ [head], last := head } where
  opened_le := Nat.le_of_lt hopened
  last_le := le_rfl
  sorted := by
    refine List.pairwise_append.mpr ⟨h.sorted, List.pairwise_singleton _ _, fun q hq x hx => ?_⟩
    rw [List.mem_singleton.mp hx]
    exact (h.buffer_le q hq).trans h.last_le
  buffer_le q hq := by
    rcases List.mem_append.mp hq with hq | hq
    · exact (h.buffer_le q hq).trans h.last_le
    · exact (List.mem_singleton.mp hq).le
  pending_le p hp := (h.pending_le p hp).trans h.last_le
  pending_buffer p hp q hq := by
    rcases List.mem_append.mp hq with hq | hq
    · exact h.pending_buffer p hp q hq
    · rw [List.mem_singleton.mp hq]
      exact (h.pending_le p hp).trans h.last_le
  seen b hneed hgt hle := by
    simp only at hgt hle
    by_cases heq : b = head
    · exact .inr (.inl (by simp [heq]))
    · have hlast : b ≤ stream.last := h.live hup b hneed hgt (by omega)
      rcases h.seen b hneed hgt hlast with hp | hq | hc
      · exact .inl hp
      · exact .inr (.inl (List.mem_append_left _ hq))
      · exact .inr (.inr hc)
  live _ b _ _ hlt := Nat.le_of_lt hlt

/-- Reading the next pushed height moves it from the buffer to the pending ones. -/
theorem Stream.Ok.read {head height : Nat} {rest : List Nat} {pending : Finset Nat}
    {committed : List Range} {stream : Stream} (h : stream.Ok need head pending committed)
    (hbuffer : stream.buffer = height :: rest) :
    Stream.Ok need head (insert height pending) committed { stream with buffer := rest } := by
  have hsorted := h.sorted
  rw [hbuffer, List.pairwise_cons] at hsorted
  have hrest : ∀ q ∈ rest, q ∈ stream.buffer := fun q hq => hbuffer ▸ List.mem_cons_of_mem _ hq
  have hheight : height ∈ stream.buffer := hbuffer ▸ List.mem_cons_self
  refine ⟨h.opened_le, h.last_le, hsorted.2, fun q hq => h.buffer_le q (hrest q hq), ?_, ?_, ?_,
    h.live⟩
  · intro p hp
    rcases Finset.mem_insert.mp hp with rfl | hp
    · exact h.buffer_le p hheight
    · exact h.pending_le p hp
  · intro p hp q hq
    rcases Finset.mem_insert.mp hp with rfl | hp
    · exact hsorted.1 q hq
    · exact h.pending_buffer p hp q (hrest q hq)
  · intro b hneed hgt hle
    rcases h.seen b hneed hgt hle with hp | hq | hc
    · exact .inl (Finset.mem_insert_of_mem hp)
    · rw [hbuffer] at hq
      rcases List.mem_cons.mp hq with rfl | hq
      · exact .inl (Finset.mem_insert_self _ _)
      · exact .inr (.inl hq)
    · exact .inr (.inr hc)

/-- Committing more, and dropping pending heights that are committed, keeps a stream in order. -/
theorem Stream.Ok.settle {head : Nat} {pending pending' : Finset Nat}
    {committed committed' : List Range} {stream : Stream}
    (h : stream.Ok need head pending committed) (hsub : pending' ⊆ pending)
    (hcovered : ∀ b, Covered committed b → Covered committed' b)
    (hdropped : ∀ b, need b → b ∈ pending → b ∈ pending' ∨ Covered committed' b) :
    stream.Ok need head pending' committed' where
  opened_le := h.opened_le
  last_le := h.last_le
  sorted := h.sorted
  buffer_le := h.buffer_le
  pending_le p hp := h.pending_le p (hsub hp)
  pending_buffer p hp := h.pending_buffer p (hsub hp)
  seen b hneed hgt hle := by
    rcases h.seen b hneed hgt hle with hp | hq | hc
    · rcases hdropped b hneed hp with hp | hc
      · exact .inl hp
      · exact .inr (.inr hc)
    · exact .inr (.inl hq)
    · exact .inr (.inr (hcovered b hc))
  live := h.live

theorem TipState.unannounced_some {t : TipState} {stream : Stream} (hsub : t.sub = some stream)
    {b : Nat} : t.Unannounced b ↔ b ≤ stream.openedAt := by
  rw [TipState.Unannounced, hsub]

theorem TipState.unannounced_none {t : TipState} (hsub : t.sub = none) {b : Nat} :
    t.Unannounced b ↔ ∃ p ∈ t.pending, b ≤ p := by
  rw [TipState.Unannounced, hsub]

/-- Below a pending height every needed block is pending or committed. -/
theorem State.Inv.below_pending {s : State layout} (h : s.Inv cfg need)
    (htrust : s.tip.reconcile = false) {b p : Nat} (hneed : need b) (hp : p ∈ s.tip.pending)
    (hle : b ≤ p) : b ∈ s.tip.pending ∨ Covered s.committed b := by
  cases hsub : s.tip.sub with
  | none => exact h.trusted htrust b hneed ((TipState.unannounced_none hsub).mpr ⟨p, hp, hle⟩)
  | some stream =>
      have hok := h.stream stream hsub
      by_cases hopened : b ≤ stream.openedAt
      · exact h.trusted htrust b hneed ((TipState.unannounced_some hsub).mpr hopened)
      · rcases hok.seen b hneed (Nat.not_le.mp hopened) (hle.trans (hok.pending_le p hp)) with
          hb | hb | hb
        · exact .inl hb
        · -- the buffer comes after the pending heights
          have heq : b = p := Nat.le_antisymm hle (hok.pending_buffer p hp b hb)
          exact .inl (heq ▸ hp)
        · exact .inr hb

/-- The zero-RPC branch passes no block that is still missing. -/
theorem State.Inv.coveredTo_checkpoint {s : State layout} (h : s.Inv cfg need) {safe : Nat}
    (hpoll : s.tip.shouldPollHead = true) (hfetch : s.tip.mustFetch safe = false) :
    CoveredTo s.committed need (safe + 1) := by
  simp only [TipState.mustFetch, Bool.or_eq_false_iff, Bool.not_eq_eq_eq_not, Bool.not_false,
    decide_eq_false_iff_not, not_exists, not_and, not_le] at hfetch
  obtain ⟨⟨hws, htrust⟩, hpending⟩ := hfetch
  simp only [TipState.shouldPollHead, hws, htrust, Bool.not_true, Bool.or_false, Bool.false_or,
    decide_eq_true_eq] at hpoll
  obtain ⟨p, hp⟩ := Finset.nonempty_iff_ne_empty.mpr hpoll
  intro b hneed hb
  rcases h.below_pending htrust hneed hp (by have := hpending p hp; omega) with hmem | hcovered
  · exact absurd (hpending b hmem) (by omega)
  · exact hcovered

theorem le_last_of_pushedHead {s : State layout} (h : pushedHead matched s = true)
    {stream : Stream} (hsub : s.tip.sub = some stream) (hup : stream.up = true)
    (hhead : matched s.head = true) (hopened : stream.openedAt < s.head) :
    s.head ≤ stream.last := by
  simp only [pushedHead, hsub, Option.all_some, hup, hhead, Bool.not_true, Bool.false_or,
    Bool.or_false, Bool.or_eq_true, decide_eq_true_eq] at h
  omega

/-- Clearing the pending heights below a covered block drops only committed ones. -/
theorem mem_clearThrough_or_covered (hpos : ∀ b, need b → 0 < b) {t : TipState} {next : Nat}
    {committed : List Range} (hcovered : CoveredTo committed need next) {b : Nat} (hneed : need b)
    (hb : b ∈ t.pending) : b ∈ (t.clearThrough (next - 1)).pending ∨ Covered committed b := by
  by_cases hlt : next - 1 < b
  · exact .inl (Finset.mem_filter.mpr ⟨hb, hlt⟩)
  · have := hpos b hneed
    exact .inr (hcovered b hneed (by omega))

theorem TipState.unannounced_of_clearThrough {t : TipState} {target b : Nat}
    (h : (t.clearThrough target).Unannounced b) : t.Unannounced b := by
  cases hsub : t.sub with
  | some stream =>
      rw [TipState.unannounced_some hsub]
      exact (TipState.unannounced_some (t := t.clearThrough target) hsub).mp h
  | none =>
      rw [TipState.unannounced_none hsub]
      obtain ⟨p, hp, hle⟩ := (TipState.unannounced_none (t := t.clearThrough target) hsub).mp h
      exact ⟨p, (Finset.mem_filter.mp hp).1, hle⟩

theorem Work.covered_step {w w' : Work layout} {act : DriveAct} (h : Work.Step cfg w act w')
    {b : Nat} (hb : Covered w.committed b) : Covered w'.committed b := by
  cases h with
  | complete hplanned => exact hb
  | stop hbusy => exact hb
  | commit hchannel hdue hcommit => exact hb.cons _
  | advance hdue => exact hb

/-- A sweep that reaches the safe tip finds every matching block above it that the stream cannot
announce already pending. -/
def SweepsMeetStream (matched : Nat → Bool) (s : State layout) : Act → Prop
  | .finish => ∀ safe d, s.pc = .fetching safe d → d.shutdown = false → safe < d.resume →
      ∀ b, matched b = true → safe < b → s.tip.Unannounced b → b ∈ s.tip.pending
  | _ => True

/-- A new stream has pushed for nothing yet, and makes a sweep due. -/
theorem State.Inv.subscribe {s : State layout} (hinv : s.Inv cfg need) {next : Nat}
    (hpc : s.pc = .top next) (accepted : Bool) :
    State.Inv cfg need { s with
      tip := s.tip.ensureSubscribed (if accepted then some ⟨s.head, [], s.head, true⟩ else none)
      pc := .ready next } := by
  have hgap := hinv.pc
  rw [hpc] at hgap
  simp only [TipState.ensureSubscribed]
  split
  · exact ⟨hinv.cursor, hgap, hinv.pending_le, hinv.stream, hinv.trusted⟩
  · cases accepted with
    | true =>
        refine ⟨hinv.cursor, hgap, hinv.pending_le, fun stream hsub => ?_, by simp⟩
        cases hsub
        exact Stream.ok_fresh hinv.pending_le
    | false => exact ⟨hinv.cursor, hgap, hinv.pending_le, hinv.stream, hinv.trusted⟩

theorem State.Inv.drive {s : State layout} (hinv : s.Inv cfg need) {safe : Nat} {d : Drive}
    (hpc : s.pc = .fetching safe d) {act : DriveAct} {w : Work layout}
    (hstep : Work.Step cfg ⟨s.store, s.committed, d⟩ act w) :
    State.Inv cfg need
      { s with store := w.store, committed := w.committed, pc := .fetching safe w.drive } := by
  have hgap := hinv.pc
  rw [hpc] at hgap
  obtain ⟨hcursor', hgap'⟩ := Work.gapFree_step (w := ⟨_, _, _⟩) hinv.cursor hgap hstep
  have hmono : ∀ b, Covered s.committed b → Covered w.committed b := fun b =>
    Work.covered_step hstep
  refine ⟨hcursor', hgap', hinv.pending_le, fun stream hsub => ?_, ?_⟩
  · exact (hinv.stream stream hsub).settle Finset.Subset.rfl hmono fun b _ hb => .inl hb
  · intro htrust b hneed hb
    exact (hinv.trusted htrust b hneed hb).imp_right (hmono b)

/-- A sweep that meets the stream may be followed by trusting it. -/
theorem State.Inv.finish (hmatched : ∀ b, need b → matched b = true ∧ 0 < b) {s : State layout}
    (hinv : s.Inv cfg need) (hmeets : SweepsMeetStream matched s .finish) {safe : Nat} {d : Drive}
    (hpc : s.pc = .fetching safe d) (hrun : d.shutdown = false) :
    State.Inv cfg need { s with
      tip := TipState.clearThrough { s.tip with reconcile := decide (d.resume ≤ safe) }
        (d.resume - 1)
      pc := if d.resume ≤ safe then .top d.resume else .waiting d.resume } := by
  have hgap := hinv.pc
  rw [hpc] at hgap
  have hcovered : CoveredTo s.committed need d.resume := Drive.GapFree.coveredTo_resume hgap
  have hdropped : ∀ b, need b → b ∈ s.tip.pending → _ := fun b hneed hb =>
    mem_clearThrough_or_covered (fun b hb => (hmatched b hb).2) hcovered hneed hb
  refine ⟨hinv.cursor, ?_, ?_, fun stream hsub => ?_, ?_⟩
  · simp only
    split
    · exact hcovered
    · exact hcovered
  · exact fun p hp => hinv.pending_le p (Finset.mem_filter.mp hp).1
  · exact (hinv.stream stream hsub).settle (Finset.filter_subset _ _) (fun _ hb => hb) hdropped
  · intro htrust b hneed hb
    have hswept : safe < d.resume := by simpa [TipState.clearThrough] using htrust
    by_cases hle : b ≤ safe
    · exact .inr (hcovered b hneed (by omega))
    · exact hdropped b hneed (hmeets safe d hpc hrun hswept b (hmatched b hneed).1
        (Nat.not_le.mp hle) (TipState.unannounced_of_clearThrough hb))

theorem State.Inv.event {s : State layout} (hinv : s.Inv cfg need) {next : Nat}
    (hpc : s.pc = .waiting next) {stream : Stream} (hsub : s.tip.sub = some stream) {height : Nat}
    {rest : List Nat} (hbuffer : stream.buffer = height :: rest) :
    State.Inv cfg need { s with
      tip := { s.tip with
        sub := some { stream with buffer := rest }
        pending := insert height s.tip.pending }
      pc := .top next } := by
  have hgap := hinv.pc
  rw [hpc] at hgap
  have hok := hinv.stream _ hsub
  refine ⟨hinv.cursor, hgap, ?_, fun stream' hsub' => ?_, ?_⟩
  · intro p hp
    rcases Finset.mem_insert.mp hp with rfl | hp
    · exact (hok.buffer_le p (hbuffer ▸ List.mem_cons_self)).trans hok.last_le
    · exact hinv.pending_le p hp
  · cases hsub'
    exact hok.read hbuffer
  · intro htrust b hneed hb
    exact (hinv.trusted htrust b hneed ((TipState.unannounced_some hsub).mpr hb)).imp_left
      Finset.mem_insert_of_mem

theorem State.inv_step (hmatched : ∀ b, need b → matched b = true ∧ 0 < b) {s s' : State layout}
    {act : Act} (hinv : s.Inv cfg need) (hact : SweepsMeetStream matched s act)
    (h : State.Step cfg matched s act s') : s'.Inv cfg need := by
  cases h with
  | grow hpushed =>
      refine ⟨hinv.cursor, hinv.pc, fun p hp => Nat.le_succ_of_le (hinv.pending_le p hp),
        fun stream hsub => (hinv.stream stream hsub).grow ?_, hinv.trusted⟩
      intro hup hneed hopened
      exact le_last_of_pushedHead hpushed hsub hup (hmatched _ hneed).1 hopened
  | push hsub hup hopened =>
      refine ⟨hinv.cursor, hinv.pc, hinv.pending_le, fun stream' hsub' => ?_, ?_⟩
      · cases hsub'
        exact (hinv.stream _ hsub).push hup hopened
      · intro htrust b hneed hb
        exact hinv.trusted htrust b hneed ((TipState.unannounced_some hsub).mpr hb)
  | streamDown hsub =>
      refine ⟨hinv.cursor, hinv.pc, hinv.pending_le, fun stream' hsub' => ?_, ?_⟩
      · cases hsub'
        have hok := hinv.stream _ hsub
        exact ⟨hok.opened_le, hok.last_le, hok.sorted, hok.buffer_le, hok.pending_le,
          hok.pending_buffer, hok.seen, by simp⟩
      · intro htrust b hneed hb
        exact hinv.trusted htrust b hneed ((TipState.unannounced_some hsub).mpr hb)
  | subscribe hpc => exact hinv.subscribe hpc _
  | fetch hpc target =>
      have hgap := hinv.pc
      rw [hpc] at hgap
      exact ⟨hinv.cursor, Drive.gapFree_begin hgap, hinv.pending_le, hinv.stream, hinv.trusted⟩
  | checkpoint hpc hpoll hfetch =>
      have hcovered := hinv.coveredTo_checkpoint hpoll hfetch
      exact ⟨cursorCovered_advanceInTx hcovered, hcovered, hinv.pending_le, hinv.stream,
        hinv.trusted⟩
  | skip hpc =>
      have hgap := hinv.pc
      rw [hpc] at hgap
      exact ⟨hinv.cursor, hgap, hinv.pending_le, hinv.stream, hinv.trusted⟩
  | drive hpc hstep => exact hinv.drive hpc hstep
  | shutdown hpc => exact ⟨hinv.cursor, trivial, hinv.pending_le, hinv.stream, hinv.trusted⟩
  | finish hpc hrun => exact hinv.finish hmatched hact hpc hrun
  | event hpc hsub hbuffer => exact hinv.event hpc hsub hbuffer
  | lost hpc =>
      have hgap := hinv.pc
      rw [hpc] at hgap
      refine ⟨hinv.cursor, hgap, hinv.pending_le, by simp, ?_⟩
      rintro htrust b hneed ⟨p, hp, hle⟩
      exact hinv.below_pending htrust hneed hp hle
  | timer hpc =>
      have hgap := hinv.pc
      rw [hpc] at hgap
      exact ⟨hinv.cursor, hgap, hinv.pending_le, hinv.stream, hinv.trusted⟩
  | cancel => exact ⟨hinv.cursor, trivial, hinv.pending_le, hinv.stream, hinv.trusted⟩

/-- Every matching block from the resume point up to the cursor lies in a committed range. -/
def NoLogSkipped (cfg : Config) (matched : Nat → Bool) (resume : Nat) (s : State layout) : Prop :=
  ∀ last hash, s.store.cursors cfg.chain = some (last, hash) →
    ∀ b, resume ≤ b → b ≤ last → matched b = true → Covered s.committed b

theorem resumePoint_pos (store : Store layout) : 0 < resumePoint cfg store := by
  rw [resumePoint]
  split
  · exact Nat.succ_pos _
  · exact Nat.lt_of_lt_of_le Nat.one_pos (le_max_right _ _)

theorem State.inv_init {store : Store layout} {wsEnabled : Bool} {s : State layout}
    (h : (system cfg matched wsEnabled store).init s) :
    s.Inv cfg fun b => resumePoint cfg store ≤ b ∧ matched b = true := by
  obtain ⟨head, rfl⟩ := h
  refine ⟨?_, ?_, by simp [TipState.new], by simp [TipState.new], by simp [TipState.new]⟩
  · intro last hash hlast b hneed hb
    have hresume : resumePoint cfg store = last + 1 := by
      simp only at hlast
      simp only [resumePoint, hlast]
    omega
  · exact fun b hneed hb => absurd hneed.1 (Nat.not_le.mpr hb)

/-- No log is skipped in the runs whose sweeps all meet the stream, whatever the order of head
growth, pushes, drops, resubscriptions and ticks. -/
theorem noLogSkipped_of_sweepsMeetStream (cfg : Config) (matched : Nat → Bool) (wsEnabled : Bool)
    (store : Store layout) {s : State layout}
    (h : Reachable (system cfg matched wsEnabled store) (SweepsMeetStream matched) s) :
    NoLogSkipped cfg matched (resumePoint cfg store) s := by
  have hinv : s.Inv cfg fun b => resumePoint cfg store ≤ b ∧ matched b = true := by
    refine h.invariant _ (fun s => State.inv_init) fun s act s' hinv hact hstep => ?_
    refine State.inv_step (fun b hb => ⟨hb.2, ?_⟩) hinv hact (State.step_cases hstep)
    exact Nat.lt_of_lt_of_le (resumePoint_pos store) hb.1
  intro last hash hlast b hresume hb hmatched
  exact hinv.cursor last hash hlast b ⟨hresume, hmatched⟩ (Nat.lt_succ_of_le hb)

/-- Two confirmations, ranges of ten blocks. -/
def twoConfirmations : Config := { fromOne with confirmations := 2 }

/-- The stream is opened at head 3, the sweep ends at block 1, block 5 is pushed, and the blocks up
to 5 are fetched once it is confirmed. -/
theorem noLogSkipped_pushed :
    ∃ s : State eventLayout, s.store.cursors 1 = some (5, ⟨[]⟩) ∧
      NoLogSkipped twoConfirmations (fun b => b == 5) 1 s := by
  let guard : State eventLayout → Act → Bool := fun s act =>
    match act with
    | .finish => s.tip.sub.any fun stream => stream.openedAt == 3
    | _ => true
  have hguard : ∀ s act, guard s act = true → SweepsMeetStream (fun b => b == 5) s act := by
    intro s act hact
    cases act with
    | finish =>
        intro safe d _ _ _ b hb _ hunannounced
        obtain ⟨stream, hsub, hopened⟩ := (Option.any_eq_true _ _).mp hact
        have hle := (TipState.unannounced_some hsub).mp hunannounced
        rw [beq_iff_eq.mp hopened, beq_iff_eq.mp hb] at hle
        exact absurd hle (by decide)
    | _ => trivial
  obtain ⟨s, hreach, hcursor⟩ := Reachable.exists_observed_where hguard
    (.init ⟨3, rfl⟩ : Reachable (system twoConfirmations (fun b => b == 5) true
      (Store.empty : Store eventLayout)) _ _)
    [.subscribe true, .poll, .drive (.complete 0 (emptyRange 1 1)), .drive .commit,
      .drive .advance, .finish, .grow, .grow, .push, .event, .grow, .grow, .subscribe true, .poll,
      .drive (.complete 0 (emptyRange 2 5)), .drive .commit, .drive .advance]
    (fun s => s.store.cursors 1) (b := some (5, ⟨[]⟩)) (by decide +kernel)
  exact ⟨s, hcursor, noLogSkipped_of_sweepsMeetStream _ _ _ _ hreach⟩

/-- Block 2 matches. The stream is opened at head 3 and the sweep ends at block 1; block 6 is
pushed while unconfirmed, and the cursor moves to block 4 without a fetch. -/
theorem log_skipped_below_stream :
    ¬∀ s : State eventLayout,
      Reachable (system twoConfirmations (fun b => b == 2 || b == 6) true Store.empty) anyStep s →
        NoLogSkipped twoConfirmations (fun b => b == 2 || b == 6) 1 s := by
  intro hevery
  obtain ⟨s, hreach, hobserved⟩ := Reachable.exists_observed
    (.init ⟨3, rfl⟩ : Reachable (system twoConfirmations (fun b => b == 2 || b == 6) true
      (Store.empty : Store eventLayout)) anyStep _)
    [.subscribe true, .poll, .drive (.complete 0 (emptyRange 1 1)), .drive .commit,
      .drive .advance, .finish, .grow, .grow, .grow, .push, .event, .subscribe true, .poll]
    (fun _ _ _ => trivial) (fun s => (s.store.cursors 1, s.committed))
    (b := (some (4, ⟨[]⟩), [(1, 1)])) (by decide +kernel)
  obtain ⟨hcursor, hcommitted⟩ := Prod.mk.inj hobserved
  have hcovered := hevery s hreach 4 ⟨[]⟩ hcursor 2 (by decide) (by decide) (by decide)
  rw [hcommitted] at hcovered
  exact absurd hcovered (by decide)

end Topic0.Tip
