import Topic0.TipLoop

/-! The tip loop without a stream. `ensure_subscribed` may fail, and what the loop does then depends
on `reconcile` and the pending heights alone: a sweep is forced at construction, by an accepted
subscription and by a rollback, and it is over once a catch-up has reached its safe tip. A stream
that is lost forces nothing. So after such a catch-up a loop that cannot subscribe again neither
polls the head nor fetches, although no stream tells it what it would miss. -/

namespace Topic0.Tip.Fallback

open Pipeline Transition

/-- Where `ingest_loop` is. -/
inductive Pc where
  | top
  /-- After `ensure_subscribed`, before the reorg probe. -/
  | ready
  /-- About to decide whether to poll the head. -/
  | probed
  /-- In the `select!`. -/
  | waiting
  deriving DecidableEq, Repr

/-- The loop's variables, and where its last catch-up ended: the block to resume at and the safe tip
it was started for, unless a sweep was forced since. -/
structure State where
  tip : TipState
  next : Nat
  tick : Nat
  pc : Pc
  lastSweep : Option (Nat × Nat)

/-- Everything the environment chooses: what `subscribe` returns, the reorg check's answer, the
head, how far the pipeline came, and what the stream delivers. -/
inductive Act where
  | subscribe (opened : Option Stream)
  | probe (reindex : Option Nat)
  | poll (head resumed : Nat)
  | event (e : WsEvent)
  | timer
  /-- The loop failed and was built again. -/
  | restart (next : Nat)

def reorgProbeTicks : Nat := 16

/-- A loop that starts. -/
def begin (wsEnabled : Bool) (next : Nat) : State := ⟨TipState.new wsEnabled, next, 0, .top, none⟩

/-- `catch_up` from the loop's next block to the safe tip. -/
def State.catchUp (cfg : Config) (s : State) (safe resumed : Nat) : Option State :=
  let target := fetchTarget safe s.next cfg.step cfg.conc (s.tip.mustFetch safe)
  if s.tip.mustFetch safe then
    if s.next ≤ resumed ∧ resumed ≤ target + 1 then
      some { s with
        tip := TipState.clearThrough { s.tip with reconcile := decide (resumed ≤ safe) } (resumed - 1)
        next := resumed
        pc := if resumed ≤ safe then .top else .waiting
        lastSweep := some (resumed, safe) }
    else none
  else some { s with next := target + 1, pc := .waiting }

def State.step (cfg : Config) (wsEnabled : Bool) (s : State) : Act → Option State
  | .subscribe opened =>
      match s.pc with
      | .top =>
          let tip := s.tip.ensureSubscribed opened
          some { s with
            tip := tip
            pc := .ready
            lastSweep := if s.tip.sub.isNone && tip.sub.isSome then none else s.lastSweep }
      | _ => none
  | .probe reindex =>
      match s.pc with
      | .ready =>
          let tick := s.tick + 1
          let (signal, tip) := s.tip.takeReorgSignal
          let s := { s with tip := tip, tick := tick, pc := .probed }
          if signal.isSome || !tip.wsEnabled || tick % reorgProbeTicks == 0 then
            match reindex with
            | some lo =>
                some { s with tip := { tip with reconcile := true }, next := lo, lastSweep := none }
            | none => some s
          else some s
      | _ => none
  | .poll head resumed =>
      match s.pc with
      | .probed =>
          let safe := head - cfg.confirmations
          if s.tip.shouldPollHead = true ∧ s.next ≤ safe then s.catchUp cfg safe resumed
          else some { s with pc := .waiting }
      | _ => none
  | .event e =>
      match s.pc, s.tip.sub with
      | .waiting, some _ => some { s with tip := s.tip.onWsEvent e, pc := .top }
      | _, _ => none
  | .timer =>
      match s.pc with
      | .waiting => some { s with pc := .top }
      | _ => none
  | .restart next => some (begin wsEnabled next)

def system (cfg : Config) (wsEnabled : Bool) : System State Act where
  init s := ∃ next, s = begin wsEnabled next
  step := State.step cfg wsEnabled

/-- The loop decides what to do, and has no stream although it should. -/
structure State.Unheard (s : State) : Prop where
  pc : s.pc = .ready ∨ s.pc = .probed
  wsEnabled : s.tip.wsEnabled = true
  sub : s.tip.sub = none

/-- The chain goes on being polled and fetched. -/
def State.Polls (s : State) : Prop :=
  s.tip.shouldPollHead = true ∧ ∀ safe, s.tip.mustFetch safe = true

/-- The last catch-up, if there was one since a sweep was forced, stopped short of its safe tip. -/
def State.SweepDue (s : State) : Prop := ∀ sweep, s.lastSweep = some sweep → sweep.1 ≤ sweep.2

/-- A subscription is refused only while a sweep is due. -/
def RefusedInTime (s : State) : Act → Prop
  | .subscribe none => s.tip.wsEnabled = true → s.tip.sub = none → s.SweepDue
  | _ => True

/-- The steps of the loop, one constructor each. -/
inductive State.Step (wsEnabled : Bool) (s : State) : Act → State → Prop
  | accepted {stream : Stream} (hpc : s.pc = .top) :
      State.Step wsEnabled s (.subscribe (some stream))
        { s with
          tip := { s.tip with sub := some stream, reconcile := true }
          pc := .ready
          lastSweep := none }
  | refused (hpc : s.pc = .top) (hws : s.tip.wsEnabled = true) (hsub : s.tip.sub = none) :
      State.Step wsEnabled s (.subscribe none) { s with pc := .ready }
  | unasked {opened : Option Stream} (hpc : s.pc = .top)
      (hskip : ¬(s.tip.wsEnabled = true ∧ s.tip.sub = none)) :
      State.Step wsEnabled s (.subscribe opened) { s with pc := .ready }
  | rolledBack {lo : Nat} (hpc : s.pc = .ready) :
      State.Step wsEnabled s (.probe (some lo))
        { s with
          tip := { s.tip.takeReorgSignal.2 with reconcile := true }
          next := lo
          tick := s.tick + 1
          pc := .probed
          lastSweep := none }
  | canonical {reindex : Option Nat} (hpc : s.pc = .ready) :
      State.Step wsEnabled s (.probe reindex)
        { s with tip := s.tip.takeReorgSignal.2, tick := s.tick + 1, pc := .probed }
  | fetched {head resumed safe : Nat} {pc : Pc} (hpc : pc = .top ∨ pc = .waiting) :
      State.Step wsEnabled s (.poll head resumed)
        { s with
          tip := TipState.clearThrough { s.tip with reconcile := decide (resumed ≤ safe) }
            (resumed - 1)
          next := resumed
          pc := pc
          lastSweep := some (resumed, safe) }
  | idle {head resumed next : Nat} :
      State.Step wsEnabled s (.poll head resumed) { s with next := next, pc := .waiting }
  | event {e : WsEvent} :
      State.Step wsEnabled s (.event e) { s with tip := s.tip.onWsEvent e, pc := .top }
  | timer : State.Step wsEnabled s .timer { s with pc := .top }
  | restart {next : Nat} : State.Step wsEnabled s (.restart next) (begin wsEnabled next)

theorem ensureSubscribed_of_skip {t : TipState} (h : ¬(t.wsEnabled = true ∧ t.sub = none))
    (opened : Option Stream) : t.ensureSubscribed opened = t := by
  unfold TipState.ensureSubscribed
  rw [if_pos]
  cases hws : t.wsEnabled with
  | false => rfl
  | true =>
      cases hsub : t.sub with
      | none => exact absurd ⟨hws, hsub⟩ h
      | some stream => rfl

theorem ensureSubscribed_of_ask {t : TipState} (hws : t.wsEnabled = true) (hsub : t.sub = none)
    (opened : Option Stream) :
    t.ensureSubscribed opened =
      opened.elim t fun stream => { t with sub := some stream, reconcile := true } := by
  unfold TipState.ensureSubscribed
  rw [if_neg (by simp [hws, hsub])]
  cases opened <;> rfl

theorem State.step_subscribe {wsEnabled : Bool} {s s' : State} {opened : Option Stream}
    {cfg : Config} (h : s.step cfg wsEnabled (.subscribe opened) = some s') :
    State.Step wsEnabled s (.subscribe opened) s' := by
  rw [State.step] at h
  split at h
  · rename_i hpc
    cases h
    by_cases hasks : s.tip.wsEnabled = true ∧ s.tip.sub = none
    · obtain ⟨hws, hsub⟩ := hasks
      cases opened with
      | none =>
          simp only [ensureSubscribed_of_ask hws hsub, Option.elim_none, hsub]
          exact .refused hpc hws hsub
      | some stream =>
          simp only [ensureSubscribed_of_ask hws hsub, Option.elim_some, hsub]
          exact .accepted hpc
    · rw [ensureSubscribed_of_skip hasks]
      have hsame : (if s.tip.sub.isNone && s.tip.sub.isSome then none else s.lastSweep) =
          s.lastSweep := by
        cases s.tip.sub <;> rfl
      simp only [hsame]
      exact .unasked hpc hasks
  · cases h

theorem State.step_catchUp {wsEnabled : Bool} {s s' : State} {cfg : Config} {head safe resumed : Nat}
    (h : s.catchUp cfg safe resumed = some s') :
    State.Step wsEnabled s (.poll head resumed) s' := by
  rw [State.catchUp] at h
  split at h
  · split at h
    · cases h
      apply State.Step.fetched
      by_cases hbehind : resumed ≤ safe
      · exact .inl (if_pos hbehind)
      · exact .inr (if_neg hbehind)
    · cases h
  · cases h
    exact .idle

theorem State.step_cases {wsEnabled : Bool} {s s' : State} {act : Act} {cfg : Config}
    (h : s.step cfg wsEnabled act = some s') : State.Step wsEnabled s act s' := by
  cases act with
  | subscribe opened => exact step_subscribe h
  | probe reindex =>
      rw [State.step] at h
      split at h
      · rename_i hpc
        simp only at h
        split at h
        · cases reindex with
          | none =>
              cases h
              exact .canonical hpc
          | some lo =>
              cases h
              exact .rolledBack hpc
        · cases h
          exact .canonical hpc
      · cases h
  | poll head resumed =>
      rw [State.step] at h
      split at h
      · simp only at h
        split at h
        · exact step_catchUp h
        · cases h
          exact .idle
      · cases h
  | event e =>
      rw [State.step] at h
      split at h
      · cases h
        exact .event
      · cases h
  | timer =>
      rw [State.step] at h
      split at h
      · cases h
        exact .timer
      · cases h
  | restart next =>
      cases h
      exact .restart

/-- The flag says what the history says. -/
def State.Flagged (s : State) : Prop := s.tip.reconcile = true ↔ s.SweepDue

theorem sweepDue_of_none {s : State} (h : s.lastSweep = none) : s.SweepDue := by
  intro sweep hsweep
  rw [h] at hsweep
  cases hsweep

theorem flagged_begin (wsEnabled : Bool) (next : Nat) : (begin wsEnabled next).Flagged :=
  iff_of_true rfl (sweepDue_of_none rfl)

theorem reconcile_onWsEvent (t : TipState) (e : WsEvent) :
    (t.onWsEvent e).reconcile = t.reconcile := by
  cases e with
  | log height removed => cases removed <;> rfl
  | error => rfl
  | ended => rfl

theorem State.flagged_step {wsEnabled : Bool} {s s' : State} {act : Act} (hinv : s.Flagged)
    (h : State.Step wsEnabled s act s') : s'.Flagged := by
  cases h with
  | accepted hpc => exact iff_of_true rfl (sweepDue_of_none rfl)
  | refused hpc hws hsub => exact hinv
  | unasked hpc hskip => exact hinv
  | rolledBack hpc => exact iff_of_true rfl (sweepDue_of_none rfl)
  | canonical hpc => exact hinv
  | fetched hpc =>
      rename_i head resumed safe pc
      show decide (resumed ≤ safe) = true ↔ _
      rw [decide_eq_true_eq]
      constructor
      · intro hshort sweep hsweep
        cases hsweep
        exact hshort
      · intro hdue
        exact hdue (resumed, safe) rfl
  | idle => exact hinv
  | event =>
      rename_i e
      show (s.tip.onWsEvent e).reconcile = true ↔ _
      rw [reconcile_onWsEvent]
      exact hinv
  | timer => exact hinv
  | restart => exact flagged_begin wsEnabled _

variable {cfg : Config} {wsEnabled : Bool} {s : State}

theorem flagged_of_reachable (h : Reachable (system cfg wsEnabled) anyStep s) : s.Flagged := by
  apply h.invariant State.Flagged
  · intro s hinit
    obtain ⟨next, rfl⟩ := hinit
    exact flagged_begin wsEnabled next
  · intro s act s' hinv _ hstep
    exact State.flagged_step hinv (State.step_cases hstep)

/-- Without a stream everything is fetched if a sweep is due, or if height zero is pending. -/
theorem polls_iff (hunheard : s.Unheard) :
    s.Polls ↔ s.tip.reconcile = true ∨ 0 ∈ s.tip.pending := by
  rw [State.Polls, TipState.shouldPollHead, hunheard.wsEnabled]
  simp only [TipState.mustFetch, hunheard.wsEnabled, Bool.not_true, Bool.false_or, Bool.or_eq_true,
    decide_eq_true_eq]
  constructor
  · intro h
    rcases h.2 0 with hdue | ⟨lo, hlo, hzero⟩
    · exact .inl hdue
    · exact .inr (Nat.le_zero.mp hzero ▸ hlo)
  · intro h
    rcases h with hdue | hzero
    · exact ⟨.inl hdue, fun safe => .inl hdue⟩
    · exact ⟨.inr (Finset.ne_empty_of_mem hzero), fun safe => .inr ⟨0, hzero, Nat.zero_le safe⟩⟩

/-- Refusals in time leave the loop with a sweep to do. -/
theorem State.sweepDue_step {s s' : State} {act : Act} (hinv : s.Unheard → s.SweepDue)
    (hact : RefusedInTime s act) (h : State.Step wsEnabled s act s') :
    s'.Unheard → s'.SweepDue := by
  intro hunheard
  cases h with
  | accepted hpc => exact sweepDue_of_none rfl
  | refused hpc hws hsub => exact hact hws hsub
  | unasked hpc hskip => exact absurd ⟨hunheard.wsEnabled, hunheard.sub⟩ hskip
  | rolledBack hpc => exact sweepDue_of_none rfl
  | canonical hpc => exact hinv ⟨.inl hpc, hunheard.wsEnabled, hunheard.sub⟩
  | fetched hpc =>
      rcases hpc with rfl | rfl
      · exact absurd hunheard.pc (by simp)
      · exact absurd hunheard.pc (by simp)
  | idle => exact absurd hunheard.pc (by simp)
  | event => exact absurd hunheard.pc (by simp)
  | timer => exact absurd hunheard.pc (by simp)
  | restart => exact absurd hunheard.pc (by simp [begin])

theorem sweepDue_of_refusedInTime (h : Reachable (system cfg wsEnabled) RefusedInTime s) :
    s.Unheard → s.SweepDue := by
  apply h.invariant fun s => s.Unheard → s.SweepDue
  · intro s hinit hunheard
    obtain ⟨next, rfl⟩ := hinit
    exact sweepDue_of_none rfl
  · intro s act s' hinv hact hstep
    exact State.sweepDue_step hinv hact (State.step_cases hstep)

/-- A loop whose subscriptions are refused only while a sweep is due never rests without a stream;
in any run, a loop without one goes on polling exactly if a sweep is due or height zero is pending. -/
theorem polls_without_stream_of_refusedInTime (cfg : Config) (wsEnabled : Bool) :
    (∀ s, Reachable (system cfg wsEnabled) RefusedInTime s → s.Unheard → s.Polls) ∧
      ∀ s, Reachable (system cfg wsEnabled) anyStep s → s.Unheard →
        (s.Polls ↔ s.SweepDue ∨ 0 ∈ s.tip.pending) := by
  have hexact : ∀ s, Reachable (system cfg wsEnabled) anyStep s → s.Unheard →
      (s.Polls ↔ s.SweepDue ∨ 0 ∈ s.tip.pending) := by
    intro s hreach hunheard
    rw [polls_iff hunheard]
    exact or_congr_left (flagged_of_reachable hreach)
  refine ⟨fun s hreach hunheard => ?_, hexact⟩
  have hany := hreach.mono fun _ _ _ => trivial
  exact (hexact s hany hunheard).mpr (.inl (sweepDue_of_refusedInTime hreach hunheard))

/-- Where the loop is, and what it makes of having no stream. -/
def observed (s : State) : Pc × Bool × Bool × Bool :=
  (s.pc, s.tip.wsEnabled, s.tip.sub.isNone, s.tip.shouldPollHead)

theorem unheard_of_observed {s : State} {polls : Bool} (h : observed s = (.ready, true, true, polls)) :
    s.Unheard ∧ s.tip.shouldPollHead = polls := by
  simp only [observed, Prod.mk.injEq, Option.isNone_iff_eq_none] at h
  exact ⟨⟨.inl h.1, h.2.1, h.2.2.1⟩, h.2.2.2⟩

/-- A decidable condition under which a subscription is refused in time. -/
def refusedGuard (s : State) : Act → Bool
  | .subscribe none => s.lastSweep.all fun sweep => decide (sweep.1 ≤ sweep.2)
  | _ => true

theorem refusedGuard_sound (s : State) (act : Act) (h : refusedGuard s act = true) :
    RefusedInTime s act := by
  unfold RefusedInTime
  split
  · intro _ _ sweep hsweep
    simpa [refusedGuard, hsweep] using h
  · trivial

/-- A subscription refused at the start, and again after a window that stopped short. -/
theorem polls_without_stream_at_start :
    ∃ s, Reachable (system fromOne true) RefusedInTime s ∧ s.Unheard ∧ s.Polls := by
  have hinit : Reachable (system fromOne true) RefusedInTime (begin true 1) := .init ⟨1, rfl⟩
  obtain ⟨s, hs, hobserved⟩ := hinit.exists_observed_where refusedGuard_sound
    [.subscribe none, .probe none, .poll 25 11, .subscribe none] observed
    (b := (.ready, true, true, true)) (by decide +kernel)
  obtain ⟨hunheard, -⟩ := unheard_of_observed hobserved
  exact ⟨s, hs, hunheard, (polls_without_stream_of_refusedInTime fromOne true).1 s hs hunheard⟩

/-- The stream ends after the first sweep, and the next subscription is refused. -/
theorem not_polls_after_lost_stream :
    ¬∀ (cfg : Config) (wsEnabled : Bool) (s : State),
      Reachable (system cfg wsEnabled) anyStep s → s.Unheard → s.Polls := by
  intro hevery
  have hinit : Reachable (system fromOne true) anyStep (begin true 1) := .init ⟨1, rfl⟩
  obtain ⟨s, hs, hobserved⟩ := hinit.exists_observed
    [.subscribe (some ⟨10, [], 10, true⟩), .probe none, .poll 10 11, .event .ended, .subscribe none]
    (fun _ _ _ => trivial) observed (b := (.ready, true, true, false)) (by decide +kernel)
  obtain ⟨hunheard, hrests⟩ := unheard_of_observed hobserved
  have hpolls := (hevery fromOne true s hs hunheard).1
  rw [hrests] at hpolls
  cases hpolls

end Topic0.Tip.Fallback
