import Topic0.BaseHistory
import Topic0.TipFallback

/-! The tip loop as the provider and the database see it: a history of what it asked and wrote. A
tick counts the iterations, wrapping at 64 bits, and with a stream the block hashes are probed on a
`removed` log and on every sixteenth tick only; without one, on every tick. A sweep is forced when
the loop is built, when a stream is opened and when a probe rolls back, and until it has reached the
safe tip nothing is checkpointed without being fetched. -/

namespace Topic0.Tip.Probing

open Pipeline Transition

/-- What the loop did or was told. A fetch went from `start` to the block before `resumed`, towards
the safe tip `safe`; a checkpoint moved the cursor over `start..=target` without a fetch. -/
inductive Event where
  | began (next : Nat)
  | subscribed (next : Nat)
  | refused
  | iteration
  | probe
  | rolledBack (lo : Nat)
  | head
  | fetched (start resumed safe : Nat)
  | checkpoint (start target : Nat)
  | removed (height : Nat)
  | logged (height : Nat)
  | streamLost
  deriving DecidableEq, Repr

/-- Where `ingest_loop` is. -/
inductive Pc where
  | top
  /-- After `ensure_subscribed`. -/
  | ready
  /-- After the reorg check, if there was one. -/
  | probed
  /-- In the `select!`. -/
  | waiting
  /-- The loop returned an error. -/
  | failed
  | stopped
  deriving DecidableEq, Repr

structure State where
  tip : TipState
  next : Nat
  tick : Nat
  pc : Pc
  /-- The newest event first. -/
  history : List Event

/-- What `run_pipeline` returns. -/
structure Outcome where
  advancedTo : Option Nat
  shutdown : Bool

/-- Everything the environment chooses; a call that fails answers `none`. -/
inductive Act where
  /-- Cancelled, or the quota is exhausted. -/
  | stop
  | subscribe (opened : Option Stream)
  | probe (answer : Option (Option Nat))
  | poll (head : Option Nat) (out : Option Outcome)
  | event (e : WsEvent)
  | timer
  /-- The supervisor builds the loop again after an error. -/
  | restart (next : Nat)

def reorgProbeTicks : Nat := 16

/-- `u64::wrapping_add` of one. -/
def nextTick (tick : Nat) : Nat := (tick + 1) % 2 ^ 64

def begin (wsEnabled : Bool) (next : Nat) (history : List Event) : State :=
  ⟨TipState.new wsEnabled, next, 0, .top, .began next :: history⟩

/-- `catch_up` from the loop's next block towards the safe tip. -/
def State.catchUp (cfg : Config) (s : State) (safe : Nat) (out : Option Outcome) : Option State :=
  let mustFetch := s.tip.mustFetch safe
  let target := fetchTarget safe s.next cfg.step cfg.conc mustFetch
  match out with
  | none => some { s with pc := .failed }
  | some out =>
      if mustFetch then
        if out.advancedTo.all fun adv => decide (s.next ≤ adv ∧ adv ≤ target) then
          let resumed := (out.advancedTo.map fun adv => adv + 1).getD s.next
          let s := { s with history := .fetched s.next resumed safe :: s.history, next := resumed }
          if out.shutdown then some { s with pc := .stopped }
          else
            some { s with
              tip := TipState.clearThrough { s.tip with reconcile := decide (resumed ≤ safe) }
                (resumed - 1)
              pc := if resumed ≤ safe then .top else .waiting }
        else none
      else
        some { s with
          history := .checkpoint s.next target :: s.history
          next := target + 1
          pc := if target + 1 ≤ safe then .top else .waiting }

/-- What the loop reads from its stream, as an event of the history. -/
def heard : WsEvent → Event
  | .log height true => .removed height
  | .log height false => .logged height
  | .error => .streamLost
  | .ended => .streamLost

def State.step (cfg : Config) (wsEnabled : Bool) (s : State) : Act → Option State
  | .stop =>
      match s.pc with
      | .top | .waiting => some { s with pc := .stopped }
      | _ => none
  | .subscribe opened =>
      match s.pc with
      | .top =>
          let asked := s.tip.wsEnabled && s.tip.sub.isNone
          let answered := if opened.isSome then .subscribed s.next else .refused
          some { s with
            tip := s.tip.ensureSubscribed opened
            pc := .ready
            history := if asked then answered :: s.history else s.history }
      | _ => none
  | .probe answer =>
      match s.pc with
      | .ready =>
          let tick := nextTick s.tick
          let (signal, tip) := s.tip.takeReorgSignal
          let s := { s with tip := tip, tick := tick, history := .iteration :: s.history }
          if signal.isSome || !tip.wsEnabled || tick % reorgProbeTicks == 0 then
            match answer with
            | none => some { s with pc := .failed, history := .probe :: s.history }
            | some none => some { s with pc := .probed, history := .probe :: s.history }
            | some (some lo) =>
                some { s with
                  tip := { tip with reconcile := true }
                  next := lo
                  pc := .probed
                  history := .rolledBack lo :: .probe :: s.history }
          else some { s with pc := .probed }
      | _ => none
  | .poll head out =>
      match s.pc with
      | .probed =>
          if s.tip.shouldPollHead then
            let s := { s with history := .head :: s.history }
            match head with
            | none => some { s with pc := .failed }
            | some head =>
                let safe := head - cfg.confirmations
                if s.next ≤ safe then s.catchUp cfg safe out else some { s with pc := .waiting }
          else some { s with pc := .waiting }
      | _ => none
  | .event e =>
      match s.pc, s.tip.sub with
      | .waiting, some _ =>
          some { s with tip := s.tip.onWsEvent e, pc := .top, history := heard e :: s.history }
      | _, _ => none
  | .timer =>
      match s.pc with
      | .waiting => some { s with pc := .top }
      | _ => none
  | .restart next =>
      match s.pc with
      | .failed => some (begin wsEnabled next s.history)
      | _ => none

def system (cfg : Config) (wsEnabled : Bool) : System State Act where
  init s := ∃ next, s = begin wsEnabled next []
  step := State.step cfg wsEnabled

/-- The block hashes are probed in the coming iteration. -/
def State.Due (s : State) : Prop :=
  s.tip.reorgAt.isSome = true ∨ s.tip.wsEnabled = false ∨ nextTick s.tick % reorgProbeTicks = 0

/-- The steps of the loop, one constructor each. -/
inductive Step (wsEnabled : Bool) (s : State) : State → Prop
  | stop (hpc : s.pc = .top ∨ s.pc = .waiting) : Step wsEnabled s { s with pc := .stopped }
  | subscribed {stream : Stream} (hpc : s.pc = .top) (hws : s.tip.wsEnabled = true) :
      Step wsEnabled s { s with
        tip := { s.tip with sub := some stream, reconcile := true }
        pc := .ready
        history := .subscribed s.next :: s.history }
  | refused (hpc : s.pc = .top) :
      Step wsEnabled s { s with pc := .ready, history := .refused :: s.history }
  | unasked (hpc : s.pc = .top) : Step wsEnabled s { s with pc := .ready }
  | checkFailed (hpc : s.pc = .ready) (hdue : s.Due) :
      Step wsEnabled s { s with
        tip := { s.tip with reorgAt := none }
        tick := nextTick s.tick
        pc := .failed
        history := .probe :: .iteration :: s.history }
  | canonical (hpc : s.pc = .ready) (hdue : s.Due) :
      Step wsEnabled s { s with
        tip := { s.tip with reorgAt := none }
        tick := nextTick s.tick
        pc := .probed
        history := .probe :: .iteration :: s.history }
  | rolledBack {lo : Nat} (hpc : s.pc = .ready) (hdue : s.Due) :
      Step wsEnabled s { s with
        tip := { s.tip with reorgAt := none, reconcile := true }
        next := lo
        tick := nextTick s.tick
        pc := .probed
        history := .rolledBack lo :: .probe :: .iteration :: s.history }
  | unprobed (hpc : s.pc = .ready) (hdue : ¬s.Due) :
      Step wsEnabled s { s with
        tip := { s.tip with reorgAt := none }
        tick := nextTick s.tick
        pc := .probed
        history := .iteration :: s.history }
  | idle (hpc : s.pc = .probed) : Step wsEnabled s { s with pc := .waiting }
  | headFailed (hpc : s.pc = .probed) :
      Step wsEnabled s { s with pc := .failed, history := .head :: s.history }
  | level (hpc : s.pc = .probed) :
      Step wsEnabled s { s with pc := .waiting, history := .head :: s.history }
  | fetched {resumed safe : Nat} {pc : Pc} (hpc : s.pc = .probed) (hsafe : s.next ≤ safe)
      (hresumed : s.next ≤ resumed) (hpc' : pc = .top ∨ pc = .waiting) :
      Step wsEnabled s { s with
        tip := TipState.clearThrough { s.tip with reconcile := decide (resumed ≤ safe) }
          (resumed - 1)
        next := resumed
        pc := pc
        history := .fetched s.next resumed safe :: .head :: s.history }
  | shutdown {resumed safe : Nat} (hpc : s.pc = .probed) (hsafe : s.next ≤ safe)
      (hresumed : s.next ≤ resumed) :
      Step wsEnabled s { s with
        next := resumed
        pc := .stopped
        history := .fetched s.next resumed safe :: .head :: s.history }
  | checkpoint {target : Nat} {pc : Pc} (hpc : s.pc = .probed) (htarget : s.next ≤ target)
      (hswept : s.tip.reconcile = false) (hpc' : pc = .top ∨ pc = .waiting) :
      Step wsEnabled s { s with
        next := target + 1
        pc := pc
        history := .checkpoint s.next target :: .head :: s.history }
  | event {e : WsEvent} (hpc : s.pc = .waiting) :
      Step wsEnabled s
        { s with tip := s.tip.onWsEvent e, pc := .top, history := heard e :: s.history }
  | timer (hpc : s.pc = .waiting) : Step wsEnabled s { s with pc := .top }
  | restart {next : Nat} (hpc : s.pc = .failed) :
      Step wsEnabled s (begin wsEnabled next s.history)

variable {cfg : Config} {wsEnabled : Bool} {s s' : State}

theorem step_subscribe {opened : Option Stream}
    (h : s.step cfg wsEnabled (.subscribe opened) = some s') : Step wsEnabled s s' := by
  rw [State.step] at h
  split at h
  · rename_i hpc
    cases h
    by_cases hasked : s.tip.wsEnabled = true ∧ s.tip.sub = none
    · obtain ⟨hws, hsub⟩ := hasked
      rw [Fallback.ensureSubscribed_of_ask hws hsub, if_pos (by rw [hws, hsub]; rfl)]
      cases opened with
      | none => exact .refused hpc
      | some stream => exact .subscribed hpc hws
    · rw [Fallback.ensureSubscribed_of_skip hasked, if_neg (by simpa using hasked)]
      exact .unasked hpc
  · cases h

theorem step_probe {answer : Option (Option Nat)}
    (h : s.step cfg wsEnabled (.probe answer) = some s') : Step wsEnabled s s' := by
  rw [State.step] at h
  split at h
  · rename_i hpc
    simp only at h
    have hiff : (s.tip.reorgAt.isSome || !s.tip.wsEnabled ||
        nextTick s.tick % reorgProbeTicks == 0) = true ↔ s.Due := by
      simp only [State.Due, Bool.or_eq_true, Bool.not_eq_true', beq_iff_eq, or_assoc]
    split at h
    · rename_i hprobe
      have hdue := hiff.mp hprobe
      cases answer with
      | none =>
          cases h
          exact .checkFailed hpc hdue
      | some reindex =>
          cases reindex with
          | none =>
              cases h
              exact .canonical hpc hdue
          | some lo =>
              cases h
              exact .rolledBack hpc hdue
    · rename_i hprobe
      cases h
      exact .unprobed hpc fun hdue => hprobe (hiff.mpr hdue)
  · cases h

/-- Without a fetch no sweep is due, and the window is the whole safe range. -/
theorem of_not_mustFetch {t : TipState} {safe : Nat} (h : t.mustFetch safe = false) :
    t.reconcile = false := by
  simp only [TipState.mustFetch, Bool.or_eq_false_iff] at h
  exact h.1.2

theorem behind_cases (next safe : Nat) :
    (if next ≤ safe then Pc.top else Pc.waiting) = .top ∨
      (if next ≤ safe then Pc.top else Pc.waiting) = .waiting := by
  by_cases hbehind : next ≤ safe
  · exact .inl (if_pos hbehind)
  · exact .inr (if_neg hbehind)

theorem step_catchUp {safe : Nat} {out : Option Outcome} (hpc : s.pc = .probed)
    (hsafe : s.next ≤ safe)
    (h : State.catchUp cfg { s with history := .head :: s.history } safe out = some s') :
    Step wsEnabled s s' := by
  unfold State.catchUp at h
  cases out with
  | none =>
      cases h
      exact .headFailed hpc
  | some out =>
      simp only at h
      split at h
      · split at h
        · rename_i hwithin
          have hresumed : s.next ≤ (out.advancedTo.map fun adv => adv + 1).getD s.next := by
            cases hadv : out.advancedTo with
            | none => exact le_refl _
            | some adv =>
                simp only [hadv, Option.all_some, decide_eq_true_eq] at hwithin
                exact Nat.le_succ_of_le hwithin.1
          split at h
          · cases h
            exact .shutdown hpc hsafe hresumed
          · cases h
            exact .fetched hpc hsafe hresumed (behind_cases _ _)
        · cases h
      · rename_i hfetch
        rw [Bool.not_eq_true] at hfetch
        cases h
        refine .checkpoint hpc ?_ (of_not_mustFetch hfetch) (behind_cases _ _)
        rw [fetchTarget, hfetch]
        exact hsafe

/-- Every step is one of the constructors of `Step`. -/
theorem step_cases {act : Act} (h : s.step cfg wsEnabled act = some s') : Step wsEnabled s s' := by
  cases act with
  | subscribe opened => exact step_subscribe h
  | probe answer => exact step_probe h
  | stop =>
      rw [State.step] at h
      split at h
      · rename_i hpc
        cases h
        exact .stop (.inl hpc)
      · rename_i hpc
        cases h
        exact .stop (.inr hpc)
      · cases h
  | poll head out =>
      rw [State.step] at h
      split at h
      · rename_i hpc
        split at h
        · simp only at h
          cases head with
          | none =>
              cases h
              exact .headFailed hpc
          | some head =>
              simp only at h
              split at h
              · rename_i hsafe
                exact step_catchUp hpc hsafe h
              · cases h
                exact .level hpc
        · cases h
          exact .idle hpc
      · cases h
  | event e =>
      rw [State.step] at h
      split at h
      · rename_i hpc _
        cases h
        exact .event hpc
      · cases h
  | timer =>
      rw [State.step] at h
      split at h
      · rename_i hpc
        cases h
        exact .timer hpc
      · cases h
  | restart next =>
      rw [State.step] at h
      split at h
      · rename_i hpc
        cases h
        exact .restart hpc
      · cases h

/-- Iterations of the loop since its last probe, or since it was built. -/
def unprobed : List Event → Nat
  | [] => 0
  | .probe :: _ | .began _ :: _ => 0
  | .iteration :: history => unprobed history + 1
  | _ :: history => unprobed history

def Event.removed? : Event → Option Nat
  | .removed height => some height
  | _ => none

/-- The answer to an attempt to subscribe. -/
def Event.resubscribes : Event → Bool
  | .subscribed _ | .refused => true
  | _ => false

/-- The iteration after the mark has come and probed, before anything else was asked or written. -/
def Probed (later : List Event) : Prop :=
  ∃ newer quiet, later = newer ++ .probe :: .iteration :: quiet ∧
    ∀ e ∈ quiet, e.resubscribes = true

/-- Nothing but a subscription was asked for since. -/
def Quiet (later : List Event) : Prop := ∀ e ∈ later, e.resubscribes = true

theorem Probed.record {later : List Event} (h : Probed later) (e : Event) : Probed (e :: later) := by
  obtain ⟨newer, quiet, rfl, hquiet⟩ := h
  exact ⟨e :: newer, quiet, rfl, hquiet⟩

theorem Quiet.record {later : List Event} (h : Quiet later) {e : Event}
    (he : e.resubscribes = true) : Quiet (e :: later) := by
  intro x hx
  rcases List.mem_cons.mp hx with rfl | hx
  · exact he
  · exact h x hx

theorem nextTick_mod (tick : Nat) : nextTick tick % 16 = (tick + 1) % 16 := by
  rw [nextTick]
  omega

/-- The tick keeps the count of the iterations, and what the probes cost. -/
structure State.Scheduled (wsEnabled : Bool) (s : State) : Prop where
  enabled : s.tip.wsEnabled = wsEnabled
  window : unprobed s.history ≤ s.tick % 16
  polled : wsEnabled = false → unprobed s.history = 0
  cost : wsEnabled = true → 16 * s.history.count .probe + s.tick % 16 +
    16 * s.tip.reorgAt.toList.length ≤
      16 * (s.history.filterMap Event.removed?).length + s.history.count .iteration

/-- A removed log not yet probed for is signalled, and the loop is on its way to the probe. -/
structure State.Signalled (s : State) : Prop where
  early : s.tip.reorgAt.isSome = true → s.pc = .top ∨ s.pc = .ready ∨ s.pc = .stopped
  since : History.Since Event.removed?
    (fun height later => Quiet later ∧ s.tip.reorgAt = some height ∨ Probed later) s.history

/-- Events that the schedule of the probes does not depend on. -/
def Event.plain : Event → Bool
  | .began _ | .iteration | .probe | .removed _ => false
  | _ => true

theorem removed?_of_plain {e : Event} (h : e.plain = true) : e.removed? = none := by
  cases e with
  | removed height => cases h
  | _ => rfl

/-- A step that leaves the tick and the signal alone and records plain events only. -/
structure Frame (s s' : State) : Prop where
  enabled : s'.tip.wsEnabled = s.tip.wsEnabled
  reorgAt : s'.tip.reorgAt = s.tip.reorgAt
  tick : s'.tick = s.tick
  history : ∃ new, s'.history = new ++ s.history ∧ ∀ e ∈ new, e.plain = true

theorem unprobed_append {new : List Event} (hplain : ∀ e ∈ new, e.plain = true)
    (history : List Event) :
    unprobed (new ++ history) = unprobed history ∧
      (new ++ history).count .probe = history.count .probe ∧
      (new ++ history).count .iteration = history.count .iteration ∧
      (new ++ history).filterMap Event.removed? = history.filterMap Event.removed? := by
  induction new with
  | nil => exact ⟨rfl, rfl, rfl, rfl⟩
  | cons e new ih =>
      obtain ⟨hunprobed, hprobes, hiterations, hremovals⟩ :=
        ih fun x hx => hplain x (List.mem_cons_of_mem _ hx)
      have he := hplain e List.mem_cons_self
      rw [List.cons_append, List.count_cons, List.count_cons, List.filterMap_cons,
        removed?_of_plain he, hprobes, hiterations, hremovals]
      cases e with
      | began next => cases he
      | iteration => cases he
      | probe => cases he
      | removed height => cases he
      | _ => exact ⟨hunprobed, rfl, rfl, rfl⟩

theorem scheduled_frame (hinv : s.Scheduled wsEnabled) (h : Frame s s') :
    s'.Scheduled wsEnabled := by
  obtain ⟨henabled, hreorg, htick, new, hhistory, hplain⟩ := h
  obtain ⟨hunprobed, hprobes, hiterations, hremovals⟩ := unprobed_append hplain s.history
  refine ⟨henabled.trans hinv.enabled, ?_, ?_, ?_⟩
  · rw [hhistory, htick, hunprobed]
    exact hinv.window
  · rw [hhistory, hunprobed]
    exact hinv.polled
  · rw [hhistory, htick, hreorg, hprobes, hiterations, hremovals]
    exact hinv.cost

theorem frame_event {e : WsEvent} (h : ∀ height, e ≠ .log height true) :
    Frame s { s with tip := s.tip.onWsEvent e, pc := .top, history := heard e :: s.history } := by
  cases e with
  | log height removed =>
      cases removed with
      | true => exact absurd rfl (h height)
      | false => exact ⟨rfl, rfl, rfl, [.logged height], rfl, by simp [Event.plain]⟩
  | error => exact ⟨rfl, rfl, rfl, [.streamLost], rfl, by simp [Event.plain]⟩
  | ended => exact ⟨rfl, rfl, rfl, [.streamLost], rfl, by simp [Event.plain]⟩

/-- The steps outside the probe itself: they leave the schedule alone, or a removed log was read, or
the loop is built again. -/
theorem outside_probe (h : Step wsEnabled s s') (hpc : s.pc ≠ .ready) :
    Frame s s' ∨ (∃ height, s.pc = .waiting ∧ s'.pc = .top ∧ s'.tick = s.tick ∧
        s'.tip = s.tip.onWsEvent (.log height true) ∧ s'.history = .removed height :: s.history) ∨
      ∃ next, s.pc = .failed ∧ s' = begin wsEnabled next s.history := by
  cases h with
  | stop hpc' => exact .inl ⟨rfl, rfl, rfl, [], rfl, by simp⟩
  | subscribed hpc' hws => exact .inl ⟨rfl, rfl, rfl, [.subscribed s.next], rfl, by simp [Event.plain]⟩
  | refused hpc' => exact .inl ⟨rfl, rfl, rfl, [.refused], rfl, by simp [Event.plain]⟩
  | unasked hpc' => exact .inl ⟨rfl, rfl, rfl, [], rfl, by simp⟩
  | checkFailed hpc' => exact absurd hpc' hpc
  | canonical hpc' => exact absurd hpc' hpc
  | rolledBack hpc' => exact absurd hpc' hpc
  | unprobed hpc' => exact absurd hpc' hpc
  | idle hpc' => exact .inl ⟨rfl, rfl, rfl, [], rfl, by simp⟩
  | headFailed hpc' => exact .inl ⟨rfl, rfl, rfl, [.head], rfl, by simp [Event.plain]⟩
  | level hpc' => exact .inl ⟨rfl, rfl, rfl, [.head], rfl, by simp [Event.plain]⟩
  | fetched hpc' hsafe hresumed hnext =>
      exact .inl ⟨rfl, rfl, rfl, [.fetched _ _ _, .head], rfl, by simp [Event.plain]⟩
  | shutdown hpc' hsafe hresumed =>
      exact .inl ⟨rfl, rfl, rfl, [.fetched _ _ _, .head], rfl, by simp [Event.plain]⟩
  | checkpoint hpc' htarget hswept hnext =>
      exact .inl ⟨rfl, rfl, rfl, [.checkpoint _ _, .head], rfl, by simp [Event.plain]⟩
  | event hpc' =>
      rename_i e
      by_cases hremoved : ∃ height, e = .log height true
      · obtain ⟨height, rfl⟩ := hremoved
        exact .inr (.inl ⟨height, hpc', rfl, rfl, rfl, rfl⟩)
      · exact .inl (frame_event fun height he => hremoved ⟨height, he⟩)
  | timer hpc' => exact .inl ⟨rfl, rfl, rfl, [], rfl, by simp⟩
  | restart hpc' => exact .inr (.inr ⟨_, hpc', rfl⟩)

/-- The probe, or its absence: what the iteration records. -/
theorem at_probe (h : Step wsEnabled s s') (hpc : s.pc = .ready) :
    s'.tip.wsEnabled = s.tip.wsEnabled ∧ s'.tip.reorgAt = none ∧ s'.tick = nextTick s.tick ∧
      (s'.pc = .probed ∨ s'.pc = .failed) ∧
      (s.Due ∧ (∃ new, s'.history = new ++ .probe :: .iteration :: s.history ∧
          (new = [] ∨ ∃ lo, new = [.rolledBack lo])) ∨
        ¬s.Due ∧ s'.history = .iteration :: s.history) := by
  cases h with
  | stop hpc' =>
      rcases hpc' with hpc' | hpc' <;> rw [hpc] at hpc' <;> cases hpc'
  | checkFailed _ hdue => exact ⟨rfl, rfl, rfl, .inr rfl, .inl ⟨hdue, [], rfl, .inl rfl⟩⟩
  | canonical _ hdue => exact ⟨rfl, rfl, rfl, .inl rfl, .inl ⟨hdue, [], rfl, .inl rfl⟩⟩
  | @rolledBack lo _ hdue =>
      exact ⟨rfl, rfl, rfl, .inl rfl, .inl ⟨hdue, [.rolledBack lo], rfl, .inr ⟨lo, rfl⟩⟩⟩
  | unprobed _ hdue => exact ⟨rfl, rfl, rfl, .inl rfl, .inr ⟨hdue, rfl⟩⟩
  | _ =>
      rename s.pc = _ => hpc'
      rw [hpc] at hpc'
      cases hpc'

/-- What a history is after a probe, whether or not the probe rolled back. -/
theorem unprobed_probe {new history : List Event} (hnew : new = [] ∨ ∃ lo, new = [.rolledBack lo]) :
    unprobed (new ++ .probe :: .iteration :: history) = 0 ∧
      (new ++ .probe :: .iteration :: history).count .probe = history.count .probe + 1 ∧
      (new ++ .probe :: .iteration :: history).count .iteration = history.count .iteration + 1 ∧
      (new ++ .probe :: .iteration :: history).filterMap Event.removed? =
        history.filterMap Event.removed? := by
  have hplain : ∀ e ∈ new, e.plain = true := by
    rcases hnew with rfl | ⟨lo, rfl⟩
    · simp
    · simp [Event.plain]
  obtain ⟨hunprobed, hprobes, hiterations, hremovals⟩ :=
    unprobed_append hplain (.probe :: .iteration :: history)
  rw [hunprobed, hprobes, hiterations, hremovals]
  exact ⟨rfl, by simp, by simp, rfl⟩

theorem scheduled_probe (hinv : s.Scheduled wsEnabled) (hpc : s.pc = .ready)
    (h : Step wsEnabled s s') : s'.Scheduled wsEnabled := by
  obtain ⟨henabled, hreorg, htick, -, ⟨hdue, new, hhistory, hnew⟩ | ⟨hnot, hhistory⟩⟩ :=
    at_probe h hpc
  · obtain ⟨hunprobed, hprobes, hiterations, hremovals⟩ := @unprobed_probe new s.history hnew
    refine ⟨henabled.trans hinv.enabled, ?_, ?_, ?_⟩
    · rw [hhistory, hunprobed]
      exact Nat.zero_le _
    · intro _
      rw [hhistory, hunprobed]
    · intro hws
      have hcost := hinv.cost hws
      rw [hhistory, hprobes, hiterations, hremovals, hreorg, htick, nextTick_mod]
      show _ + 16 * 0 ≤ _
      -- the probe is paid for by the signal it clears, or by the sixteen ticks since the last
      rcases hdue with hsignal | hpoll | hmultiple
      · obtain ⟨height, hheight⟩ := Option.isSome_iff_exists.mp hsignal
        rw [hheight] at hcost
        have hone : (some height).toList.length = 1 := rfl
        omega
      · rw [hinv.enabled, hws] at hpoll
        cases hpoll
      · rw [reorgProbeTicks, nextTick_mod] at hmultiple
        omega
  · have hlow : (s.tick + 1) % 16 = s.tick % 16 + 1 := by
      have hnonzero : (s.tick + 1) % 16 ≠ 0 := fun hzero =>
        hnot (.inr (.inr ((nextTick_mod s.tick).trans hzero)))
      omega
    refine ⟨henabled.trans hinv.enabled, ?_, ?_, ?_⟩
    · have hwindow := hinv.window
      rw [hhistory, htick, nextTick_mod, hlow]
      show unprobed s.history + 1 ≤ _
      omega
    · intro hws
      exact absurd (.inr (.inl (hinv.enabled.trans hws))) hnot
    · intro hws
      have hcost := hinv.cost hws
      rw [hhistory, htick, nextTick_mod, hlow, hreorg, List.filterMap_cons_none rfl]
      simp only [List.count_cons_self, Option.toList_none, List.length_nil]
      have hprobes : (Event.iteration :: s.history).count .probe = s.history.count .probe := by simp
      omega

theorem scheduled_step (hinv : s.Scheduled wsEnabled) (h : Step wsEnabled s s') :
    s'.Scheduled wsEnabled := by
  by_cases hpc : s.pc = .ready
  · exact scheduled_probe hinv hpc h
  rcases outside_probe h hpc with hframe | ⟨height, -, -, htick, htip, hhistory⟩ | ⟨next, -, rfl⟩
  · exact scheduled_frame hinv hframe
  · refine ⟨?_, ?_, ?_, ?_⟩
    · rw [htip]
      exact hinv.enabled
    · rw [hhistory, htick]
      exact hinv.window
    · rw [hhistory]
      exact hinv.polled
    · intro hws
      have hcost := hinv.cost hws
      have hremovals : ((Event.removed height :: s.history).filterMap Event.removed?).length =
          (s.history.filterMap Event.removed?).length + 1 := rfl
      rw [hhistory, htick, htip, hremovals]
      simp only [TipState.onWsEvent, Option.toList_some, List.length_singleton]
      have hprobes : (Event.removed height :: s.history).count .probe = s.history.count .probe := by
        simp
      have hiterations : (Event.removed height :: s.history).count .iteration =
          s.history.count .iteration := by simp
      omega
  · refine ⟨rfl, Nat.zero_le _, fun _ => rfl, ?_⟩
    · intro hws
      have hcost := hinv.cost hws
      have hprobes : (Event.began next :: s.history).count .probe = s.history.count .probe := by
        simp
      have hiterations : (Event.began next :: s.history).count .iteration =
          s.history.count .iteration := by simp
      have hremovals : ((Event.began next :: s.history).filterMap Event.removed?).length =
          (s.history.filterMap Event.removed?).length := rfl
      simp only [begin, TipState.new, Option.toList_none, List.length_nil, hprobes, hiterations,
        hremovals]
      omega

/-- Without a signal every removed log has been probed for. -/
theorem probed_of_none (hinv : s.Signalled) (h : s.tip.reorgAt = none) :
    History.Since Event.removed? (fun _ later => Probed later) s.history := by
  refine hinv.since.imp fun height later hlater => ?_
  rcases hlater with ⟨-, hsignal⟩ | hprobed
  · rw [h] at hsignal
    cases hsignal
  · exact hprobed

theorem probed_append {new history : List Event} (hplain : ∀ e ∈ new, e.plain = true)
    (h : History.Since Event.removed? (fun _ later => Probed later) history) :
    History.Since Event.removed? (fun _ later => Probed later) (new ++ history) := by
  induction new with
  | nil => exact h
  | cons e new ih =>
      refine (ih fun x hx => hplain x (List.mem_cons_of_mem _ hx)).record
        (removed?_of_plain (hplain e List.mem_cons_self)) ?_
      intro _ later hlater
      exact hlater.record e

theorem signalled_top (hinv : s.Signalled) (hpc : s.pc = .top) (h : Step wsEnabled s s') :
    s'.Signalled := by
  have hkeep : ∀ e : Event, e.resubscribes = true → History.Since Event.removed?
      (fun height later => Quiet later ∧ s.tip.reorgAt = some height ∨ Probed later)
      (e :: s.history) := by
    intro e he
    refine hinv.since.record (by cases e <;> first | rfl | cases he) fun height later hlater => ?_
    rcases hlater with ⟨hquiet, hsignal⟩ | hprobed
    · exact .inl ⟨hquiet.record he, hsignal⟩
    · exact .inr (hprobed.record e)
  cases h with
  | stop _ => exact ⟨fun _ => .inr (.inr rfl), hinv.since⟩
  | subscribed _ _ => exact ⟨fun _ => .inr (.inl rfl), hkeep _ rfl⟩
  | refused _ => exact ⟨fun _ => .inr (.inl rfl), hkeep _ rfl⟩
  | unasked _ => exact ⟨fun _ => .inr (.inl rfl), hinv.since⟩
  | _ =>
      rename s.pc = _ => hpc'
      rw [hpc] at hpc'
      cases hpc'

theorem signalled_probe (hinv : s.Signalled) (hpc : s.pc = .ready) (h : Step wsEnabled s s') :
    s'.Signalled := by
  obtain ⟨-, hreorg, -, -, ⟨hdue, new, hhistory, hnew⟩ | ⟨hnot, hhistory⟩⟩ := at_probe h hpc
  · have hprobed : History.Since Event.removed? (fun _ later => Probed later)
        (.probe :: .iteration :: s.history) := by
      have hiteration : History.Since Event.removed?
          (fun _ later => Probed (.probe :: later)) (.iteration :: s.history) := by
        refine hinv.since.record rfl fun height later hlater => ?_
        rcases hlater with ⟨hquiet, -⟩ | hprobed
        · exact ⟨[], later, rfl, hquiet⟩
        · exact (hprobed.record _).record _
      exact hiteration.record rfl fun _ _ hlater => hlater
    refine ⟨by simp [hreorg], ?_⟩
    rw [hhistory]
    refine (probed_append ?_ hprobed).imp fun _ _ hlater => .inr hlater
    rcases hnew with rfl | ⟨lo, rfl⟩
    · simp
    · simp [Event.plain]
  · have hnone : s.tip.reorgAt = none := by
      rw [← Option.not_isSome_iff_eq_none]
      exact fun hsome => hnot (.inl hsome)
    refine ⟨by simp [hreorg], ?_⟩
    rw [hhistory]
    refine (probed_of_none hinv hnone).record rfl fun _ later hlater => .inr ?_
    exact hlater.record _

theorem signalled_step (hinv : s.Signalled) (h : Step wsEnabled s s') : s'.Signalled := by
  by_cases htop : s.pc = .top
  · exact signalled_top hinv htop h
  by_cases hready : s.pc = .ready
  · exact signalled_probe hinv hready h
  have hstopped : s.pc ≠ .stopped := by
    intro hpc
    cases h with
    | stop hpc' => simp [hpc] at hpc'
    | _ =>
        rename s.pc = _ => hpc'
        rw [hpc] at hpc'
        cases hpc'
  have hnone : s.tip.reorgAt = none := by
    rw [← Option.not_isSome_iff_eq_none]
    intro hsome
    rcases hinv.early hsome with hpc | hpc | hpc
    · exact htop hpc
    · exact hready hpc
    · exact hstopped hpc
  have hprobed := probed_of_none hinv hnone
  rcases outside_probe h hready with ⟨-, hreorg, -, new, hhistory, hplain⟩ |
    ⟨height, -, hpc, -, htip, hhistory⟩ | ⟨next, -, rfl⟩
  · refine ⟨by simp [hreorg, hnone], ?_⟩
    rw [hhistory]
    exact (probed_append hplain hprobed).imp fun _ _ hlater => .inr hlater
  · refine ⟨fun _ => .inl hpc, ?_⟩
    rw [hhistory, htip]
    refine History.since_cons.mpr ⟨?_, hprobed.imp fun _ later hlater => .inr (hlater.record _)⟩
    rintro b ⟨⟩
    refine .inl ⟨by simp [Quiet], ?_⟩
    simp only [TipState.onWsEvent, hnone, Option.map_none, Option.getD_none]
  · refine ⟨fun _ => .inl rfl, ?_⟩
    exact hprobed.record rfl fun _ later hlater => .inr (hlater.record _)

/-- In every state of every run of the tip loop, restarts included: fewer than sixteen iterations of
the loop have gone by since its last probe, or since it was built, and none on the poll path; a
removed log is signalled with its own height and probed for in the next iteration, before the head is
polled, anything is fetched or the cursor moves; and with a stream the probes are paid for by removed
logs and by sixteen iterations each. -/
theorem probe_schedule (cfg : Config) (wsEnabled : Bool) (s : State)
    (h : Reachable (system cfg wsEnabled) anyStep s) :
    unprobed s.history ≤ 15 ∧
      (wsEnabled = false → unprobed s.history = 0) ∧
      History.Since Event.removed?
        (fun height later => Quiet later ∧ s.tip.reorgAt = some height ∨ Probed later) s.history ∧
      (wsEnabled = true → 16 * s.history.count .probe ≤
        16 * (s.history.filterMap Event.removed?).length + s.history.count .iteration) := by
  have hinv : s.Scheduled wsEnabled ∧ s.Signalled := by
    apply h.invariant fun s => s.Scheduled wsEnabled ∧ s.Signalled
    · rintro s ⟨next, rfl⟩
      refine ⟨⟨rfl, Nat.zero_le _, fun _ => rfl, fun _ => ?_⟩, fun _ => .inl rfl, ?_⟩
      · exact Nat.le_refl 0
      · exact History.since_nil.record rfl fun _ _ hlater => hlater
    · intro s act s' hinv _ hstep
      have hcase := step_cases hstep
      exact ⟨scheduled_step hinv.1 hcase, signalled_step hinv.2 hcase⟩
  obtain ⟨hscheduled, hsignalled⟩ := hinv
  refine ⟨?_, hscheduled.polled, hsignalled.since, ?_⟩
  · have hwindow := hscheduled.window
    omega
  · intro hws
    have hcost := hscheduled.cost hws
    omega

/-- A removed log, the resubscription after it, and the probe that answers it. -/
theorem probe_schedule_after_removed : ∃ s,
    Reachable (system fromOne true) anyStep s ∧
      s.history = [.rolledBack 9, .probe, .iteration, .removed 9, .fetched 1 11 10, .head, .iteration,
        .subscribed 1, .began 1] ∧
      unprobed s.history ≤ 15 := by
  have hinit : Reachable (system fromOne true) anyStep (begin true 1 []) := .init ⟨1, rfl⟩
  obtain ⟨s, hs, hhistory⟩ := hinit.exists_observed
    [.subscribe (some ⟨10, [], 10, true⟩), .probe none, .poll (some 10) (some ⟨some 10, false⟩),
      .event (.log 9 true), .subscribe none, .probe (some (some 9))]
    (fun _ _ _ => trivial) State.history
    (b := [.rolledBack 9, .probe, .iteration, .removed 9, .fetched 1 11 10, .head, .iteration,
      .subscribed 1, .began 1]) (by decide +kernel)
  exact ⟨s, hs, hhistory, (probe_schedule fromOne true s hs).1⟩

/-- The block a sweep is due from, where the event forces one. -/
def Event.forces : Event → Option Nat
  | .began next | .subscribed next | .rolledBack next => some next
  | _ => none

def Event.checkpoint? : Event → Option Nat
  | .checkpoint start _ => some start
  | _ => none

/-- The loop goes on at another block than the one it had reached. -/
def Event.resets : Event → Bool
  | .began _ | .rolledBack _ => true
  | _ => false

/-- The blocks from `lo` up to `hi`, without it, were fetched. -/
def Fetched (later : List Event) (lo hi : Nat) : Prop :=
  ∀ height, lo ≤ height → height < hi →
    ∃ start resumed safe, .fetched start resumed safe ∈ later ∧ start ≤ height ∧ height < resumed

/-- The sweep from `lo` has reached a safe tip below `next`. -/
def Swept (later : List Event) (lo next : Nat) : Prop :=
  ∃ safe, lo ≤ safe ∧ safe < next ∧ Fetched later lo (safe + 1)

/-- What was done of the sweep that is due from `lo`, as long as the loop was not reset. -/
def Sweeping (reconcile : Bool) (next lo : Nat) (later : List Event) : Prop :=
  (∀ e ∈ later, e.resets = false) →
    lo ≤ next ∧ (reconcile = true ∧ Fetched later lo next ∨ Swept later lo next)

theorem Fetched.record {later : List Event} {lo hi : Nat} (h : Fetched later lo hi) (e : Event) :
    Fetched (e :: later) lo hi := by
  intro height hlo hhi
  obtain ⟨start, resumed, safe, hmem, hwithin⟩ := h height hlo hhi
  exact ⟨start, resumed, safe, List.mem_cons_of_mem _ hmem, hwithin⟩

/-- A fetch that starts where the sweep stands carries it on. -/
theorem Fetched.extend {later : List Event} {lo next resumed safe : Nat} (h : Fetched later lo next) :
    Fetched (.fetched next resumed safe :: later) lo resumed := by
  intro height hlo hhi
  by_cases hold : height < next
  · exact h.record _ height hlo hold
  · exact ⟨next, resumed, safe, List.mem_cons_self, Nat.le_of_not_lt hold, hhi⟩

theorem Swept.record {later : List Event} {lo next : Nat} (h : Swept later lo next) (e : Event) :
    Swept (e :: later) lo next := by
  obtain ⟨safe, hlo, hsafe, hfetched⟩ := h
  exact ⟨safe, hlo, hsafe, hfetched.record e⟩

theorem Swept.mono {later : List Event} {lo next next' : Nat} (h : Swept later lo next)
    (hle : next ≤ next') : Swept later lo next' := by
  obtain ⟨safe, hlo, hsafe, hfetched⟩ := h
  exact ⟨safe, hlo, hsafe.trans_le hle, hfetched⟩

theorem Sweeping.record {reconcile : Bool} {next lo : Nat} {later : List Event}
    (h : Sweeping reconcile next lo later) (e : Event) : Sweeping reconcile next lo (e :: later) := by
  intro hresets
  obtain ⟨hlo, ⟨hdue, hfetched⟩ | hswept⟩ := h fun x hx => hresets x (List.mem_cons_of_mem _ hx)
  · exact ⟨hlo, .inl ⟨hdue, hfetched.record e⟩⟩
  · exact ⟨hlo, .inr (hswept.record e)⟩

/-- A sweep that is forced anew leaves the ones under way due. -/
theorem Sweeping.force {reconcile : Bool} {next lo : Nat} {later : List Event}
    (h : Sweeping reconcile next lo later) : Sweeping true next lo later := by
  intro hresets
  obtain ⟨hlo, ⟨-, hfetched⟩ | hswept⟩ := h hresets
  · exact ⟨hlo, .inl ⟨rfl, hfetched⟩⟩
  · exact ⟨hlo, .inr hswept⟩

/-- A sweep that starts has nothing to do yet. -/
theorem sweeping_nil (next : Nat) : Sweeping true next next [] := by
  intro _
  refine ⟨le_refl next, .inl ⟨rfl, fun height hlo hhi => ?_⟩⟩
  omega

theorem Sweeping.reset {reconcile : Bool} {next lo : Nat} {e : Event} (he : e.resets = true)
    (later : List Event) : Sweeping reconcile next lo (e :: later) := by
  intro hresets
  rw [hresets e List.mem_cons_self] at he
  cases he

/-- A fetch carries each sweep on, and ends those that were due if it reaches its safe tip. -/
theorem Sweeping.fetched {reconcile : Bool} {next resumed safe lo : Nat} {later : List Event}
    (h : Sweeping reconcile next lo later) (hsafe : next ≤ safe) (hresumed : next ≤ resumed) :
    Sweeping (decide (resumed ≤ safe)) resumed lo (.fetched next resumed safe :: later) ∧
      Sweeping reconcile resumed lo (.fetched next resumed safe :: later) := by
  constructor
  · intro hresets
    obtain ⟨hlo, ⟨-, hfetched⟩ | hswept⟩ := h fun x hx => hresets x (List.mem_cons_of_mem _ hx)
    · refine ⟨hlo.trans hresumed, ?_⟩
      by_cases hshort : resumed ≤ safe
      · exact .inl ⟨decide_eq_true hshort, hfetched.extend⟩
      · refine .inr ⟨safe, hlo.trans hsafe, Nat.lt_of_not_le hshort, ?_⟩
        intro height hheight hle
        exact hfetched.extend height hheight (by omega)
    · exact ⟨hlo.trans hresumed, .inr ((hswept.record _).mono hresumed)⟩
  · intro hresets
    obtain ⟨hlo, ⟨hdue, hfetched⟩ | hswept⟩ := h fun x hx => hresets x (List.mem_cons_of_mem _ hx)
    · exact ⟨hlo.trans hresumed, .inl ⟨hdue, hfetched.extend⟩⟩
    · exact ⟨hlo.trans hresumed, .inr ((hswept.record _).mono hresumed)⟩

/-- Without a sweep that is due, each one has reached a safe tip. -/
theorem Sweeping.swept {next lo : Nat} {later : List Event} (h : Sweeping false next lo later)
    (hresets : ∀ e ∈ later, e.resets = false) : Swept later lo next := by
  obtain ⟨-, ⟨hdue, -⟩ | hswept⟩ := h hresets
  · cases hdue
  · exact hswept

/-- Every sweep that was forced is under way or done, and was done before each checkpoint. -/
structure State.SweepsDone (s : State) : Prop where
  since : History.Since Event.forces
    (fun lo later => Sweeping s.tip.reconcile s.next lo later) s.history
  before : History.Before Event.checkpoint?
    (fun start earlier => History.Since Event.forces
      (fun lo later => (∀ e ∈ later, e.resets = false) → Swept later lo start) earlier) s.history

theorem Sweeping.advance {next next' lo : Nat} {later : List Event}
    (h : Sweeping false next lo later) (hle : next ≤ next') (e : Event) :
    Sweeping false next' lo (e :: later) := by
  intro hresets
  have hold : ∀ x ∈ later, x.resets = false := fun x hx => hresets x (List.mem_cons_of_mem _ hx)
  exact ⟨(h hold).1.trans hle, .inr (((h.swept hold).record e).mono hle)⟩

/-- An event that neither forces a sweep nor is a checkpoint. -/
theorem State.SweepsDone.record (hinv : s.SweepsDone) {e : Event} (hforces : e.forces = none)
    (hcheckpoint : e.checkpoint? = none) :
    State.SweepsDone { s with history := e :: s.history } :=
  ⟨hinv.since.record hforces fun _ _ hlater => hlater.record e, hinv.before.record hcheckpoint⟩

theorem sweepsDone_fetched (hinv : s.SweepsDone) {resumed safe : Nat} (hsafe : s.next ≤ safe)
    (hresumed : s.next ≤ resumed) :
    State.SweepsDone { s with
        tip := TipState.clearThrough { s.tip with reconcile := decide (resumed ≤ safe) } (resumed - 1)
        next := resumed
        history := .fetched s.next resumed safe :: s.history } ∧
      State.SweepsDone { s with
        next := resumed
        history := .fetched s.next resumed safe :: s.history } := by
  refine ⟨⟨?_, hinv.before.record rfl⟩, ?_, hinv.before.record rfl⟩
  · exact hinv.since.record rfl fun _ _ hlater => (hlater.fetched hsafe hresumed).1
  · exact hinv.since.record rfl fun _ _ hlater => (hlater.fetched hsafe hresumed).2

theorem sweepsDone_checkpoint (hinv : s.SweepsDone) {target : Nat} (htarget : s.next ≤ target)
    (hswept : s.tip.reconcile = false) :
    State.SweepsDone { s with
      next := target + 1
      history := .checkpoint s.next target :: s.history } := by
  have hsince := hinv.since
  rw [hswept] at hsince
  constructor
  · show History.Since _ (fun lo later => Sweeping s.tip.reconcile _ lo later) _
    rw [hswept]
    exact hsince.record rfl fun _ _ hlater => hlater.advance (Nat.le_succ_of_le htarget) _
  · refine History.before_cons.mpr ⟨?_, hinv.before⟩
    rintro start ⟨⟩
    exact hsince.imp fun _ _ hlater => hlater.swept

theorem sweepsDone_begin {history : List Event} (next : Nat)
    (h : History.Before Event.checkpoint?
      (fun start earlier => History.Since Event.forces
        (fun lo later => (∀ e ∈ later, e.resets = false) → Swept later lo start) earlier) history) :
    (begin wsEnabled next history).SweepsDone := by
  refine ⟨History.since_cons.mpr ⟨?_, ?_⟩, h.record rfl⟩
  · rintro lo ⟨⟩
    exact sweeping_nil next
  · intro later e earlier lo _ _
    exact Sweeping.reset rfl later

theorem sweepsDone_step (hinv : s.SweepsDone) (h : Step wsEnabled s s') : s'.SweepsDone := by
  cases h with
  | stop _ => exact ⟨hinv.since, hinv.before⟩
  | subscribed _ _ =>
      refine ⟨History.since_cons.mpr ⟨?_, ?_⟩, hinv.before.record rfl⟩
      · rintro lo ⟨⟩
        exact sweeping_nil s.next
      · exact hinv.since.imp fun _ _ hlater => hlater.force.record _
  | refused _ => exact ⟨(hinv.record rfl rfl).since, hinv.before.record rfl⟩
  | unasked _ => exact ⟨hinv.since, hinv.before⟩
  | checkFailed _ _ =>
      have hrecorded := (hinv.record (e := .iteration) rfl rfl).record (e := .probe) rfl rfl
      exact ⟨hrecorded.since, hrecorded.before⟩
  | canonical _ _ =>
      have hrecorded := (hinv.record (e := .iteration) rfl rfl).record (e := .probe) rfl rfl
      exact ⟨hrecorded.since, hrecorded.before⟩
  | @rolledBack lo _ _ =>
      have hrecorded := (hinv.record (e := .iteration) rfl rfl).record (e := .probe) rfl rfl
      refine ⟨History.since_cons.mpr ⟨?_, ?_⟩, hrecorded.before.record rfl⟩
      · rintro lo ⟨⟩
        exact sweeping_nil lo
      · -- the sweeps that were under way are given up for the one from the fork
        intro later e earlier lo _ _
        exact Sweeping.reset rfl later
  | unprobed _ _ =>
      have hrecorded := hinv.record (e := .iteration) rfl rfl
      exact ⟨hrecorded.since, hrecorded.before⟩
  | idle _ => exact ⟨hinv.since, hinv.before⟩
  | headFailed _ => exact ⟨(hinv.record rfl rfl).since, hinv.before.record rfl⟩
  | level _ => exact ⟨(hinv.record rfl rfl).since, hinv.before.record rfl⟩
  | fetched _ hsafe hresumed _ =>
      have hfetched := (sweepsDone_fetched (hinv.record (e := .head) rfl rfl) hsafe hresumed).1
      exact ⟨hfetched.since, hfetched.before⟩
  | shutdown _ hsafe hresumed =>
      have hfetched := (sweepsDone_fetched (hinv.record (e := .head) rfl rfl) hsafe hresumed).2
      exact ⟨hfetched.since, hfetched.before⟩
  | checkpoint _ htarget hswept _ =>
      have hcheckpoint := sweepsDone_checkpoint (hinv.record (e := .head) rfl rfl) htarget hswept
      exact ⟨hcheckpoint.since, hcheckpoint.before⟩
  | @event e _ =>
      have hforces : (heard e).forces = none ∧ (heard e).checkpoint? = none := by
        rcases e with ⟨height, _ | _⟩ | _ | _ <;> exact ⟨rfl, rfl⟩
      refine ⟨?_, (hinv.record hforces.1 hforces.2).before⟩
      show History.Since _ (fun lo later => Sweeping (s.tip.onWsEvent e).reconcile _ lo later) _
      rw [Fallback.reconcile_onWsEvent]
      exact (hinv.record hforces.1 hforces.2).since
  | timer _ => exact ⟨hinv.since, hinv.before⟩
  | restart _ => exact sweepsDone_begin _ hinv.before

/-- In every run of the tip loop, whenever the cursor is moved without a fetch, each sweep forced
since the loop last started or rolled back has been fetched, block by block from the block it was
due from, to a safe tip below the checkpoint. -/
theorem swept_before_checkpoint (cfg : Config) (wsEnabled : Bool) (s : State)
    (h : Reachable (system cfg wsEnabled) anyStep s) :
    History.Before Event.checkpoint?
      (fun start earlier => History.Since Event.forces
        (fun lo later => (∀ e ∈ later, e.resets = false) → Swept later lo start) earlier)
      s.history := by
  have hinv : s.SweepsDone := by
    apply h.invariant State.SweepsDone
    · rintro s ⟨next, rfl⟩
      exact sweepsDone_begin next History.before_nil
    · intro s act s' hinv _ hstep
      exact sweepsDone_step hinv (step_cases hstep)
  exact hinv.before

/-- A rollback to block 9, two fetches that reach the safe tip, and a checkpoint after them. -/
theorem swept_before_checkpoint_after_rollback : ∃ s,
    Reachable (system fromOne true) anyStep s ∧
      s.history.take 4 = [.checkpoint 21 25, .head, .iteration, .logged 30] ∧
      History.Before Event.checkpoint?
        (fun start earlier => History.Since Event.forces
          (fun lo later => (∀ e ∈ later, e.resets = false) → Swept later lo start) earlier)
        s.history := by
  have hinit : Reachable (system fromOne true) anyStep (begin true 1 []) := .init ⟨1, rfl⟩
  obtain ⟨s, hs, hhistory⟩ := hinit.exists_observed
    [.subscribe (some ⟨10, [], 10, true⟩), .probe none, .poll (some 10) (some ⟨some 10, false⟩),
      .event (.log 9 true), .subscribe none, .probe (some (some 9)),
      .poll (some 20) (some ⟨some 18, false⟩), .subscribe none, .probe none,
      .poll (some 20) (some ⟨some 20, false⟩), .event (.log 30 false), .subscribe none, .probe none,
      .poll (some 25) (some ⟨none, false⟩)]
    (fun _ _ _ => trivial) (fun s => s.history.take 4)
    (b := [.checkpoint 21 25, .head, .iteration, .logged 30]) (by decide +kernel)
  exact ⟨s, hs, hhistory, swept_before_checkpoint fromOne true s hs⟩

end Topic0.Tip.Probing
