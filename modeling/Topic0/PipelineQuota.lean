import Topic0.PipelineGapFree

/-! The quota of a supervised chain. An attempt builds the source anew and its spend ledger with it,
so that the ledger shows what the attempt has metered and not what the process has. The quota is
looked at on the top of the loop and after each fetch, before the error of a fetch that failed; what
happens between two looks is done under the first. `total` is what the chain has metered since the
process started. -/

namespace Topic0

/-- The metered units, with the quota they are held against. -/
structure SpendLedger where
  units : Nat
  monthlyQuota : Option Nat
  deriving DecidableEq

namespace SpendLedger

def new (monthlyQuota : Option Nat) : SpendLedger := ⟨0, monthlyQuota⟩

/-- `fetch_add` on 64 bits. -/
def record (ledger : SpendLedger) (units : Nat) : SpendLedger :=
  { ledger with units := (ledger.units + units) % 2 ^ 64 }

def remainingQuota (ledger : SpendLedger) : Option Nat :=
  ledger.monthlyQuota.map fun quota => quota - ledger.units

def quotaExhausted (ledger : SpendLedger) : Bool := ledger.remainingQuota == some 0

theorem quotaExhausted_iff {ledger : SpendLedger} {q : Nat} (h : ledger.monthlyQuota = some q) :
    ledger.quotaExhausted = true ↔ q ≤ ledger.units := by
  rw [quotaExhausted, remainingQuota, h, Option.map_some, beq_iff_eq, Option.some.injEq]
  omega

end SpendLedger

namespace Supervisor

open Pipeline (Config)

variable {layout : String → PkColumns}

structure State (layout : String → PkColumns) where
  pipeline : Pipeline.State layout
  ledger : SpendLedger
  total : Nat
  /-- The iteration has passed the check on the top of the loop. -/
  passed : Bool
  /-- `supervised_ingest` has returned. -/
  returned : Bool

/-- Where an error comes from. -/
inductive Cause where
  /-- The head poll or the reorg probe of an iteration. -/
  | call
  | fetch
  /-- A statement of the loop or of the writer. -/
  | database
  | panic

/-- An error of the kind can come up. -/
def Cause.arises : Pipeline.Proc → Cause → Bool
  | .idle, _ => false
  | .loop _, .call | .loop _, .database => true
  | .sweep d, .fetch => !d.todo.isEmpty && !d.shutdown
  | .sweep d, .database => !d.channel.isEmpty || d.checkpoint.isSome
  | _, .panic => true
  | _, _ => false

inductive Act where
  /-- `run_chain_once`: a new source, a new ledger, and the loop from the cursor. -/
  | attempt
  /-- A call is issued and metered. -/
  | meter (units : Nat)
  /-- The top of the loop, with quota left. -/
  | pass
  /-- An iteration ends. -/
  | tick
  /-- The loop returns: cancelled, or without quota. -/
  | leave
  /-- What the loop and its drive do. -/
  | work (act : Pipeline.Act)
  /-- An error or a panic. -/
  | fail (cause : Cause)

/-- Under which check the loop takes a step. -/
def State.allows (s : State layout) : Pipeline.Act → Bool
  | .sweep _ | .checkpoint _ | .check _ => s.passed
  | .drive (.complete _ _) => !s.ledger.quotaExhausted
  | .drive _ | .finish => true
  | .startBackfill _ _ | .startLoop | .interrupt => false

/-- The iteration is over after a window. -/
def endsIteration : Pipeline.Act → Bool
  | .checkpoint _ | .finish => true
  | _ => false

/-- A step of the loop, or of its drive. -/
def State.work (cfg : Config) (s : State layout) (act : Pipeline.Act) : Option (State layout) :=
  if s.allows act then
    (s.pipeline.step cfg act).map fun p =>
      { s with
        pipeline := p
        passed := s.passed && !endsIteration act
        -- a drive that was stopped ends the loop
        returned := s.returned || (endsIteration act && match p.proc with
          | .idle => true
          | _ => false) }
  else none

/-- The attempt is over, and the supervisor makes another one. -/
def State.ended (s : State layout) : State layout :=
  { s with pipeline := { s.pipeline with proc := .idle }, passed := false }

/-- `fetch_producer` drops what a fetch returned, an error too, when it finds the quota used up. -/
def State.drops (s : State layout) : Cause → Bool
  | .fetch => s.ledger.quotaExhausted
  | _ => false

def State.step (cfg : Config) (quota : Option Nat) (s : State layout) : Act → Option (State layout)
  | .attempt =>
      if s.returned then none
      else (s.pipeline.step cfg .startLoop).map fun p =>
        { s with pipeline := p, ledger := SpendLedger.new quota, passed := false }
  | .meter units =>
      match s.pipeline.proc with
      | .idle => none
      | _ => some { s with ledger := s.ledger.record units, total := s.total + units }
  | .pass =>
      match s.pipeline.proc with
      | .loop _ => if s.ledger.quotaExhausted then none else some { s with passed := true }
      | _ => none
  | .tick =>
      match s.pipeline.proc with
      | .loop _ => some { s with passed := false }
      | _ => none
  | .leave =>
      match s.pipeline.proc with
      | .loop _ => some { s with
          pipeline := { s.pipeline with proc := .idle }
          passed := false
          returned := true }
      | _ => none
  | .work act => s.work cfg act
  | .fail cause =>
      if cause.arises s.pipeline.proc then
        if s.drops cause then s.work cfg (.drive .stop) else some s.ended
      else none

/-- The runs of `supervised_ingest` for one chain in one process. -/
def system (cfg : Config) (quota : Option Nat) (store : Store layout) :
    Transition.System (State layout) Act where
  init s := s = ⟨⟨store, [], .idle⟩, SpendLedger.new quota, 0, false, false⟩
  step := State.step cfg quota

/-- A catch-up window is started, or a fetched range is committed. -/
def Act.Proceeds : Act → Prop
  | .work (.sweep _) | .work (.checkpoint _) | .work (.drive .commit) => True
  | _ => False

/-- With the quota used up, neither can happen. -/
def GuardHolds (cfg : Config) (q : Nat) (s : State layout) : Prop :=
  q ≤ s.total → ∀ act : Act, act.Proceeds → s.step cfg (some q) act = none

/-- Nothing is under way that the quota would not stop: no range waits for the writer, and no
iteration has passed its check. -/
def State.Quiet (s : State layout) : Prop :=
  match s.pipeline.proc with
  | .sweep d | .backfill d => d.channel = []
  | .loop _ => s.passed = false
  | .idle => True

/-- The process reaches the quota in a call with which the ledger of the attempt reaches it too,
while nothing is under way; and no attempt whose ledger has reached it ends in an error that is not
dropped, or in a panic. -/
def Watched (q : Nat) (s : State layout) : Act → Prop
  | .meter units => q ≤ s.total + units →
      q ≤ s.ledger.units + units ∧ s.ledger.units + units < 2 ^ 64 ∧ s.Quiet
  | .fail cause => s.drops cause = true ∨ q = 0 ∨ s.ledger.quotaExhausted = false
  | _ => True

/-- Where the process has used up the quota, a running attempt sees it and has nothing under way,
and no other attempt is made. -/
structure Inv (q : Nat) (s : State layout) : Prop where
  quota : s.ledger.monthlyQuota = some q
  seen : q ≤ s.total → s.pipeline.proc ≠ .idle → q ≤ s.ledger.units ∧ s.Quiet
  ended : q ≤ s.total → s.pipeline.proc = .idle → s.returned = true ∨ q = 0

/-- A running attempt whose quota is used up sees it. -/
theorem Inv.exhausted {q : Nat} {s : State layout} (h : Inv q s)
    (hrunning : s.pipeline.proc ≠ .idle) (hq : q ≤ s.total) : s.ledger.quotaExhausted = true :=
  (SpendLedger.quotaExhausted_iff h.quota).mpr (h.seen hq hrunning).1

/-- The drive a process is in. -/
def drive? : Pipeline.Proc → Option Pipeline.Drive
  | .sweep d | .backfill d => some d
  | .loop _ | .idle => none

/-- What is known of a step of the loop, by its kind. -/
def Worked (s s' : State layout) : Pipeline.Act → Prop
  | .sweep _ | .checkpoint _ | .check _ => (∃ next, s.pipeline.proc = .loop next) ∧ s.passed = true
  | .drive (.complete _ _) => s.ledger.quotaExhausted = false
  | .drive .commit => ∃ d, drive? s.pipeline.proc = some d ∧ d.channel ≠ []
  | .drive _ => ∃ d d', drive? s.pipeline.proc = some d ∧ drive? s'.pipeline.proc = some d' ∧
      d'.channel = d.channel
  | .finish => s'.passed = false ∧
      (s'.pipeline.proc = .idle ∨ ∃ next, s'.pipeline.proc = .loop next)
  | .startBackfill _ _ | .startLoop | .interrupt => False

section Steps

variable {cfg : Config} {quota : Option Nat} {q : Nat} {s s' : State layout}

/-- A step of the loop meters nothing. -/
structure SameSpend (s s' : State layout) : Prop where
  ledger : s'.ledger = s.ledger
  total : s'.total = s.total

theorem worked_drive {store store' : Store layout} {committed committed' : List Pipeline.Range}
    {d d' : Pipeline.Drive} {act : Pipeline.DriveAct}
    (h : Pipeline.Work.Step cfg ⟨store, committed, d⟩ act ⟨store', committed', d'⟩)
    (hproc : drive? s.pipeline.proc = some d) (hproc' : drive? s'.pipeline.proc = some d')
    (hallows : s.allows (.drive act) = true) : Worked s s' (.drive act) := by
  cases h with
  | complete hplanned => simpa [State.allows, Worked] using hallows
  | stop hbusy => exact ⟨_, _, hproc, hproc', rfl⟩
  | commit hchannel hdue hcommit =>
      refine ⟨d, hproc, ?_⟩
      rw [hchannel]
      exact List.cons_ne_nil _ _
  | advance hdue => exact ⟨_, _, hproc, hproc', rfl⟩

theorem work_cases {act : Pipeline.Act} (h : s.work cfg act = some s') :
    s.pipeline.proc ≠ .idle ∧ SameSpend s s' ∧
      (s'.pipeline.proc = .idle → s'.returned = true) ∧ Worked s s' act := by
  rw [State.work] at h
  split at h
  · rename_i hallows
    obtain ⟨p, hp, rfl⟩ := Option.map_eq_some_iff.mp h
    obtain ⟨pipeline, ledger, total, passed, returned⟩ := s
    have hsame : SameSpend (⟨pipeline, ledger, total, passed, returned⟩ : State layout)
        ⟨p, ledger, total, passed && !endsIteration act, returned ||
          (endsIteration act && match p.proc with
            | .idle => true
            | _ => false)⟩ := ⟨rfl, rfl⟩
    cases Pipeline.State.step_cases hp with
    | startBackfill => cases hallows
    | startLoop => cases hallows
    | sweep hbehind => exact ⟨nofun, hsame, nofun, ⟨_, rfl⟩, hallows⟩
    | checkpoint hbehind => exact ⟨nofun, hsame, nofun, ⟨_, rfl⟩, hallows⟩
    | checkNone hcheck => exact ⟨nofun, hsame, nofun, ⟨_, rfl⟩, hallows⟩
    | checkSome hcheck => exact ⟨nofun, hsame, nofun, ⟨_, rfl⟩, hallows⟩
    | driveBackfill hstep => exact ⟨nofun, hsame, nofun, worked_drive hstep rfl rfl hallows⟩
    | driveSweep hstep => exact ⟨nofun, hsame, nofun, worked_drive hstep rfl rfl hallows⟩
    | finishBackfill => exact ⟨nofun, hsame, fun _ => Bool.or_true _, Bool.and_false _, .inl rfl⟩
    | @finishSweep store committed d hdue =>
        cases hshutdown : d.shutdown with
        | true =>
            simp only [hshutdown, if_true] at hsame ⊢
            exact ⟨nofun, hsame, fun _ => Bool.or_true _, Bool.and_false _, .inl rfl⟩
        | false =>
            simp only [hshutdown, Bool.false_eq_true, if_false] at hsame ⊢
            exact ⟨nofun, hsame, nofun, Bool.and_false _, .inr ⟨_, rfl⟩⟩
    | interrupt => cases hallows
  · cases h

/-- Where a drive is in progress, quiet means that its channel is empty. -/
theorem quiet_of_drive {d : Pipeline.Drive} (hproc : drive? s.pipeline.proc = some d) :
    s.Quiet ↔ d.channel = [] := by
  unfold State.Quiet
  cases hcase : s.pipeline.proc with
  | idle =>
      rw [hcase] at hproc
      cases hproc
  | loop next =>
      rw [hcase] at hproc
      cases hproc
  | sweep d' =>
      rw [hcase] at hproc
      cases hproc
      rfl
  | backfill d' =>
      rw [hcase] at hproc
      cases hproc
      rfl

theorem quiet_of_loop {next : Nat} (hproc : s.pipeline.proc = .loop next) :
    s.Quiet ↔ s.passed = false := by
  rw [State.Quiet, hproc]

/-- Nothing proceeds with the quota used up. -/
theorem Inv.guardHolds (h : Inv q s) : GuardHolds cfg q s := by
  intro hq act hproceeds
  have hpassed : (∃ next, s.pipeline.proc = .loop next) ∧ s.passed = true → False := by
    intro hwindow
    obtain ⟨⟨next, hproc⟩, hpassed⟩ := hwindow
    have hrunning : s.pipeline.proc ≠ .idle := by
      rw [hproc]
      nofun
    rw [(quiet_of_loop hproc).mp (h.seen hq hrunning).2] at hpassed
    cases hpassed
  have hempty : (∃ d, drive? s.pipeline.proc = some d ∧ d.channel ≠ []) → False := by
    intro hcommit
    obtain ⟨d, hproc, hchannel⟩ := hcommit
    have hrunning : s.pipeline.proc ≠ .idle := by
      intro hidle
      rw [hidle] at hproc
      cases hproc
    exact hchannel ((quiet_of_drive hproc).mp (h.seen hq hrunning).2)
  cases hstep : s.step cfg (some q) act with
  | none => rfl
  | some s' =>
      exfalso
      cases act with
      | work act =>
          obtain ⟨-, -, -, hworked⟩ := work_cases hstep
          cases act with
          | sweep head => exact hpassed hworked
          | checkpoint head => exact hpassed hworked
          | drive act =>
              cases act with
              | commit => exact hempty hworked
              | _ => exact hproceeds
          | _ => exact hproceeds
      | _ => exact hproceeds

/-- With the quota used up, a step of the loop leaves it quiet. -/
theorem quiet_work {act : Pipeline.Act} (h : Inv q s) (hq : q ≤ s.total)
    (hstep : s.work cfg act = some s') : s'.Quiet := by
  obtain ⟨hrunning, -, -, hworked⟩ := work_cases hstep
  have hquiet := (h.seen hq hrunning).2
  have hblocked : ∀ act : Pipeline.Act, (Act.work act).Proceeds → s.work cfg act = none :=
    fun act hproceeds => h.guardHolds hq (.work act) hproceeds
  cases act with
  | sweep head =>
      rw [hblocked (.sweep head) trivial] at hstep
      cases hstep
  | checkpoint head =>
      rw [hblocked (.checkpoint head) trivial] at hstep
      cases hstep
  | check blockHash =>
      obtain ⟨⟨next, hproc⟩, hpassed⟩ := hworked
      rw [(quiet_of_loop hproc).mp hquiet] at hpassed
      cases hpassed
  | drive act =>
      cases act with
      | complete i fetched =>
          have hleft : s.ledger.quotaExhausted = false := hworked
          rw [h.exhausted hrunning hq] at hleft
          cases hleft
      | commit =>
          rw [hblocked (.drive .commit) trivial] at hstep
          cases hstep
      | stop =>
          obtain ⟨d, d', hd, hd', hchannel⟩ := hworked
          rw [quiet_of_drive hd', hchannel]
          exact (quiet_of_drive hd).mp hquiet
      | advance =>
          obtain ⟨d, d', hd, hd', hchannel⟩ := hworked
          rw [quiet_of_drive hd', hchannel]
          exact (quiet_of_drive hd).mp hquiet
  | finish =>
      obtain ⟨hpassed, hidle | ⟨next, hproc⟩⟩ := hworked
      · rw [State.Quiet, hidle]
        trivial
      · exact (quiet_of_loop hproc).mpr hpassed
  | startBackfill lo hi => cases hworked
  | startLoop => cases hworked
  | interrupt => cases hworked

theorem inv_work {act : Pipeline.Act} (h : Inv q s) (hstep : s.work cfg act = some s') :
    Inv q s' := by
  obtain ⟨hrunning, ⟨hledger, htotal⟩, hreturned, -⟩ := work_cases hstep
  refine ⟨?_, fun hq _ => ?_, fun _ hidle => .inl (hreturned hidle)⟩
  · rw [hledger]
    exact h.quota
  · rw [htotal] at hq
    rw [hledger]
    exact ⟨(h.seen hq hrunning).1, quiet_work h hq hstep⟩

/-- An attempt with the quota used up is made only where there is none. -/
theorem inv_attempt (h : Inv q s) (hstep : s.step cfg (some q) .attempt = some s') : Inv q s' := by
  rw [State.step] at hstep
  split at hstep
  · cases hstep
  rename_i hreturned
  obtain ⟨p, hp, rfl⟩ := Option.map_eq_some_iff.mp hstep
  have hidle : s.pipeline.proc = .idle := by
    cases hproc : s.pipeline.proc <;> rw [Pipeline.State.step, hproc] at hp <;> cases hp
  have hloop : ∃ next, p.proc = .loop next := by
    rw [Pipeline.State.step, hidle] at hp
    cases hp
    exact ⟨_, rfl⟩
  obtain ⟨next, hnext⟩ := hloop
  refine ⟨rfl, fun hq _ => ?_, fun _ hp' => ?_⟩
  · obtain hended | rfl := h.ended hq hidle
    · exact absurd hended hreturned
    · exact ⟨Nat.zero_le _, (quiet_of_loop hnext).mpr rfl⟩
  · rw [show p.proc = .idle from hp'] at hnext
    cases hnext

theorem inv_meter {units : Nat} (h : Inv q s) (hwatched : Watched q s (.meter units))
    (hstep : s.step cfg (some q) (.meter units) = some s') : Inv q s' := by
  rw [State.step] at hstep
  have hrunning : s.pipeline.proc ≠ .idle := by
    intro hidle
    rw [hidle] at hstep
    cases hstep
  have heq : s' = { s with ledger := s.ledger.record units, total := s.total + units } := by
    cases hproc : s.pipeline.proc <;> rw [hproc] at hstep <;> cases hstep
    all_goals rfl
  subst heq
  refine ⟨h.quota, fun hq _ => ?_, fun _ hidle => absurd hidle hrunning⟩
  obtain ⟨hreached, hlt, hquiet⟩ := hwatched hq
  refine ⟨?_, hquiet⟩
  show q ≤ (s.ledger.units + units) % 2 ^ 64
  rw [Nat.mod_eq_of_lt hlt]
  exact hreached

/-- The check on the top of the loop, and the end of an iteration. -/
theorem inv_of_loop {next : Nat} (h : Inv q s) (hproc : s.pipeline.proc = .loop next)
    (passed : Bool) (hleft : passed = true → s.ledger.quotaExhausted = false) :
    Inv q { s with passed := passed } := by
  have hrunning : s.pipeline.proc ≠ .idle := by
    rw [hproc]
    nofun
  refine ⟨h.quota, fun hq _ => ⟨(h.seen hq hrunning).1, ?_⟩, fun _ hidle => absurd hidle hrunning⟩
  have hloop : ({ s with passed := passed } : State layout).pipeline.proc = .loop next := hproc
  rw [quiet_of_loop hloop]
  cases passed with
  | false => rfl
  | true =>
      rw [h.exhausted hrunning hq] at hleft
      cases hleft rfl

/-- An error that ends an attempt ends one with quota left. -/
theorem inv_fail {cause : Cause} (h : Inv q s) (hwatched : Watched q s (.fail cause))
    (hstep : s.step cfg (some q) (.fail cause) = some s') : Inv q s' := by
  rw [State.step] at hstep
  split at hstep
  · rename_i harises
    have hrunning : s.pipeline.proc ≠ .idle := by
      intro hidle
      rw [hidle] at harises
      cases harises
    split at hstep
    · exact inv_work h hstep
    · rename_i hkept
      cases hstep
      refine ⟨h.quota, fun _ hidle => absurd rfl hidle, fun hq _ => ?_⟩
      obtain hdropped | rfl | hleft := hwatched
      · exact absurd hdropped hkept
      · exact .inr rfl
      · rw [h.exhausted hrunning hq] at hleft
        cases hleft
  · cases hstep

theorem inv_step {act : Act} (h : Inv q s) (hwatched : Watched q s act)
    (hstep : s.step cfg (some q) act = some s') : Inv q s' := by
  cases act with
  | attempt => exact inv_attempt h hstep
  | meter units => exact inv_meter h hwatched hstep
  | work act => exact inv_work h hstep
  | fail cause => exact inv_fail h hwatched hstep
  | pass =>
      rw [State.step] at hstep
      split at hstep
      · rename_i next hproc
        split at hstep
        · cases hstep
        · rename_i hleft
          cases hstep
          exact inv_of_loop h hproc true fun _ => Bool.not_eq_true _ ▸ hleft
      · cases hstep
  | tick =>
      rw [State.step] at hstep
      split at hstep
      · rename_i next hproc
        cases hstep
        exact inv_of_loop h hproc false nofun
      · cases hstep
  | leave =>
      rw [State.step] at hstep
      split at hstep
      · cases hstep
        exact ⟨h.quota, fun _ hidle => absurd rfl hidle, fun _ _ => .inl rfl⟩
      · cases hstep

end Steps

/-- In a run whose quota is reached under the eyes of the attempt's ledger with nothing under way,
and whose attempts do not fail after that, nothing proceeds from then on. -/
theorem guardHolds_of_watched {cfg : Config} {q : Nat} {store : Store layout} {s : State layout}
    (h : Transition.Reachable (system cfg (some q) store) (Watched q) s) : GuardHolds cfg q s := by
  apply Inv.guardHolds
  refine h.invariant (Inv q) (fun s hs => ?_) fun s act s' hs hwatched hstep =>
    inv_step hs hwatched hstep
  rw [hs]
  exact ⟨rfl, fun _ hrunning => absurd rfl hrunning, fun hq _ => .inr (Nat.le_zero.mp hq)⟩

/-- The condition on failures is what the guard misses: the attempt after one starts a window. -/
theorem exists_window_of_ended {cfg : Config} {q : Nat} {s : State layout}
    (hidle : s.pipeline.proc = .idle) (hreturned : s.returned = false) (hpos : 0 < q)
    (hq : q ≤ s.total) :
    ∃ u, Transition.exec (system cfg (some q) s.pipeline.store) s [.attempt, .pass] = some u ∧
      ¬GuardHolds cfg q u := by
  obtain ⟨⟨store, committed, proc⟩, ledger, total, passed, returned⟩ := s
  simp only at hidle hreturned
  subst hidle hreturned
  have hleft : (SpendLedger.new (some q)).quotaExhausted = false := by
    rw [Bool.eq_false_iff]
    intro hspent
    have hle : q ≤ 0 := (SpendLedger.quotaExhausted_iff rfl).mp hspent
    omega
  let next := Pipeline.resumePoint cfg store
  refine ⟨⟨⟨store, committed, .loop next⟩, SpendLedger.new (some q), total, true, false⟩, ?_, ?_⟩
  · show (if (SpendLedger.new (some q)).quotaExhausted = true then none else some _).bind _ = _
    rw [hleft]
    rfl
  · intro hguard
    have hblocked := hguard hq (.work (.sweep (next + cfg.confirmations))) trivial
    simp only [State.step, State.work, State.allows, if_true, Pipeline.State.step,
      Nat.add_sub_cancel, le_refl, Option.map_some] at hblocked
    cases hblocked

/-- A decidable form of the condition. -/
def watchedGuard (q : Nat) (s : State layout) : Act → Bool
  | .meter units => decide (s.total + units < q) ||
      (decide (q ≤ s.ledger.units + units) && decide (s.ledger.units + units < 2 ^ 64) &&
        match s.pipeline.proc with
        | .sweep d | .backfill d => d.channel.isEmpty
        | .loop _ => !s.passed
        | .idle => true)
  | .fail cause => s.drops cause || q == 0 || !s.ledger.quotaExhausted
  | _ => true

theorem watchedGuard_sound (q : Nat) (s : State layout) (act : Act)
    (h : watchedGuard q s act = true) : Watched q s act := by
  cases act with
  | meter units =>
      intro hq
      simp only [watchedGuard, Bool.or_eq_true, Bool.and_eq_true, decide_eq_true_eq] at h
      rcases h with hlt | ⟨⟨hreached, hlt⟩, hquiet⟩
      · exact absurd hq (Nat.not_le.mpr hlt)
      · refine ⟨hreached, hlt, ?_⟩
        unfold State.Quiet
        cases hproc : s.pipeline.proc with
        | idle => trivial
        | loop next =>
            rw [hproc] at hquiet
            exact Bool.not_eq_true' _ ▸ hquiet
        | sweep d =>
            rw [hproc] at hquiet
            exact List.isEmpty_iff.mp hquiet
        | backfill d =>
            rw [hproc] at hquiet
            exact List.isEmpty_iff.mp hquiet
  | fail cause =>
      simp only [watchedGuard, Bool.or_eq_true, beq_iff_eq, Bool.not_eq_true'] at h
      rcases h with (hdropped | hzero) | hleft
      · exact .inl hdropped
      · exact .inr (.inl hzero)
      · exact .inr (.inr hleft)
  | _ => trivial

/-- A failed head poll, and a window that uses up the quota of 100 units before a range has arrived;
the error of its fetch is dropped, and the supervisor returns. -/
theorem guardHolds_first_window :
    ∃ s : State eventLayout, s.total = 110 ∧ s.returned = true ∧
      GuardHolds Pipeline.fromOne 100 s := by
  have hinit : Transition.Reachable (system Pipeline.fromOne (some 100) Store.empty) (Watched 100)
      (⟨⟨Store.empty, [], .idle⟩, SpendLedger.new (some 100), 0, false, false⟩ :
        State eventLayout) := .init rfl
  obtain ⟨s, hs, hobserved⟩ := hinit.exists_observed_where (watchedGuard_sound 100)
    [.attempt, .pass, .meter 10, .fail .call, .attempt, .pass, .meter 10, .work (.sweep 10),
      .meter 90, .fail .fetch, .work .finish]
    (fun s => (s.total, s.returned)) (b := (110, true)) (by decide +kernel)
  obtain ⟨htotal, hreturned⟩ := Prod.mk.inj hobserved
  exact ⟨s, htotal, hreturned, guardHolds_of_watched hs⟩

/-- The fetch of the first window fails with one unit of the quota left, and the next attempt, whose
head poll uses it up, starts a window. -/
theorem not_guardHolds_restart :
    ¬∀ (q : Nat) (s : State eventLayout),
      Transition.Reachable (system Pipeline.fromOne (some q) Store.empty) Transition.anyStep s →
      GuardHolds Pipeline.fromOne q s := by
  intro hevery
  have hinit : Transition.Reachable (system Pipeline.fromOne (some 86) Store.empty)
      Transition.anyStep
      (⟨⟨Store.empty, [], .idle⟩, SpendLedger.new (some 86), 0, false, false⟩ :
        State eventLayout) := .init rfl
  obtain ⟨s, hs, hobserved⟩ := hinit.exists_observed
    [.attempt, .pass, .meter 10, .work (.sweep 10), .meter 75, .fail .fetch, .attempt, .pass,
      .meter 10]
    (fun _ _ _ => trivial)
    (fun s => (s.total, (s.step Pipeline.fromOne (some 86) (.work (.sweep 10))).isSome))
    (b := (95, true)) (by decide +kernel)
  obtain ⟨htotal, hwindow⟩ := Prod.mk.inj hobserved
  have hblocked := hevery 86 s hs (by omega) (.work (.sweep 10)) trivial
  rw [hblocked] at hwindow
  cases hwindow

end Supervisor

end Topic0
