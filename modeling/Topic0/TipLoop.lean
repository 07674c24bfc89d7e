import Topic0.PipelineGapFree

/-! The live tip. `TipState` is the loop's own view of the websocket: the heights pushed but not
yet indexed, and whether a full sweep of the confirmed gap is due. The environment is a growing
chain without reorgs and a provider that pushes the matching logs of every block above the head at
which a stream was opened, in block order and before the head moves past the block, for as long as
the stream is up. -/

namespace Topic0.Tip

open Pipeline

/-- A subscription: the head it was opened at, the pushed heights the loop has not read yet, the
highest block it has pushed for (or its opening head), and whether it is still up. -/
structure Stream where
  openedAt : Nat
  buffer : List Nat
  last : Nat
  up : Bool
  deriving DecidableEq, Repr

/-- `pending` are the signalled heights not yet confirmed and indexed, `reorgAt` the lowest height a
`removed` log was seen at; `reconcile` asks for a full sweep over the confirmed gap. -/
structure TipState where
  wsEnabled : Bool
  sub : Option Stream
  pending : Finset Nat
  reconcile : Bool
  reorgAt : Option Nat

/-- What the loop reads from its stream. -/
inductive WsEvent where
  | log (height : Nat) (removed : Bool)
  | error
  | ended

namespace TipState

def new (wsEnabled : Bool) : TipState := ⟨wsEnabled, none, ∅, true, none⟩

/-- `ensure_subscribed`, with the stream the source returned, if it did. -/
def ensureSubscribed (t : TipState) (opened : Option Stream) : TipState :=
  if !t.wsEnabled || t.sub.isSome then t
  else
    match opened with
    | some stream => { t with sub := some stream, reconcile := true }
    | none => t

/-- The first pending height is at most `safe` exactly when some is. -/
def mustFetch (t : TipState) (safe : Nat) : Bool :=
  !t.wsEnabled || t.reconcile || decide (∃ lo ∈ t.pending, lo ≤ safe)

def clearThrough (t : TipState) (target : Nat) : TipState :=
  { t with pending := t.pending.filter fun h => target < h }

def shouldPollHead (t : TipState) : Bool :=
  !t.wsEnabled || t.reconcile || decide (t.pending ≠ ∅)

/-- The lowest removed height seen, and the state without it. -/
def takeReorgSignal (t : TipState) : Option Nat × TipState := (t.reorgAt, { t with reorgAt := none })

def onWsEvent (t : TipState) : WsEvent → TipState
  | .log height true =>
      { t with reorgAt := some ((t.reorgAt.map fun lowest => min lowest height).getD height) }
  | .log height false => { t with pending := insert height t.pending }
  | .error => { t with sub := none }
  | .ended => { t with sub := none }

end TipState

/-- Where `ingest_loop` is: past `ensure_subscribed` when ready, in the `select!` when waiting. -/
inductive Pc where
  | top (next : Nat)
  | ready (next : Nat)
  /-- In `catch_up`, driving the pipeline towards `safe`. -/
  | fetching (safe : Nat) (drive : Drive)
  | waiting (next : Nat)
  | stopped

variable {layout : String → PkColumns}

structure State (layout : String → PkColumns) where
  head : Nat
  store : Store layout
  committed : List Range
  tip : TipState
  pc : Pc

/-- The chain grows and its stream pushes a log of the head or goes down; the rest are the loop's own
steps, the last four of them the arms of its `select!`. -/
inductive Act where
  | grow
  | push
  | streamDown
  | subscribe (accepted : Bool)
  | poll
  | drive (act : DriveAct)
  | finish
  /-- The next item of the stream, or its end. -/
  | event
  | streamError
  | timer
  | cancel

/-- A live stream has pushed for the head before the chain moves past it. -/
def pushedHead (matched : Nat → Bool) (s : State layout) : Bool :=
  s.tip.sub.all fun stream =>
    !stream.up || decide (s.head ≤ stream.openedAt) || !matched s.head ||
      decide (s.head ≤ stream.last)

def State.step (cfg : Config) (matched : Nat → Bool) (s : State layout) : Act → Option (State layout)
  | .grow => if pushedHead matched s then some { s with head := s.head + 1 } else none
  | .push =>
      match s.tip.sub with
      | some stream =>
          if stream.up ∧ stream.openedAt < s.head ∧ matched s.head then
            some { s with tip := { s.tip with sub := some { stream with
              buffer := stream.buffer ++ [s.head]
              last := s.head } } }
          else none
      | none => none
  | .streamDown =>
      s.tip.sub.map fun stream =>
        { s with tip := { s.tip with sub := some { stream with up := false } } }
  | .subscribe accepted =>
      match s.pc with
      | .top next =>
          let opened := if accepted then some ⟨s.head, [], s.head, true⟩ else none
          some { s with tip := s.tip.ensureSubscribed opened, pc := .ready next }
      | _ => none
  | .poll =>
      match s.pc with
      | .ready next =>
          -- the probe the signal leads to finds the tip canonical, there being no reorgs
          let tip := s.tip.takeReorgSignal.2
          let safe := s.head - cfg.confirmations
          if tip.shouldPollHead = true ∧ next ≤ safe then
            let target := fetchTarget safe next cfg.step cfg.conc (tip.mustFetch safe)
            if tip.mustFetch safe then
              some { s with tip := tip, pc := .fetching safe (Drive.begin cfg next target) }
            else
              some { s with
                store := CursorRepo.advanceInTx s.store cfg.chain target ⟨[]⟩
                tip := tip
                pc := .waiting (target + 1) }
          else some { s with tip := tip, pc := .waiting next }
      | _ => none
  | .drive act =>
      match s.pc with
      | .fetching safe d => (Work.step cfg ⟨s.store, s.committed, d⟩ act).map fun w =>
          { s with store := w.store, committed := w.committed, pc := .fetching safe w.drive }
      | _ => none
  | .finish =>
      match s.pc with
      | .fetching safe d =>
          if d.done then
            if d.shutdown then some { s with pc := .stopped }
            else
              let next := d.resume
              some { s with
                tip := TipState.clearThrough { s.tip with reconcile := decide (next ≤ safe) } (next - 1)
                pc := if next ≤ safe then .top next else .waiting next }
          else none
      | _ => none
  | .event =>
      match s.pc, s.tip.sub with
      | .waiting next, some stream =>
          match stream.buffer with
          | height :: rest =>
              some { s with
                tip := TipState.onWsEvent
                  { s.tip with sub := some { stream with buffer := rest } } (.log height false)
                pc := .top next }
          | [] =>
              if stream.up then none
              else some { s with tip := s.tip.onWsEvent .ended, pc := .top next }
      | _, _ => none
  | .streamError =>
      match s.pc, s.tip.sub with
      | .waiting next, some _ => some { s with tip := s.tip.onWsEvent .error, pc := .top next }
      | _, _ => none
  | .timer =>
      match s.pc with
      | .waiting next => some { s with pc := .top next }
      | _ => none
  | .cancel =>
      match s.pc with
      | .top _ | .waiting _ => some { s with pc := .stopped }
      | _ => none

/-- One loop from its resume point on, at any head. -/
def system (cfg : Config) (matched : Nat → Bool) (wsEnabled : Bool) (store : Store layout) :
    Transition.System (State layout) Act where
  init s := ∃ head, s = ⟨head, store, [], TipState.new wsEnabled, .top (resumePoint cfg store)⟩
  step := State.step cfg matched

end Topic0.Tip
