import Topic0.SourceCalls

/-! What the calls of a source cost and what holds them back. An attempt of a call takes its compute
units from one bucket, in bursts the bucket can grant, then a permit for each request it packs, and
is metered as it goes out. A subscription is metered as it goes out and asks no bucket. Attempts run
side by side, are retried, and are dropped half way; the ledger still shows what went out, and no
call goes out that was not granted. -/

namespace Topic0

/-- `CostModel`: the units and micro-USD of a call, and the micro-USD of a unit as a fraction. -/
structure CostModel where
  cost : RpcCall → Nat × Nat
  rate : Nat × Nat
  name : String

/-- `QuickNodeCost`: credits by method. -/
def quicknodeCost : RpcCall → Nat
  | .getLogs _ _ | .blockNumber | .logSubscription => 20
  | .blockByNumber count _ | .txByHash count | .receipt count => 20 * max count 1
  | .other => 0

namespace CostModel

def alchemy : CostModel where
  cost call := (alchemyCost call, alchemyCost call * 12 / 10)
  rate := (12, 10)
  name := "alchemy"

def quicknode : CostModel where
  cost call := (quicknodeCost call, quicknodeCost call * 6 / 10)
  rate := (6, 10)
  name := "quicknode"

def freeNode (kind : String) : CostModel where
  cost _ := (0, 0)
  rate := (0, 1)
  name := kind ++ ":free"

def forKind : String → Option CostModel
  | "alchemy" => some alchemy
  | "quicknode" => some quicknode
  | "free_node" => some (freeNode "free_node")
  | "generic_rpc" => some (freeNode "generic_rpc")
  | _ => none

/-- The money of a call is its units at the rate, rounded down. -/
structure Rated (model : CostModel) : Prop where
  pos : 0 < model.rate.2
  money : ∀ call, (model.cost call).2 = (model.cost call).1 * model.rate.1 / model.rate.2

theorem rated_of_forKind {kind : String} {model : CostModel} (h : forKind kind = some model) :
    model.Rated := by
  have hfree : ∀ kind, (freeNode kind).Rated := by
    intro kind
    refine ⟨Nat.one_pos, fun call => ?_⟩
    show 0 = 0 * 0 / 1
    rfl
  unfold forKind at h
  split at h
  · cases h
    exact ⟨by decide, fun _ => rfl⟩
  · cases h
    exact ⟨by decide, fun _ => rfl⟩
  · cases h
    exact hfree _
  · cases h
    exact hfree _
  · cases h

end CostModel

/-- `SpendLedger` with its money. -/
structure PricedLedger extends SpendLedger where
  microUsd : Nat
  rate : Nat × Nat
  deriving DecidableEq

namespace PricedLedger

def new (monthlyQuota : Option Nat) (rate : Nat × Nat) : PricedLedger :=
  { SpendLedger.new monthlyQuota with microUsd := 0, rate := rate }

def record (ledger : PricedLedger) (units money : Nat) : PricedLedger :=
  { ledger with
    toSpendLedger := ledger.toSpendLedger.record units
    microUsd := (ledger.microUsd + money) % 2 ^ 64 }

/-- Counters that wrap show the sums all the same. -/
theorem units_record {ledger : PricedLedger} {n : Nat} (h : ledger.units = n % 2 ^ 64)
    (units money : Nat) : (ledger.record units money).units = (n + units) % 2 ^ 64 := by
  show (ledger.units + units) % 2 ^ 64 = _
  rw [h, Nat.mod_add_mod]

theorem microUsd_record {ledger : PricedLedger} {n : Nat} (h : ledger.microUsd = n % 2 ^ 64)
    (units money : Nat) : (ledger.record units money).microUsd = (n + money) % 2 ^ 64 := by
  show (ledger.microUsd + money) % 2 ^ 64 = _
  rw [h, Nat.mod_add_mod]

/-- The units past the free ones at the rate. A product over 64 bits panics in a debug build. -/
def billableMicroUsd (build : Build) (ledger : PricedLedger) : Option Nat :=
  let product := (ledger.units - ledger.monthlyQuota.getD 0) * ledger.rate.1
  if product < 2 ^ 64 then some (product / max ledger.rate.2 1)
  else match build with
    | .debug => none
    | .release => some (product % 2 ^ 64 / max ledger.rate.2 1)

end PricedLedger

namespace Spend

open Transition (System Reachable)

/-- What a source asks its provider for behind its limiter. -/
inductive Op where
  | head
  | blockHash
  | call (request : Volume.Call)
  deriving DecidableEq, Repr

/-- What it is metered as. -/
def Op.priced : Op → RpcCall
  | .head => .blockNumber
  | .blockHash => .blockByNumber 1 false
  | .call request => request.metered

/-- The request permits of one attempt: a batch takes one for each of its requests. -/
def Op.permits : Op → Nat
  | .head | .blockHash | .call (.getLogs _ _) => 1
  | .call (.blocks heights) => heights.length
  | .call (.receipts txIds) => txIds.length

/-- The cost model of a source, whether it has a websocket, and what its limiter and its ledger take
from the plan. -/
structure Source where
  model : CostModel
  ws : Bool
  maxCuPerSec : Option UInt32
  monthlyQuota : Option Nat

namespace Source

/-- The capacity of the bucket of compute units, if the plan caps them: `NonZeroU32::new`. -/
def burst (g : Source) : Option { n : Nat // 0 < n } :=
  g.maxCuPerSec.bind fun n => if h : 0 < n.toNat then some ⟨n.toNat, h⟩ else none

/-- `cu_for`: the units of a call in 32 bits. -/
def cuFor (g : Source) (call : RpcCall) : Nat := min (g.model.cost call).1 (2 ^ 32 - 1)

/-- The units an attempt acquires. -/
def cuUnits (g : Source) (op : Op) : Nat := max (g.cuFor op.priced) 1

end Source

/-- Where an attempt waits: in `acquire_cu` with the units still to come, or for its permits. -/
inductive Gate where
  | cu (remaining : Nat)
  | rps (remaining : Nat)
  deriving DecidableEq, Repr

structure Attempt where
  op : Op
  gate : Gate
  deriving DecidableEq, Repr

/-- The attempts before the provider, the calls and the subscriptions that went out, the ledger, and
what the two buckets have granted. -/
structure State where
  waiting : List Attempt
  sent : List Op
  subscriptions : Nat
  ledger : PricedLedger
  bursts : List Nat
  permits : Nat
  deriving DecidableEq

inductive Act where
  /-- An attempt begins: the first of a call, or one more of `with_retry`. -/
  | start (op : Op)
  /-- A bucket grants an attempt what it asked for. -/
  | grant (i : Nat)
  /-- `enter`: the attempt is metered and its request goes out. -/
  | enter (i : Nat)
  /-- The future is dropped. -/
  | abandon (i : Nat)
  /-- `subscribe`: metered and sent, past both buckets. -/
  | subscribe

/-- `while remaining > 0`. -/
def drain (op : Op) (remaining : Nat) : Gate :=
  if 0 < remaining then .cu remaining else .rps op.permits

def firstGate (g : Source) (op : Op) : Gate :=
  match g.burst with
  | some _ => drain op (g.cuUnits op)
  | none => .rps op.permits

def State.step (g : Source) (s : State) : Act → Option State
  | .start op => some { s with waiting := s.waiting ++ [⟨op, firstGate g op⟩] }
  | .grant i =>
      match s.waiting[i]?, g.burst with
      | some ⟨op, .cu remaining⟩, some cap =>
          let take := min remaining cap
          some { s with
            waiting := s.waiting.set i ⟨op, drain op (remaining - take)⟩
            bursts := take :: s.bursts }
      | some ⟨op, .rps (remaining + 1)⟩, _ =>
          some { s with
            waiting := s.waiting.set i ⟨op, .rps remaining⟩
            permits := s.permits + 1 }
      | _, _ => none
  | .enter i =>
      match s.waiting[i]? with
      | some ⟨op, .rps 0⟩ =>
          let (units, money) := g.model.cost op.priced
          some { s with
            waiting := s.waiting.eraseIdx i
            sent := op :: s.sent
            ledger := s.ledger.record units money }
      | _ => none
  | .abandon i =>
      if i < s.waiting.length then some { s with waiting := s.waiting.eraseIdx i } else none
  | .subscribe =>
      if g.ws then
        let (units, money) := g.model.cost .logSubscription
        some { s with
          subscriptions := s.subscriptions + 1
          ledger := s.ledger.record units money }
      else none

def system (g : Source) : System State Act where
  init s := s = ⟨[], [], 0, PricedLedger.new g.monthlyQuota g.model.rate, [], 0⟩
  step := State.step g

/-- All that went out, as it is metered. -/
def State.metered (s : State) : List RpcCall :=
  List.replicate s.subscriptions .logSubscription ++ s.sent.map Op.priced

def Source.units (g : Source) (calls : List RpcCall) : Nat :=
  (calls.map fun call => (g.model.cost call).1).sum

def Source.money (g : Source) (calls : List RpcCall) : Nat :=
  (calls.map fun call => (g.model.cost call).2).sum

/-- What is charged for all that went out: overage is the units past the quota at the rate, and the
marginal costs fall short of it by less than one micro-USD for each thing sent. -/
structure Billed (g : Source) (s : State) (billed : Nat) : Prop where
  overage : billed = (g.units s.metered - g.monthlyQuota.getD 0) * g.model.rate.1 / g.model.rate.2
  free : ∀ q, g.monthlyQuota = some q → g.units s.metered ≤ q → billed = 0
  marginal : billed ≤ s.ledger.microUsd + s.metered.length
  total : g.monthlyQuota = none → s.ledger.microUsd ≤ billed

/-- What the ledger says of all that went out, subscriptions included, and what the buckets have
granted the calls among it. -/
structure Accounted (g : Source) (s : State) : Prop where
  units : s.ledger.units = g.units s.metered % 2 ^ 64
  money : s.ledger.microUsd = g.money s.metered % 2 ^ 64
  cu : ∀ cap, g.burst = some cap → (s.sent.map g.cuUnits).sum ≤ s.bursts.sum ∧
    ∀ n ∈ s.bursts, 0 < n ∧ n ≤ cap
  rps : (s.sent.map Op.permits).sum ≤ s.permits
  ws : 0 < s.subscriptions → g.ws = true
  billed : g.units s.metered * max g.model.rate.1 1 < 2 ^ 64 →
    ∀ build, ∃ billed, s.ledger.billableMicroUsd build = some billed ∧ Billed g s billed

section Sums

variable {α : Type} {l : List α} {i : Nat} {a : α}

theorem sum_eraseIdx (h : l[i]? = some a) (f : α → Nat) :
    ((l.eraseIdx i).map f).sum + f a = (l.map f).sum := by
  obtain ⟨hlt, rfl⟩ := List.getElem?_eq_some_iff.mp h
  rw [Nat.add_comm, ← List.sum_cons, ← List.map_cons]
  exact ((List.getElem_cons_eraseIdx_perm hlt).map f).sum_eq

theorem sum_set (h : l[i]? = some a) (b : α) (f : α → Nat) :
    ((l.set i b).map f).sum + f a = (l.map f).sum + f b := by
  obtain ⟨hlt, -⟩ := List.getElem?_eq_some_iff.mp h
  calc ((l.set i b).map f).sum + f a
      = ((b :: l.eraseIdx i).map f).sum + f a := by
        rw [((List.set_perm_cons_eraseIdx hlt b).map f).sum_eq]
    _ = ((l.eraseIdx i).map f).sum + f a + f b := by
        rw [List.map_cons, List.sum_cons]
        omega
    _ = (l.map f).sum + f b := by rw [sum_eraseIdx h]

/-- Rounding each term down loses less than one a term. -/
theorem sum_div_bounds (us : List Nat) (n : Nat) {d : Nat} (hd : 0 < d) :
    (us.map fun u => u * n / d).sum ≤ us.sum * n / d ∧
      us.sum * n / d ≤ (us.map fun u => u * n / d).sum + us.length := by
  induction us with
  | nil => simp
  | cons u us ih =>
      obtain ⟨hle, hge⟩ := ih
      have hsplit : (u + us.sum) * n / d =
          u * n / d + us.sum * n / d + if d ≤ u * n % d + us.sum * n % d then 1 else 0 := by
        rw [Nat.add_mul, Nat.add_div hd]
      rw [List.map_cons, List.sum_cons, List.sum_cons, List.length_cons, hsplit]
      split <;> omega

end Sums

inductive State.Step (g : Source) (s : State) : State → Prop
  | start (op : Op) : Step g s { s with waiting := s.waiting ++ [⟨op, firstGate g op⟩] }
  | burst {i remaining : Nat} {op : Op} {cap : { n : Nat // 0 < n }} (hcap : g.burst = some cap)
      (hwaits : s.waiting[i]? = some ⟨op, .cu remaining⟩) :
      Step g s { s with
        waiting := s.waiting.set i ⟨op, drain op (remaining - min remaining cap)⟩
        bursts := min remaining cap :: s.bursts }
  | permit {i remaining : Nat} {op : Op} (hwaits : s.waiting[i]? = some ⟨op, .rps (remaining + 1)⟩) :
      Step g s { s with
        waiting := s.waiting.set i ⟨op, .rps remaining⟩
        permits := s.permits + 1 }
  | enter {i : Nat} {op : Op} (hwaits : s.waiting[i]? = some ⟨op, .rps 0⟩) :
      Step g s { s with
        waiting := s.waiting.eraseIdx i
        sent := op :: s.sent
        ledger := s.ledger.record (g.model.cost op.priced).1 (g.model.cost op.priced).2 }
  | abandon {i : Nat} {a : Attempt} (hwaits : s.waiting[i]? = some a) :
      Step g s { s with waiting := s.waiting.eraseIdx i }
  | subscribe (hws : g.ws = true) :
      Step g s { s with
        subscriptions := s.subscriptions + 1
        ledger := s.ledger.record (g.model.cost .logSubscription).1
          (g.model.cost .logSubscription).2 }

variable {g : Source} {s s' : State}

theorem step_cases {act : Act} (h : s.step g act = some s') : s.Step g s' := by
  cases act with
  | start op =>
      cases h
      exact .start op
  | grant i =>
      rw [State.step] at h
      split at h
      · rename_i hwaits hcap
        cases h
        exact .burst hcap hwaits
      · rename_i hwaits
        cases h
        exact .permit hwaits
      · cases h
  | enter i =>
      rw [State.step] at h
      split at h
      · rename_i hwaits
        cases h
        exact .enter hwaits
      · cases h
  | abandon i =>
      rw [State.step] at h
      split at h
      · rename_i hlt
        cases h
        exact .abandon (List.getElem?_eq_getElem hlt)
      · cases h
  | subscribe =>
      rw [State.step] at h
      split at h
      · rename_i hws
        cases h
        exact .subscribe hws
      · cases h

section Metered

variable (s) (op : Op)

/-- A call that goes out is metered with the rest, in whatever place. -/
theorem metered_sent (f : RpcCall → Nat) :
    (State.metered { s with sent := op :: s.sent } |>.map f).sum =
      (s.metered.map f).sum + f op.priced := by
  simp only [State.metered, List.map_append, List.map_cons, List.sum_append, List.sum_cons]
  omega

theorem metered_subscribed (f : RpcCall → Nat) :
    (State.metered { s with subscriptions := s.subscriptions + 1 } |>.map f).sum =
      (s.metered.map f).sum + f .logSubscription := by
  simp only [State.metered, List.replicate_succ, List.cons_append, List.map_cons, List.sum_cons]
  omega

end Metered

/-- What is still to come is part of what the attempt asked for. -/
def Attempt.Ok (g : Source) (a : Attempt) : Prop :=
  match a.gate with
  | .cu remaining => 0 < remaining ∧ remaining ≤ g.cuUnits a.op
  | .rps remaining => remaining ≤ a.op.permits

/-- The units an attempt has been granted, where the plan caps them. -/
def Attempt.units (g : Source) (a : Attempt) : Nat :=
  match a.gate with
  | .cu remaining => g.cuUnits a.op - remaining
  | .rps _ => g.cuUnits a.op

def Attempt.permits (a : Attempt) : Nat :=
  match a.gate with
  | .cu _ => 0
  | .rps remaining => a.op.permits - remaining

section Drain

variable (op : Op) {n : Nat}

theorem ok_drain (h : n ≤ g.cuUnits op) : (⟨op, drain op n⟩ : Attempt).Ok g := by
  unfold drain
  split
  · rename_i hpos
    exact ⟨hpos, h⟩
  · exact Nat.le_refl _

theorem units_drain : (⟨op, drain op n⟩ : Attempt).units g = g.cuUnits op - n := by
  unfold drain
  split
  · rfl
  · show g.cuUnits op = _
    omega

theorem permits_drain : (⟨op, drain op n⟩ : Attempt).permits = 0 := by
  unfold drain
  split
  · rfl
  · exact Nat.sub_self _

theorem ok_firstGate : (⟨op, firstGate g op⟩ : Attempt).Ok g := by
  unfold firstGate
  split
  · exact ok_drain op (Nat.le_refl _)
  · exact Nat.le_refl _

theorem permits_firstGate : (⟨op, firstGate g op⟩ : Attempt).permits = 0 := by
  unfold firstGate
  split
  · exact permits_drain op
  · exact Nat.sub_self _

theorem units_firstGate {cap : { n : Nat // 0 < n }} (h : g.burst = some cap) :
    (⟨op, firstGate g op⟩ : Attempt).units g = 0 := by
  rw [firstGate, h]
  exact (units_drain op).trans (Nat.sub_self _)

end Drain

/-- The buckets have granted what went out and what the attempts hold. -/
structure Inv (g : Source) (s : State) : Prop where
  quota : s.ledger.monthlyQuota = g.monthlyQuota
  rate : s.ledger.rate = g.model.rate
  units : s.ledger.units = g.units s.metered % 2 ^ 64
  money : s.ledger.microUsd = g.money s.metered % 2 ^ 64
  ws : 0 < s.subscriptions → g.ws = true
  ok : ∀ a ∈ s.waiting, a.Ok g
  cu : ∀ cap, g.burst = some cap →
    (s.sent.map g.cuUnits).sum + (s.waiting.map (Attempt.units g)).sum ≤ s.bursts.sum ∧
      ∀ n ∈ s.bursts, 0 < n ∧ n ≤ cap
  rps : (s.sent.map Op.permits).sum + (s.waiting.map Attempt.permits).sum ≤ s.permits

theorem Inv.step (hinv : Inv g s) (h : s.Step g s') : Inv g s' := by
  cases h with
  | start op =>
      refine ⟨hinv.quota, hinv.rate, hinv.units, hinv.money, hinv.ws, ?_, ?_, ?_⟩
      · intro a ha
        rcases List.mem_append.mp ha with ha | ha
        · exact hinv.ok a ha
        · rw [List.mem_singleton.mp ha]
          exact ok_firstGate op
      · intro cap hcap
        simp only [List.map_append, List.map_cons, List.map_nil, List.sum_append, List.sum_cons,
          List.sum_nil, units_firstGate op hcap]
        exact hinv.cu cap hcap
      · simp only [List.map_append, List.map_cons, List.map_nil, List.sum_append, List.sum_cons,
          List.sum_nil, permits_firstGate op]
        exact hinv.rps
  | @burst i remaining op cap hcap hwaits =>
      obtain ⟨hpos, hle⟩ : 0 < remaining ∧ remaining ≤ g.cuUnits op :=
        hinv.ok _ (List.mem_of_getElem? hwaits)
      have htake : 0 < min remaining cap ∧ min remaining cap ≤ remaining :=
        ⟨lt_min hpos cap.2, Nat.min_le_left _ _⟩
      refine ⟨hinv.quota, hinv.rate, hinv.units, hinv.money, hinv.ws, ?_, ?_, ?_⟩
      · intro a ha
        rcases List.mem_or_eq_of_mem_set ha with ha | rfl
        · exact hinv.ok a ha
        · exact ok_drain op (by omega)
      · intro cap' hcap'
        obtain rfl : cap = cap' := Option.some.inj (hcap.symm.trans hcap')
        obtain ⟨hsum, hbursts⟩ := hinv.cu cap hcap
        have hset := sum_set hwaits ⟨op, drain op (remaining - min remaining cap)⟩ (Attempt.units g)
        rw [units_drain] at hset
        constructor
        · -- what the attempt holds grows by what the bucket has granted
          change _ + (g.cuUnits op - remaining) = _ at hset
          show (s.sent.map g.cuUnits).sum + ((s.waiting.set i _).map (Attempt.units g)).sum ≤
            (min remaining cap.1 :: s.bursts).sum
          rw [List.sum_cons]
          omega
        · intro n hn
          rcases List.mem_cons.mp hn with rfl | hn
          · exact ⟨htake.1, Nat.min_le_right _ _⟩
          · exact hbursts n hn
      · have hset := sum_set hwaits ⟨op, drain op (remaining - min remaining cap)⟩ Attempt.permits
        rw [permits_drain] at hset
        change _ + 0 = _ at hset
        have hrps := hinv.rps
        simp only
        omega
  | @permit i remaining op hwaits =>
      have hle : remaining + 1 ≤ op.permits := hinv.ok _ (List.mem_of_getElem? hwaits)
      refine ⟨hinv.quota, hinv.rate, hinv.units, hinv.money, hinv.ws, ?_, ?_, ?_⟩
      · intro a ha
        rcases List.mem_or_eq_of_mem_set ha with ha | rfl
        · exact hinv.ok a ha
        · exact Nat.le_of_succ_le hle
      · intro cap hcap
        have hset := sum_set hwaits ⟨op, .rps remaining⟩ (Attempt.units g)
        change _ + g.cuUnits op = _ + g.cuUnits op at hset
        obtain ⟨hsum, hbursts⟩ := hinv.cu cap hcap
        refine ⟨?_, hbursts⟩
        show (s.sent.map g.cuUnits).sum + ((s.waiting.set i _).map (Attempt.units g)).sum ≤
          s.bursts.sum
        omega
      · have hset := sum_set hwaits ⟨op, .rps remaining⟩ Attempt.permits
        change _ + (op.permits - (remaining + 1)) = _ + (op.permits - remaining) at hset
        have hrps := hinv.rps
        simp only
        omega
  | @enter i op hwaits =>
      refine ⟨hinv.quota, hinv.rate, ?_, ?_, hinv.ws, ?_, ?_, ?_⟩
      · rw [PricedLedger.units_record hinv.units]
        exact congrArg (· % 2 ^ 64) (metered_sent s op _).symm
      · rw [PricedLedger.microUsd_record hinv.money]
        exact congrArg (· % 2 ^ 64) (metered_sent s op _).symm
      · intro a ha
        exact hinv.ok a (List.mem_of_mem_eraseIdx ha)
      · intro cap hcap
        have herase := sum_eraseIdx hwaits (Attempt.units g)
        change _ + g.cuUnits op = _ at herase
        obtain ⟨hsum, hbursts⟩ := hinv.cu cap hcap
        refine ⟨?_, hbursts⟩
        simp only [List.map_cons, List.sum_cons]
        omega
      · have herase := sum_eraseIdx hwaits Attempt.permits
        change _ + (op.permits - 0) = _ at herase
        have hrps := hinv.rps
        simp only [List.map_cons, List.sum_cons]
        omega
  | @abandon i a hwaits =>
      refine ⟨hinv.quota, hinv.rate, hinv.units, hinv.money, hinv.ws, ?_, ?_, ?_⟩
      · intro b hb
        exact hinv.ok b (List.mem_of_mem_eraseIdx hb)
      · intro cap hcap
        have herase := sum_eraseIdx hwaits (Attempt.units g)
        obtain ⟨hsum, hbursts⟩ := hinv.cu cap hcap
        refine ⟨?_, hbursts⟩
        show (s.sent.map g.cuUnits).sum + ((s.waiting.eraseIdx i).map (Attempt.units g)).sum ≤
          s.bursts.sum
        omega
      · have herase := sum_eraseIdx hwaits Attempt.permits
        have hrps := hinv.rps
        simp only
        omega
  | subscribe hws =>
      refine ⟨hinv.quota, hinv.rate, ?_, ?_, fun _ => hws, hinv.ok, hinv.cu, hinv.rps⟩
      · rw [PricedLedger.units_record hinv.units]
        exact congrArg (· % 2 ^ 64) (metered_subscribed s _).symm
      · rw [PricedLedger.microUsd_record hinv.money]
        exact congrArg (· % 2 ^ 64) (metered_subscribed s _).symm

theorem inv_of_reachable {allowed : State → Act → Prop} (h : Reachable (system g) allowed s) :
    Inv g s := by
  apply h.invariant (Inv g)
  · intro s hs
    rw [show s = _ from hs]
    exact ⟨rfl, rfl, rfl, rfl, fun h => absurd h (Nat.lt_irrefl 0),
      fun a ha => absurd ha List.not_mem_nil,
      fun cap _ => ⟨Nat.le_refl _, fun n hn => absurd hn List.not_mem_nil⟩, Nat.le_refl _⟩
  · intro s act s' hinv _ hstep
    exact hinv.step (step_cases hstep)

theorem Inv.billed (hinv : Inv g s) (hrated : g.model.Rated)
    (hfits : g.units s.metered * max g.model.rate.1 1 < 2 ^ 64) (build : Build) :
    ∃ billed, s.ledger.billableMicroUsd build = some billed ∧ Billed g s billed := by
  have hunits : s.ledger.units = g.units s.metered := by
    rw [hinv.units, Nat.mod_eq_of_lt]
    exact lt_of_le_of_lt (Nat.le_mul_of_pos_right _ (lt_max_of_lt_right Nat.one_pos)) hfits
  have htotal : g.units s.metered * g.model.rate.1 < 2 ^ 64 :=
    lt_of_le_of_lt (Nat.mul_le_mul_left _ (Nat.le_max_left _ _)) hfits
  have hoverage : (g.units s.metered - g.monthlyQuota.getD 0) * g.model.rate.1 ≤
      g.units s.metered * g.model.rate.1 := Nat.mul_le_mul_right _ (Nat.sub_le _ _)
  have hmoney : ((s.metered.map fun call => (g.model.cost call).1).map fun u =>
      u * g.model.rate.1 / g.model.rate.2).sum = g.money s.metered := by
    rw [List.map_map, Source.money]
    congr 2
    funext call
    exact (hrated.money call).symm
  obtain ⟨hbelow, habove⟩ := sum_div_bounds (s.metered.map fun call => (g.model.cost call).1)
    g.model.rate.1 hrated.pos
  rw [hmoney] at hbelow habove
  rw [List.length_map] at habove
  change _ ≤ g.units s.metered * g.model.rate.1 / g.model.rate.2 at hbelow
  change g.units s.metered * g.model.rate.1 / g.model.rate.2 ≤ _ at habove
  have hexact : s.ledger.microUsd = g.money s.metered := by
    rw [hinv.money, Nat.mod_eq_of_lt]
    calc g.money s.metered
        ≤ g.units s.metered * g.model.rate.1 / g.model.rate.2 := hbelow
      _ ≤ g.units s.metered * g.model.rate.1 := Nat.div_le_self _ _
      _ < 2 ^ 64 := htotal
  refine ⟨_, ?_, rfl, ?_, ?_, ?_⟩
  · unfold PricedLedger.billableMicroUsd
    simp only [hunits, hinv.quota, hinv.rate]
    rw [if_pos (hoverage.trans_lt htotal), Nat.max_eq_left hrated.pos]
  · intro q hq hle
    rw [hq, Option.getD_some, Nat.sub_eq_zero_of_le hle, Nat.zero_mul, Nat.zero_div]
  · rw [hexact]
    calc (g.units s.metered - g.monthlyQuota.getD 0) * g.model.rate.1 / g.model.rate.2
        ≤ g.units s.metered * g.model.rate.1 / g.model.rate.2 := Nat.div_le_div_right hoverage
      _ ≤ g.money s.metered + s.metered.length := habove
  · intro hnone
    rw [hexact, hnone, Option.getD_none, Nat.sub_zero]
    exact hbelow

/-- However attempts interleave, are retried and are dropped, the ledger prices what went out, and the
buckets granted the calls of it first. -/
theorem spend_accounted {kind : String} (hkind : CostModel.forKind kind = some g.model)
    {allowed : State → Act → Prop} (h : Reachable (system g) allowed s) : Accounted g s := by
  have hinv := inv_of_reachable h
  have hrated := CostModel.rated_of_forKind hkind
  refine ⟨hinv.units, hinv.money, ?_, ?_, hinv.ws, ?_⟩
  · intro cap hcap
    obtain ⟨hsum, hbursts⟩ := hinv.cu cap hcap
    exact ⟨(Nat.le_add_right _ _).trans hsum, hbursts⟩
  · exact (Nat.le_add_right _ _).trans hinv.rps
  · intro hfits build
    exact hinv.billed hrated hfits build

/-- A batch of two receipts over a bucket of twenty units a second, next to a subscription and a
dropped poll. -/
def cappedSource : Source := ⟨CostModel.alchemy, true, some 20, some 20⟩

theorem spend_accounted_two_receipts : ∃ s : State,
    (s.sent, s.subscriptions, s.bursts, s.permits, s.ledger.units, s.ledger.microUsd) =
      ([.call (.receipts [⟨[1]⟩, ⟨[2]⟩])], 1, [10, 20, 10], 3, 40, 48) ∧
    Accounted cappedSource s := by
  have hinit : Reachable (system cappedSource) Transition.anyStep
      ⟨[], [], 0, PricedLedger.new (some 20) (12, 10), [], 0⟩ := .init rfl
  obtain ⟨s, hs, hobserved⟩ := hinit.exists_observed
    [.subscribe, .start (.call (.receipts [⟨[1]⟩, ⟨[2]⟩])), .start .head, .grant 1, .grant 0,
      .grant 1, .grant 0, .abandon 1, .grant 0, .grant 0, .enter 0] (fun _ _ _ => trivial)
    (fun s => (s.sent, s.subscriptions, s.bursts, s.permits, s.ledger.units, s.ledger.microUsd))
    (b := ([.call (.receipts [⟨[1]⟩, ⟨[2]⟩])], 1, [10, 20, 10], 3, 40, 48)) (by decide +kernel)
  exact ⟨s, hobserved, @spend_accounted cappedSource s "alchemy" rfl _ hs⟩

end Spend

end Topic0
