import Mathlib.Tactic

/-! Labelled transition systems with executable steps. A label carries every choice the
environment makes, so that a step is a partial function; a run is a list of labels. Runs can be
restricted step by step: `Reachable allowed` keeps the runs whose every label was allowed in the
state it was taken from, and a safety property of those runs is one invariant. -/

namespace Transition

/-- Initial states, and the state a label leads to where it is enabled. -/
structure System (σ act : Type) where
  init : σ → Prop
  step : σ → act → Option σ

variable {σ act : Type} (S : System σ act)

/-- The states of the runs whose every step was `allowed` in the state it started from. -/
inductive Reachable (allowed : σ → act → Prop) : σ → Prop
  | init {s : σ} (hinit : S.init s) : Reachable allowed s
  | step {s t : σ} {a : act} (hreach : Reachable allowed s) (hallowed : allowed s a)
      (hstep : S.step s a = some t) : Reachable allowed t

/-- No restriction on the steps. -/
def anyStep : σ → act → Prop := fun _ _ => True

variable {S}

/-- What holds initially and is kept by every allowed step holds in every state of those runs. -/
theorem Reachable.invariant {allowed : σ → act → Prop} (Inv : σ → Prop)
    (hinit : ∀ s, S.init s → Inv s)
    (hstep : ∀ s a t, Inv s → allowed s a → S.step s a = some t → Inv t)
    {s : σ} (h : Reachable S allowed s) : Inv s := by
  induction h with
  | init hs => exact hinit _ hs
  | step _ hallowed hst ih => exact hstep _ _ _ ih hallowed hst

theorem Reachable.mono {allowed weaker : σ → act → Prop} (hle : ∀ s a, allowed s a → weaker s a)
    {s : σ} (h : Reachable S allowed s) : Reachable S weaker s := by
  induction h with
  | init hs => exact .init hs
  | step _ hallowed hst ih => exact .step ih (hle _ _ hallowed) hst

variable (S)

/-- The state after a list of labels, if every one of them is enabled in turn. -/
def exec : σ → List act → Option σ
  | s, [] => some s
  | s, a :: rest => (S.step s a).bind fun t => exec t rest

variable {S}

theorem exec_cons {s t : σ} {a : act} (h : S.step s a = some t) (rest : List act) :
    exec S s (a :: rest) = exec S t rest := by
  rw [exec, h, Option.bind_some]

/-- A run of labels that are allowed everywhere ends in a reachable state. -/
theorem Reachable.exec {allowed : σ → act → Prop} {s t : σ} (h : Reachable S allowed s)
    (acts : List act) (hall : ∀ a ∈ acts, ∀ u, allowed u a) (hexec : exec S s acts = some t) :
    Reachable S allowed t := by
  induction acts generalizing s with
  | nil =>
      rw [Transition.exec, Option.some.injEq] at hexec
      exact hexec ▸ h
  | cons a rest ih =>
      rw [Transition.exec] at hexec
      obtain ⟨u, hu, hrest⟩ := Option.bind_eq_some_iff.mp hexec
      exact ih (.step h (hall a List.mem_cons_self s) hu)
        (fun b hb => hall b (List.mem_cons_of_mem _ hb)) hrest

/-- What is observed after such a run is observed in a reachable state. -/
theorem Reachable.exists_observed {β : Type} {allowed : σ → act → Prop} {s : σ}
    (h : Reachable S allowed s) (acts : List act) (hall : ∀ a ∈ acts, ∀ u, allowed u a)
    (f : σ → β) {b : β} (hexec : (Transition.exec S s acts).map f = some b) :
    ∃ t, Reachable S allowed t ∧ f t = b := by
  obtain ⟨t, ht, hb⟩ := Option.map_eq_some_iff.mp hexec
  exact ⟨t, h.exec acts hall ht, hb⟩

/-- What every allowed step keeps, a run of allowed steps keeps. -/
theorem exec_invariant {allowed : act → Prop} (Inv : σ → Prop)
    (hstep : ∀ s a t, Inv s → allowed a → S.step s a = some t → Inv t) {s t : σ} (acts : List act)
    (hall : ∀ a ∈ acts, allowed a) (hexec : exec S s acts = some t) (hs : Inv s) : Inv t := by
  induction acts generalizing s with
  | nil =>
      rw [exec, Option.some.injEq] at hexec
      exact hexec ▸ hs
  | cons a rest ih =>
      rw [exec] at hexec
      obtain ⟨u, hu, hrest⟩ := Option.bind_eq_some_iff.mp hexec
      obtain ⟨ha, hothers⟩ := List.forall_mem_cons.mp hall
      exact ih hothers hrest (hstep s a u hs ha hu)

variable (S)

/-- A run that also stops at a label its guard refuses. -/
def execWhere (guard : σ → act → Bool) : σ → List act → Option σ
  | s, [] => some s
  | s, a :: rest => if guard s a then (S.step s a).bind fun t => execWhere guard t rest else none

variable {S}

/-- A run guarded by something stronger than what is allowed ends in a reachable state. -/
theorem Reachable.exists_observed_where {β : Type} {allowed : σ → act → Prop}
    {guard : σ → act → Bool} (hguard : ∀ s a, guard s a = true → allowed s a) {s : σ}
    (h : Reachable S allowed s) (acts : List act) (f : σ → β) {b : β}
    (hexec : (execWhere S guard s acts).map f = some b) : ∃ t, Reachable S allowed t ∧ f t = b := by
  induction acts generalizing s with
  | nil => exact ⟨s, h, Option.some.inj hexec⟩
  | cons a rest ih =>
      rw [execWhere] at hexec
      split at hexec
      · rename_i ha
        cases hu : S.step s a with
        | none =>
            rw [hu] at hexec
            cases hexec
        | some u =>
            rw [hu, Option.bind_some] at hexec
            exact ih (.step h (hguard s a ha) hu) hexec
      · cases hexec

end Transition
