import Mathlib.Tactic

/-! Loops as step functions. A step goes on with a new state or returns; the loop runs it on fuel
and has no result when the fuel is spent first. A measure that every step lowers bounds the number
of steps, so that enough fuel always gives a result, and an invariant says which. -/

namespace Loop

variable {σ ρ : Type}

/-- At most `fuel` steps. -/
def run (step : σ → σ ⊕ ρ) : Nat → σ → Option ρ
  | 0, _ => none
  | fuel + 1, s =>
      match step s with
      | .inl s' => run step fuel s'
      | .inr r => some r

/-- What a step may do from a state of the invariant. -/
def Advances (Inv : σ → Prop) (weight : σ → Nat) (Post : ρ → Prop) (s : σ) : σ ⊕ ρ → Prop
  | .inl s' => Inv s' ∧ weight s' < weight s
  | .inr r => Post r

/-- Enough fuel for the measure gives a result, and the invariant gives its postcondition. -/
theorem exists_run {step : σ → σ ⊕ ρ} (Inv : σ → Prop) (weight : σ → Nat) (Post : ρ → Prop)
    (hstep : ∀ s, Inv s → Advances Inv weight Post s (step s)) {fuel : Nat} {s : σ} (hs : Inv s)
    (hfuel : weight s < fuel) : ∃ r, run step fuel s = some r ∧ Post r := by
  induction fuel generalizing s with
  | zero => omega
  | succ fuel ih =>
      have hadv := hstep s hs
      cases hnext : step s with
      | inl s' =>
          rw [hnext] at hadv
          obtain ⟨hs', hlt⟩ := hadv
          obtain ⟨r, hr, hpost⟩ := ih hs' (by omega)
          refine ⟨r, ?_, hpost⟩
          rw [run, hnext]
          exact hr
      | inr r =>
          rw [hnext] at hadv
          exact ⟨r, by rw [run, hnext], hadv⟩

/-- The result does not depend on the fuel. -/
theorem run_unique {step : σ → σ ⊕ ρ} {fuel fuel' : Nat} {s : σ} {r r' : ρ}
    (h : run step fuel s = some r) (h' : run step fuel' s = some r') : r = r' := by
  induction fuel generalizing fuel' s with
  | zero => cases h
  | succ fuel ih =>
      cases fuel' with
      | zero => cases h'
      | succ fuel' =>
          rw [run] at h h'
          cases hnext : step s with
          | inl s' =>
              rw [hnext] at h h'
              exact ih h h'
          | inr result =>
              rw [hnext] at h h'
              cases h
              cases h'
              rfl

/-- An invariant that every step keeps gives its postcondition to any result. -/
theorem of_run {step : σ → σ ⊕ ρ} (Inv : σ → Prop) (Post : ρ → Prop)
    (hstep : ∀ s, Inv s → Sum.elim Inv Post (step s)) {fuel : Nat} {s : σ} {r : ρ} (hs : Inv s)
    (h : run step fuel s = some r) : Post r := by
  induction fuel generalizing s with
  | zero => cases h
  | succ fuel ih =>
      have hnext := hstep s hs
      rw [run] at h
      split at h
      · rename_i s' hs'
        rw [hs'] at hnext
        exact ih hnext h
      · rename_i r' hr'
        rw [hr'] at hnext
        cases h
        exact hnext

end Loop
