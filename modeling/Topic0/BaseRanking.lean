import Topic0.BaseTransition
import Mathlib.Algebra.BigOperators.Group.Finset.Basic

/-! Runs that end. Where every step a guard lets through keeps an invariant and takes a rank down, a
run is no longer than the rank it starts with, and every run can be taken on until nothing is enabled.
So what holds wherever nothing is enabled is reached by every run that is taken on as far as it goes. -/

namespace Transition

variable {σ act : Type} {S : System σ act}

/-- No step its guard lets through is enabled. -/
def Stuck (S : System σ act) (guard : σ → act → Bool) (s : σ) : Prop :=
  ∀ a, guard s a = true → S.step s a = none

/-- Every guarded step keeps the invariant and takes the rank down. -/
def Ranked (S : System σ act) (guard : σ → act → Bool) (Inv : σ → Prop) (rank : σ → Nat) : Prop :=
  ∀ s a t, Inv s → guard s a = true → S.step s a = some t → Inv t ∧ rank t < rank s

namespace Ranked

variable {guard : σ → act → Bool} {Inv : σ → Prop} {rank : σ → Nat} (h : Ranked S guard Inv rank)

include h

/-- A run spends at least one of the rank on each step. -/
theorem length_add_le {s t : σ} (acts : List act) (hexec : execWhere S guard s acts = some t)
    (hs : Inv s) : Inv t ∧ acts.length + rank t ≤ rank s := by
  induction acts generalizing s with
  | nil =>
      rw [execWhere, Option.some.injEq] at hexec
      subst hexec
      exact ⟨hs, le_of_eq (Nat.zero_add _)⟩
  | cons a rest ih =>
      rw [execWhere, Option.ite_none_right_eq_some] at hexec
      obtain ⟨ha, hexec⟩ := hexec
      obtain ⟨u, hstep, hrest⟩ := Option.bind_eq_some_iff.mp hexec
      obtain ⟨hu, hlt⟩ := h s a u hs ha hstep
      obtain ⟨ht, hle⟩ := ih hrest hu
      refine ⟨ht, ?_⟩
      rw [List.length_cons]
      omega

/-- From a state with the invariant some run ends where nothing is enabled. -/
theorem exists_stuck {s : σ} (hs : Inv s) :
    ∃ acts t, execWhere S guard s acts = some t ∧ Inv t ∧ Stuck S guard t := by
  induction hrank : rank s using Nat.strong_induction_on generalizing s with
  | _ k ih =>
      by_cases hstuck : Stuck S guard s
      · exact ⟨[], s, rfl, hs, hstuck⟩
      · unfold Stuck at hstuck
        push Not at hstuck
        obtain ⟨a, ha, hsome⟩ := hstuck
        obtain ⟨u, hstep⟩ := Option.ne_none_iff_exists'.mp hsome
        obtain ⟨hu, hlt⟩ := h s a u hs ha hstep
        obtain ⟨acts, t, hexec, ht⟩ := ih (rank u) (hrank ▸ hlt) hu rfl
        refine ⟨a :: acts, t, ?_, ht⟩
        rw [execWhere, if_pos ha, hstep, Option.bind_some]
        exact hexec

end Ranked

/-- The sum over a pool when one member changes. -/
theorem sum_update {α : Type} {n i : Nat} (hi : i < n) (f : Nat → α) (a : α) (cost : α → Nat) :
    ∑ j ∈ Finset.range n, cost (Function.update f i a j) + cost (f i) =
      ∑ j ∈ Finset.range n, cost (f j) + cost a := by
  have hmem : i ∈ Finset.range n := Finset.mem_range.mpr hi
  have hrest : ∑ j ∈ (Finset.range n).erase i, cost (Function.update f i a j) =
      ∑ j ∈ (Finset.range n).erase i, cost (f j) := by
    apply Finset.sum_congr rfl
    intro j hj
    rw [Function.update_of_ne (Finset.ne_of_mem_erase hj)]
  rw [← Finset.add_sum_erase _ _ hmem, ← Finset.add_sum_erase _ (fun j => cost (f j)) hmem, hrest,
    Function.update_self]
  omega

end Transition
