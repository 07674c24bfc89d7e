import Topic0.BaseTransition

/-! Relations between runs. Two systems run in lockstep when related states enable the same labels
and stay related; two computations have the same outcome when they fail alike or end in related
results; a system projects to a part of it when the part takes its own steps by itself; and a system
unwinds for some of its actions when the others cannot be seen. Each is checked step by step and then
holds of runs. -/

namespace Transition

variable {σ τ act : Type}

/-- From related states an allowed label is enabled in both systems or in neither, and leads to
related states. -/
def Lockstep (S : System σ act) (T : System τ act) (allowed : act → Prop) (R : σ → τ → Prop) : Prop :=
  ∀ s t a, R s t → allowed a → Option.Rel R (S.step s a) (T.step t a)

theorem Lockstep.exec {S : System σ act} {T : System τ act} {allowed : act → Prop}
    {R : σ → τ → Prop} (h : Lockstep S T allowed R) {s : σ} {t : τ} (hR : R s t) (acts : List act)
    (hall : ∀ a ∈ acts, allowed a) : Option.Rel R (exec S s acts) (exec T t acts) := by
  induction acts generalizing s t with
  | nil => exact .some hR
  | cons a rest ih =>
      have hstep := h s t a hR (hall a List.mem_cons_self)
      rw [Transition.exec, Transition.exec]
      cases hs : S.step s a with
      | none =>
          rw [hs] at hstep
          cases ht : T.step t a with
          | none => exact .none
          | some t' =>
              rw [ht] at hstep
              cases hstep
      | some s' =>
          rw [hs] at hstep
          cases ht : T.step t a with
          | none =>
              rw [ht] at hstep
              cases hstep
          | some t' =>
              rw [ht] at hstep
              obtain ⟨hR'⟩ := hstep
              exact ih hR' fun b hb => hall b (List.mem_cons_of_mem _ hb)

section Projection

variable {label : Type}

/-- Every allowed step of the whole is one of the part, which the part takes by itself too, or is not
seen by it. -/
def Projects (S : System σ act) (T : System τ label) (allowed : act → Prop)
    (of : act → Option label) (R : σ → τ → Prop) : Prop :=
  ∀ s s' t a, R s t → allowed a → S.step s a = some s' →
    (of a = none ∧ R s' t) ∨ ∃ l t', of a = some l ∧ T.step t l = some t' ∧ R s' t'

/-- The part's own steps of a run are a run of the part. -/
theorem Projects.exec {S : System σ act} {T : System τ label} {allowed : act → Prop}
    {of : act → Option label} {R : σ → τ → Prop} (h : Projects S T allowed of R) {s s' : σ} {t : τ}
    (hR : R s t) (acts : List act) (hall : ∀ a ∈ acts, allowed a) (hexec : exec S s acts = some s') :
    ∃ t', Transition.exec T t (acts.filterMap of) = some t' ∧ R s' t' := by
  induction acts generalizing s t with
  | nil =>
      cases hexec
      exact ⟨t, rfl, hR⟩
  | cons a rest ih =>
      rw [Transition.exec] at hexec
      obtain ⟨mid, hstep, hrest⟩ := Option.bind_eq_some_iff.mp hexec
      obtain ⟨ha, hothers⟩ := List.forall_mem_cons.mp hall
      obtain ⟨hof, hR'⟩ | ⟨l, u, hof, hu, hR'⟩ := h s mid t a hR ha hstep
      · rw [List.filterMap_cons_none hof]
        exact ih hR' hothers hrest
      · obtain ⟨t', ht', hfinal⟩ := ih hR' hothers hrest
        refine ⟨t', ?_, hfinal⟩
        rw [List.filterMap_cons_some hof, exec_cons hu]
        exact ht'

end Projection

section Outcomes

variable {ε α β γ δ : Type}

/-- Both fail with one error, or both succeed with related results. -/
inductive SameOutcome (R : α → β → Prop) : Except ε α → Except ε β → Prop
  | ok {a : α} {b : β} (h : R a b) : SameOutcome R (.ok a) (.ok b)
  | error (e : ε) : SameOutcome R (.error e) (.error e)

theorem SameOutcome.self (x : Except ε α) : SameOutcome Eq x x := by
  cases x with
  | ok a => exact .ok rfl
  | error e => exact .error e

variable {R : α → β → Prop}

theorem SameOutcome.bind {T : γ → δ → Prop} {x : Except ε α} {y : Except ε β} {f : α → Except ε γ}
    {g : β → Except ε δ} (h : SameOutcome R x y) (hnext : ∀ a b, R a b → SameOutcome T (f a) (g b)) :
    SameOutcome T (x >>= f) (y >>= g) := by
  cases h with
  | ok hR => exact hnext _ _ hR
  | error e => exact .error e

theorem SameOutcome.mapError {ε' : Type} {x : Except ε α} {y : Except ε β} (h : SameOutcome R x y)
    (f : ε → ε') : SameOutcome R (x.mapError f) (y.mapError f) := by
  cases h with
  | ok hR => exact .ok hR
  | error e => exact .error (f e)

theorem SameOutcome.foldlM {ι : Type} {f : α → ι → Except ε α} {g : β → ι → Except ε β}
    (l : List ι) (hstep : ∀ i ∈ l, ∀ a b, R a b → SameOutcome R (f a i) (g b i)) {a : α} {b : β}
    (hR : R a b) : SameOutcome R (l.foldlM f a) (l.foldlM g b) := by
  induction l generalizing a b with
  | nil => exact .ok hR
  | cons i l ih =>
      rw [List.foldlM_cons, List.foldlM_cons]
      apply (hstep i List.mem_cons_self a b hR).bind
      intro a' b' hR'
      exact ih (fun j hj => hstep j (List.mem_cons_of_mem _ hj)) hR'

/-- What every successful step of a loop keeps, the loop keeps. -/
theorem rel_of_foldlM_ok {ι : Type} {K : α → α → Prop} (hrefl : ∀ a, K a a)
    (htrans : ∀ a b c, K a b → K b c → K a c) {f : α → ι → Except ε α} (l : List ι)
    (hstep : ∀ i ∈ l, ∀ a b, f a i = .ok b → K b a) {a b : α} (h : l.foldlM f a = .ok b) : K b a := by
  induction l generalizing a with
  | nil =>
      cases h
      exact hrefl _
  | cons i l ih =>
      rw [List.foldlM_cons] at h
      cases hnext : f a i with
      | error e =>
          rw [hnext] at h
          cases h
      | ok next =>
          rw [hnext] at h
          have hrest := ih (fun j hj => hstep j (List.mem_cons_of_mem _ hj)) h
          exact htrans _ _ _ hrest (hstep i List.mem_cons_self a next hnext)

end Outcomes

section Unwinding

variable {out : Type} (step : σ → act → σ × out) (mine : act → Bool)

/-- The state after a run of total steps. -/
def after (s : σ) (acts : List act) : σ := acts.foldl (fun s a => (step s a).1) s

/-- What the actions in question were answered on the way. -/
def answers : σ → List act → List out
  | _, [] => []
  | s, a :: rest =>
      if mine a then (step s a).2 :: answers (step s a).1 rest else answers (step s a).1 rest

/-- States that look alike answer the actions in question alike and look alike after them; the
other actions cannot be seen. -/
structure Unwinding (R : σ → σ → Prop) : Prop where
  consistent : ∀ s t a, R s t → mine a = true →
    R (step s a).1 (step t a).1 ∧ (step s a).2 = (step t a).2
  unseen : ∀ s t a, R s t → mine a = false → R (step s a).1 t

variable {step mine}

/-- The other actions can be left out of a run: neither the answers nor the final state tell. -/
theorem Unwinding.purge {R : σ → σ → Prop} (h : Unwinding step mine R) {s t : σ} (hR : R s t)
    (acts : List act) :
    R (after step s acts) (after step t (acts.filter mine)) ∧
      answers step mine s acts = answers step mine t (acts.filter mine) := by
  induction acts generalizing s t with
  | nil => exact ⟨hR, rfl⟩
  | cons a rest ih =>
      cases ha : mine a with
      | false =>
          rw [List.filter_cons_of_neg (by rw [ha]; exact Bool.false_ne_true)]
          obtain ⟨hstate, hanswers⟩ := ih (h.unseen s t a hR ha)
          refine ⟨hstate, ?_⟩
          rw [answers, ha]
          exact hanswers
      | true =>
          obtain ⟨hnext, hanswer⟩ := h.consistent s t a hR ha
          obtain ⟨hstate, hanswers⟩ := ih hnext
          rw [List.filter_cons_of_pos ha]
          refine ⟨hstate, ?_⟩
          rw [answers, answers, ha, hanswer, hanswers]

end Unwinding

end Transition
