import Topic0.BaseMemo

/-! Memoized calls by the clock. The callee answers from data that changes with time; an entry is
found under an equal key for `ttl` ticks after its insertion, and may be gone earlier. So whatever is
returned was answered by the callee at some moment, and how long ago that was is the time the answer
waited for its insertion and at most the time to live. -/

namespace Memo.Timed

open Transition

variable {σ κ ε α : Type}

/-- An answer that has been inserted, or waits for it. -/
structure Entry (σ α : Type) where
  call : σ
  value : α
  asked : Nat
  stored : Nat

/-- A returned answer: when the callee was asked for it, when it was inserted, when it was returned. -/
structure Return (σ ε α : Type) where
  call : σ
  answer : Except ε α
  asked : Nat
  stored : Nat
  at_ : Nat

structure State (σ ε α : Type) where
  inserted : List (Entry σ α)
  waiting : List (Entry σ α)
  returned : List (Return σ ε α)

def State.empty : State σ ε α := ⟨[], [], []⟩

inductive Act (σ ε α : Type) where
  /-- The lookup finds the `i`-th entry, which is not too old. -/
  | hit (call : σ) (i : Nat)
  /-- The lookup finds nothing, and the callee answers. -/
  | miss (call : σ) (answer : Except ε α)
  /-- The `i`-th waiting answer is inserted and returned. -/
  | insert (i : Nat)

def State.step [DecidableEq κ] (key : σ → κ) (ttl now : Nat) (s : State σ ε α) :
    Act σ ε α → Option (State σ ε α)
  | .hit call i =>
      match s.inserted[i]? with
      | none => none
      | some e =>
          if key e.call = key call ∧ now < e.stored + ttl then
            some { s with returned := ⟨call, .ok e.value, e.asked, e.stored, now⟩ :: s.returned }
          else none
  | .miss call answer =>
      match answer with
      | .ok v => some { s with waiting := ⟨call, v, now, now⟩ :: s.waiting }
      | .error e =>
          some { s with returned := ⟨call, .error e, now, now, now⟩ :: s.returned }
  | .insert i =>
      match s.waiting[i]? with
      | none => none
      | some e =>
          some { s with
            inserted := { e with stored := now } :: s.inserted
            waiting := s.waiting.eraseIdx i
            returned := ⟨e.call, .ok e.value, e.asked, now, now⟩ :: s.returned }

/-- The callee gives one of the answers it has at the moment. -/
def Answered (answers : Nat → σ → Except ε α → Prop) (now : Nat) : Act σ ε α → Prop
  | .miss call answer => answers now call answer
  | _ => True

/-- A return of an answer that the callee gave when it was asked, not long after it was inserted. -/
structure Return.Recent (answers : Nat → σ → Except ε α → Prop) (ttl : Nat) (r : Return σ ε α) :
    Prop where
  answered : answers r.asked r.call r.answer
  asked : r.asked ≤ r.stored
  stored : r.stored ≤ r.at_
  kept : r.at_ = r.stored ∨ r.at_ < r.stored + ttl
  fresh : ∀ e, r.answer = .error e → r.at_ = r.asked

structure Sound (answers : Nat → σ → Except ε α → Prop) (ttl now : Nat) (s : State σ ε α) : Prop where
  inserted : ∀ e ∈ s.inserted, answers e.asked e.call (.ok e.value) ∧ e.asked ≤ e.stored ∧
    e.stored ≤ now
  waiting : ∀ e ∈ s.waiting, answers e.asked e.call (.ok e.value) ∧ e.asked ≤ now
  returned : ∀ r ∈ s.returned, r.Recent answers ttl

theorem sound_empty (answers : Nat → σ → Except ε α → Prop) (ttl now : Nat) :
    Sound answers ttl now (State.empty : State σ ε α) := by
  refine ⟨?_, ?_, ?_⟩ <;> exact fun p hp => absurd hp List.not_mem_nil

theorem Sound.later {answers : Nat → σ → Except ε α → Prop} {ttl now now' : Nat} {s : State σ ε α}
    (h : Sound answers ttl now s) (hnow : now ≤ now') : Sound answers ttl now' s := by
  refine ⟨?_, ?_, h.returned⟩
  · intro e he
    obtain ⟨hanswer, hasked, hstored⟩ := h.inserted e he
    exact ⟨hanswer, hasked, hstored.trans hnow⟩
  · intro e he
    obtain ⟨hanswer, hasked⟩ := h.waiting e he
    exact ⟨hanswer, hasked.trans hnow⟩

theorem sound_step [DecidableEq κ] {key : σ → κ} {answers : Nat → σ → Except ε α → Prop}
    {ttl now : Nat} (hkey : ∀ t, Determines key (answers t)) {s s' : State σ ε α} {act : Act σ ε α}
    (h : Sound answers ttl now s) (hact : Answered answers now act)
    (hstep : s.step key ttl now act = some s') : Sound answers ttl now s' := by
  cases act with
  | hit call i =>
      rw [State.step] at hstep
      split at hstep
      · cases hstep
      rename_i e hentry
      split at hstep
      · rename_i hfound
        cases hstep
        obtain ⟨hanswer, hasked, hstored⟩ := h.inserted e (List.mem_of_getElem? hentry)
        refine ⟨h.inserted, h.waiting, List.forall_mem_cons.mpr ⟨?_, h.returned⟩⟩
        exact ⟨hkey _ _ _ _ hfound.1 hanswer, hasked, hstored, .inr hfound.2, nofun⟩
      · cases hstep
  | miss call answer =>
      cases answer with
      | ok v =>
          cases hstep
          refine ⟨h.inserted, List.forall_mem_cons.mpr ⟨⟨hact, Nat.le_refl _⟩, h.waiting⟩, h.returned⟩
      | error e =>
          cases hstep
          refine ⟨h.inserted, h.waiting, List.forall_mem_cons.mpr ⟨?_, h.returned⟩⟩
          exact ⟨hact, Nat.le_refl _, Nat.le_refl _, .inl rfl, fun _ _ => rfl⟩
  | insert i =>
      rw [State.step] at hstep
      split at hstep
      · cases hstep
      rename_i e hentry
      cases hstep
      obtain ⟨hanswer, hasked⟩ := h.waiting e (List.mem_of_getElem? hentry)
      refine ⟨List.forall_mem_cons.mpr ⟨⟨hanswer, hasked, Nat.le_refl _⟩, h.inserted⟩, ?_,
        List.forall_mem_cons.mpr ⟨?_, h.returned⟩⟩
      · intro e' he'
        exact h.waiting e' (List.mem_of_mem_eraseIdx he')
      · exact ⟨hanswer, hasked, Nat.le_refl _, .inl rfl, nofun⟩

/-- What was written before the answer's time to live, and the time a call takes, has been seen. -/
theorem Return.Recent.asked_ge {answers : Nat → σ → Except ε α → Prop} {ttl latency written : Nat}
    {r : Return σ ε α} (h : r.Recent answers ttl) (hlatency : r.stored ≤ r.asked + latency)
    (hwritten : written + latency + ttl ≤ r.at_) : written ≤ r.asked := by
  have hkept := h.kept
  omega

end Memo.Timed
