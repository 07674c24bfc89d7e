import Topic0.BaseTransition

/-! Memoized calls. A call looks its key up; a hit returns an entry that some earlier call inserted
under an equal key, a miss asks the callee, inserts the answer unless it is an error, and returns it.
Calls run concurrently, so an answer may wait before it is inserted, and an entry may expire or be
evicted at any time: a lookup may miss whatever was inserted. Whatever the callee may answer, the
memoized call may answer, as long as the key determines the answers. -/

namespace Memo

open Transition

variable {σ κ ε α : Type}

/-- The entries ever inserted, each with the call that inserted it; the answers to be inserted; what
was returned; and for every hit the call with the one whose entry it was given. -/
structure State (σ ε α : Type) where
  inserted : List (σ × α)
  waiting : List (σ × α)
  returned : List (σ × Except ε α)
  served : List (σ × σ)

def State.empty : State σ ε α := ⟨[], [], [], []⟩

inductive Act (σ ε α : Type) where
  /-- The lookup finds the `i`-th entry. -/
  | hit (call : σ) (i : Nat)
  /-- The lookup finds nothing, and the callee answers. -/
  | miss (call : σ) (answer : Except ε α)
  /-- The `i`-th waiting answer is inserted and returned. -/
  | insert (i : Nat)

def State.step [DecidableEq κ] (key : σ → κ) (s : State σ ε α) :
    Act σ ε α → Option (State σ ε α)
  | .hit call i =>
      match s.inserted[i]? with
      | none => none
      | some (owner, v) =>
          if key owner = key call then
            some { s with
              returned := (call, .ok v) :: s.returned
              served := (call, owner) :: s.served }
          else none
  | .miss call answer =>
      match answer with
      | .ok v => some { s with waiting := (call, v) :: s.waiting }
      | .error e => some { s with returned := (call, .error e) :: s.returned }
  | .insert i =>
      match s.waiting[i]? with
      | none => none
      | some (call, v) =>
          some { s with
            inserted := (call, v) :: s.inserted
            waiting := s.waiting.eraseIdx i
            returned := (call, .ok v) :: s.returned }

/-- The callee gives one of its answers. -/
def Answered (answers : σ → Except ε α → Prop) : Act σ ε α → Prop
  | .miss call answer => answers call answer
  | _ => True

/-- Everything returned or kept is an answer of the callee, and hits are within one key. -/
structure Sound (key : σ → κ) (answers : σ → Except ε α → Prop) (s : State σ ε α) : Prop where
  inserted : ∀ p ∈ s.inserted, answers p.1 (.ok p.2)
  waiting : ∀ p ∈ s.waiting, answers p.1 (.ok p.2)
  returned : ∀ p ∈ s.returned, answers p.1 p.2
  served : ∀ p ∈ s.served, key p.2 = key p.1

theorem sound_empty (key : σ → κ) (answers : σ → Except ε α → Prop) :
    Sound key answers (State.empty : State σ ε α) := by
  refine ⟨?_, ?_, ?_, ?_⟩ <;> exact fun p hp => absurd hp List.not_mem_nil

theorem Sound.mono {key : σ → κ} {answers answers' : σ → Except ε α → Prop} {s : State σ ε α}
    (h : Sound key answers s) (hle : ∀ call answer, answers call answer → answers' call answer) :
    Sound key answers' s :=
  ⟨fun p hp => hle _ _ (h.inserted p hp), fun p hp => hle _ _ (h.waiting p hp),
    fun p hp => hle _ _ (h.returned p hp), h.served⟩

/-- Calls with one key have the same answers. -/
def Determines (key : σ → κ) (answers : σ → Except ε α → Prop) : Prop :=
  ∀ call call' answer, key call = key call' → answers call answer → answers call' answer

theorem sound_step [DecidableEq κ] {key : σ → κ} {answers : σ → Except ε α → Prop}
    (hkey : Determines key answers) {s s' : State σ ε α} {act : Act σ ε α}
    (h : Sound key answers s) (hact : Answered answers act) (hstep : s.step key act = some s') :
    Sound key answers s' := by
  cases act with
  | hit call i =>
      rw [State.step] at hstep
      split at hstep
      · cases hstep
      rename_i call' v hentry
      split at hstep
      · rename_i hsame
        cases hstep
        have hanswer := h.inserted (call', v) (List.mem_of_getElem? hentry)
        refine ⟨h.inserted, h.waiting, ?_, ?_⟩
        · exact List.forall_mem_cons.mpr ⟨hkey _ _ _ hsame hanswer, h.returned⟩
        · exact List.forall_mem_cons.mpr ⟨hsame, h.served⟩
      · cases hstep
  | miss call answer =>
      cases answer with
      | ok v =>
          cases hstep
          exact ⟨h.inserted, List.forall_mem_cons.mpr ⟨hact, h.waiting⟩, h.returned, h.served⟩
      | error e =>
          cases hstep
          exact ⟨h.inserted, h.waiting, List.forall_mem_cons.mpr ⟨hact, h.returned⟩, h.served⟩
  | insert i =>
      rw [State.step] at hstep
      split at hstep
      · cases hstep
      rename_i call v hentry
      cases hstep
      have hanswer := h.waiting (call, v) (List.mem_of_getElem? hentry)
      refine ⟨List.forall_mem_cons.mpr ⟨hanswer, h.inserted⟩, fun p hp => ?_,
        List.forall_mem_cons.mpr ⟨hanswer, h.returned⟩, h.served⟩
      exact h.waiting p (List.mem_of_mem_eraseIdx hp)

end Memo
