import Mathlib.Tactic

/-! Histories of a run, the newest event first. A mark is an event that something is promised about,
with what the promise needs of it: `Since` speaks of everything recorded after each mark, `Before` of
everything recorded up to it. Both are stated over all ways to split the history, and both follow the
history event by event. -/

namespace History

variable {ε β : Type} (mark : ε → Option β)

/-- Each mark has `P` of what was recorded after it. -/
def Since (P : β → List ε → Prop) (history : List ε) : Prop :=
  ∀ later e earlier b, history = later ++ e :: earlier → mark e = some b → P b later

/-- Each mark has `P` of what was recorded up to it. -/
def Before (P : β → List ε → Prop) (history : List ε) : Prop :=
  ∀ later e earlier b, history = later ++ e :: earlier → mark e = some b → P b earlier

variable {mark} {P Q : β → List ε → Prop} {e : ε} {history : List ε}

theorem since_nil : Since mark P [] := by
  intro later e earlier b hsplit
  cases later with
  | nil => cases hsplit
  | cons x later => cases hsplit

theorem since_cons : Since mark P (e :: history) ↔
    (∀ b, mark e = some b → P b []) ∧ Since mark (fun b later => P b (e :: later)) history := by
  constructor
  · intro h
    refine ⟨fun b hmark => h [] e history b rfl hmark, ?_⟩
    rintro later x earlier b rfl hmark
    exact h (e :: later) x earlier b rfl hmark
  · rintro ⟨hhead, htail⟩ later x earlier b hsplit hmark
    cases later with
    | nil =>
        cases hsplit
        exact hhead b hmark
    | cons y later =>
        cases hsplit
        exact htail later x earlier b rfl hmark

theorem Since.imp (h : Since mark P history) (himp : ∀ b later, P b later → Q b later) :
    Since mark Q history := by
  intro later e earlier b hsplit hmark
  exact himp b later (h later e earlier b hsplit hmark)

/-- An event that is no mark is one more event after each mark. -/
theorem Since.record (h : Since mark P history) (hmark : mark e = none)
    (himp : ∀ b later, P b later → Q b (e :: later)) : Since mark Q (e :: history) := by
  refine since_cons.mpr ⟨fun b hb => ?_, h.imp himp⟩
  rw [hmark] at hb
  cases hb

theorem before_nil : Before mark P [] := by
  intro later e earlier b hsplit
  cases later with
  | nil => cases hsplit
  | cons x later => cases hsplit

theorem before_cons : Before mark P (e :: history) ↔
    (∀ b, mark e = some b → P b history) ∧ Before mark P history := by
  constructor
  · intro h
    refine ⟨fun b hmark => h [] e history b rfl hmark, ?_⟩
    rintro later x earlier b rfl hmark
    exact h (e :: later) x earlier b rfl hmark
  · rintro ⟨hhead, htail⟩ later x earlier b hsplit hmark
    cases later with
    | nil =>
        cases hsplit
        exact hhead b hmark
    | cons y later =>
        cases hsplit
        exact htail later x earlier b rfl hmark

theorem Before.record (h : Before mark P history) (hmark : mark e = none) :
    Before mark P (e :: history) := by
  refine before_cons.mpr ⟨fun b hb => ?_, h⟩
  rw [hmark] at hb
  cases hb

theorem Before.append (h : Before mark P history) {new : List ε} (hnew : ∀ e ∈ new, mark e = none) :
    Before mark P (new ++ history) := by
  induction new with
  | nil => exact h
  | cons e new ih =>
      apply Before.record
      · exact ih fun x hx => hnew x (List.mem_cons_of_mem _ hx)
      · exact hnew e List.mem_cons_self

end History
