import Mathlib.Tactic

/-! Writers that append. A function on the output so far is specified by what it appends, so that a
sequence of writes appends the concatenation and a loop of writes one piece for each round. A loop
that puts a separator before every piece but the first writes the separated pieces. -/

namespace Emit

variable {α χ : Type}

/-- The function appends this, whatever has been written. -/
def Appends (f : List χ → List χ) (out : List χ) : Prop := ∀ s, f s = s ++ out

theorem Appends.comp {f g : List χ → List χ} {out out' : List χ} (hf : Appends f out)
    (hg : Appends g out') : Appends (fun s => g (f s)) (out ++ out') := by
  intro s
  show g (f s) = s ++ (out ++ out')
  rw [hg, hf, List.append_assoc]

theorem appends_foldl {step : List χ → α → List χ} {piece : α → List χ}
    (h : ∀ a, Appends (fun s => step s a) (piece a)) (as : List α) :
    Appends (fun s => as.foldl step s) (as.flatMap piece) := by
  induction as with
  | nil =>
      intro s
      exact (List.append_nil s).symm
  | cons a as ih =>
      rw [List.flatMap_cons]
      exact (h a).comp ih

/-- The pieces with a separator between them. -/
def separated (sep : List χ) : List (List χ) → List χ
  | [] => []
  | piece :: pieces => piece ++ pieces.flatMap fun p => sep ++ p

theorem separated_append (sep : List χ) {pieces : List (List χ)} (h : pieces ≠ [])
    (pieces' : List (List χ)) :
    separated sep (pieces ++ pieces') =
      separated sep pieces ++ pieces'.flatMap fun p => sep ++ p := by
  cases pieces with
  | nil => exact absurd rfl h
  | cons piece pieces =>
      rw [List.cons_append, separated, separated, List.flatMap_append, List.append_assoc]

/-- One round of a loop that separates its pieces; the flag says that it is the first round. -/
def separateStep (sep : List χ) (step : List χ → α → List χ) (s : List χ × Bool) (a : α) :
    List χ × Bool :=
  (step (if s.2 then s.1 else s.1 ++ sep) a, false)

theorem foldl_separateStep_false {sep : List χ} {step : List χ → α → List χ} {piece : α → List χ}
    (h : ∀ a, Appends (fun s => step s a) (piece a)) (as : List α) (s : List χ) :
    (as.foldl (separateStep sep step) (s, false)).1 =
      s ++ (as.map piece).flatMap fun p => sep ++ p := by
  induction as generalizing s with
  | nil => exact (List.append_nil s).symm
  | cons a as ih =>
      rw [List.foldl_cons, separateStep, ih, List.map_cons, List.flatMap_cons]
      simp only [Bool.false_eq_true, if_false, h a (s ++ sep), List.append_assoc]

/-- The loop writes the separated pieces. -/
theorem appends_separateStep {sep : List χ} {step : List χ → α → List χ} {piece : α → List χ}
    (h : ∀ a, Appends (fun s => step s a) (piece a)) (as : List α) :
    Appends (fun s => (as.foldl (separateStep sep step) (s, true)).1)
      (separated sep (as.map piece)) := by
  intro s
  cases as with
  | nil => exact (List.append_nil s).symm
  | cons a as =>
      show (List.foldl _ (s, true) (a :: as)).1 = _
      rw [List.foldl_cons, separateStep, foldl_separateStep_false h, List.map_cons, separated]
      simp only [if_true, h a s, List.append_assoc]

end Emit
