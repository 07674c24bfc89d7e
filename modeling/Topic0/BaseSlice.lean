import Topic0.BaseTable

/-! The part of a table that a condition on its key selects. Writes of rows outside it do not touch it,
and the other writes act on it as they do on the table. -/

namespace Keyed.Table

variable {ρ κ : Type} {key : ρ → κ}

theorem ext_rows {t t' : Table key} (h : t.rows = t'.rows) : t = t' := by
  cases t
  cases t'
  cases h
  rfl

/-- The rows that satisfy `p`. -/
def slice (t : Table key) (p : ρ → Bool) : Table key where
  rows := t.rows.filter p
  nodup := t.nodup.sublist (List.filter_sublist.map key)

/-- The condition can be read off the key. -/
def OnKey (key : ρ → κ) (p : ρ → Bool) : Prop := ∀ x y, key x = key y → p x = p y

variable {t : Table key} {p : ρ → Bool}

theorem mem_slice {r : ρ} (hr : p r = true) : r ∈ t.slice p ↔ r ∈ t := by
  show r ∈ t.rows.filter p ↔ r ∈ t.rows
  rw [List.mem_filter, and_iff_left hr]

theorem filter_slice {q : ρ → Bool} (hq : ∀ r, q r = true → p r = true) :
    (t.slice p).rows.filter q = t.rows.filter q := by
  show (t.rows.filter p).filter q = _
  rw [List.filter_filter]
  apply List.filter_congr
  intro r _
  cases hr : q r with
  | false => rfl
  | true => rw [hq r hr, Bool.true_and]

theorem any_slice {q : ρ → Bool} (hq : ∀ r, q r = true → p r = true) :
    (t.slice p).rows.any q = t.rows.any q := by
  show (t.rows.filter p).any q = t.rows.any q
  rw [List.any_filter]
  congr 1
  funext r
  cases hr : q r with
  | false => exact Bool.and_false _
  | true => rw [hq r hr, Bool.true_and]

theorem slice_delete (q : ρ → Bool) : (t.delete q).slice p = (t.slice p).delete q := by
  apply ext_rows
  show (t.rows.filter fun r => !q r).filter p = (t.rows.filter p).filter fun r => !q r
  rw [List.filter_filter, List.filter_filter]
  apply List.filter_congr
  intro r _
  exact Bool.and_comm ..

theorem slice_delete_of_disjoint {q : ρ → Bool} (h : ∀ r, p r = true → q r = false) :
    (t.delete q).slice p = t.slice p := by
  rw [slice_delete]
  apply ext_rows
  show (t.rows.filter p).filter (fun r => !q r) = t.rows.filter p
  rw [List.filter_eq_self]
  intro r hr
  rw [h r (List.mem_filter.mp hr).2]
  rfl

variable [DecidableEq κ]

theorem find?_slice {k : κ} (hk : ∀ r, key r = k → p r = true) : (t.slice p).find? k = t.find? k := by
  show (t.rows.filter p).find? _ = t.rows.find? _
  rw [List.find?_filter]
  apply List.find?_congr
  intro r _
  apply decide_eq_decide.mpr
  rw [decide_eq_true_eq]
  exact and_iff_right_of_imp (hk r)

section Writes

variable (hp : OnKey key p)

include hp

theorem slice_insertIgnore (r : ρ) :
    (t.insertIgnore r).slice p = if p r then (t.slice p).insertIgnore r else t.slice p := by
  apply ext_rows
  by_cases hr : p r = true
  · have hiff : key r ∈ (t.slice p).rows.map key ↔ key r ∈ t.rows.map key := by
      rw [List.mem_map, List.mem_map]
      apply exists_congr
      intro x
      apply and_congr_left
      intro hx
      show x ∈ t.rows.filter p ↔ _
      rw [List.mem_filter, hp x r hx, hr, eq_self, and_true]
    rw [if_pos hr, insertIgnore, insertIgnore]
    by_cases hdup : key r ∈ t.rows.map key
    · rw [dif_pos hdup, dif_pos (hiff.mpr hdup)]
    · rw [dif_neg hdup, dif_neg fun hdup' => hdup (hiff.mp hdup')]
      show (t.rows ++ [r]).filter p = t.rows.filter p ++ [r]
      rw [List.filter_append, List.filter_singleton, hr]
      rfl
  · rw [if_neg hr, insertIgnore]
    split
    · rfl
    · show (t.rows ++ [r]).filter p = t.rows.filter p
      rw [List.filter_append, List.filter_singleton, Bool.eq_false_iff.mpr hr, cond_false,
        List.append_nil]

theorem slice_insertAll (rs : List ρ) :
    (t.insertAll rs).slice p = (t.slice p).insertAll (rs.filter p) := by
  induction rs generalizing t with
  | nil => rfl
  | cons r rs ih =>
      rw [insertAll_cons, ih, slice_insertIgnore hp, List.filter_cons]
      split
      · rfl
      · rfl

theorem slice_upsert (r : ρ) :
    (t.upsert r).slice p = if p r then (t.slice p).upsert r else t.slice p := by
  apply ext_rows
  show (t.rows.filter (fun x => key x ≠ key r) ++ [r]).filter p = _
  rw [List.filter_append, List.filter_singleton, List.filter_filter]
  by_cases hr : p r = true
  · rw [hr, cond_true, if_pos rfl]
    show _ = (t.rows.filter p).filter (fun x => key x ≠ key r) ++ [r]
    rw [List.filter_filter]
    congr 1
    apply List.filter_congr
    intro x _
    exact Bool.and_comm ..
  · rw [if_neg hr, Bool.eq_false_iff.mpr hr, cond_false, List.append_nil]
    show _ = t.rows.filter p
    apply List.filter_congr
    intro x _
    by_cases hx : key x = key r
    · rw [hp x r hx, Bool.eq_false_iff.mpr hr, Bool.false_and]
    · rw [decide_eq_true hx, Bool.and_true]

theorem slice_upsertAll (rs : List ρ) :
    (t.upsertAll rs).slice p = (t.slice p).upsertAll (rs.filter p) := by
  induction rs generalizing t with
  | nil => rfl
  | cons r rs ih =>
      rw [upsertAll_cons, ih, slice_upsert hp, List.filter_cons]
      split
      · rfl
      · rfl

end Writes

end Keyed.Table
