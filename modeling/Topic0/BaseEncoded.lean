import Topic0.BaseTable

/-! A table kept under an encoding of its rows. The encoding is faithful on the rows in question when
two of them have one encoded key exactly if they have one key; then every write of the one table is
the encoded write of the other, row for row and in the same order. -/

namespace Keyed.Table

variable {ρ ρ' κ κ' : Type} {key : ρ → κ} {key' : ρ' → κ'}

/-- Encoded keys are equal exactly when the keys are. -/
def Faithful (key : ρ → κ) (key' : ρ' → κ') (f : ρ → ρ') (S : ρ → Prop) : Prop :=
  ∀ x y, S x → S y → (key' (f x) = key' (f y) ↔ key x = key y)

/-- The second table holds the encoded rows of the first, all of which are in `S`. -/
structure Encoded (f : ρ → ρ') (S : ρ → Prop) (t : Table key) (t' : Table key') : Prop where
  rows : t'.rows = t.rows.map f
  within : ∀ r ∈ t, S r

variable {f : ρ → ρ'} {S : ρ → Prop} {t : Table key} {t' : Table key'}

theorem encoded_empty : Encoded f S (empty : Table key) (empty : Table key') :=
  ⟨rfl, fun r hr => absurd hr (not_mem_empty r)⟩

/-- A selection by encoded rows is the encoded selection. -/
theorem Encoded.filter (h : Encoded f S t t') {p : ρ → Bool} {q : ρ' → Bool}
    (hp : ∀ r, S r → q (f r) = p r) : t'.rows.filter q = (t.rows.filter p).map f := by
  rw [h.rows, List.filter_map]
  congr 1
  apply List.filter_congr
  intro r hr
  exact hp r (h.within r hr)

theorem Encoded.delete (h : Encoded f S t t') {p : ρ → Bool} {q : ρ' → Bool}
    (hp : ∀ r, S r → q (f r) = p r) : Encoded f S (t.delete p) (t'.delete q) := by
  constructor
  · exact h.filter fun r hr => by rw [hp r hr]
  · intro r hr
    exact h.within r (mem_delete.mp hr).1

variable [DecidableEq κ] [DecidableEq κ']

theorem Encoded.find? (h : Encoded f S t t') {k : κ} {l : κ'}
    (hk : ∀ r, S r → (key' (f r) = l ↔ key r = k)) : t'.find? l = (t.find? k).map f := by
  rw [Table.find?, Table.find?, h.rows, List.find?_map]
  congr 1
  apply List.find?_congr
  intro r hr
  exact decide_eq_decide.mpr (hk r (h.within r hr))

section Writes

variable (hf : Faithful key key' f S)

include hf

theorem Encoded.insertIgnore (h : Encoded f S t t') {r : ρ} (hr : S r) :
    Encoded f S (t.insertIgnore r) (t'.insertIgnore (f r)) := by
  have hiff : key' (f r) ∈ t'.rows.map key' ↔ key r ∈ t.rows.map key := by
    rw [h.rows, List.map_map, List.mem_map, List.mem_map]
    apply exists_congr
    intro x
    apply and_congr_right
    intro hx
    exact hf x r (h.within x hx) hr
  constructor
  · rw [Table.insertIgnore, Table.insertIgnore]
    by_cases hdup : key r ∈ t.rows.map key
    · rw [dif_pos hdup, dif_pos (hiff.mpr hdup)]
      exact h.rows
    · rw [dif_neg hdup, dif_neg fun hdup' => hdup (hiff.mp hdup')]
      show t'.rows ++ [f r] = (t.rows ++ [r]).map f
      rw [List.map_append, h.rows]
      rfl
  · intro x hx
    rcases mem_insertIgnore.mp hx with hx | ⟨rfl, -⟩
    · exact h.within x hx
    · exact hr

theorem Encoded.insertAll (h : Encoded f S t t') {rs : List ρ} (hrs : ∀ r ∈ rs, S r) :
    Encoded f S (t.insertAll rs) (t'.insertAll (rs.map f)) := by
  induction rs generalizing t t' with
  | nil => exact h
  | cons r rs ih =>
      rw [List.map_cons, insertAll_cons, insertAll_cons]
      apply ih
      · exact h.insertIgnore hf (hrs r List.mem_cons_self)
      · intro x hx
        exact hrs x (List.mem_cons_of_mem _ hx)

theorem Encoded.upsert (h : Encoded f S t t') {r : ρ} (hr : S r) :
    Encoded f S (t.upsert r) (t'.upsert (f r)) := by
  constructor
  · show t'.rows.filter (fun x => key' x ≠ key' (f r)) ++ [f r] =
      (t.rows.filter (fun x => key x ≠ key r) ++ [r]).map f
    rw [List.map_append, h.filter (p := fun x => key x ≠ key r)]
    · rfl
    · intro x hx
      exact decide_eq_decide.mpr (not_congr (hf x r hx hr))
  · intro x hx
    rcases mem_upsert.mp hx with rfl | ⟨hx, -⟩
    · exact hr
    · exact h.within x hx

theorem Encoded.upsertAll (h : Encoded f S t t') {rs : List ρ} (hrs : ∀ r ∈ rs, S r) :
    Encoded f S (t.upsertAll rs) (t'.upsertAll (rs.map f)) := by
  induction rs generalizing t t' with
  | nil => exact h
  | cons r rs ih =>
      rw [List.map_cons, upsertAll_cons, upsertAll_cons]
      apply ih
      · exact h.upsert hf (hrs r List.mem_cons_self)
      · intro x hx
        exact hrs x (List.mem_cons_of_mem _ hx)

end Writes

end Keyed.Table
