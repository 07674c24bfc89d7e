import Mathlib.Tactic

/-! Tables with a primary key and the writes SQL has for them: `INSERT … ON CONFLICT DO NOTHING`,
`INSERT … ON CONFLICT DO UPDATE` and `DELETE … WHERE`. The key constraint is part of the table, so
every table is one the database accepts. Row order is not observable: the lemmas speak of
membership. -/

namespace Keyed

variable {ρ κ : Type}

/-- The rows of a table whose primary key is `key`. -/
structure Table (key : ρ → κ) where
  rows : List ρ
  nodup : (rows.map key).Nodup

namespace Table

variable {key : ρ → κ}

instance : Membership ρ (Table key) := ⟨fun t r => r ∈ t.rows⟩

theorem mem_def {t : Table key} {r : ρ} : r ∈ t ↔ r ∈ t.rows := Iff.rfl

instance [DecidableEq ρ] (t : Table key) (r : ρ) : Decidable (r ∈ t) :=
  inferInstanceAs (Decidable (r ∈ t.rows))

/-- The table without rows. -/
def empty : Table key := ⟨[], List.nodup_nil⟩

@[simp] theorem not_mem_empty (r : ρ) : ¬r ∈ (empty : Table key) := List.not_mem_nil

/-- A primary key determines its row. -/
theorem eq_of_key {t : Table key} {r r' : ρ} (hr : r ∈ t) (hr' : r' ∈ t)
    (hkey : key r = key r') : r = r' :=
  List.inj_on_of_nodup_map t.nodup hr hr' hkey

theorem key_not_mem_iff {t : Table key} {k : κ} :
    k ∉ t.rows.map key ↔ ∀ r ∈ t, key r ≠ k := by
  simp only [List.mem_map, not_exists, not_and]
  exact Iff.rfl

/-- `DELETE FROM t WHERE p`. -/
def delete (t : Table key) (p : ρ → Bool) : Table key where
  rows := t.rows.filter fun r => !p r
  nodup := t.nodup.sublist (List.filter_sublist.map key)

@[simp] theorem mem_delete {t : Table key} {p : ρ → Bool} {r : ρ} :
    r ∈ t.delete p ↔ r ∈ t ∧ p r = false := by
  simp [delete, mem_def]

variable [DecidableEq κ]

/-- Primary-key lookup. -/
def find? (t : Table key) (k : κ) : Option ρ := t.rows.find? fun r => key r = k

theorem find?_eq_none {t : Table key} {k : κ} : t.find? k = none ↔ ∀ r ∈ t, key r ≠ k := by
  simp [find?, mem_def]

theorem of_find?_eq_some {t : Table key} {k : κ} {r : ρ} (h : t.find? k = some r) :
    r ∈ t ∧ key r = k := by
  have hkey := List.find?_some h
  rw [decide_eq_true_eq] at hkey
  exact ⟨List.mem_of_find?_eq_some h, hkey⟩

theorem find?_eq_some {t : Table key} {k : κ} {r : ρ} :
    t.find? k = some r ↔ r ∈ t ∧ key r = k := by
  refine ⟨of_find?_eq_some, fun ⟨hr, hkey⟩ => ?_⟩
  cases hfind : t.find? k with
  | none => exact absurd hkey (find?_eq_none.mp hfind r hr)
  | some r' =>
      obtain ⟨hr', hkey'⟩ := of_find?_eq_some hfind
      rw [eq_of_key hr' hr (hkey'.trans hkey.symm)]

/-- `INSERT … ON CONFLICT DO NOTHING` of one row. -/
def insertIgnore (t : Table key) (r : ρ) : Table key :=
  if h : key r ∈ t.rows.map key then t
  else ⟨t.rows ++ [r], by
    rw [List.map_append, List.map_cons, List.map_nil]
    exact List.nodup_append.mpr ⟨t.nodup, List.nodup_singleton _, fun a ha b hb hab =>
      h (by rw [List.mem_singleton.mp hb] at hab; exact hab ▸ ha)⟩⟩

theorem mem_insertIgnore {t : Table key} {r x : ρ} :
    x ∈ t.insertIgnore r ↔ x ∈ t ∨ (x = r ∧ ∀ y ∈ t, key y ≠ key r) := by
  unfold insertIgnore
  split
  · rename_i h
    refine ⟨Or.inl, ?_⟩
    rintro (hx | ⟨-, hfree⟩)
    · exact hx
    · exact absurd h (key_not_mem_iff.mpr hfree)
  · rename_i h
    have hfree := key_not_mem_iff.mp h
    simp only [mem_def, List.mem_append, List.mem_singleton] at *
    exact or_congr_right (iff_self_and.mpr fun _ => hfree)

/-- `INSERT … ON CONFLICT DO UPDATE` of one row. -/
def upsert (t : Table key) (r : ρ) : Table key where
  rows := t.rows.filter (fun x => key x ≠ key r) ++ [r]
  nodup := by
    rw [List.map_append, List.map_cons, List.map_nil]
    refine List.nodup_append.mpr ⟨t.nodup.sublist (List.filter_sublist.map key),
      List.nodup_singleton _, fun a ha b hb hab => ?_⟩
    obtain ⟨x, hx, rfl⟩ := List.mem_map.mp ha
    have hne : key x ≠ key r := by simpa using (List.mem_filter.mp hx).2
    rw [List.mem_singleton.mp hb] at hab
    exact hne hab

theorem mem_upsert {t : Table key} {r x : ρ} :
    x ∈ t.upsert r ↔ x = r ∨ (x ∈ t ∧ key x ≠ key r) := by
  simp only [upsert, mem_def, List.mem_append, List.mem_filter, decide_eq_true_eq,
    List.mem_singleton]
  exact or_comm

/-- Several rows inserted in order, each ignored on a conflict. -/
def insertAll (t : Table key) (rs : List ρ) : Table key := rs.foldl insertIgnore t

/-- Several rows upserted in order. -/
def upsertAll (t : Table key) (rs : List ρ) : Table key := rs.foldl upsert t

@[simp] theorem insertAll_nil (t : Table key) : t.insertAll [] = t := rfl

@[simp] theorem insertAll_cons (t : Table key) (r : ρ) (rs : List ρ) :
    t.insertAll (r :: rs) = (t.insertIgnore r).insertAll rs := rfl

theorem insertAll_append (t : Table key) (rs rs' : List ρ) :
    t.insertAll (rs ++ rs') = (t.insertAll rs).insertAll rs' := List.foldl_append

@[simp] theorem upsertAll_nil (t : Table key) : t.upsertAll [] = t := rfl

@[simp] theorem upsertAll_cons (t : Table key) (r : ρ) (rs : List ρ) :
    t.upsertAll (r :: rs) = (t.upsert r).upsertAll rs := rfl

theorem upsertAll_append (t : Table key) (rs rs' : List ρ) :
    t.upsertAll (rs ++ rs') = (t.upsertAll rs).upsertAll rs' := List.foldl_append

/-- Rows already stored survive every ignoring insert. -/
theorem mem_insertAll_of_mem {t : Table key} {x : ρ} (rs : List ρ) (hx : x ∈ t) :
    x ∈ t.insertAll rs := by
  induction rs generalizing t with
  | nil => exact hx
  | cons r rs ih => exact ih (mem_insertIgnore.mpr (.inl hx))

theorem mem_or_mem_of_mem_insertAll {t : Table key} {x : ρ} {rs : List ρ}
    (hx : x ∈ t.insertAll rs) : x ∈ t ∨ x ∈ rs := by
  induction rs generalizing t with
  | nil => exact .inl hx
  | cons r rs ih =>
      rcases ih hx with hmem | hmem
      · rcases mem_insertIgnore.mp hmem with h | ⟨rfl, -⟩
        · exact .inl h
        · exact .inr List.mem_cons_self
      · exact .inr (List.mem_cons_of_mem _ hmem)

/-- Every inserted key is present afterwards, under its own row or an earlier one. -/
theorem exists_key_insertAll {t : Table key} {rs : List ρ} {r : ρ} (hr : r ∈ rs) :
    ∃ x ∈ t.insertAll rs, key x = key r := by
  induction rs generalizing t with
  | nil => exact absurd hr List.not_mem_nil
  | cons r' rs ih =>
      rcases List.mem_cons.mp hr with rfl | hmem
      · by_cases hfree : ∀ y ∈ t, key y ≠ key r
        · exact ⟨r, mem_insertAll_of_mem rs (mem_insertIgnore.mpr (.inr ⟨rfl, hfree⟩)), rfl⟩
        · push Not at hfree
          obtain ⟨y, hy, hkey⟩ := hfree
          exact ⟨y, mem_insertAll_of_mem rs (mem_insertIgnore.mpr (.inl hy)), hkey⟩
      · exact ih hmem

theorem find?_insertIgnore (t : Table key) (r : ρ) (k : κ) :
    (t.insertIgnore r).find? k = (t.find? k).or (if key r = k then some r else none) := by
  cases hfind : t.find? k with
  | some x =>
      obtain ⟨hx, hkey⟩ := of_find?_eq_some hfind
      rw [Option.some_or, find?_eq_some]
      exact ⟨mem_insertIgnore.mpr (.inl hx), hkey⟩
  | none =>
      rw [find?_eq_none] at hfind
      rw [Option.none_or]
      by_cases hr : key r = k
      · rw [if_pos hr, find?_eq_some]
        exact ⟨mem_insertIgnore.mpr (.inr ⟨rfl, fun y hy => hr ▸ hfind y hy⟩), hr⟩
      · rw [if_neg hr, find?_eq_none]
        intro x hx
        rcases mem_insertIgnore.mp hx with hx | ⟨rfl, -⟩
        · exact hfind x hx
        · exact hr

/-- Under a key stands what stood there, else the first inserted row. -/
theorem find?_insertAll (t : Table key) (rs : List ρ) (k : κ) :
    (t.insertAll rs).find? k = (t.find? k).or (rs.find? fun r => key r = k) := by
  induction rs generalizing t with
  | nil => simp
  | cons r rs ih =>
      rw [insertAll_cons, ih, find?_insertIgnore, Option.or_assoc, List.find?_cons]
      by_cases hr : key r = k
      · simp [hr]
      · simp [hr]

theorem find?_upsert (t : Table key) (r : ρ) (k : κ) :
    (t.upsert r).find? k = if key r = k then some r else t.find? k := by
  by_cases hr : key r = k
  · rw [if_pos hr, find?_eq_some]
    exact ⟨mem_upsert.mpr (.inl rfl), hr⟩
  · rw [if_neg hr]
    cases hfind : t.find? k with
    | some x =>
        obtain ⟨hx, hkey⟩ := of_find?_eq_some hfind
        rw [find?_eq_some]
        exact ⟨mem_upsert.mpr (.inr ⟨hx, fun heq => hr (heq.symm.trans hkey)⟩), hkey⟩
    | none =>
        rw [find?_eq_none] at hfind ⊢
        intro x hx
        rcases mem_upsert.mp hx with rfl | ⟨hx, -⟩
        · exact hr
        · exact hfind x hx

/-- Under a key stands the last upserted row, else what stood there. -/
theorem find?_upsertAll (t : Table key) (rs : List ρ) (k : κ) :
    (t.upsertAll rs).find? k = (rs.reverse.find? fun r => key r = k).or (t.find? k) := by
  induction rs generalizing t with
  | nil => simp
  | cons r rs ih =>
      rw [upsertAll_cons, ih, find?_upsert, List.reverse_cons, List.find?_append, Option.or_assoc,
        List.find?_singleton]
      congr 1
      by_cases hr : key r = k
      · simp [hr]
      · simp [hr]

/-- Into an empty table: under a key stands the last of those upserted for it. -/
theorem find?_empty_upsertAll {α : Type} (row : α → ρ) (as : List α) (k : κ) :
    ((empty : Table key).upsertAll (as.map row)).find? k =
      (as.filter fun a => key (row a) = k).getLast?.map row := by
  have hnone : (empty : Table key).find? k = none := rfl
  rw [find?_upsertAll, hnone, Option.or_none, ← List.map_reverse, List.find?_map,
    ← List.head?_filter, List.filter_reverse, List.head?_reverse]
  rfl

/-- The rows left are those that were upserted last for their key. -/
theorem mem_empty_upsertAll {α : Type} (row : α → ρ) (as : List α) {r : ρ} :
    r ∈ (empty : Table key).upsertAll (as.map row) ↔
      ∃ a, (as.filter fun a' => key (row a') = key (row a)).getLast? = some a ∧ row a = r := by
  have hfind : ((empty : Table key).upsertAll (as.map row)).find? (key r) =
      (as.filter fun a => key (row a) = key r).getLast?.map row := find?_empty_upsertAll row as _
  constructor
  · intro hr
    have hself : ((empty : Table key).upsertAll (as.map row)).find? (key r) = some r :=
      find?_eq_some.mpr ⟨hr, rfl⟩
    obtain ⟨a, ha, hrow⟩ := Option.map_eq_some_iff.mp (hfind.symm.trans hself)
    exact ⟨a, by rw [hrow]; exact ha, hrow⟩
  · rintro ⟨a, ha, rfl⟩
    rw [ha] at hfind
    exact (of_find?_eq_some hfind).1

/-- The same for what is read off the rows. -/
theorem mem_map_empty_upsertAll {α β : Type} (row : α → ρ) (as : List α) (f : ρ → β) {b : β} :
    b ∈ ((empty : Table key).upsertAll (as.map row)).rows.map f ↔
      ∃ a, (as.filter fun a' => key (row a') = key (row a)).getLast? = some a ∧ f (row a) = b := by
  rw [List.mem_map]
  constructor
  · rintro ⟨r, hr, rfl⟩
    obtain ⟨a, ha, rfl⟩ := (mem_empty_upsertAll row as).mp hr
    exact ⟨a, ha, rfl⟩
  · rintro ⟨a, ha, rfl⟩
    exact ⟨row a, (mem_empty_upsertAll row as).mpr ⟨a, ha, rfl⟩, rfl⟩

/-- Rows whose keys are all taken change nothing. -/
theorem insertAll_eq_self {t : Table key} {rs : List ρ}
    (h : ∀ r ∈ rs, ∃ x ∈ t, key x = key r) : t.insertAll rs = t := by
  induction rs with
  | nil => rfl
  | cons r rs ih =>
      have htaken : key r ∈ t.rows.map key := by
        obtain ⟨x, hx, hkey⟩ := h r List.mem_cons_self
        exact List.mem_map.mpr ⟨x, hx, hkey⟩
      rw [insertAll_cons, insertIgnore, dif_pos htaken]
      exact ih fun r' hr' => h r' (List.mem_cons_of_mem _ hr')

/-- Rows that agree with each other and with the table on every shared key are all stored. -/
theorem mem_insertAll {t : Table key} {rs : List ρ}
    (hagree : ∀ r ∈ rs, ∀ x, x ∈ t ∨ x ∈ rs → key x = key r → x = r) {x : ρ} :
    x ∈ t.insertAll rs ↔ x ∈ t ∨ x ∈ rs := by
  refine ⟨mem_or_mem_of_mem_insertAll, ?_⟩
  rintro (hx | hx)
  · exact mem_insertAll_of_mem rs hx
  · obtain ⟨y, hy, hkey⟩ := exists_key_insertAll (t := t) hx
    exact hagree x hx y (mem_or_mem_of_mem_insertAll hy) hkey ▸ hy

/-- Upserting rows that agree with each other replaces exactly the rows under their keys. -/
theorem mem_upsertAll {t : Table key} {rs : List ρ}
    (hagree : ∀ r ∈ rs, ∀ r' ∈ rs, key r = key r' → r = r') {x : ρ} :
    x ∈ t.upsertAll rs ↔ x ∈ rs ∨ (x ∈ t ∧ ∀ r ∈ rs, key x ≠ key r) := by
  induction rs generalizing t with
  | nil => simp [upsertAll]
  | cons r rs ih =>
      rw [upsertAll_cons, ih fun a ha b hb =>
        hagree a (List.mem_cons_of_mem _ ha) b (List.mem_cons_of_mem _ hb)]
      simp only [mem_upsert, List.mem_cons, forall_eq_or_imp]
      constructor
      · rintro (h | ⟨rfl | ⟨hx, hne⟩, hrest⟩)
        · exact .inl (.inr h)
        · exact .inl (.inl rfl)
        · exact .inr ⟨hx, hne, hrest⟩
      · rintro ((rfl | h) | ⟨hx, hne, hrest⟩)
        · by_cases hdup : x ∈ rs
          · exact .inl hdup
          · refine .inr ⟨.inl rfl, fun r' hr' hkey => hdup ?_⟩
            exact hagree x List.mem_cons_self r' (List.mem_cons_of_mem _ hr') hkey ▸ hr'
        · exact .inl h
        · exact .inr ⟨.inr ⟨hx, hne⟩, hrest⟩

section Agreeing

variable {t : Table key} {rs : List ρ} {S : ρ → Prop}

/-- Inserting rows of a set that keys are injective on adds exactly those rows. -/
theorem mem_insertAll_of_injOn (hinj : ∀ x y, S x → S y → key x = key y → x = y)
    (hrs : ∀ r ∈ rs, S r) (ht : ∀ x ∈ t, ∀ r ∈ rs, key x = key r → S x) {x : ρ} :
    x ∈ t.insertAll rs ↔ x ∈ t ∨ x ∈ rs := by
  apply mem_insertAll
  rintro r hr x (hx | hx) hkey
  · exact hinj x r (ht x hx r hr hkey) (hrs r hr) hkey
  · exact hinj x r (hrs x hx) (hrs r hr) hkey

/-- So does upserting them: a replaced row is the row itself. -/
theorem mem_upsertAll_of_injOn (hinj : ∀ x y, S x → S y → key x = key y → x = y)
    (hrs : ∀ r ∈ rs, S r) (ht : ∀ x ∈ t, ∀ r ∈ rs, key x = key r → S x) {x : ρ} :
    x ∈ t.upsertAll rs ↔ x ∈ t ∨ x ∈ rs := by
  rw [mem_upsertAll fun a ha b hb => hinj a b (hrs a ha) (hrs b hb)]
  constructor
  · rintro (hx | ⟨hx, -⟩)
    · exact .inr hx
    · exact .inl hx
  · rintro (hx | hx)
    · by_cases hfree : ∀ r ∈ rs, key x ≠ key r
      · exact .inr ⟨hx, hfree⟩
      · push Not at hfree
        obtain ⟨r, hr, hkey⟩ := hfree
        exact .inl (hinj x r (ht x hx r hr hkey) (hrs r hr) hkey ▸ hr)
    · exact .inl hx

end Agreeing

end Table

end Keyed
