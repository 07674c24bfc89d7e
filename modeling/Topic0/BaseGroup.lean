import Mathlib.Tactic

/-! Splitting a list of rows: by a key into an ordered map of buckets (each bucket in arrival
order), and into chunks of a bounded size. Neither loses, copies or changes a row. Writing the
parts in turn can fail; the last section says when it does not. -/

namespace Rows

variable {α κ : Type}

section Buckets

variable [DecidableEq κ] [LT κ] [DecidableLT κ]

/-- Append to the bucket of `k`, which is opened in key order when it does not exist yet. -/
def push : List (κ × List α) → κ → α → List (κ × List α)
  | [], k, a => [(k, [a])]
  | (k', as) :: rest, k, a =>
      if k = k' then (k', as ++ [a]) :: rest
      else if k < k' then (k, [a]) :: (k', as) :: rest
      else (k', as) :: push rest k a

/-- All buckets, filled in list order. -/
def buckets (key : α → κ) (rows : List α) : List (κ × List α) :=
  rows.foldl (fun groups a => push groups (key a) a) []

theorem flatMap_push (groups : List (κ × List α)) (k : κ) (a : α) :
    ((push groups k a).flatMap Prod.snd).Perm (groups.flatMap Prod.snd ++ [a]) := by
  induction groups with
  | nil => simp [push]
  | cons g rest ih =>
      obtain ⟨k', as⟩ := g
      rw [push]
      split
      · simp only [List.flatMap_cons, List.append_assoc]
        exact List.perm_append_comm.append_left as
      · split
        · simp only [List.flatMap_cons, List.singleton_append]
          exact (List.perm_append_singleton a _).symm
        · simp only [List.flatMap_cons, List.append_assoc]
          exact ih.append_left as

theorem flatMap_foldl_push (key : α → κ) (rows : List α) (groups : List (κ × List α)) :
    ((rows.foldl (fun groups a => push groups (key a) a) groups).flatMap Prod.snd).Perm
      (groups.flatMap Prod.snd ++ rows) := by
  induction rows generalizing groups with
  | nil => simp
  | cons a rows ih =>
      refine (ih _).trans ?_
      rw [← List.singleton_append, ← List.append_assoc]
      exact (flatMap_push groups (key a) a).append_right rows

/-- The buckets hold exactly the rows. -/
theorem flatMap_buckets (key : α → κ) (rows : List α) :
    ((buckets key rows).flatMap Prod.snd).Perm rows :=
  flatMap_foldl_push key rows []

/-- A bucket after a push was there before, or is the one the row went to. -/
theorem mem_push {groups : List (κ × List α)} {k : κ} {a : α} {g : κ × List α}
    (hg : g ∈ push groups k a) :
    g ∈ groups ∨ ∃ as, g = (k, as ++ [a]) ∧ (as = [] ∨ (k, as) ∈ groups) := by
  induction groups with
  | nil => exact .inr ⟨[], List.mem_singleton.mp hg, .inl rfl⟩
  | cons head rest ih =>
      obtain ⟨k', as⟩ := head
      rw [push] at hg
      split at hg
      · rename_i hk
        rcases List.mem_cons.mp hg with rfl | hrest
        · exact .inr ⟨as, by rw [hk], .inr (by rw [hk]; exact List.mem_cons_self)⟩
        · exact .inl (List.mem_cons_of_mem _ hrest)
      · split at hg
        · rcases List.mem_cons.mp hg with rfl | hold
          · exact .inr ⟨[], rfl, .inl rfl⟩
          · exact .inl hold
        · rcases List.mem_cons.mp hg with rfl | hrest
          · exact .inl List.mem_cons_self
          · rcases ih hrest with hold | ⟨bs, heq, hbs⟩
            · exact .inl (List.mem_cons_of_mem _ hold)
            · exact .inr ⟨bs, heq, hbs.imp_right (List.mem_cons_of_mem _)⟩

theorem keyed_push {key : α → κ} {groups : List (κ × List α)} {a : α}
    (h : ∀ g ∈ groups, ∀ x ∈ g.2, key x = g.1) :
    ∀ g ∈ push groups (key a) a, ∀ x ∈ g.2, key x = g.1 := by
  intro g hg x hx
  rcases mem_push hg with hold | ⟨as, rfl, has⟩
  · exact h g hold x hx
  · rcases List.mem_append.mp hx with hx | hx
    · rcases has with rfl | hmem
      · exact absurd hx List.not_mem_nil
      · exact h _ hmem x hx
    · rw [List.mem_singleton.mp hx]

/-- Every row sits in the bucket of its own key. -/
theorem keyed_buckets {key : α → κ} {rows : List α} :
    ∀ g ∈ buckets key rows, ∀ x ∈ g.2, key x = g.1 :=
  List.foldlRecOn
    (motive := fun groups : List (κ × List α) => ∀ g ∈ groups, ∀ x ∈ g.2, key x = g.1) rows _
    (fun _ hg => absurd hg List.not_mem_nil) fun _ hgroups _ _ => keyed_push hgroups

theorem ne_nil_push {groups : List (κ × List α)} {k : κ} {a : α} (h : ∀ g ∈ groups, g.2 ≠ []) :
    ∀ g ∈ push groups k a, g.2 ≠ [] := by
  intro g hg
  rcases mem_push hg with hold | ⟨as, rfl, -⟩
  · exact h g hold
  · exact List.append_ne_nil_of_right_ne_nil as (List.cons_ne_nil a [])

/-- No bucket is empty. -/
theorem ne_nil_buckets {key : α → κ} {rows : List α} : ∀ g ∈ buckets key rows, g.2 ≠ [] :=
  List.foldlRecOn (motive := fun groups : List (κ × List α) => ∀ g ∈ groups, g.2 ≠ []) rows _
    (fun _ hg => absurd hg List.not_mem_nil) fun _ hgroups _ _ => ne_nil_push hgroups

theorem mem_buckets {key : α → κ} {rows : List α} {a : α} :
    a ∈ rows ↔ ∃ g ∈ buckets key rows, a ∈ g.2 := by
  rw [← (flatMap_buckets key rows).mem_iff, List.mem_flatMap]

/-- The bucket of `k` holds the rows of key `k`. -/
theorem filter_buckets_perm (key : α → κ) (rows : List α) (k : κ) :
    (((buckets key rows).filter fun g => g.1 = k).flatMap Prod.snd).Perm
      (rows.filter fun a => key a = k) := by
  have hkeyed : ∀ g ∈ buckets key rows, ∀ x ∈ g.2, key x = g.1 := keyed_buckets
  refine List.Perm.trans (List.Perm.of_eq ?_) ((flatMap_buckets key rows).filter _)
  generalize buckets key rows = groups at hkeyed
  induction groups with
  | nil => rfl
  | cons g groups ih =>
      have hrest := ih fun g hg => hkeyed g (List.mem_cons_of_mem _ hg)
      have hg := hkeyed g List.mem_cons_self
      rw [List.flatMap_cons, List.filter_append, ← hrest, List.filter_cons]
      by_cases hk : g.1 = k
      · have hall : g.2.filter (fun a => key a = k) = g.2 :=
          List.filter_eq_self.mpr fun a ha => by rw [hg a ha, hk]; simp
        simp [hk, hall]
      · have hnone : g.2.filter (fun a => key a = k) = [] :=
          List.filter_eq_nil_iff.mpr fun a ha => by rw [hg a ha]; simpa using hk
        simp [hk, hnone]

end Buckets

section Ordered

variable [LinearOrder κ]

theorem ordered_push {groups : List (κ × List α)} {k : κ} {a : α}
    (h : groups.Pairwise fun g g' => g.1 < g'.1) :
    (push groups k a).Pairwise fun g g' => g.1 < g'.1 := by
  induction groups with
  | nil => exact List.pairwise_singleton _ _
  | cons g rest ih =>
      obtain ⟨k', as⟩ := g
      obtain ⟨hlt, hrest⟩ := List.pairwise_cons.mp h
      rw [push]
      split
      · exact List.pairwise_cons.mpr ⟨hlt, hrest⟩
      split
      · rename_i hk
        refine List.pairwise_cons.mpr ⟨fun g hg => ?_, h⟩
        rcases List.mem_cons.mp hg with rfl | hg
        · exact hk
        · exact hk.trans (hlt g hg)
      · rename_i hne hk
        refine List.pairwise_cons.mpr ⟨fun g hg => ?_, ih hrest⟩
        rcases mem_push hg with hold | ⟨bs, rfl, -⟩
        · exact hlt g hold
        · exact lt_of_le_of_ne (not_lt.mp hk) (Ne.symm hne)

/-- The keys ascend, so no two buckets share one. -/
theorem ordered_buckets (key : α → κ) (rows : List α) :
    (buckets key rows).Pairwise fun g g' => g.1 < g'.1 :=
  List.foldlRecOn rows _ List.Pairwise.nil fun _ hg _ _ => ordered_push hg

theorem eq_of_mem_buckets {key : α → κ} {rows : List α} {g g' : κ × List α}
    (hg : g ∈ buckets key rows) (hg' : g' ∈ buckets key rows) (hkey : g.1 = g'.1) : g = g' := by
  have hnodup : ((buckets key rows).map Prod.fst).Nodup :=
    List.pairwise_map.mpr ((ordered_buckets key rows).imp ne_of_lt)
  exact List.inj_on_of_nodup_map hnodup hg hg' hkey

end Ordered

section Chunks

/-- `fuel` bounds the number of chunks. -/
def chunksAux (size : Nat) : Nat → List α → List (List α)
  | 0, _ => []
  | fuel + 1, rows =>
      if rows.isEmpty then [] else rows.take size :: chunksAux size fuel (rows.drop size)

/-- Consecutive chunks of at most `size` rows; `size` is positive wherever rows are chunked. -/
def chunks (size : Nat) (rows : List α) : List (List α) := chunksAux size rows.length rows

theorem flatten_chunksAux {size : Nat} (hsize : 0 < size) :
    ∀ (fuel : Nat) (rows : List α), rows.length ≤ fuel →
      (chunksAux size fuel rows).flatten = rows := by
  intro fuel
  induction fuel with
  | zero =>
      intro rows hlen
      rw [List.length_eq_zero_iff.mp (Nat.le_zero.mp hlen)]
      rfl
  | succ fuel ih =>
      intro rows hlen
      rw [chunksAux]
      split
      · rename_i hempty
        rw [List.isEmpty_iff.mp hempty]
        rfl
      · rename_i hne
        have hpos : 0 < rows.length := List.length_pos_iff.mpr fun h => hne (by rw [h]; rfl)
        have hdrop : (rows.drop size).length ≤ fuel := by
          rw [List.length_drop]
          omega
        rw [List.flatten_cons, ih _ hdrop, List.take_append_drop]

theorem flatten_chunks {size : Nat} (hsize : 0 < size) (rows : List α) :
    (chunks size rows).flatten = rows :=
  flatten_chunksAux hsize _ _ le_rfl

theorem length_of_mem_chunksAux {size fuel : Nat} {rows chunk : List α}
    (h : chunk ∈ chunksAux size fuel rows) : chunk.length ≤ size := by
  induction fuel generalizing rows with
  | zero => exact absurd h List.not_mem_nil
  | succ fuel ih =>
      rw [chunksAux] at h
      split at h
      · exact absurd h List.not_mem_nil
      · rcases List.mem_cons.mp h with rfl | h
        · exact List.length_take_le _ _
        · exact ih h

theorem length_of_mem_chunks {size : Nat} {rows chunk : List α} (h : chunk ∈ chunks size rows) :
    chunk.length ≤ size :=
  length_of_mem_chunksAux h

/-- Writing chunk by chunk is writing row by row. -/
theorem foldl_chunks {σ : Type} {size : Nat} (hsize : 0 < size) (write : σ → α → σ) (s : σ)
    (rows : List α) :
    (chunks size rows).foldl (fun s part => part.foldl write s) s = rows.foldl write s := by
  rw [← List.foldl_flatten, flatten_chunks hsize]

end Chunks

section Fallible

variable {ε σ β : Type}

theorem bind_eq_ok {x : Except ε α} {f : α → Except ε β} {b : β} :
    (x >>= f) = .ok b ↔ ∃ a, x = .ok a ∧ f a = .ok b := by
  rcases x with e | a
  · constructor
    · intro h
      cases h
    · rintro ⟨_, ha, -⟩
      cases ha
  · constructor
    · exact fun h => ⟨a, rfl, h⟩
    · rintro ⟨_, ha, hb⟩
      cases ha
      exact hb

theorem mapError_eq_ok {x : Except ε α} {f : ε → σ} {a : α} :
    x.mapError f = .ok a ↔ x = .ok a := by
  rcases x with e | b
  · constructor
    · intro h
      cases h
    · intro h
      cases h
  · constructor
    · intro h
      cases h
      rfl
    · intro h
      cases h
      rfl

theorem mem_mapM_ok {f : α → Except ε β} {as : List α} {bs : List β}
    (h : as.mapM f = .ok bs) {b : β} : b ∈ bs ↔ ∃ a ∈ as, f a = .ok b := by
  induction as generalizing bs with
  | nil =>
      cases h
      simp
  | cons a as ih =>
      rw [List.mapM_cons, bind_eq_ok] at h
      obtain ⟨x, hx, h⟩ := h
      rw [bind_eq_ok] at h
      obtain ⟨rest, hrest, heq⟩ := h
      cases heq
      rw [List.mem_cons, ih hrest]
      simp only [List.mem_cons, exists_eq_or_imp, hx, Except.ok.injEq]
      exact or_congr_left eq_comm

theorem exists_ok_of_mapM {f : α → Except ε β} {as : List α} {bs : List β}
    (h : as.mapM f = .ok bs) {a : α} (ha : a ∈ as) : ∃ b, f a = .ok b := by
  induction as generalizing bs with
  | nil => exact absurd ha List.not_mem_nil
  | cons first as ih =>
      rw [List.mapM_cons, bind_eq_ok] at h
      obtain ⟨b, hb, h⟩ := h
      rw [bind_eq_ok] at h
      obtain ⟨rest, hrest, -⟩ := h
      rcases List.mem_cons.mp ha with rfl | ha
      · exact ⟨b, hb⟩
      · exact ih hrest ha

theorem mapM_eq_map {m : Type → Type} [Monad m] [LawfulMonad m] {f : α → m β} {g : α → β}
    {as : List α} (h : ∀ a ∈ as, f a = pure (g a)) : as.mapM f = pure (as.map g) := by
  induction as with
  | nil => exact List.mapM_nil
  | cons a as ih =>
      rw [List.mapM_cons, h a List.mem_cons_self, ih fun a' ha' => h a' (List.mem_cons_of_mem _ ha'),
        pure_bind, pure_bind, List.map_cons]

theorem exists_mapM_ok {f : α → Except ε β} {as : List α} (h : ∀ a ∈ as, ∃ b, f a = .ok b) :
    ∃ bs, as.mapM f = .ok bs := by
  induction as with
  | nil => exact ⟨[], rfl⟩
  | cons a as ih =>
      rw [List.forall_mem_cons] at h
      obtain ⟨b, hb⟩ := h.1
      obtain ⟨bs, hbs⟩ := ih h.2
      refine ⟨b :: bs, ?_⟩
      rw [List.mapM_cons, bind_eq_ok]
      refine ⟨b, hb, ?_⟩
      rw [bind_eq_ok]
      exact ⟨bs, hbs, rfl⟩

/-- A sequence of writes none of which can fail, while `Inv` holds, succeeds. -/
theorem exists_foldlM_ok (write : σ → α → Except ε σ) (Inv : σ → Prop) (rows : List α) {s : σ}
    (hwrite : ∀ a ∈ rows, ∀ s, Inv s → ∃ s', write s a = .ok s' ∧ Inv s') (hs : Inv s) :
    ∃ s', rows.foldlM write s = .ok s' ∧ Inv s' := by
  induction rows generalizing s with
  | nil => exact ⟨s, rfl, hs⟩
  | cons a rows ih =>
      obtain ⟨t, ht, hinv⟩ := hwrite a List.mem_cons_self s hs
      obtain ⟨s', hs', hinv'⟩ := ih (fun a ha => hwrite a (List.mem_cons_of_mem _ ha)) hinv
      exact ⟨s', by rw [List.foldlM_cons, Rows.bind_eq_ok]; exact ⟨t, ht, hs'⟩, hinv'⟩

end Fallible

end Rows
