import Topic0.BaseKeyset

/-! Keyset paging over rows that change between one page and the next. Every page is taken from the
rows as they are then, past the key of the last row shown. As long as the rows of one time differ in
their keys, no key is shown twice, whatever is inserted or deleted in between; and a key that some row
has every time a page is taken is shown by the time the cursor is past it. -/

namespace Keyset

variable {α κ : Type} [LinearOrder κ] (key : α → κ)

/-- At most so many pages, the `n`-th one of the rows of that time. -/
def walk (o : Nat → Sorter fun a b => key a ≤ key b) (size : Nat) (rows : Nat → List α) :
    Nat → Nat → Option κ → List (Page α κ)
  | 0, _, _ => []
  | requests + 1, n, after =>
      let p := page key (o n) size (rows n) after
      if p.hasNext then p :: walk o size rows requests (n + 1) p.endCursor else [p]

/-- The pages have got as far as the key. -/
def Reached (pages : List (Page α κ)) (k : κ) : Prop :=
  ∃ p ∈ pages.getLast?, p.hasNext = false ∨ ∃ a ∈ p.items, k ≤ key a

/-- What one page shows: rows past the cursor, in order, and all of them up to the next cursor. -/
structure PageShows (rows : List α) (after : Option κ) (p : Page α κ) : Prop where
  sorted : p.items.Pairwise fun a b => key a < key b
  taken : ∀ a ∈ p.items, a ∈ rows ∧ past key after a = true
  last : p.hasNext = false → ∀ a ∈ rows, past key after a = true → a ∈ p.items
  next : p.hasNext = true → ∃ c, p.endCursor = some c ∧ (∀ a ∈ p.items, key a ≤ c) ∧
    (∃ a ∈ p.items, key a = c) ∧ ∀ a ∈ rows, past key after a = true → key a ≤ c → a ∈ p.items

/-- What the pages from a cursor on show. -/
structure WalkShows (rows : Nat → List α) (n : Nat) (after : Option κ) (pages : List (Page α κ)) :
    Prop where
  sorted : (pages.flatMap Page.items).Pairwise fun a b => key a < key b
  taken : ∀ i p, pages[i]? = some p → ∀ a ∈ p.items, a ∈ rows (n + i) ∧ past key after a = true
  covers : ∀ k, (∀ c, after = some c → c < k) →
    (∀ i, i < pages.length → ∃ a ∈ rows (n + i), key a = k) → Reached key pages k →
    ∃ a ∈ pages.flatMap Page.items, key a = k

variable {key} {size : Nat}

theorem past_iff {after : Option κ} {a : α} :
    past key after a = true ↔ ∀ c, after = some c → c < key a := by
  rw [past, Option.all_eq_true]
  simp only [decide_eq_true_eq]

/-- Where keys do not repeat, sorted rows are strictly sorted. -/
theorem strict_of_nodup {s : List α} (hsorted : s.Pairwise fun a b => key a ≤ key b)
    (hnodup : (s.map key).Nodup) : s.Pairwise fun a b => key a < key b := by
  have hne : s.Pairwise fun a b => key a ≠ key b := List.pairwise_map.mp hnodup
  exact hsorted.imp₂ (fun _ _ hle hneq => lt_of_le_of_ne hle hneq) hne

theorem page_shows (o : Sorter fun a b => key a ≤ key b) (hsize : 0 < size) {rows : List α}
    (after : Option κ) (hnodup : (rows.map key).Nodup) :
    PageShows key rows after (page key o size rows after) := by
  have hitems : (page key o size rows after).items =
      (o.sort (rows.filter (past key after))).take size := page_items o rows after
  have hnext : (page key o size rows after).hasNext =
      decide (size < (o.sort (rows.filter (past key after))).length) := by
    apply decide_eq_decide.mpr
    rw [List.length_take]
    omega
  have hsorted := o.sorted (rows.filter (past key after))
  have hmem : ∀ a, a ∈ o.sort (rows.filter (past key after)) ↔ a ∈ rows ∧ past key after a = true :=
    fun a => (o.perm _).mem_iff.trans List.mem_filter
  have hstrict : (o.sort (rows.filter (past key after))).Pairwise fun a b => key a < key b := by
    apply strict_of_nodup hsorted
    exact ((o.perm _).map key).nodup_iff.mpr (hnodup.sublist (List.filter_sublist.map key))
  generalize hs : o.sort (rows.filter (past key after)) = s at *
  refine ⟨?_, ?_, ?_, ?_⟩
  · rw [hitems]
    exact hstrict.sublist (List.take_sublist _ _)
  · intro a ha
    rw [hitems] at ha
    exact (hmem a).mp (List.mem_of_mem_take ha)
  · intro hfalse a ha hpast
    rw [hnext, decide_eq_false_iff_not, Nat.not_lt] at hfalse
    rw [hitems, List.take_of_length_le hfalse]
    exact (hmem a).mpr ⟨ha, hpast⟩
  · intro htrue
    have hlt : size < s.length := by rwa [hnext, decide_eq_true_eq] at htrue
    obtain ⟨last, hgetLast, -, hlow, -⟩ := exists_last_of_sorted hsorted hsize hlt
    have hlastMem : last ∈ s.take size := List.mem_of_getLast? hgetLast
    refine ⟨key last, ?_, ?_, ⟨last, hitems ▸ hlastMem, rfl⟩, ?_⟩
    · have hcursor : (page key o size rows after).endCursor =
          if (page key o size rows after).hasNext then
            (page key o size rows after).items.getLast?.map key else none := rfl
      rw [hcursor, if_pos htrue, hitems, hgetLast, Option.map_some]
    · rw [hitems]
      exact hlow
    · intro a ha hpast hle
      rw [hitems]
      have hin : a ∈ s.take size ++ s.drop size := by
        rw [List.take_append_drop]
        exact (hmem a).mpr ⟨ha, hpast⟩
      rcases List.mem_append.mp hin with hshown | hleft
      · exact hshown
      · -- what the page leaves lies strictly behind its last row
        rw [← List.take_append_drop size s, List.pairwise_append] at hstrict
        exact absurd hle (not_le.mpr (hstrict.2.2 last hlastMem a hleft))

section Walk

variable {rows : Nat → List α} {n : Nat} {after : Option κ}

theorem WalkShows.nil : WalkShows key rows n after [] := by
  refine ⟨List.Pairwise.nil, fun i p hp => ?_, fun k _ _ hreached => ?_⟩
  · rw [List.getElem?_nil] at hp
    cases hp
  · obtain ⟨p, hp, -⟩ := hreached
    cases hp

/-- A page without a next one ends the walk. -/
theorem WalkShows.last {p : Page α κ} (hp : PageShows key (rows n) after p)
    (hnext : p.hasNext = false) : WalkShows key rows n after [p] := by
  refine ⟨?_, ?_, ?_⟩
  · rw [List.flatMap_singleton]
    exact hp.sorted
  · intro i q hq a ha
    obtain ⟨rfl, rfl⟩ : i = 0 ∧ p = q := by
      cases i with
      | zero => exact ⟨rfl, Option.some.inj hq⟩
      | succ i =>
          rw [List.getElem?_cons_succ, List.getElem?_nil] at hq
          cases hq
    exact hp.taken a ha
  · intro k hk hpresent _
    obtain ⟨a, ha, rfl⟩ := hpresent 0 (by simp)
    rw [List.flatMap_singleton]
    exact ⟨a, hp.last hnext a ha (past_iff.mpr hk), rfl⟩

/-- A key past a cursor is reached by what follows it. -/
theorem Reached.tail {p : Page α κ} {pages : List (Page α κ)} {k c : κ}
    (h : Reached key (p :: pages) k) (hnext : p.hasNext = true) (hle : ∀ a ∈ p.items, key a ≤ c)
    (hk : c < k) : Reached key pages k := by
  obtain ⟨q, hq, hreached⟩ := h
  cases pages with
  | nil =>
      rw [List.getLast?_singleton, Option.mem_some_iff] at hq
      subst hq
      rcases hreached with hlast | ⟨a, ha, hka⟩
      · rw [hnext] at hlast
        cases hlast
      · exact absurd (hka.trans (hle a ha)) (not_le.mpr hk)
  | cons r rest =>
      rw [List.getLast?_cons_cons] at hq
      exact ⟨q, hq, hreached⟩

/-- What a page with a next one shows, before what is shown from its cursor on. -/
theorem WalkShows.cons {p : Page α κ} {pages : List (Page α κ)} {c : κ}
    (hp : PageShows key (rows n) after p) (hnext : p.hasNext = true) (hc : p.endCursor = some c)
    (h : WalkShows key rows (n + 1) (some c) pages) : WalkShows key rows n after (p :: pages) := by
  obtain ⟨c', hc', hle, ⟨last, hlast, hkey⟩, hupto⟩ := hp.next hnext
  obtain rfl := Option.some.inj (hc.symm.trans hc')
  have hafter : ∀ b, past key (some c) b = true → past key after b = true := by
    intro b hb
    refine past_iff.mpr fun d hd => ?_
    have hbefore := past_iff.mp (hp.taken last hlast).2 d hd
    exact (hkey ▸ hbefore).trans (past_iff.mp hb c rfl)
  refine ⟨?_, ?_, ?_⟩
  · rw [List.flatMap_cons, List.pairwise_append]
    refine ⟨hp.sorted, h.sorted, fun a ha b hb => ?_⟩
    obtain ⟨q, hq, hbq⟩ := List.mem_flatMap.mp hb
    obtain ⟨i, hi⟩ := List.getElem?_of_mem hq
    exact lt_of_le_of_lt (hle a ha) (past_iff.mp (h.taken i q hi b hbq).2 c rfl)
  · intro i q hq a ha
    cases i with
    | zero =>
        rw [List.getElem?_cons_zero] at hq
        cases hq
        exact hp.taken a ha
    | succ i =>
        rw [List.getElem?_cons_succ] at hq
        obtain ⟨hin, hpast⟩ := h.taken i q hq a ha
        refine ⟨?_, hafter a hpast⟩
        rwa [Nat.add_right_comm, Nat.add_assoc] at hin
  · intro k hk hpresent hreached
    rw [List.flatMap_cons]
    rcases le_or_gt k c with hkc | hck
    · obtain ⟨a, ha, rfl⟩ := hpresent 0 (by simp)
      exact ⟨a, List.mem_append_left _ (hupto a ha (past_iff.mpr hk) hkc), rfl⟩
    · obtain ⟨a, ha, hka⟩ := h.covers k (fun d hd => Option.some.inj hd ▸ hck) (by
        intro i hi
        obtain ⟨a, ha, hka⟩ := hpresent (i + 1) (by rw [List.length_cons]; omega)
        refine ⟨a, ?_, hka⟩
        rwa [Nat.add_right_comm, Nat.add_assoc]) (hreached.tail hnext hle hck)
      exact ⟨a, List.mem_append_right _ ha, hka⟩

/-- The pages of a walk, whatever the rows are at each of them. -/
theorem walk_shows (o : Nat → Sorter fun a b => key a ≤ key b) (hsize : 0 < size)
    (hnodup : ∀ m, ((rows m).map key).Nodup) (requests n : Nat) (after : Option κ) :
    WalkShows key rows n after (walk key o size rows requests n after) := by
  induction requests generalizing n after with
  | zero => exact WalkShows.nil
  | succ requests ih =>
      have hp := page_shows (o n) hsize after (hnodup n)
      rw [walk]
      cases hnext : (page key (o n) size (rows n) after).hasNext with
      | false => exact WalkShows.last hp hnext
      | true =>
          obtain ⟨c, hc, -⟩ := hp.next hnext
          rw [hc]
          exact WalkShows.cons hp hnext hc (ih (n + 1) (some c))

end Walk

end Keyset
