import Mathlib.Data.List.Sort
import Mathlib.Data.List.Perm.Subperm
import Mathlib.Order.Lattice
import Mathlib.Tactic

/-! Keyset pagination over a linear order. A page is a prefix of the rows past the cursor, in some
sorted order, with one row of look-ahead; the next cursor is the key of the page's last row. Keys
need not be unique. Following the cursors always ends and lists rows in order and never twice; it
lists all of them exactly when no page ends between two rows with one key. -/

namespace Keyset

variable {α κ : Type}

/-- `ORDER BY`: some rearrangement of the rows along `le`. Ties come in any order. -/
structure Sorter (le : α → α → Prop) where
  sort : List α → List α
  perm : ∀ l, (sort l).Perm l
  sorted : ∀ l, (sort l).Pairwise le

/-- A sorter along a relation is one along any weaker relation. -/
def Sorter.imp {le le' : α → α → Prop} (o : Sorter le) (h : ∀ a b, le a b → le' a b) :
    Sorter le' :=
  ⟨o.sort, o.perm, fun l => (o.sorted l).imp (h _ _)⟩

structure Page (α κ : Type) where
  items : List α
  endCursor : Option κ
  hasNext : Bool

variable [LinearOrder κ] (key : α → κ)

def past (after : Option κ) (a : α) : Bool := after.all fun c => decide (c < key a)

/-- One page of at most `size` rows; `size + 1` rows are fetched. -/
def page (o : Sorter fun a b => key a ≤ key b) (size : Nat) (rows : List α) (after : Option κ) :
    Page α κ :=
  let fetched := (o.sort (rows.filter (past key after))).take (size + 1)
  let hasNext := decide (size < fetched.length)
  { items := fetched.take size
    endCursor := if hasNext then (fetched.take size).getLast?.map key else none
    hasNext := hasNext }

/-- The pages from a cursor on, the `n`-th one under its own order; nothing when the fuel runs
out. -/
def follow (o : Nat → Sorter fun a b => key a ≤ key b) (size : Nat) (rows : List α) :
    Nat → Nat → Option κ → Option (List (List α))
  | 0, _, _ => none
  | fuel + 1, n, after =>
      let p := page key (o n) size rows after
      if p.hasNext then
        (follow o size rows fuel (n + 1) p.endCursor).map fun rest => p.items :: rest
      else some [p.items]

/-- The keys of the rows, in order. -/
def keys (l : List α) : List κ := (l.map key).insertionSort (· ≤ ·)

/-- No page boundary falls between two equal keys. -/
def NoSplit (size : Nat) (ks : List κ) : Prop :=
  ∀ k, (k + 1) * size < ks.length → ks[(k + 1) * size - 1]? ≠ ks[(k + 1) * size]?

variable {key} {size : Nat}

theorem keys_eq_of_sorted {l s : List α} (hperm : s.Perm l)
    (hsorted : s.Pairwise fun a b => key a ≤ key b) : keys key l = s.map key := by
  apply List.Perm.eq_of_pairwise' (r := (· ≤ ·)) (List.pairwise_insertionSort _ _)
  · exact List.pairwise_map.mpr hsorted
  · exact (List.perm_insertionSort _ _).trans (hperm.map key).symm

theorem length_keys (l : List α) : (keys key l).length = l.length := by
  rw [keys, List.length_insertionSort, List.length_map]

omit [LinearOrder κ] in
theorem noSplit_of_length_le {ks : List κ} (h : ks.length ≤ size) : NoSplit size ks := by
  intro k hlt
  have hle : 1 * size ≤ (k + 1) * size := Nat.mul_le_mul_right size (Nat.succ_pos k)
  omega

omit [LinearOrder κ] in
/-- Where no key repeats, no page boundary falls between two equal ones. -/
theorem noSplit_of_nodup (hsize : 0 < size) {ks : List κ} (h : ks.Nodup) : NoSplit size ks := by
  intro k hlt heq
  have hpos : 0 < (k + 1) * size := Nat.mul_pos (Nat.succ_pos k) hsize
  have hindex := (List.getElem?_inj (by omega) h).mp heq
  omega

omit [LinearOrder κ] in
theorem noSplit_map {ι : Type} {f : ι → κ} (hf : Function.Injective f) {ks : List ι} :
    NoSplit size (ks.map f) ↔ NoSplit size ks := by
  simp only [NoSplit, List.length_map, List.getElem?_map, ne_eq, (Option.map_injective hf).eq_iff]

omit [LinearOrder κ] in
/-- The first boundary, and the boundaries of the rest. -/
theorem noSplit_iff_drop (hsize : 0 < size) {ks : List κ} (h : size < ks.length) :
    NoSplit size ks ↔ ks[size - 1]? ≠ ks[size]? ∧ NoSplit size (ks.drop size) := by
  -- boundary `k` of the rest is boundary `k + 1` of the whole
  have hshift : ∀ k, (ks.drop size)[(k + 1) * size - 1]? = ks[(k + 1 + 1) * size - 1]? ∧
      (ks.drop size)[(k + 1) * size]? = ks[(k + 1 + 1) * size]? := by
    intro k
    have hsum : (k + 1 + 1) * size = (k + 1) * size + size := Nat.succ_mul (k + 1) size
    have hpos : 0 < (k + 1) * size := Nat.mul_pos (Nat.succ_pos k) hsize
    rw [List.getElem?_drop, List.getElem?_drop]
    constructor
    · congr 1
      omega
    · congr 1
      omega
  constructor
  · intro hsplit
    refine ⟨by simpa using hsplit 0 (by simpa using h), fun k hlt => ?_⟩
    have hsum : (k + 1 + 1) * size = (k + 1) * size + size := Nat.succ_mul (k + 1) size
    rw [List.length_drop] at hlt
    rw [(hshift k).1, (hshift k).2]
    exact hsplit (k + 1) (by omega)
  · rintro ⟨hfirst, hrest⟩ k hlt
    cases k with
    | zero => simpa using hfirst
    | succ k =>
        have hsum : (k + 1 + 1) * size = (k + 1) * size + size := Nat.succ_mul (k + 1) size
        have hk := hrest k (by rw [List.length_drop]; omega)
        rwa [(hshift k).1, (hshift k).2] at hk

/-- A sorted list cut after `size` elements: the last element kept separates the two halves. -/
theorem exists_last_of_sorted {s : List α} (hsorted : s.Pairwise fun a b => key a ≤ key b)
    (hsize : 0 < size) (h : size < s.length) :
    ∃ last, (s.take size).getLast? = some last ∧ s[size - 1]? = some last ∧
      (∀ a ∈ s.take size, key a ≤ key last) ∧ ∀ b ∈ s.drop size, key last ≤ key b := by
  have hlt : size - 1 < s.length := by omega
  refine ⟨s[size - 1], ?_, List.getElem?_eq_getElem hlt, fun a ha => ?_, fun b hb => ?_⟩
  · rw [List.getLast?_eq_getElem?, List.length_take, Nat.min_eq_left h.le,
      List.getElem?_take_of_lt (by omega), List.getElem?_eq_getElem hlt]
  · obtain ⟨i, hi, rfl⟩ := List.mem_take_iff_getElem.mp ha
    rcases Nat.lt_or_ge i (size - 1) with hbefore | hat
    · exact List.pairwise_iff_getElem.mp hsorted i (size - 1) (by omega) hlt hbefore
    · have : i = size - 1 := by omega
      subst this
      exact le_rfl
  · obtain ⟨i, hi, rfl⟩ := List.mem_drop_iff_getElem.mp hb
    exact List.pairwise_iff_getElem.mp hsorted (size - 1) (size + i) hlt (by omega) (by omega)

/-- What following the cursors lists of the rows that were left: in order, none twice, and all of
them exactly when no boundary splits a key. -/
structure Lists (key : α → κ) (size : Nat) (left : List α) (pages : List (List α)) : Prop where
  sorted : pages.flatten.Pairwise fun a b => key a ≤ key b
  subperm : pages.flatten.Subperm left
  complete_iff : pages.flatten.length = left.length ↔ NoSplit size (keys key left)

section Cut

variable {s left : List α} (hperm : s.Perm left) (hsorted : s.Pairwise fun a b => key a ≤ key b)

include hperm hsorted

theorem lists_of_length_le (h : left.length ≤ size) : Lists key size left [s] := by
  refine ⟨by simpa using hsorted, by simpa using hperm.subperm, ?_⟩
  refine ⟨fun _ => noSplit_of_length_le (by rwa [length_keys]), fun _ => ?_⟩
  simpa using hperm.length_eq

variable {last : α} (hlast : s[size - 1]? = some last) (hsize : 0 < size) (hlt : size < s.length)
  (hlow : ∀ a ∈ s.take size, key a ≤ key last) (hhigh : ∀ b ∈ s.drop size, key last ≤ key b)

include hlow

omit hsorted in
/-- The rows past the cursor are those of the rest with another key. -/
theorem filter_past_perm :
    (left.filter (past key (some (key last)))).Perm
      ((s.drop size).filter (past key (some (key last)))) := by
  have hnone : (s.take size).filter (past key (some (key last))) = [] := by
    rw [List.filter_eq_nil_iff]
    intro a ha hpast
    exact absurd (of_decide_eq_true hpast) (not_lt.mpr (hlow a ha))
  have hsplit := (hperm.filter (past key (some (key last)))).symm
  rw [← List.take_append_drop size s, List.filter_append, hnone, List.nil_append] at hsplit
  exact hsplit

include hlast hsize hlt hhigh

omit hsize hlow in
/-- The cursor keeps the whole rest exactly when the boundary does not split a key. -/
theorem filter_past_eq_iff :
    (s.drop size).filter (past key (some (key last))) = s.drop size ↔
      (keys key left)[size - 1]? ≠ (keys key left)[size]? := by
  rw [keys_eq_of_sorted hperm hsorted, List.getElem?_map, List.getElem?_map, hlast,
    List.getElem?_eq_getElem hlt, Option.map_some, Option.map_some, ne_eq, Option.some.injEq,
    List.filter_eq_self]
  have hfirst : s[size] ∈ s.drop size := List.mem_drop_iff_getElem.mpr ⟨0, by simpa using hlt, by simp⟩
  constructor
  · intro hall heq
    have hpast := of_decide_eq_true (hall _ hfirst)
    exact absurd heq (ne_of_lt hpast)
  · intro hne b hb
    refine decide_eq_true (lt_of_lt_of_le (lt_of_le_of_ne (hhigh _ hfirst) hne) ?_)
    obtain ⟨i, hi, rfl⟩ := List.mem_drop_iff_getElem.mp hb
    cases i with
    | zero => exact le_rfl
    | succ i => exact List.pairwise_iff_getElem.mp hsorted size (size + (i + 1)) hlt (by omega) (by omega)

theorem Lists.cons {pages : List (List α)}
    (hrest : Lists key size (left.filter (past key (some (key last)))) pages) :
    Lists key size left (s.take size :: pages) := by
  have hfilter := filter_past_perm hperm hlow
  have hpast : ∀ b ∈ pages.flatten, key last < key b := fun b hb =>
    of_decide_eq_true (List.mem_filter.mp (hrest.subperm.subset hb)).2
  have hsub : pages.flatten.Subperm (s.drop size) :=
    (hrest.subperm.trans hfilter.subperm).trans List.filter_sublist.subperm
  have hlength : left.length = (s.take size).length + (s.drop size).length := by
    rw [← hperm.length_eq, ← List.length_append, List.take_append_drop]
  have hshorter : pages.flatten.length ≤ (left.filter (past key (some (key last)))).length :=
    hrest.subperm.length_le
  constructor
  · rw [List.flatten_cons, List.pairwise_append]
    refine ⟨hsorted.sublist (List.take_sublist _ _), hrest.sorted, fun a ha b hb => ?_⟩
    exact (hlow a ha).trans (hpast b hb).le
  · rw [List.flatten_cons]
    have happend : (s.take size ++ pages.flatten).Subperm (s.take size ++ s.drop size) :=
      List.Subperm.append (List.Subperm.refl _) hsub
    rw [List.take_append_drop] at happend
    exact happend.trans hperm.subperm
  · rw [List.flatten_cons, List.length_append, hlength, Nat.add_left_cancel_iff,
      noSplit_iff_drop hsize (by rw [length_keys, ← hperm.length_eq]; exact hlt),
      ← filter_past_eq_iff hperm hsorted hlast hlt hhigh]
    have hle : ((s.drop size).filter (past key (some (key last)))).length ≤ (s.drop size).length :=
      List.length_filter_le _ _
    have heq := hfilter.length_eq
    have hkeys : (s.drop size).filter (past key (some (key last))) = s.drop size →
        keys key (left.filter (past key (some (key last)))) = (keys key left).drop size := by
      intro hkept
      rw [hkept] at hfilter
      rw [keys_eq_of_sorted hfilter.symm (hsorted.sublist (List.drop_sublist _ _)), List.map_drop,
        ← keys_eq_of_sorted hperm hsorted]
    constructor
    · intro hall
      have hkept : (s.drop size).filter (past key (some (key last))) = s.drop size :=
        List.filter_sublist.eq_of_length (by omega)
      exact ⟨hkept, hkeys hkept ▸ hrest.complete_iff.mp (by omega)⟩
    · rintro ⟨hkept, hsplit⟩
      rw [hrest.complete_iff.mpr (hkeys hkept ▸ hsplit), heq, hkept]

end Cut

/-- A later cursor leaves rows the earlier one left. -/
theorem filter_past_filter {rows : List α} {after : Option κ} {c : κ}
    (h : ∀ a, past key (some c) a = true → past key after a = true) :
    (rows.filter (past key after)).filter (past key (some c)) =
      rows.filter (past key (some c)) := by
  rw [List.filter_filter]
  congr 1
  funext a
  cases hc : past key (some c) a with
  | false => rfl
  | true => rw [h a hc]; rfl

section Page

variable (o : Sorter fun a b => key a ≤ key b) (hsize : 0 < size) (rows : List α)
  (after : Option κ)

theorem page_items : (page key o size rows after).items =
    (o.sort (rows.filter (past key after))).take size := by
  rw [page, List.take_take, Nat.min_eq_left (Nat.le_succ size)]

/-- A page without a next one is what was left. -/
theorem page_last (h : (page key o size rows after).hasNext = false) :
    Lists key size (rows.filter (past key after)) [(page key o size rows after).items] := by
  have hperm := o.perm (rows.filter (past key after))
  have hsorted := o.sorted (rows.filter (past key after))
  have hle : (o.sort (rows.filter (past key after))).length ≤ size := by
    simp only [page, List.length_take, decide_eq_false_iff_not] at h
    omega
  rw [page_items, List.take_of_length_le hle]
  exact lists_of_length_le hperm hsorted (hperm.length_eq ▸ hle)

include hsize

/-- A page with a next one: its cursor leaves fewer rows, and what is listed of them completes what
the page lists. -/
theorem page_next (h : (page key o size rows after).hasNext = true) :
    ∃ c, (page key o size rows after).endCursor = some c ∧
      (rows.filter (past key (some c))).length < (rows.filter (past key after)).length ∧
      ∀ pages, Lists key size (rows.filter (past key (some c))) pages →
        Lists key size (rows.filter (past key after))
          ((page key o size rows after).items :: pages) := by
  have hperm := o.perm (rows.filter (past key after))
  have hsorted := o.sorted (rows.filter (past key after))
  have hlt : size < (o.sort (rows.filter (past key after))).length := by
    simp only [page, List.length_take, decide_eq_true_eq] at h
    omega
  have hitems : (page key o size rows after).items =
      (o.sort (rows.filter (past key after))).take size := page_items o rows after
  obtain ⟨last, hgetLast, hlast, hlow, hhigh⟩ := exists_last_of_sorted hsorted hsize hlt
  have hcursor : (page key o size rows after).endCursor = some (key last) := by
    simp only [page] at h hitems ⊢
    rw [if_pos h, hitems, hgetLast, Option.map_some]
  -- the cursor is the key of a row the previous cursor left
  have hmem : last ∈ rows.filter (past key after) :=
    hperm.mem_iff.mp (List.mem_of_getElem? hlast)
  have hpast : ∀ a, past key (some (key last)) a = true → past key after a = true := by
    intro a ha
    have hbefore := (List.mem_filter.mp hmem).2
    cases after with
    | none => rfl
    | some c =>
        exact decide_eq_true (lt_trans (of_decide_eq_true hbefore) (of_decide_eq_true ha))
  refine ⟨key last, hcursor, ?_, fun pages hpages => ?_⟩
  · rw [← filter_past_filter hpast, (filter_past_perm hperm hlow).length_eq]
    have hle := List.length_filter_le (past key (some (key last)))
      ((o.sort (rows.filter (past key after))).drop size)
    rw [List.length_drop] at hle
    have hlen := hperm.length_eq
    omega
  · rw [hitems]
    apply Lists.cons hperm hsorted hlast hsize hlt hlow hhigh
    rwa [filter_past_filter hpast]

end Page

/-- Whatever order each page chooses among ties, the pages followed to the end are a listing. -/
theorem lists_of_follow (o : Nat → Sorter fun a b => key a ≤ key b) (hsize : 0 < size)
    {rows : List α} {fuel n : Nat} {after : Option κ} {pages : List (List α)}
    (h : follow key o size rows fuel n after = some pages) :
    Lists key size (rows.filter (past key after)) pages := by
  induction fuel generalizing n after pages with
  | zero => cases h
  | succ fuel ih =>
      rw [follow] at h
      split at h
      · rename_i hnext
        obtain ⟨c, hcursor, -, hcons⟩ := page_next (o n) hsize rows after hnext
        obtain ⟨rest, hrest, rfl⟩ := Option.map_eq_some_iff.mp h
        rw [hcursor] at hrest
        exact hcons rest (ih hrest)
      · rename_i hnext
        cases h
        exact page_last (o n) rows after (Bool.eq_false_iff.mpr hnext)

/-- And the end is reached. -/
theorem exists_follow (o : Nat → Sorter fun a b => key a ≤ key b) (hsize : 0 < size)
    (rows : List α) (fuel n : Nat) (after : Option κ)
    (hfuel : (rows.filter (past key after)).length < fuel) :
    ∃ pages, follow key o size rows fuel n after = some pages := by
  induction fuel generalizing n after with
  | zero => exact absurd hfuel (Nat.not_lt_zero _)
  | succ fuel ih =>
      rw [follow]
      cases hnext : (page key (o n) size rows after).hasNext with
      | true =>
          obtain ⟨c, hcursor, hless, -⟩ := page_next (o n) hsize rows after hnext
          obtain ⟨rest, hrest⟩ := ih (n + 1) (some c) (by omega)
          exact ⟨_, by simp only [if_true, hcursor, hrest, Option.map_some]; rfl⟩
      | false => exact ⟨_, if_neg Bool.false_ne_true⟩

/-- The pages are the rows, in order, exactly when no boundary splits a key. -/
theorem Lists.perm_iff {left : List α} {pages : List (List α)} (h : Lists key size left pages) :
    pages.flatten.Perm left ↔ NoSplit size (keys key left) := by
  rw [← h.complete_iff]
  exact ⟨List.Perm.length_eq, fun hlen => h.subperm.perm_of_length_le hlen.ge⟩

end Keyset
