import Mathlib.Data.List.Forall2
import Mathlib.Data.List.Nodup
import Mathlib.Tactic.Common

/-! Lists read out of containers. A hash map yields its entries in any order, a list in its own, and
several containers are read one after another. Which entry with a property comes first then depends
on the order; the entries that can be the first are those of the first container that has one. -/

namespace Unordered

variable {α κ : Type}

/-- A container of entries. -/
inductive Source (α : Type) where
  | map (entries : List α)
  | list (entries : List α)

namespace Source

def entries : Source α → List α
  | .map entries => entries
  | .list entries => entries

/-- The lists a container can be read out as. -/
def Yields : Source α → List α → Prop
  | .map entries, out => out.Perm entries
  | .list entries, out => out = entries

/-- The entries with a property of which each can be the first. -/
def firsts (p : α → Bool) : Source α → List α
  | .map entries => entries.filter p
  | .list entries => (entries.find? p).toList

variable {src : Source α} {out : List α} {p : α → Bool} {a : α}

theorem Yields.mem_iff (h : src.Yields out) : a ∈ out ↔ a ∈ src.entries := by
  cases src with
  | map entries => exact List.Perm.mem_iff h
  | list entries =>
      cases h
      rfl

theorem exists_yields (src : Source α) : ∃ out, src.Yields out := by
  cases src with
  | map entries => exact ⟨entries, .refl entries⟩
  | list entries => exact ⟨entries, rfl⟩

theorem mem_firsts_of_find? (h : src.Yields out) (hfind : out.find? p = some a) :
    a ∈ src.firsts p := by
  cases src with
  | map entries =>
      have hmem := List.Perm.mem_iff h |>.mp (List.mem_of_find?_eq_some hfind)
      exact List.mem_filter.mpr ⟨hmem, List.find?_some hfind⟩
  | list entries =>
      cases h
      exact Option.mem_toList.mpr hfind

theorem firsts_eq_nil_of_find? (h : src.Yields out) (hfind : out.find? p = none) :
    src.firsts p = [] := by
  cases src with
  | map entries =>
      apply List.filter_eq_nil_iff.mpr
      intro a ha
      exact List.find?_eq_none.mp hfind a (List.Perm.mem_iff h |>.mpr ha)
  | list entries =>
      cases h
      rw [firsts, hfind]
      rfl

theorem find?_eq_none_of_firsts (h : src.Yields out) (hfirsts : src.firsts p = []) :
    out.find? p = none := by
  cases hfind : out.find? p with
  | none => rfl
  | some a =>
      have hmem := mem_firsts_of_find? h hfind
      rw [hfirsts] at hmem
      exact absurd hmem List.not_mem_nil

/-- A map can be read with any of its entries at the head. -/
theorem exists_yields_find? (h : a ∈ src.firsts p) :
    ∃ out, src.Yields out ∧ out.find? p = some a := by
  cases src with
  | map entries =>
      obtain ⟨hmem, hp⟩ := List.mem_filter.mp h
      obtain ⟨before, rest, rfl⟩ := List.append_of_mem hmem
      refine ⟨a :: (before ++ rest), List.perm_middle.symm, ?_⟩
      exact List.find?_cons_of_pos hp
  | list entries => exact ⟨entries, rfl, Option.mem_toList.mp h⟩

end Source

/-- The lists several containers can be read out as, one after another. -/
inductive Reads : List (Source α) → List α → Prop where
  | nil : Reads [] []
  | cons {src : Source α} {sources : List (Source α)} {part out : List α} :
      src.Yields part → Reads sources out → Reads (src :: sources) (part ++ out)

def entries (sources : List (Source α)) : List α := sources.flatMap Source.entries

/-- The entries with a property of which each can be the first that is read. -/
def firsts (p : α → Bool) : List (Source α) → List α
  | [] => []
  | src :: sources => if (src.firsts p).isEmpty then firsts p sources else src.firsts p

section Reads

variable {sources : List (Source α)} {out : List α} {p : α → Bool} {a : α}

theorem Reads.mem_iff (h : Reads sources out) : a ∈ out ↔ a ∈ entries sources := by
  induction h with
  | nil => exact Iff.rfl
  | cons hpart hrest ih =>
      rw [List.mem_append, hpart.mem_iff, ih, entries, entries, List.flatMap_cons, List.mem_append]

theorem exists_reads (sources : List (Source α)) : ∃ out, Reads sources out := by
  induction sources with
  | nil => exact ⟨[], .nil⟩
  | cons src sources ih =>
      obtain ⟨part, hpart⟩ := src.exists_yields
      obtain ⟨out, hout⟩ := ih
      exact ⟨part ++ out, .cons hpart hout⟩

/-- What is read first is one of the entries that can be. -/
theorem Reads.mem_firsts (h : Reads sources out) (hfind : out.find? p = some a) :
    a ∈ firsts p sources := by
  induction h with
  | nil => cases hfind
  | @cons src sources part out hpart hrest ih =>
      rw [List.find?_append] at hfind
      cases hhead : part.find? p with
      | some b =>
          rw [hhead] at hfind
          cases hfind
          have hmem := Source.mem_firsts_of_find? hpart hhead
          have hsome : (src.firsts p).isEmpty = false := by
            rw [List.isEmpty_eq_false_iff]
            exact List.ne_nil_of_mem hmem
          rw [firsts, hsome]
          exact hmem
      | none =>
          rw [hhead, Option.none_or] at hfind
          rw [firsts, Source.firsts_eq_nil_of_find? hpart hhead]
          exact ih hfind

/-- Each of them is the first in some order. -/
theorem exists_reads_find? (h : a ∈ firsts p sources) :
    ∃ out, Reads sources out ∧ out.find? p = some a := by
  induction sources with
  | nil => exact absurd h List.not_mem_nil
  | cons src sources ih =>
      rw [firsts] at h
      split at h
      · rename_i hempty
        obtain ⟨part, hpart⟩ := src.exists_yields
        obtain ⟨out, hout, hfind⟩ := ih h
        refine ⟨part ++ out, .cons hpart hout, ?_⟩
        rw [List.find?_append,
          Source.find?_eq_none_of_firsts hpart (List.isEmpty_iff.mp hempty), Option.none_or, hfind]
      · obtain ⟨part, hpart, hfind⟩ := Source.exists_yields_find? h
        obtain ⟨out, hout⟩ := exists_reads sources
        refine ⟨part ++ out, .cons hpart hout, ?_⟩
        rw [List.find?_append, hfind, Option.some_or]

end Reads

section Keep

variable [DecidableEq κ] (key : α → κ)

/-- The entries whose key has not been seen, each key once. -/
def keepFirst : List κ → List α → List α
  | _, [] => []
  | seen, a :: rest =>
      if seen.contains (key a) then keepFirst seen rest else a :: keepFirst (key a :: seen) rest

variable {key} {seen : List κ}

theorem not_mem_seen_of_mem_keepFirst {l : List α} {a : α} (h : a ∈ keepFirst key seen l) :
    key a ∉ seen := by
  induction l generalizing seen with
  | nil => exact absurd h List.not_mem_nil
  | cons b rest ih =>
      rw [keepFirst] at h
      split at h
      · exact ih h
      · rename_i hnew
        rcases List.mem_cons.mp h with rfl | h
        · intro hmem
          exact hnew (List.contains_iff_mem.mpr hmem)
        · intro hmem
          exact ih h (List.mem_cons_of_mem _ hmem)

theorem nodup_keepFirst (seen : List κ) (l : List α) : ((keepFirst key seen l).map key).Nodup := by
  induction l generalizing seen with
  | nil => exact List.nodup_nil
  | cons a rest ih =>
      rw [keepFirst]
      split
      · exact ih seen
      · rw [List.map_cons, List.nodup_cons]
        refine ⟨?_, ih (key a :: seen)⟩
        intro hmem
        obtain ⟨b, hb, hkey⟩ := List.mem_map.mp hmem
        apply not_mem_seen_of_mem_keepFirst hb
        rw [hkey]
        exact List.mem_cons_self

/-- The first entry with a key is kept. -/
theorem find?_keepFirst {k : κ} (h : k ∉ seen) (l : List α) :
    (keepFirst key seen l).find? (fun a => key a == k) = l.find? fun a => key a == k := by
  induction l generalizing seen with
  | nil => rfl
  | cons a rest ih =>
      rw [keepFirst]
      by_cases hkey : key a = k
      · have hnew : ¬seen.contains (key a) = true := by
          rw [hkey, List.contains_iff_mem]
          exact h
        have hpos : (key a == k) = true := by simpa using hkey
        rw [if_neg hnew, List.find?_cons_of_pos (p := fun a => key a == k) hpos,
          List.find?_cons_of_pos (p := fun a => key a == k) hpos]
      · have hskip : ¬(key a == k) = true := by simpa using hkey
        rw [List.find?_cons_of_neg (p := fun a => key a == k) hskip]
        split
        · exact ih h
        · rw [List.find?_cons_of_neg (p := fun a => key a == k) hskip]
          apply ih
          intro hmem
          rcases List.mem_cons.mp hmem with heq | hmem
          · exact hkey heq.symm
          · exact h hmem

/-- Where keys are distinct, the last entry with a key is the first. -/
theorem find?_reverse_of_nodup {l : List α} (h : (l.map key).Nodup) (k : κ) :
    l.reverse.find? (fun a => key a == k) = l.find? fun a => key a == k := by
  induction l with
  | nil => rfl
  | cons a rest ih =>
      rw [List.map_cons, List.nodup_cons] at h
      obtain ⟨hnew, hrest⟩ := h
      rw [List.reverse_cons, List.find?_append, ih hrest]
      by_cases hkey : key a = k
      · have hnone : rest.find? (fun b => key b == k) = none := by
          apply List.find?_eq_none.mpr
          intro b hb hbk
          apply hnew
          rw [hkey, ← beq_iff_eq.mp hbk]
          exact List.mem_map.mpr ⟨b, hb, rfl⟩
        have hpos : (key a == k) = true := by simpa using hkey
        rw [hnone, Option.none_or, List.find?_cons_of_pos (p := fun a => key a == k) hpos,
          List.find?_cons_of_pos (p := fun a => key a == k) hpos]
      · have hskip : ¬(key a == k) = true := by simpa using hkey
        rw [List.find?_cons_of_neg (p := fun a => key a == k) hskip,
          List.find?_cons_of_neg (p := fun a => key a == k) hskip, List.find?_nil, Option.or_none]

/-- Where keys are distinct, an entry is the one with its key. -/
theorem find?_of_nodup {l : List α} (h : (l.map key).Nodup) {a : α} (ha : a ∈ l) :
    (l.find? fun b => key b == key a) = some a := by
  cases hfind : l.find? fun b => key b == key a with
  | none =>
      have hne := List.find?_eq_none.mp hfind a ha
      exact absurd BEq.rfl hne
  | some b =>
      have hkey : (key b == key a) = true := List.find?_some (p := fun b => key b == key a) hfind
      have heq := List.inj_on_of_nodup_map h (List.mem_of_find?_eq_some hfind) ha (beq_iff_eq.mp hkey)
      rw [heq]

end Keep

end Unordered
