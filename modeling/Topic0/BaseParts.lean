import Topic0.BaseTable

/-! Tables filled position by position. A source has a list of rows for each position; a table
holds it over a set of positions when its own rows are exactly the rows of those positions. Writing
the rows of more positions adds these to the set, whether conflicts are ignored or overwritten,
because a key the source uses stands for one row of it; deleting positions takes them away. -/

namespace Keyed

variable {ρ κ ι : Type} {key : ρ → κ} {own : ρ → Prop} {pos : ρ → ι} {part : ι → List ρ}
  {covered : ι → Prop} {t : Table key}

/-- The table's own rows are exactly the parts of the covered positions. -/
def HoldsPart (t : Table key) (own : ρ → Prop) (pos : ρ → ι) (part : ι → List ρ)
    (covered : ι → Prop) : Prop :=
  ∀ x, own x → (x ∈ t ↔ covered (pos x) ∧ x ∈ part (pos x))

/-- What makes the parts of all positions fit into one table. -/
structure Fits (key : ρ → κ) (own : ρ → Prop) (pos : ρ → ι) (part : ι → List ρ) : Prop where
  pos_eq : ∀ i, ∀ x ∈ part i, pos x = i
  own_of_mem : ∀ i, ∀ x ∈ part i, own x
  own_of_key : ∀ x y, own y → key x = key y → own x
  inj : ∀ x y, x ∈ part (pos x) → y ∈ part (pos y) → key x = key y → x = y

theorem HoldsPart.congr {covered' : ι → Prop} (h : HoldsPart t own pos part covered)
    (hiff : ∀ i, covered i ↔ covered' i) : HoldsPart t own pos part covered' := by
  intro x hx
  rw [h x hx, hiff]

/-- A stored row under the key of a part's row belongs to its own part. -/
theorem HoldsPart.mem_part_of_key (h : HoldsPart t own pos part covered)
    (hfits : Fits key own pos part) {x r : ρ} (hx : x ∈ t) (hr : r ∈ part (pos r))
    (hkey : key x = key r) : x ∈ part (pos x) :=
  ((h x (hfits.own_of_key x r (hfits.own_of_mem _ r hr) hkey)).mp hx).2

/-- Over the same positions two tables hold the same rows. -/
theorem HoldsPart.eq_on {key' : ρ → κ} {covered' : ι → Prop} {t' : Table key'}
    (h : HoldsPart t own pos part covered) (h' : HoldsPart t' own pos part covered')
    {x : ρ} (hx : own x) (hiff : covered (pos x) ↔ covered' (pos x)) : x ∈ t ↔ x ∈ t' := by
  rw [h x hx, h' x hx, hiff]

/-- A delete that keeps the positions on which two sources agree leaves a part of the second. -/
theorem HoldsPart.keep {key' : ρ → κ} {part' : ι → List ρ} {kept : ι → Prop} {t' : Table key'}
    (h : HoldsPart t own pos part covered) (hpart : ∀ i, kept i → part' i = part i)
    (hmem : ∀ x, own x → (x ∈ t' ↔ x ∈ t ∧ kept (pos x))) :
    HoldsPart t' own pos part' fun i => covered i ∧ kept i := by
  intro x hx
  rw [hmem x hx, h x hx]
  constructor
  · rintro ⟨⟨hcovered, hin⟩, hkept⟩
    exact ⟨⟨hcovered, hkept⟩, hpart _ hkept ▸ hin⟩
  · rintro ⟨⟨hcovered, hkept⟩, hin⟩
    exact ⟨⟨hcovered, hpart _ hkept ▸ hin⟩, hkept⟩

section Writes

variable {added : ι → Prop} {rs : List ρ}

/-- A write that adds the rows of some positions adds these to the covered ones. -/
theorem HoldsPart.grow {t' : Table key} (h : HoldsPart t own pos part covered)
    (hrs : ∀ x, x ∈ rs ↔ added (pos x) ∧ x ∈ part (pos x))
    (hmem : ∀ x, x ∈ t' ↔ x ∈ t ∨ x ∈ rs) :
    HoldsPart t' own pos part fun i => covered i ∨ added i := by
  intro x hx
  rw [hmem, h x hx, hrs, or_and_right]

variable [DecidableEq κ]

theorem HoldsPart.insertAll (h : HoldsPart t own pos part covered) (hfits : Fits key own pos part)
    (hrs : ∀ x, x ∈ rs ↔ added (pos x) ∧ x ∈ part (pos x)) :
    HoldsPart (t.insertAll rs) own pos part fun i => covered i ∨ added i := by
  refine h.grow hrs fun x => Table.mem_insertAll_of_injOn
    (S := fun x => x ∈ part (pos x)) (fun x y hx hy => hfits.inj x y hx hy) ?_ ?_
  · exact fun r hr => ((hrs r).mp hr).2
  · exact fun x hx r hr hkey => h.mem_part_of_key hfits hx ((hrs r).mp hr).2 hkey

theorem HoldsPart.upsertAll (h : HoldsPart t own pos part covered) (hfits : Fits key own pos part)
    (hrs : ∀ x, x ∈ rs ↔ added (pos x) ∧ x ∈ part (pos x)) :
    HoldsPart (t.upsertAll rs) own pos part fun i => covered i ∨ added i := by
  refine h.grow hrs fun x => Table.mem_upsertAll_of_injOn
    (S := fun x => x ∈ part (pos x)) (fun x y hx hy => hfits.inj x y hx hy) ?_ ?_
  · exact fun r hr => ((hrs r).mp hr).2
  · exact fun x hx r hr hkey => h.mem_part_of_key hfits hx ((hrs r).mp hr).2 hkey

end Writes

end Keyed
