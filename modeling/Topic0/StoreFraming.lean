import Topic0.BaseEmit
import Topic0.BaseLoop
import Topic0.SharedModel

/-! The selector blob of a raw record: each selector behind a byte that holds its length. Reading
moves an offset over the blob, one frame a round. What has been read is always the frames before the
offset, and the loop stops at the end of the blob or at a frame that the blob does not hold whole. -/

namespace Topic0

/-- One selector of a blob; `as u8` keeps the low byte of its length. -/
def frame (selector : Hash) : List UInt8 :=
  UInt8.ofNat selector.bytes.length :: selector.bytes

def frameSelectors (selectors : List Hash) : List UInt8 :=
  selectors.foldl
    (fun out selector => (out ++ [UInt8.ofNat selector.bytes.length]) ++ selector.bytes) []

/-- One round of `unframe_selectors`, over the offset and the selectors so far. No result is a failed
debug assertion. -/
def unframeStep (build : Build) (blob : List UInt8) (s : Nat × List Hash) :
    (Nat × List Hash) ⊕ Option (List Hash) :=
  match blob[s.1]? with
  | none => .inr (some s.2)
  | some len =>
      let i := s.1 + 1
      if blob.length < i + len.toNat then
        match build with
        | .debug => .inr none
        | .release => .inr (some s.2)
      else .inl (i + len.toNat, s.2 ++ [⟨(blob.drop i).take len.toNat⟩])

/-- `unframe_selectors`: a round moves the offset, so one for each byte and one to stop are enough. -/
def unframeSelectors (build : Build) (blob : List UInt8) : Option (Option (List Hash)) :=
  Loop.run (unframeStep build blob) (blob.length + 1) (0, [])

/-- A concatenation of complete frames. -/
inductive Complete : List UInt8 → Prop
  | nil : Complete []
  | frame {len : UInt8} {bytes rest : List UInt8} (hlen : bytes.length = len.toNat)
      (hrest : Complete rest) : Complete (len :: (bytes ++ rest))

/-- Nothing, or the beginning of a frame. -/
def Truncated (rest : List UInt8) : Prop :=
  ∀ len tail, rest = len :: tail → tail.length < len.toNat

/-- What a frame can carry. -/
def Short (selectors : List Hash) : Prop := ∀ s ∈ selectors, s.bytes.length < 256

theorem frameSelectors_eq (selectors : List Hash) :
    frameSelectors selectors = selectors.flatMap frame := by
  have happends : ∀ selector : Hash, Emit.Appends
      (fun out => (out ++ [UInt8.ofNat selector.bytes.length]) ++ selector.bytes)
      (frame selector) := by
    intro selector out
    exact List.append_assoc out _ _
  exact (Emit.appends_foldl happends selectors []).trans (List.nil_append _)

theorem frameSelectors_concat (selectors : List Hash) (selector : Hash) :
    frameSelectors (selectors ++ [selector]) = frameSelectors selectors ++ frame selector := by
  rw [frameSelectors_eq, frameSelectors_eq, List.flatMap_append, List.flatMap_singleton]

theorem toNat_length {selector : Hash} (h : selector.bytes.length < 256) :
    (UInt8.ofNat selector.bytes.length).toNat = selector.bytes.length :=
  UInt8.toNat_ofNat_of_lt' h

theorem Short.of_cons {selector : Hash} {selectors : List Hash} (h : Short (selector :: selectors)) :
    selector.bytes.length < 256 ∧ Short selectors := by
  refine ⟨h selector List.mem_cons_self, ?_⟩
  intro s hs
  exact h s (List.mem_cons_of_mem _ hs)

/-- A frame that stands at the front of a blob is read as it was written. -/
theorem frame_injective {a b : Hash} {r s : List UInt8} (ha : a.bytes.length < 256)
    (hb : b.bytes.length < 256) (h : frame a ++ r = frame b ++ s) : a = b ∧ r = s := by
  rw [frame, frame, List.cons_append, List.cons_append, List.cons.injEq] at h
  have hlen : a.bytes.length = b.bytes.length := by
    rw [← toNat_length ha, h.1, toNat_length hb]
  obtain ⟨hbytes, hrest⟩ := List.append_inj h.2 hlen
  cases a
  cases b
  exact ⟨congrArg Hash.mk hbytes, hrest⟩

theorem not_truncated_frame {selector : Hash} (h : selector.bytes.length < 256)
    (rest : List UInt8) : ¬Truncated (frame selector ++ rest) := by
  intro htrunc
  have hlt : (selector.bytes ++ rest).length < (UInt8.ofNat selector.bytes.length).toNat :=
    htrunc _ _ rfl
  rw [toNat_length h, List.length_append] at hlt
  omega

/-- A blob is cut into frames and an incomplete one in one way only. -/
theorem frames_unique {selectors selectors' : List Hash} {rest rest' : List UInt8}
    (hshort : Short selectors) (hshort' : Short selectors') (hrest : Truncated rest)
    (hrest' : Truncated rest')
    (h : frameSelectors selectors ++ rest = frameSelectors selectors' ++ rest') :
    selectors = selectors' ∧ rest = rest' := by
  rw [frameSelectors_eq, frameSelectors_eq] at h
  induction selectors generalizing selectors' with
  | nil =>
      cases selectors' with
      | nil => exact ⟨rfl, h⟩
      | cons s selectors' =>
          rw [List.flatMap_nil, List.nil_append, List.flatMap_cons, List.append_assoc] at h
          rw [h] at hrest
          exact absurd hrest (not_truncated_frame hshort'.of_cons.1 _)
  | cons s selectors ih =>
      rw [List.flatMap_cons, List.append_assoc] at h
      cases selectors' with
      | nil =>
          rw [List.flatMap_nil, List.nil_append] at h
          rw [← h] at hrest'
          exact absurd hrest' (not_truncated_frame hshort.of_cons.1 _)
      | cons s' selectors' =>
          rw [List.flatMap_cons, List.append_assoc] at h
          obtain ⟨rfl, htail⟩ := frame_injective hshort.of_cons.1 hshort'.of_cons.1 h
          obtain ⟨rfl, hsame⟩ := ih hshort.of_cons.2 hshort'.of_cons.2 htail
          exact ⟨rfl, hsame⟩

/-- Complete frames are what short selectors are written as. -/
theorem complete_iff {blob : List UInt8} :
    Complete blob ↔ ∃ selectors, Short selectors ∧ frameSelectors selectors = blob := by
  constructor
  · intro h
    induction h with
    | nil => exact ⟨[], by simp [Short], rfl⟩
    | frame hlen hrest ih =>
        rename_i len bytes rest
        obtain ⟨selectors, hshort, rfl⟩ := ih
        refine ⟨⟨bytes⟩ :: selectors, ?_, ?_⟩
        · intro s hs
          rcases List.mem_cons.mp hs with rfl | hs
          · show bytes.length < 256
            rw [hlen]
            exact len.toNat_lt
          · exact hshort s hs
        · have hbyte : UInt8.ofNat bytes.length = len := by rw [hlen, UInt8.ofNat_toNat]
          rw [frameSelectors_eq, frameSelectors_eq, List.flatMap_cons, frame, hbyte]
          rfl
  · rintro ⟨selectors, hshort, rfl⟩
    rw [frameSelectors_eq]
    induction selectors with
    | nil => exact .nil
    | cons s selectors ih =>
        obtain ⟨hs, hshort⟩ := hshort.of_cons
        rw [List.flatMap_cons]
        exact .frame (toNat_length hs).symm (ih hshort)

/-- Where the loop stands: it has read the frames before its offset. -/
structure Unframing (blob : List UInt8) (s : Nat × List Hash) : Prop where
  within : s.1 ≤ blob.length
  short : Short s.2
  read : frameSelectors s.2 = blob.take s.1

/-- What the loop returns. A failed assertion is a frame that is cut off. -/
def Unframed (build : Build) (blob : List UInt8) : Option (List Hash) → Prop
  | some selectors => Short selectors ∧ ∃ rest, blob = frameSelectors selectors ++ rest ∧
      Truncated rest ∧ (build = .debug → rest = [])
  | none => build = .debug ∧ ¬Complete blob

theorem truncated_nil : Truncated [] := by
  intro len tail h
  cases h

/-- What is cut off behind frames is no frame. -/
theorem not_complete_of_truncated {selectors : List Hash} {rest : List UInt8}
    (hshort : Short selectors) (hrest : Truncated rest) (hne : rest ≠ []) :
    ¬Complete (frameSelectors selectors ++ rest) := by
  intro hcomplete
  obtain ⟨selectors', hshort', heq⟩ := complete_iff.mp hcomplete
  rw [← List.append_nil (frameSelectors selectors')] at heq
  exact hne (frames_unique hshort' hshort truncated_nil hrest heq).2.symm

/-- The next frame lies right behind what has been read. -/
theorem frame_take {blob : List UInt8} {i : Nat} {len : UInt8} (hlen : blob[i]? = some len)
    (hfits : i + 1 + len.toNat ≤ blob.length) :
    blob.take i ++ frame ⟨(blob.drop (i + 1)).take len.toNat⟩ = blob.take (i + 1 + len.toNat) := by
  have hlength : ((blob.drop (i + 1)).take len.toNat).length = len.toNat := by
    rw [List.length_take, List.length_drop]
    omega
  rw [frame, hlength, UInt8.ofNat_toNat, List.take_add, List.take_add_one, hlen,
    Option.toList_some, List.append_assoc, List.singleton_append]

theorem unframing_step (build : Build) {blob : List UInt8} (s : Nat × List Hash)
    (hs : Unframing blob s) :
    Loop.Advances (Unframing blob) (fun s => blob.length - s.1) (Unframed build blob) s
      (unframeStep build blob s) := by
  obtain ⟨i, selectors⟩ := s
  obtain ⟨hwithin, hshort, hread⟩ := hs
  have hsplit : blob = frameSelectors selectors ++ blob.drop i := by
    rw [hread, List.take_append_drop]
  unfold unframeStep
  cases hlen : blob[i]? with
  | none =>
      have hdrop : blob.drop i = [] := List.drop_eq_nil_iff.mpr (List.getElem?_eq_none_iff.mp hlen)
      simp only
      exact ⟨hshort, [], hdrop ▸ hsplit, truncated_nil, fun _ => rfl⟩
  | some len =>
      obtain ⟨hlt, hget⟩ := List.getElem?_eq_some_iff.mp hlen
      have hdrop : blob.drop i = len :: blob.drop (i + 1) := by
        rw [List.drop_eq_getElem_cons hlt, hget]
      simp only
      by_cases hcut : blob.length < i + 1 + len.toNat
      · have htrunc : Truncated (blob.drop i) := by
          intro len' tail heq
          rw [hdrop] at heq
          cases heq
          rw [List.length_drop]
          omega
        have hne : blob.drop i ≠ [] := by
          rw [hdrop]
          exact List.cons_ne_nil _ _
        rw [if_pos hcut]
        cases build with
        | debug =>
            refine ⟨rfl, ?_⟩
            rw [hsplit]
            exact not_complete_of_truncated hshort htrunc hne
        | release => exact ⟨hshort, blob.drop i, hsplit, htrunc, by simp⟩
      · rw [if_neg hcut]
        refine ⟨⟨Nat.le_of_not_lt hcut, ?_, ?_⟩, ?_⟩
        · intro s hs
          rcases List.mem_append.mp hs with hs | hs
          · exact hshort s hs
          · rw [List.mem_singleton.mp hs]
            exact Nat.lt_of_le_of_lt (List.length_take_le _ _) len.toNat_lt
        · rw [frameSelectors_concat, hread]
          exact frame_take hlen (Nat.le_of_not_lt hcut)
        · show blob.length - (i + 1 + len.toNat) < blob.length - i
          omega

/-- Reading ends, in either build. -/
theorem unframeSelectors_spec (build : Build) (blob : List UInt8) :
    ∃ result, unframeSelectors build blob = some result ∧ Unframed build blob result := by
  have hstart : Unframing blob (0, []) := ⟨Nat.zero_le _, by simp [Short], rfl⟩
  exact Loop.exists_run _ _ _ (unframing_step build) hstart (Nat.lt_succ_self _)

theorem unframe_frames (build : Build) {selectors : List Hash} (hshort : Short selectors) :
    unframeSelectors build (frameSelectors selectors) = some (some selectors) := by
  obtain ⟨result, hrun, hresult⟩ := unframeSelectors_spec build (frameSelectors selectors)
  cases result with
  | none => exact absurd (complete_iff.mpr ⟨selectors, hshort, rfl⟩) hresult.2
  | some selectors' =>
      obtain ⟨hshort', rest, heq, hrest, -⟩ := hresult
      rw [← List.append_nil (frameSelectors selectors)] at heq
      rw [hrun, (frames_unique hshort hshort' truncated_nil hrest heq).1]

/-- Selectors that fit a frame are read back as they were written, and without debug assertions any
blob is read up to the end of its last complete frame. -/
theorem selector_framing :
    (∀ build selectors, Short selectors →
      unframeSelectors build (frameSelectors selectors) = some (some selectors)) ∧
    ∀ blob, ∃ selectors, unframeSelectors .release blob = some (some selectors) ∧
      frameSelectors selectors <+: blob ∧
      (frameSelectors selectors = blob ↔ Complete blob) ∧
      ∃ rest, blob = frameSelectors selectors ++ rest ∧ Truncated rest := by
  refine ⟨fun build selectors hshort => unframe_frames build hshort, ?_⟩
  intro blob
  obtain ⟨result, hrun, hresult⟩ := unframeSelectors_spec .release blob
  cases result with
  | none => cases hresult.1
  | some selectors =>
      obtain ⟨hshort, rest, hblob, hrest, -⟩ := hresult
      refine ⟨selectors, hrun, ⟨rest, hblob.symm⟩, ?_, rest, hblob, hrest⟩
      constructor
      · intro heq
        exact complete_iff.mpr ⟨selectors, hshort, heq⟩
      · intro hcomplete
        by_contra hne
        rw [hblob] at hcomplete hne
        refine not_complete_of_truncated hshort hrest ?_ hcomplete
        intro hnil
        rw [hnil, List.append_nil] at hne
        exact hne rfl

theorem selector_framing_mixed :
    unframeSelectors .release (frameSelectors [⟨List.replicate 32 1⟩, ⟨[]⟩]) =
      some (some [⟨List.replicate 32 1⟩, ⟨[]⟩]) :=
  selector_framing.1 .release _ (by simp [Short])

end Topic0
