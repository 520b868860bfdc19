import Mathlib.Data.List.Perm.Basic
import Ripclone.Extract.Pipeline

/-!
# How files are put together

The writers' map is at every moment what the fragments that are left say it is: `pendingOf`. Cutting a
fragment out of its frame therefore leads to the map of one fragment less, and returns the file exactly
when that was its last one.
-/

namespace Ripclone

open Ripclone.Library

/-- The fragment's bytes, in its frame. -/
def Fragment.sliceOf (raws : Nat → Bytes) (fragment : Fragment) : FileSlice :=
  ⟨raws fragment.frameIndex, fragment.frameOffset, fragment.rawLen⟩

/-- What is written for a file. -/
def FileEntry.content (raws : Nat → Bytes) (entry : FileEntry) : FileWriteContent :=
  match entry.fragments with
  | [fragment] => .shared (fragment.sliceOf raws)
  | fragments => .fragments (fragments.map (Fragment.sliceOf raws))

/-- The slots of a file's fragments. Those that are left are empty. -/
def slotsOf (raws : Nat → Bytes) (left : List (Nat × Nat)) (fileIdx : Nat)
    (fragments : List Fragment) : List (Option FileSlice) :=
  fragments.zipIdx.map fun (fragment, fragIdx) =>
    if (fileIdx, fragIdx) ∈ left then none else some (fragment.sliceOf raws)

/-- How many fragments of a file are left. -/
def missing (left : List (Nat × Nat)) (fileIdx : Nat) (fragments : List Fragment) : Nat :=
  (slotsOf (fun _ => []) left fileIdx fragments).count none

/-- The map, when these fragments are left. -/
def MetadataChunk.pendingOf (table : MetadataChunk) (raws : Nat → Bytes) (left : List (Nat × Nat)) :
    PendingFiles := fun fileIdx =>
  (table.files[fileIdx]?).bind fun entry =>
    if 1 < entry.fragments.length ∧ missing left fileIdx entry.fragments ≠ 0 then
      some ⟨slotsOf raws left fileIdx entry.fragments, missing left fileIdx entry.fragments⟩
    else none

section Slots

variable {raws : Nat → Bytes} {left left' : List (Nat × Nat)} {fileIdx fragIdx : Nat}
  {fragments : List Fragment} {fragment : Fragment}

theorem content_bytes (raws : Nat → Bytes) (entry : FileEntry) :
    (entry.content raws).bytes =
      (entry.fragments.map fun fragment => (fragment.sliceOf raws).bytes).flatten := by
  unfold FileEntry.content
  split
  · next hone =>
      rw [hone]
      rfl
  · rw [FileWriteContent.bytes, FileWriteContent.pieces, List.map_map]
    rfl

theorem slotsOf_getElem? (raws : Nat → Bytes) (left : List (Nat × Nat)) (fileIdx fragIdx : Nat)
    (fragments : List Fragment) :
    (slotsOf raws left fileIdx fragments)[fragIdx]? = (fragments[fragIdx]?).map fun fragment =>
      if (fileIdx, fragIdx) ∈ left then none else some (fragment.sliceOf raws) := by
  rw [slotsOf, List.getElem?_map, List.getElem?_zipIdx, Option.map_map]
  simp only [Function.comp_def, Nat.zero_add]

theorem length_slotsOf : (slotsOf raws left fileIdx fragments).length = fragments.length := by
  rw [slotsOf, List.length_map, List.length_zipIdx]

theorem slotsOf_congr
    (h : ∀ fragIdx < fragments.length, (fileIdx, fragIdx) ∈ left ↔ (fileIdx, fragIdx) ∈ left') :
    slotsOf raws left fileIdx fragments = slotsOf raws left' fileIdx fragments := by
  apply List.ext_getElem?
  intro fragIdx
  rw [slotsOf_getElem?, slotsOf_getElem?]
  cases hfragment : fragments[fragIdx]? with
  | none => rfl
  | some fragment => simp only [h fragIdx (List.getElem?_eq_some_iff.mp hfragment).1]

/-- Which bytes the slots hold is nothing to how many are empty. -/
theorem count_slotsOf : (slotsOf raws left fileIdx fragments).count none = missing left fileIdx fragments := by
  rw [missing, slotsOf, slotsOf, List.count_eq_countP, List.count_eq_countP, List.countP_map, List.countP_map]
  congr 1
  funext ⟨fragment, fragIdx⟩
  by_cases hleft : (fileIdx, fragIdx) ∈ left <;> simp [hleft]

theorem missing_congr
    (h : ∀ fragIdx < fragments.length, (fileIdx, fragIdx) ∈ left ↔ (fileIdx, fragIdx) ∈ left') :
    missing left fileIdx fragments = missing left' fileIdx fragments :=
  congrArg (List.count none) (slotsOf_congr h)

theorem missing_eq_zero : missing left fileIdx fragments = 0 ↔
    ∀ fragIdx < fragments.length, (fileIdx, fragIdx) ∉ left := by
  rw [missing, List.count_eq_zero]
  constructor
  · intro hnone fragIdx hlt hleft
    apply hnone
    apply List.mem_of_getElem? (i := fragIdx)
    rw [slotsOf_getElem?, List.getElem?_eq_getElem hlt, Option.map_some, if_pos hleft]
  · intro hleft hnone
    obtain ⟨fragIdx, hslot⟩ := List.getElem?_of_mem hnone
    rw [slotsOf_getElem?, Option.map_eq_some_iff] at hslot
    obtain ⟨fragment, hfragment, hslot⟩ := hslot
    rw [if_neg (hleft fragIdx (List.getElem?_eq_some_iff.mp hfragment).1)] at hslot
    cases hslot

/-- When nothing of the file is left, its slots hold its fragments. -/
theorem slotsOf_complete (h : missing left fileIdx fragments = 0) :
    slotsOf raws left fileIdx fragments = (fragments.map (Fragment.sliceOf raws)).map some := by
  apply List.ext_getElem?
  intro fragIdx
  rw [slotsOf_getElem?, List.getElem?_map, List.getElem?_map, Option.map_map]
  cases hfragment : fragments[fragIdx]? with
  | none => rfl
  | some fragment =>
      have hlt := (List.getElem?_eq_some_iff.mp hfragment).1
      simp [missing_eq_zero.mp h fragIdx hlt]

variable (hperm : left.Perm ((fileIdx, fragIdx) :: left')) (hnodup : left.Nodup)

include hperm hnodup

/-- A fragment that is cut is left no more. -/
theorem mem_left_of_cut (pair : Nat × Nat) : pair ∈ left' ↔ pair ∈ left ∧ pair ≠ (fileIdx, fragIdx) := by
  have hfresh := (List.nodup_cons.mp (hperm.nodup_iff.mp hnodup)).1
  rw [hperm.mem_iff, List.mem_cons]
  constructor
  · intro hpair
    refine ⟨.inr hpair, ?_⟩
    rintro rfl
    exact hfresh hpair
  · rintro ⟨rfl | hpair, hne⟩
    · exact absurd rfl hne
    · exact hpair

theorem slotsOf_cut (hfragment : fragments[fragIdx]? = some fragment) :
    slotsOf raws left' fileIdx fragments =
      (slotsOf raws left fileIdx fragments).set fragIdx (some (fragment.sliceOf raws)) := by
  have hlt := (List.getElem?_eq_some_iff.mp hfragment).1
  apply List.ext_getElem?
  intro k
  rw [slotsOf_getElem?, List.getElem?_set, length_slotsOf]
  by_cases hk : fragIdx = k
  · subst hk
    have hgone : (fileIdx, fragIdx) ∉ left' := fun hleft =>
      ((mem_left_of_cut hperm hnodup _).mp hleft).2 rfl
    rw [if_pos rfl, if_pos hlt, hfragment, Option.map_some, if_neg hgone]
  · rw [if_neg hk, slotsOf_getElem?]
    have hsame : (fileIdx, k) ∈ left' ↔ (fileIdx, k) ∈ left := by
      rw [mem_left_of_cut hperm hnodup]
      simp [Ne.symm hk]
    simp only [hsame]

/-- There is one fragment of the file less. -/
theorem missing_cut (hfragment : fragments[fragIdx]? = some fragment) :
    missing left fileIdx fragments = missing left' fileIdx fragments + 1 := by
  have hlt := (List.getElem?_eq_some_iff.mp hfragment).1
  have hleft : (fileIdx, fragIdx) ∈ left := hperm.mem_iff.mpr List.mem_cons_self
  have hslot : (slotsOf (fun _ => []) left fileIdx fragments)[fragIdx]? = some none := by
    rw [slotsOf_getElem?, hfragment, Option.map_some, if_pos hleft]
  have hlen : fragIdx < (slotsOf (fun _ => []) left fileIdx fragments).length := by
    rwa [length_slotsOf]
  have hpos : 0 < (slotsOf (fun _ => []) left fileIdx fragments).count none :=
    List.count_pos_iff.mpr (List.mem_of_getElem? hslot)
  have hnone : (slotsOf (fun _ => []) left fileIdx fragments)[fragIdx] = none :=
    (List.getElem?_eq_some_iff.mp hslot).2
  rw [missing, missing, slotsOf_cut hperm hnodup hfragment, List.count_set hlen, hnone]
  simp only [beq_self_eq_true, ↓reduceIte]
  have hsome : ((some (fragment.sliceOf fun _ => []) : Option FileSlice) == none) = false := rfl
  rw [hsome]
  simp only [Bool.false_eq_true, ↓reduceIte]
  omega

theorem missing_other {fileIdx' : Nat} (hne : fileIdx' ≠ fileIdx) (fragments : List Fragment) :
    missing left' fileIdx' fragments = missing left fileIdx' fragments := by
  apply missing_congr
  intro fragIdx' _
  rw [mem_left_of_cut hperm hnodup]
  simp [hne]

theorem slotsOf_other {fileIdx' : Nat} (hne : fileIdx' ≠ fileIdx) (fragments : List Fragment) :
    slotsOf raws left' fileIdx' fragments = slotsOf raws left fileIdx' fragments := by
  apply slotsOf_congr
  intro fragIdx' _
  rw [mem_left_of_cut hperm hnodup]
  simp [hne]

end Slots

/-! ## Cutting a fragment -/

section Cut

variable {table : MetadataChunk} {raws : Nat → Bytes} {left left' : List (Nat × Nat)}
  {fileIdx fragIdx : Nat} {entry : FileEntry} {fragment : Fragment}

theorem pendingOf_of_entry (hentry : table.files[fileIdx]? = some entry)
    (hmulti : 1 < entry.fragments.length) (left : List (Nat × Nat)) :
    table.pendingOf raws left fileIdx = if missing left fileIdx entry.fragments = 0 then none
      else some ⟨slotsOf raws left fileIdx entry.fragments, missing left fileIdx entry.fragments⟩ := by
  rw [MetadataChunk.pendingOf, hentry, Option.bind_some]
  by_cases hzero : missing left fileIdx entry.fragments = 0
  · rw [if_neg (fun h => h.2 hzero), if_pos hzero]
  · rw [if_pos ⟨hmulti, hzero⟩, if_neg hzero]

/-- Files of one fragment are never in the map. -/
theorem pendingOf_single (hentry : table.files[fileIdx]? = some entry)
    (hsingle : entry.fragments.length = 1) (left : List (Nat × Nat)) :
    table.pendingOf raws left fileIdx = none := by
  rw [MetadataChunk.pendingOf, hentry, Option.bind_some, hsingle]
  exact if_neg fun h => Nat.lt_irrefl 1 h.1

theorem slices_complete (slices : List FileSlice) (path : String) :
    PendingFile.slices ⟨slices.map some, 0⟩ path = .ok slices := by
  suffices hfrom : ∀ k, ((slices.map some).zipIdx k).mapM (sliceAt path) = .ok slices from hfrom 0
  induction slices with
  | nil => exact fun _ => rfl
  | cons slice slices ih =>
      intro k
      rw [List.map_cons, List.zipIdx_cons, List.mapM_cons, bind_eq_ok]
      refine ⟨slice, rfl, ?_⟩
      rw [ih (k + 1)]
      rfl

variable (hperm : left.Perm ((fileIdx, fragIdx) :: left')) (hnodup : left.Nodup)
  (hentry : table.files[fileIdx]? = some entry) (hfragment : entry.fragments[fragIdx]? = some fragment)

include hperm hnodup hentry

theorem pendingOf_cut (hmulti : 1 < entry.fragments.length) :
    table.pendingOf raws left' = Function.update (table.pendingOf raws left) fileIdx
      (if missing left' fileIdx entry.fragments = 0 then none
        else some ⟨slotsOf raws left' fileIdx entry.fragments, missing left' fileIdx entry.fragments⟩) := by
  funext k
  by_cases hk : k = fileIdx
  · subst hk
    rw [Function.update_self, pendingOf_of_entry hentry hmulti]
  · rw [Function.update_of_ne hk, MetadataChunk.pendingOf, MetadataChunk.pendingOf]
    congr 1
    funext other
    rw [missing_other hperm hnodup hk, slotsOf_other hperm hnodup hk]

theorem pendingOf_cut_single (hsingle : entry.fragments.length = 1) :
    table.pendingOf raws left' = table.pendingOf raws left := by
  funext k
  by_cases hk : k = fileIdx
  · subst hk
    rw [pendingOf_single hentry hsingle, pendingOf_single hentry hsingle]
  · rw [MetadataChunk.pendingOf, MetadataChunk.pendingOf]
    congr 1
    funext other
    rw [missing_other hperm hnodup hk, slotsOf_other hperm hnodup hk]

include hfragment

/-- A fragment that is left is put in its place, and the file is taken out with its last one. -/
theorem placeFragment_cut (hmulti : 1 < entry.fragments.length) (path : String) :
    placeFragment (table.pendingOf raws left) path fileIdx fragIdx (fragment.sliceOf raws) =
      (.ok (if missing left' fileIdx entry.fragments = 0 then
          some ⟨slotsOf raws left' fileIdx entry.fragments, 0⟩ else none),
        table.pendingOf raws left') := by
  have hleft : (fileIdx, fragIdx) ∈ left := hperm.mem_iff.mpr List.mem_cons_self
  have hmissing := missing_cut hperm hnodup hfragment
  have hpending : table.pendingOf raws left fileIdx = some
      ⟨slotsOf raws left fileIdx entry.fragments, missing left' fileIdx entry.fragments + 1⟩ := by
    rw [pendingOf_of_entry hentry hmulti, hmissing]
    exact if_neg (Nat.succ_ne_zero _)
  have hslot : (slotsOf raws left fileIdx entry.fragments)[fragIdx]? = some none := by
    rw [slotsOf_getElem?, hfragment, Option.map_some, if_pos hleft]
  rw [pendingOf_cut hperm hnodup hentry hmulti, slotsOf_cut hperm hnodup hfragment]
  unfold placeFragment
  simp only [hpending, hslot]
  cases missing left' fileIdx entry.fragments with
  | zero => rfl
  | succ n => rfl

end Cut

/-- A writer that cuts a fragment which is left. The file is complete when it was the last one. -/
theorem Extraction.cutFragment_ok {x : Extraction} {raws : Nat → Bytes} {left left' : List (Nat × Nat)}
    {fileIdx fragIdx : Nat} {entry : FileEntry} {fragment : Fragment} {writer : FrameWriter}
    (hperm : left.Perm ((fileIdx, fragIdx) :: left')) (hnodup : left.Nodup)
    (hentry : x.table.files[fileIdx]? = some entry)
    (hfragment : entry.fragments[fragIdx]? = some fragment) (hframe : fragment.frameIndex = writer.frame)
    (hraw : writer.raw = raws writer.frame)
    (hfits : fragment.frameOffset + fragment.rawLen ≤ writer.raw.length) :
    x.cutFragment writer (x.table.pendingOf raws left) (fileIdx, fragIdx) =
      (if missing left' fileIdx entry.fragments = 0 then (x.checkedWrite entry (entry.content raws)).map some
        else .ok none, x.table.pendingOf raws left') := by
  have hslice : (⟨writer.raw, fragment.frameOffset, fragment.rawLen⟩ : FileSlice) =
      fragment.sliceOf raws := by
    rw [Fragment.sliceOf, hframe, hraw]
  unfold cutFragment
  simp only [hentry, Option.bind_some, hfragment, Option.map_some]
  rw [if_neg (Nat.not_lt.mpr hfits), hslice]
  by_cases hsingle : entry.fragments.length = 1
  · -- the fragment is the whole file
    obtain ⟨only, honly⟩ := List.length_eq_one_iff.mp hsingle
    have hzero : missing left' fileIdx entry.fragments = 0 := by
      have hcut := missing_cut hperm hnodup hfragment
      have hle : missing left fileIdx entry.fragments ≤ 1 := by
        rw [← hsingle, ← @length_slotsOf (fun _ => []) left fileIdx]
        exact List.count_le_length
      omega
    have hcontent : entry.content raws = .shared (fragment.sliceOf raws) := by
      rw [honly, List.getElem?_singleton] at hfragment
      split at hfragment
      · rw [FileEntry.content, honly, Option.some.inj hfragment]
      · cases hfragment
    rw [if_pos hsingle, if_pos hzero, hcontent, pendingOf_cut_single hperm hnodup hentry hsingle]
  · have hmulti : 1 < entry.fragments.length := by
      have := (List.getElem?_eq_some_iff.mp hfragment).1
      omega
    rw [if_neg hsingle, placeFragment_cut hperm hnodup hentry hfragment hmulti]
    -- The last fragment completes the file; any other leaves it pending.
    by_cases hzero : missing left' fileIdx entry.fragments = 0
    · have hcontent : entry.content raws = .fragments (entry.fragments.map (Fragment.sliceOf raws)) := by
        unfold FileEntry.content
        split
        · next hone =>
            rw [hone] at hmulti
            exact absurd hmulti (Nat.lt_irrefl 1)
        · rfl
      rw [if_pos hzero, if_pos hzero, slotsOf_complete hzero, hcontent]
      show (do
        let slices ← PendingFile.slices _ _
        let write ← x.checkedWrite entry (.fragments slices)
        return some write, _) = _
      rw [slices_complete]
      show (do
        let write ← x.checkedWrite entry (.fragments (entry.fragments.map (Fragment.sliceOf raws)))
        return some write, _) = _
      cases x.checkedWrite entry (.fragments (entry.fragments.map (Fragment.sliceOf raws))) with
      | error error => rfl
      | ok write => rfl
    · rw [if_neg hzero, if_neg hzero]
      rfl

end Ripclone
