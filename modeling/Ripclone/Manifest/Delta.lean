import Mathlib.Data.List.ReduceOption
import Ripclone.Manifest.Geometry

/-!
# A delta rebuilds its table

`between` leaves out the entries the base holds on frames the table keeps, and `apply` puts them
back. The two agree on which entries those are: an entry is left out when its fragments, taken
through the frame map, are the table's. What comes back is the table with its files in another
order, `rebuiltFiles`: those at paths of the base in the base's order, then the others.
-/

namespace Ripclone

open Ripclone.Library

variable {base table : MetadataChunk} {baseFrames : List Nat} {delta : MetadataDelta}
  {files : List FileEntry}

/-! ## Entries by path -/

theorem entryAt_some {path : Bytes} {entry : FileEntry} (h : entryAt files path = some entry) :
    entry ∈ files ∧ entry.path = path := by
  have hpath := List.find?_some h
  exact ⟨List.mem_reverse.mp (List.mem_of_find?_eq_some h), by simpa using hpath⟩

theorem entryAt_eq_none {path : Bytes} :
    entryAt files path = none ↔ path ∉ files.map FileEntry.path := by
  simp [entryAt]

/-- With paths listed once, the entry of a listed path is the listed one. -/
theorem entryAt_of_mem {entry : FileEntry} (hnodup : (files.map FileEntry.path).Nodup)
    (h : entry ∈ files) : entryAt files entry.path = some entry := by
  cases hfound : entryAt files entry.path with
  | none => exact absurd (List.mem_map_of_mem h) (entryAt_eq_none.mp hfound)
  | some found =>
      obtain ⟨hmem, hpath⟩ := entryAt_some hfound
      rw [List.inj_on_of_nodup_map hnodup hmem h hpath]

/-! ## Kept entries -/

theorem keptFragment_iff {old new : Fragment} (hlt : new.frameIndex + 1 < 2 ^ 32) :
    keptFragment baseFrames old new = true ↔
      baseFrames[old.frameIndex]? = some (new.frameIndex + 1) ∧
        new = { old with frameIndex := new.frameIndex } := by
  rw [keptFragment, decide_eq_true_eq, Nat.mod_eq_of_lt hlt]
  constructor
  · rintro ⟨hslot, hoffset, hlen⟩
    refine ⟨hslot, ?_⟩
    rw [hoffset, hlen]
  · rintro ⟨hslot, hnew⟩
    exact ⟨hslot, (congrArg Fragment.frameOffset hnew).symm, (congrArg Fragment.rawLen hnew).symm⟩

/-- A fragment of a valid table has an index below the number of frames. -/
theorem FragmentOk.frameIndex_lt {frames : List FrameInfo} {fragment : Fragment}
    (h : FragmentOk frames fragment) : fragment.frameIndex < frames.length := by
  obtain ⟨frame, hframe, _⟩ := h
  exact (List.getElem?_eq_some_iff.mp hframe).1

/-- The fragments of a kept entry, taken through the map, are the table's. -/
theorem remap_kept {path : Bytes} {olds news : List Fragment}
    (hmap : delta.baseFrames = baseFrames) (hlen : olds.length = news.length)
    (hlt : ∀ new ∈ news, new.frameIndex + 1 < 2 ^ 32)
    (hkept : (olds.zip news).all (fun pair => keptFragment baseFrames pair.1 pair.2) = true) :
    olds.mapM (delta.remapFragment path) = .ok news := by
  rw [mapM_eq_ok, List.forall₂_iff_zip]
  refine ⟨hlen, fun {old new} hpair => ?_⟩
  have hnew := hlt new (List.of_mem_zip hpair).2
  obtain ⟨hslot, heq⟩ := (keptFragment_iff hnew).mp (List.all_eq_true.mp hkept _ hpair)
  rw [MetadataDelta.remapFragment, hmap, hslot]
  simp [← heq]

/-- A kept entry's base entry, with its fragments taken through the map, is the table's. -/
theorem keptEntry_iff {entry : FileEntry} (hbase : (base.files.map FileEntry.path).Nodup)
    {old : FileEntry} (hold : old ∈ base.files) (hpath : old.path = entry.path) :
    keptEntry base baseFrames entry = true ↔
      (old.mode = entry.mode ∧ old.blobSha1 = entry.blobSha1 ∧
        old.fragments.length = entry.fragments.length) ∧
      (old.fragments.zip entry.fragments).all
        (fun pair => keptFragment baseFrames pair.1 pair.2) = true := by
  rw [keptEntry, ← hpath, entryAt_of_mem hbase hold, Option.any_some, Bool.and_eq_true,
    decide_eq_true_eq]

/-! ## Rebuilding the table -/

/-- The files of a rebuilt table, in the order `apply` gives them. -/
def rebuiltFiles (base table : MetadataChunk) : List FileEntry :=
  (base.files.filterMap fun f => entryAt table.files f.path) ++
    table.files.filter fun f => decide (f.path ∉ base.files.map FileEntry.path)

/-- What `between` returns. -/
def changes (base : MetadataChunk) (baseFrames : List Nat) (table : MetadataChunk) :
    MetadataDelta where
  frames := table.frames
  baseFrames := baseFrames
  files := table.files.filter fun f => !keptEntry base baseFrames f
  removed := (base.files.filter fun f => decide (f.path ∉ table.files.map FileEntry.path)).map
    FileEntry.path
  gitlinks := table.gitlinks

theorem between_ok (hlen : baseFrames.length = base.frames.length) :
    MetadataDelta.between base baseFrames table = .ok (changes base baseFrames table) :=
  if_neg (not_not.mpr hlen)

theorem mem_removed {f : FileEntry} (hf : f ∈ base.files) :
    f.path ∈ (changes base baseFrames table).removed ↔
      f.path ∉ table.files.map FileEntry.path := by
  constructor
  · intro hmem
    obtain ⟨g, hg, hpath⟩ := List.mem_map.mp hmem
    rw [← hpath]
    exact of_decide_eq_true (List.mem_filter.mp hg).2
  · intro hmem
    exact List.mem_map_of_mem (List.mem_filter.mpr ⟨hf, decide_eq_true hmem⟩)

/-- The entries the delta adds are those at paths the base lacks. -/
theorem added_changes :
    ((changes base baseFrames table).files.filter fun f =>
      decide (f.path ∉ (changes base baseFrames table).placed base)) =
      table.files.filter fun f => decide (f.path ∉ base.files.map FileEntry.path) := by
  rw [changes, List.filter_filter]
  refine List.filter_congr fun f hf => ?_
  rw [Bool.eq_iff_iff, Bool.and_eq_true, decide_eq_true_eq, decide_eq_true_eq]
  constructor
  · rintro ⟨hplaced, hkept⟩ hin
    obtain ⟨old, hold, hpath⟩ := List.mem_map.mp hin
    refine hplaced (List.mem_map.mpr ⟨old, List.mem_filter.mpr ⟨hold, ?_⟩, hpath⟩)
    have hkeep : old.path ∉ (changes base baseFrames table).removed :=
      fun hmem => (mem_removed hold).mp hmem (hpath ▸ List.mem_map_of_mem hf)
    have hsome : (entryAt (changes base baseFrames table).files old.path).isSome := by
      rw [Option.isSome_iff_ne_none, Ne, entryAt_eq_none, not_not, hpath]
      exact List.mem_map_of_mem (List.mem_filter.mpr ⟨hf, hkept⟩)
    rw [Bool.and_eq_true, decide_eq_true_eq]
    exact ⟨hkeep, hsome⟩
  · intro hout
    refine ⟨fun hplaced => ?_, ?_⟩
    · obtain ⟨old, hold, hpath⟩ := List.mem_map.mp hplaced
      exact hout (hpath ▸ List.mem_map_of_mem (List.mem_filter.mp hold).1)
    · have hnone : entryAt base.files f.path = none := entryAt_eq_none.mpr hout
      simp [keptEntry, hnone]

/-- The rebuilt files are the table's, in another order. -/
theorem rebuiltFiles_perm (hbase : (base.files.map FileEntry.path).Nodup)
    (htable : (table.files.map FileEntry.path).Nodup) :
    (rebuiltFiles base table).Perm table.files := by
  have hmem : ∀ f, f ∈ rebuiltFiles base table ↔ f ∈ table.files := by
    intro f
    rw [rebuiltFiles, List.mem_append, List.mem_filterMap, List.mem_filter, decide_eq_true_eq]
    constructor
    · rintro (⟨old, _, hfound⟩ | ⟨hf, _⟩)
      · exact (entryAt_some hfound).1
      · exact hf
    · intro hf
      by_cases hin : f.path ∈ base.files.map FileEntry.path
      · obtain ⟨old, hold, hpath⟩ := List.mem_map.mp hin
        exact .inl ⟨old, hold, hpath ▸ entryAt_of_mem htable hf⟩
      · exact .inr ⟨hf, hin⟩
  have hnodup : (rebuiltFiles base table).Nodup := by
    refine List.nodup_append.mpr ⟨?_, htable.of_map _ |>.filter _, ?_⟩
    · refine List.Pairwise.filterMap _ (fun old old' hne f hf g hg heq => hne ?_)
        (List.pairwise_map.mp hbase)
      rw [← (entryAt_some hf).2, heq, (entryAt_some hg).2]
    · rintro f hf g hg rfl
      obtain ⟨old, hold, hfound⟩ := List.mem_filterMap.mp hf
      refine of_decide_eq_true (List.mem_filter.mp hg).2 ?_
      rw [(entryAt_some hfound).2]
      exact List.mem_map_of_mem hold
  exact (List.perm_ext_iff_of_nodup hnodup (htable.of_map _)).mpr hmem

theorem validated_ok (h : table.Valid) : MetadataDelta.validated table = .ok table := by
  rw [MetadataDelta.validated, validateGeometry_ok.mpr h]
  rfl

section Rebuild

variable (hbase : (base.files.map FileEntry.path).Nodup) (htable : table.Valid)
  (hframes : table.frames.length < 2 ^ 32)

include hbase htable hframes

/-- Each entry of the base becomes the table's entry of its path. -/
theorem applyEntry_changes {entry : FileEntry} (hentry : entry ∈ base.files) :
    (changes base baseFrames table).applyEntry entry = .ok (entryAt table.files entry.path) := by
  rw [MetadataDelta.applyEntry]
  by_cases hin : entry.path ∈ table.files.map FileEntry.path
  · rw [if_neg (fun hmem => (mem_removed hentry).mp hmem hin)]
    obtain ⟨new, hnew, hpath⟩ := List.mem_map.mp hin
    rw [← hpath, entryAt_of_mem htable.nodup_paths hnew]
    cases hkept : keptEntry base baseFrames new with
    | false =>
        have hchanged : new ∈ (changes base baseFrames table).files :=
          List.mem_filter.mpr ⟨hnew, by simp [hkept]⟩
        have hnodup : ((changes base baseFrames table).files.map FileEntry.path).Nodup :=
          htable.nodup_paths.sublist (List.filter_sublist.map _)
        rw [entryAt_of_mem hnodup hchanged]
        rfl
    | true =>
        -- the only entry of this path is left out of the delta
        have hnone : entryAt (changes base baseFrames table).files new.path = none := by
          rw [entryAt_eq_none]
          intro hmem
          obtain ⟨other, hother, heq⟩ := List.mem_map.mp hmem
          obtain ⟨hother, hnot⟩ := List.mem_filter.mp hother
          rw [List.inj_on_of_nodup_map htable.nodup_paths hother hnew heq] at hnot
          simp [hkept] at hnot
        obtain ⟨⟨hmode, hblob, hlen⟩, hall⟩ := (keptEntry_iff hbase hentry hpath.symm).mp hkept
        have hlt : ∀ fragment ∈ new.fragments, fragment.frameIndex + 1 < 2 ^ 32 := by
          intro fragment hfragment
          have := ((htable.files new hnew).fragments fragment hfragment).frameIndex_lt
          omega
        rw [hnone]
        dsimp only
        rw [hpath, remap_kept rfl hlen hlt hall]
        show Except.ok (some { entry with fragments := new.fragments }) = _
        rw [← hpath, hmode, hblob]
  · rw [if_pos ((mem_removed hentry).mpr hin), entryAt_eq_none.mpr hin]
    rfl

/-- `apply` undoes `between`, up to the order of the files. -/
theorem apply_changes (hlen : baseFrames.length = base.frames.length) :
    (changes base baseFrames table).apply base =
      .ok ⟨table.frames, rebuiltFiles base table, table.gitlinks⟩ := by
  have hentries : base.files.mapM (changes base baseFrames table).applyEntry =
      .ok (base.files.map fun f => entryAt table.files f.path) := by
    rw [mapM_eq_ok, List.forall₂_map_right_iff, List.forall₂_same]
    exact fun entry hentry => applyEntry_changes hbase htable hframes hentry
  have hremoved : (base.files.filter fun f =>
      decide (f.path ∈ (changes base baseFrames table).removed)).length =
      (changes base baseFrames table).removed.dedup.length := by
    have hnodup : (changes base baseFrames table).removed.Nodup :=
      hbase.sublist (List.filter_sublist.map _)
    rw [hnodup.dedup, changes, List.length_map]
    refine congrArg List.length (List.filter_congr fun f hf => ?_)
    rw [decide_eq_decide]
    exact mem_removed hf
  have hvalid : MetadataChunk.Valid ⟨table.frames, rebuiltFiles base table, table.gitlinks⟩ :=
    htable.perm rfl rfl (rebuiltFiles_perm hbase htable.nodup_paths)
  have hfiles : (base.files.map fun f => entryAt table.files f.path).reduceOption =
      base.files.filterMap fun f => entryAt table.files f.path := List.filterMap_map
  have hmap : (changes base baseFrames table).baseFrames.length = base.frames.length := hlen
  rw [MetadataDelta.apply, hentries, if_neg (not_not.mpr hmap)]
  show (if _ ≠ _ then _ else _) = _
  rw [if_neg (not_not.mpr hremoved), added_changes, hfiles]
  exact validated_ok hvalid

end Rebuild

end Ripclone
