import Ripclone.Manifest

/-!
# What validated tables satisfy

`Valid` says what `validateGeometry` checks, without the order of its checks or of the files.
-/

namespace Ripclone

open Ripclone.Library

/-- The fragment is inside its frame. -/
def FragmentOk (frames : List FrameInfo) (fragment : Fragment) : Prop :=
  ∃ frame, frames[fragment.frameIndex]? = some frame ∧
    fragment.frameOffset + fragment.rawLen < 2 ^ 32 ∧
    fragment.frameOffset + fragment.rawLen ≤ frame.rawLen

structure FileOk (frames : List FrameInfo) (entry : FileEntry) : Prop where
  mode : entry.mode ∈ allowedModes
  path_ne : entry.path ≠ []
  path : validateRelativePath entry.path = .ok ()
  blob : entry.blobSha1.length = 20
  some_fragment : entry.fragments = [] → frames = []
  fragments : ∀ fragment ∈ entry.fragments, FragmentOk frames fragment

/-- A submodule's path may stand in a table. -/
def GitlinkOk (path : Bytes) : Prop := path ≠ [] ∧ validateRelativePath path = .ok ()

structure MetadataChunk.Valid (table : MetadataChunk) : Prop where
  files : ∀ entry ∈ table.files, FileOk table.frames entry
  gitlinks : ∀ path ∈ table.gitlinks, GitlinkOk path
  paths : (table.files.map FileEntry.path ++ table.gitlinks).Nodup
  frames : checkFrames 0 none table.frames = .ok ()

section Checks

variable {frames : List FrameInfo} {seen : List Bytes}

theorem checkFragment_ok {path : Bytes} {fragIdx : Nat} {fragment : Fragment} :
    checkFragment frames path fragIdx fragment = .ok () ↔ FragmentOk frames fragment := by
  unfold checkFragment FragmentOk
  cases hframe : frames[fragment.frameIndex]? with
  | none => simp
  | some frame =>
      simp only [ite_throw_eq_ok, Option.some.injEq, exists_eq_left']
      constructor
      · rintro ⟨hoverflow, hpast, -⟩
        exact ⟨by omega, by omega⟩
      · rintro ⟨hfits, hinside⟩
        exact ⟨by omega, by omega, rfl⟩

theorem checkFragments_ok {path : Bytes} {fragIdx : Nat} {fragments : List Fragment} :
    checkFragments frames path fragIdx fragments = .ok () ↔
      ∀ fragment ∈ fragments, FragmentOk frames fragment := by
  induction fragments generalizing fragIdx with
  | nil => simp [checkFragments]
  | cons fragment rest ih =>
      simp only [checkFragments, bind_unit_eq_ok, checkFragment_ok, ih, List.forall_mem_cons]

theorem checkFile_ok {fileIdx : Nat} {entry : FileEntry} :
    checkFile frames fileIdx seen entry = .ok () ↔ FileOk frames entry ∧ entry.path ∉ seen := by
  unfold checkFile
  cases hpath : validateRelativePath entry.path with
  | error error =>
      simp only [ite_throw_eq_ok, throw_eq_ok, and_false, false_iff, not_and_or]
      exact .inl fun hok => by simpa [hpath] using hok.path
  | ok _ =>
      simp only [ite_throw_eq_ok, checkFragments_ok, not_not, not_and]
      constructor
      · rintro ⟨hmode, hne, hseen, hblob, hsome, hfragments⟩
        exact ⟨⟨hmode, hne, hpath, hblob, hsome, hfragments⟩, hseen⟩
      · rintro ⟨hok, hseen⟩
        exact ⟨hok.mode, hok.path_ne, hseen, hok.blob, hok.some_fragment, hok.fragments⟩

theorem checkFiles_ok {fileIdx : Nat} {files : List FileEntry} {all : List Bytes} :
    checkFiles frames fileIdx seen files = .ok all ↔
      (∀ entry ∈ files, FileOk frames entry ∧ entry.path ∉ seen) ∧
        (files.map FileEntry.path).Nodup ∧ (files.map FileEntry.path).reverse ++ seen = all := by
  induction files generalizing fileIdx seen with
  | nil => simp [checkFiles]
  | cons entry rest ih =>
      simp only [checkFiles, bind_unit_eq_ok, checkFile_ok, ih, List.forall_mem_cons, List.map_cons,
        List.nodup_cons, List.reverse_cons, List.append_assoc, List.singleton_append]
      constructor
      · rintro ⟨hentry, hrest, hnodup, hall⟩
        refine ⟨⟨hentry, fun f hf => ⟨(hrest f hf).1, fun hmem => ?_⟩⟩, ⟨?_, hnodup⟩, hall⟩
        · exact (hrest f hf).2 (List.mem_cons_of_mem _ hmem)
        · rintro hmem
          obtain ⟨f, hf, hpath⟩ := List.mem_map.mp hmem
          exact (hrest f hf).2 (hpath ▸ List.mem_cons_self)
      · rintro ⟨⟨hentry, hrest⟩, ⟨hnew, hnodup⟩, hall⟩
        refine ⟨hentry, fun f hf => ⟨(hrest f hf).1, fun hmem => ?_⟩, hnodup, hall⟩
        rcases List.mem_cons.mp hmem with hpath | hmem
        · exact hnew (hpath ▸ List.mem_map_of_mem hf)
        · exact (hrest f hf).2 hmem

theorem checkGitlinks_ok {gitlinks : List Bytes} :
    checkGitlinks seen gitlinks = .ok () ↔
      (∀ path ∈ gitlinks, GitlinkOk path ∧ path ∉ seen) ∧ gitlinks.Nodup := by
  induction gitlinks generalizing seen with
  | nil => simp [checkGitlinks]
  | cons gitlink rest ih =>
      unfold checkGitlinks
      cases hpath : validateRelativePath gitlink with
      | error error =>
          simp only [ite_throw_eq_ok, throw_eq_ok, and_false, List.forall_mem_cons, false_iff]
          rintro ⟨⟨⟨⟨_, hok⟩, _⟩, _⟩, _⟩
          rw [hpath] at hok
          cases hok
      | ok _ =>
          simp only [ite_throw_eq_ok, ih, List.forall_mem_cons, List.nodup_cons]
          constructor
          · rintro ⟨hne, hnew, hrest, hnodup⟩
            refine ⟨⟨⟨⟨hne, hpath⟩, hnew⟩, fun p hp => ⟨(hrest p hp).1, fun hmem => ?_⟩⟩, ?_, hnodup⟩
            · exact (hrest p hp).2 (List.mem_cons_of_mem _ hmem)
            · exact fun hmem => (hrest gitlink hmem).2 List.mem_cons_self
          · rintro ⟨⟨⟨⟨hne, _⟩, hnew⟩, hrest⟩, hfirst, hnodup⟩
            refine ⟨hne, hnew, fun p hp => ⟨(hrest p hp).1, fun hmem => ?_⟩, hnodup⟩
            rcases List.mem_cons.mp hmem with rfl | hmem
            · exact hfirst hp
            · exact (hrest p hp).2 hmem

/-- Which tables the reader accepts. -/
theorem validateGeometry_ok {table : MetadataChunk} :
    table.validateGeometry = .ok () ↔ table.Valid := by
  rw [MetadataChunk.validateGeometry, bind_eq_ok]
  simp only [checkFiles_ok, bind_unit_eq_ok, checkGitlinks_ok, List.append_nil]
  constructor
  · rintro ⟨seen, ⟨hfiles, hnodup, rfl⟩, ⟨hgitlinks, hlinks⟩, hframes⟩
    refine ⟨fun f hf => (hfiles f hf).1, fun p hp => (hgitlinks p hp).1, ?_, hframes⟩
    refine List.nodup_append.mpr ⟨hnodup, hlinks, ?_⟩
    rintro path hpath link hlink rfl
    exact (hgitlinks path hlink).2 (List.mem_reverse.mpr hpath)
  · rintro ⟨hfiles, hgitlinks, hpaths, hframes⟩
    obtain ⟨hnodup, hlinks, hapart⟩ := List.nodup_append.mp hpaths
    refine ⟨_, ⟨fun f hf => ⟨hfiles f hf, List.not_mem_nil⟩, hnodup, rfl⟩,
      ⟨fun p hp => ⟨hgitlinks p hp, fun hmem => ?_⟩, hlinks⟩, hframes⟩
    exact hapart p (List.mem_reverse.mp hmem) p hp rfl

/-- The order of the files does not matter. -/
theorem MetadataChunk.Valid.perm {table table' : MetadataChunk} (h : table.Valid)
    (hframes : table'.frames = table.frames) (hgitlinks : table'.gitlinks = table.gitlinks)
    (hfiles : table'.files.Perm table.files) : table'.Valid where
  files := fun entry hentry => hframes ▸ h.files entry (hfiles.mem_iff.mp hentry)
  gitlinks := hgitlinks ▸ h.gitlinks
  paths := by
    rw [hgitlinks]
    exact ((hfiles.map FileEntry.path).append_right _).nodup_iff.mpr h.paths
  frames := hframes ▸ h.frames

theorem MetadataChunk.Valid.nodup_paths {table : MetadataChunk} (h : table.Valid) :
    (table.files.map FileEntry.path).Nodup := (List.nodup_append.mp h.paths).1

end Checks

end Ripclone
