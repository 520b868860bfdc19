import Ripclone.Extract.Confinement

/-!
# Which listed paths are one

A table may not list a path twice, and paths are compared byte by byte. Resolved below a target, a path
is the names it goes through: a slash next to a slash, one at the end and a `.` after the first name
change nothing. So the places of the listed paths differ just when their spellings without these do
(`listed_places_distinct`).
-/

namespace Ripclone

open Ripclone.Library

/-- The paths of the table's files and submodules. -/
def MetadataChunk.listed (table : MetadataChunk) : List Bytes :=
  table.files.map FileEntry.path ++ table.gitlinks

/-- Where a path below `target` leads when the directories on it are there. -/
def resolvedPlace (target : Place) (path : Bytes) : Option Place :=
  (walk (fun _ => some .dir) maxSymlinks target (pathNames path)).map Walked.place

/-- The path without empty and `.` parts. -/
def spelling (path : Bytes) : Bytes :=
  joinNames ((pathNames path).filter fun part => part ≠ [] && part ≠ thisDir)

section Places

variable {path : Bytes} {target : Place}

/-- A walk through directories goes through the path's names. -/
theorem walkNames_dirs {follow : Place → List Name → Option Walked} {names : List Name}
    (hup : parentDir ∉ names) (dir : Place) :
    walkNames follow (fun _ => some .dir) dir names = some ⟨dir ++ names.filter isName, []⟩ := by
  induction names generalizing dir with
  | nil => simp [walkNames]
  | cons name rest ih =>
      have hrest : parentDir ∉ rest := fun hmem => hup (List.mem_cons_of_mem _ hmem)
      have hname : name ≠ parentDir := fun heq => hup (heq ▸ List.mem_cons_self)
      rw [walkNames]
      by_cases hstay : name = [] ∨ name = thisDir
      · rw [if_pos hstay, ih hrest, List.filter_cons_of_neg]
        simp [isName_eq, hstay]
      · rw [if_neg hstay, if_neg hname,
          List.filter_cons_of_pos (isName_eq.mpr ⟨hstay, hname⟩)]
        show walkNames follow (fun _ => some .dir) (dir ++ [name]) rest = _
        rw [ih hrest, List.append_assoc]
        rfl

theorem resolvedPlace_valid (h : validateRelativePath path = .ok ()) :
    resolvedPlace target path = some (target ++ plainNames path) := by
  obtain ⟨_, hup, _⟩ := names_of_valid h
  show (walkNames _ _ target (pathNames path)).map Walked.place = _
  rw [walkNames_dirs hup]
  rfl

/-- An accepted path is spelled by its names. -/
theorem spelling_valid (h : validateRelativePath path = .ok ()) :
    spelling path = joinNames (plainNames path) ∧ pathNames (spelling path) = plainNames path := by
  obtain ⟨_, hup, hne⟩ := names_of_valid h
  have hspelling : spelling path = joinNames (plainNames path) := by
    refine congrArg joinNames (List.filter_congr fun part hpart => ?_)
    have hparent : part ≠ parentDir := fun heq => hup (heq ▸ hpart)
    simp [isName, hparent]
  refine ⟨hspelling, hspelling ▸ pathNames_joinNames hne fun name hname => ?_⟩
  exact not_mem_of_mem_pathNames (List.mem_filter.mp hname).1

end Places

/-- Where the paths of an accepted table lead is different for each of them just when no two are
spelled alike without empty and `.` parts. -/
theorem listed_places_distinct {table : MetadataChunk} (hvalid : table.validateGeometry = .ok ())
    (target : Place) :
    (table.listed.map (resolvedPlace target)).Nodup ↔ (table.listed.map spelling).Nodup := by
  have hpaths : ∀ path ∈ table.listed, validateRelativePath path = .ok () := by
    intro path hpath
    have hvalid := validateGeometry_ok.mp hvalid
    rcases List.mem_append.mp hpath with hfile | hlink
    · obtain ⟨entry, hentry, rfl⟩ := List.mem_map.mp hfile
      exact (hvalid.files entry hentry).path
    · exact (hvalid.gitlinks path hlink).2
  have hplaces : table.listed.map (resolvedPlace target) =
      (table.listed.map plainNames).map fun names => some (target ++ names) := by
    rw [List.map_map]
    exact List.map_congr_left fun path hpath => resolvedPlace_valid (hpaths path hpath)
  have hspellings : table.listed.map spelling = (table.listed.map plainNames).map joinNames := by
    rw [List.map_map]
    exact List.map_congr_left fun path hpath => (spelling_valid (hpaths path hpath)).1
  have hnames : (table.listed.map spelling).map pathNames = table.listed.map plainNames := by
    rw [List.map_map]
    exact List.map_congr_left fun path hpath => (spelling_valid (hpaths path hpath)).2
  have hinjective : Function.Injective fun names : List Name => some (target ++ names) := by
    intro a b hab
    exact List.append_cancel_left (Option.some.inj hab)
  rw [hplaces, List.nodup_map_iff hinjective]
  constructor
  · intro hnodup
    exact List.Nodup.of_map pathNames (hnames ▸ hnodup)
  · intro hnodup
    exact List.Nodup.of_map joinNames (hspellings ▸ hnodup)

/-- Two files, `a/b` and `a//b`. -/
def respelledTable : MetadataChunk where
  frames := [⟨0, 0, 2, 2⟩]
  files := [⟨[0x61, 0x2f, 0x62], 0o100644, List.replicate 20 1, [⟨0, 0, 1⟩]⟩,
    ⟨[0x61, 0x2f, 0x2f, 0x62], 0o100644, List.replicate 20 2, [⟨0, 1, 1⟩]⟩]
  gitlinks := []

/-- Their two writes, with contents of their own. -/
def respelledWrites : List OwnedFileWrite :=
  (respelledTable.files.zip [[1], [2]]).map fun (entry, content) => ⟨entry, .owned content⟩

/-- Write the table's files. -/
def writeRespelled : FileM Nat := do
  prepareWorktreeDirs [[0x74]] respelledTable
  writeOwnedEntries [[0x74]] respelledWrites archiveWriteOptions

/-- The table is accepted and both files are written and counted, but they are one entry, with the
content of the second. -/
theorem respelled_files_collide :
    respelledTable.validateGeometry = .ok () ∧
    (∀ target, ¬ (respelledTable.listed.map (resolvedPlace target)).Nodup) ∧
    ∃ t, runExcept FileTree.exec writeRespelled emptyTree = (.ok 2, t) ∧
      t.node [[0x74], [0x61], [0x62]] = some (.file 1) ∧ t.inodes[1]? = some ⟨0o644, [2]⟩ := by
  have hvalid : respelledTable.validateGeometry = .ok () := by decide
  refine ⟨hvalid, fun target hnodup => ?_, _, Prod.ext ?_ rfl, ?_, ?_⟩
  · have hplaces : resolvedPlace target [0x61, 0x2f, 0x62] =
        resolvedPlace target [0x61, 0x2f, 0x2f, 0x62] := by
      rw [resolvedPlace_valid (by decide), resolvedPlace_valid (by decide)]
      rfl
    simp [respelledTable, MetadataChunk.listed, hplaces] at hnodup
  · decide
  · decide
  · decide

theorem distinct_files_apart :
    linkedTable.validateGeometry = .ok () ∧
      (linkedTable.listed.map (resolvedPlace [[0x74]])).Nodup :=
  ⟨by decide, (listed_places_distinct (by decide) [[0x74]]).mpr (by decide)⟩

end Ripclone
