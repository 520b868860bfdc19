import Mathlib.Data.List.Sort
import Ripclone.WorktreeWriter

/-!
# Extraction stays in its target

The manifest is the server's word. An extraction first checks every path and makes every directory
that a file or a submodule needs, in one thread, and only then do its workers write files and symlinks
into the target. A directory is never unlinked, so no symlink can take the place of one that a path
goes through, whatever the entries are and in whichever order they are written.
-/

namespace Ripclone

open Ripclone.Library

/-! ## Directories first -/

def checkPaths : List Bytes → FileM Unit
  | [] => return ()
  | path :: rest => do
    validRelativePath path
    checkPaths rest

def createAll (targetDir : Place) : List Bytes → FileM Unit
  | [] => return ()
  | dir :: rest => do
    safeCreateDirAll targetDir dir
    createAll targetDir rest

/-- A set of paths: two paths with the same components are one. -/
def pathSet (paths : List Bytes) : List Bytes :=
  paths.foldl (fun kept path => Table.insertNew components path kept) []

/-- The directories that the files are in and those of the submodules, sorted. -/
def worktreeDirs (metadata : MetadataChunk) : List Bytes :=
  let parents := metadata.files.filterMap fun entry =>
    (parentPath entry.path).filter fun parent => parent ≠ []
  (pathSet (parents ++ metadata.gitlinks)).insertionSort fun a b => plainNames a ≤ plainNames b

def prepareWorktreeDirs (targetDir : Place) (metadata : MetadataChunk) : FileM Unit := do
  checkPaths (metadata.files.map FileEntry.path ++ metadata.gitlinks)
  createAll targetDir (worktreeDirs metadata)

/-! ## Then files -/

/-- A worker writes one batch after the other; one that failed is reported, and it goes on. -/
def writeBatches (targetDir : Place) (options : WriteOptions) :
    List (List OwnedFileWrite) → Prog Call Reply Unit
  | [] => return ()
  | batch :: rest => do
    let _ ← (writeOwnedEntries targetDir batch options).run
    writeBatches targetDir options rest

/-- The trees that an extraction passes through: what `prepareWorktreeDirs` leaves, and from there
every tree of every interleaving of the workers' calls. -/
inductive Extracting (metadata : MetadataChunk) (targetDir : Place) (options : WriteOptions)
    (workers : List (List (List OwnedFileWrite))) (t₀ : FileTree) : FileTree → Prop
  | prepared {result : Except WriteError Unit} {t : FileTree}
      (h : runExcept FileTree.exec (prepareWorktreeDirs targetDir metadata) t₀ = (result, t)) :
      Extracting metadata targetDir options workers t₀ t
  | writing {t₁ : FileTree} {order : List Nat} {s : Threads Call Reply FileTree}
      (h : runExcept FileTree.exec (prepareWorktreeDirs targetDir metadata) t₀ = (.ok (), t₁))
      (hrun : Run (Threads.Step FileTree.exec)
        ⟨t₁, workers.map (writeBatches targetDir options)⟩ order s) :
      Extracting metadata targetDir options workers t₀ s.state

/-! ## Every directory that is needed is made -/

section Prepare

variable {target : Place} {t₀ t t' : FileTree} {metadata : MetadataChunk}

theorem checkPaths_within (paths : List Bytes) :
    MakesDirsWithin target t₀ (fun _ => True) (checkPaths paths) := by
  induction paths with
  | nil => exact .ret trivial
  | cons path rest ih =>
      have hvalid : MakesDirsWithin target t₀ (fun _ => True) (validRelativePath path) := by
        unfold validRelativePath
        split
        · exact .ret trivial
        · exact .throw _
      exact .bind hvalid fun _ _ => ih

theorem createAll_within (dirs : List Bytes) :
    MakesDirsWithin target t₀ (fun _ => True) (createAll target dirs) := by
  induction dirs with
  | nil => exact .ret trivial
  | cons dir rest ih =>
      exact .bind (safeCreateDirAll_within fun _ _ _ => trivial) fun _ _ => ih

theorem prepareWorktreeDirs_within :
    MakesDirsWithin target t₀ (fun _ => True) (prepareWorktreeDirs target metadata) :=
  .bind (checkPaths_within _) fun _ _ => createAll_within _

theorem createAll_made (h : Prepared target t₀ t) {dirs : List Bytes}
    (hrun : runExcept FileTree.exec (createAll target dirs) t = (.ok (), t')) {dir : Bytes}
    (hdir : dir ∈ dirs) :
    ∀ first, first ≠ [] → first <+: plainNames dir → t'.node (target ++ first) = some .dir := by
  induction dirs generalizing t with
  | nil => cases hdir
  | cons head rest ih =>
      obtain ⟨_, t₁, hhead, hrest⟩ := runExcept_bind_ok hrun
      have h₁ := (h.run (safeCreateDirAll_within fun _ _ _ => trivial) hhead).1
      rcases List.mem_cons.mp hdir with rfl | hlater
      · intro first hne hfirst
        exact (h₁.run (createAll_within rest) hrest).2 _ (safeCreateDirAll_made h hhead first hne hfirst)
      · exact ih h₁ hrest hlater

/-- A set has a path with the components of each one. -/
theorem exists_mem_pathSet {paths : List Bytes} {path : Bytes} (h : path ∈ paths) :
    ∃ kept ∈ pathSet paths, components kept = components path := by
  have hkeeps : ∀ (paths kept : List Bytes), (∃ old ∈ kept, components old = components path) →
      ∃ last ∈ paths.foldl (fun kept path => Table.insertNew components path kept) kept,
        components last = components path := by
    intro paths
    induction paths with
    | nil => exact fun _ => id
    | cons first rest ih =>
        rintro kept ⟨old, hold, heq⟩
        exact ih _ ⟨old, Table.subset_insertNew _ _ hold, heq⟩
  unfold pathSet
  obtain ⟨before, after, rfl⟩ := List.append_of_mem h
  rw [List.foldl_append, List.foldl_cons]
  exact hkeeps after _ (Table.exists_mem_insertNew components path _)

theorem mem_of_mem_pathSet {paths : List Bytes} {path : Bytes} (h : path ∈ pathSet paths) :
    path ∈ paths := by
  have hfrom : ∀ (paths kept : List Bytes),
      path ∈ paths.foldl (fun kept path => Table.insertNew components path kept) kept →
        path ∈ kept ∨ path ∈ paths := by
    intro paths
    induction paths with
    | nil => exact fun _ => .inl
    | cons first rest ih =>
        intro kept hmem
        rcases ih _ hmem with hkept | hrest
        · rcases Table.mem_insertNew hkept with hold | ⟨rfl, -⟩
          · exact .inl hold
          · exact .inr List.mem_cons_self
        · exact .inr (List.mem_cons_of_mem _ hrest)
  exact (hfrom paths [] h).resolve_left List.not_mem_nil

/-- Every directory on the way to a file is there. -/
theorem prepareWorktreeDirs_made (hvalid : metadata.Valid) (h : Prepared target t₀ t)
    (hrun : runExcept FileTree.exec (prepareWorktreeDirs target metadata) t = (.ok (), t'))
    {entry : FileEntry} (hentry : entry ∈ metadata.files) :
    ∀ first, first ≠ [] → first <+: (plainNames entry.path).dropLast →
      t'.node (target ++ first) = some .dir := by
  obtain ⟨_, t₁, hchecked, hcreated⟩ := runExcept_bind_ok hrun
  have h₁ := (h.run (checkPaths_within _) hchecked).1
  obtain ⟨parent, hparent, hnames⟩ := parentPath_of_valid (hvalid.files entry hentry).path
  intro first hne hfirst
  rw [← hnames] at hfirst
  have hparent_ne : parent ≠ [] := by
    rintro rfl
    exact hne (List.prefix_nil.mp hfirst)
  have hmem : parent ∈ metadata.files.filterMap (fun entry =>
      (parentPath entry.path).filter fun parent => parent ≠ []) ++ metadata.gitlinks := by
    refine List.mem_append_left _ (List.mem_filterMap.mpr ⟨entry, hentry, ?_⟩)
    simp [hparent, hparent_ne]
  obtain ⟨dir, hdir, hcomponents⟩ := exists_mem_pathSet hmem
  refine createAll_made h₁ hcreated ((List.mem_insertionSort _).mpr hdir) first hne ?_
  rwa [plainNames_eq, hcomponents, ← plainNames_eq]

end Prepare

/-! ## Every interleaving -/

/-- A directory with nothing in it, before anything was created. -/
structure EmptyTarget (target : Place) (t₀ : FileTree) : Prop where
  dir : t₀.node target = some .dir
  empty : ∀ place, Under target place → t₀.node place = none
  fresh : t₀.effects = []

/-- Every write is of a file of the table. -/
def WritesOf (metadata : MetadataChunk) (workers : List (List (List OwnedFileWrite))) : Prop :=
  ∀ batches ∈ workers, ∀ batch ∈ batches, ∀ write ∈ batch,
    ∃ entry ∈ metadata.files, write.entry.path = entry.path

/-- Directories on the way to a file of the table. -/
def OnTheWay (metadata : MetadataChunk) (names : List Name) : Prop :=
  names ≠ [] ∧ ∃ entry ∈ metadata.files, names <+: (plainNames entry.path).dropLast

/-- Names that go through nothing but directories on the way to a file. -/
def ThroughDirs (metadata : MetadataChunk) (names : List Name) : Prop :=
  ∀ first, first ≠ [] → first <+: names → first ≠ names → OnTheWay metadata first

/-- What holds while the workers write. -/
structure Writing (metadata : MetadataChunk) (target : Place) (t₀ t : FileTree) : Prop where
  confined : Confined target t₀ t
  dirs : ∀ names, OnTheWay metadata names → t.node (target ++ names) = some .dir

section Writing

variable {metadata : MetadataChunk} {target : Place} {t₀ t : FileTree} {options : WriteOptions}
  {workers : List (List (List OwnedFileWrite))}

theorem prepared_of_empty (h : EmptyTarget target t₀) : Prepared target t₀ t₀ where
  confined :=
    { outside := fun _ _ => rfl
      inodes := fun _ _ => id
      files := by
        intro place i hunder hfile
        rw [h.empty place hunder] at hfile
        cases hfile
      effects := by simp [h.fresh] }
  dirs := fun place hunder => .inl (h.empty place hunder)

/-- A proper prefix is a prefix of what is left without the last. -/
theorem prefix_dropLast {names first : List Name} (h : first <+: names) (hne : first ≠ names) :
    first <+: names.dropLast := by
  obtain ⟨rest, rfl⟩ := h
  rcases List.eq_nil_or_concat rest with rfl | ⟨init, last, rfl⟩
  · simp at hne
  · rw [List.concat_eq_append, ← List.append_assoc, List.dropLast_concat]
    exact List.prefix_append _ _

theorem usable_of_entry {entry : FileEntry} (hentry : entry ∈ metadata.files) :
    Usable (ThroughDirs metadata) entry.path := by
  intro names _ hnames first hne hfirst hproper
  refine ⟨hne, entry, hentry, prefix_dropLast (hfirst.trans hnames) ?_⟩
  rintro rfl
  exact hproper (hfirst.eq_of_length_le hnames.length_le)

theorem writeBatches_within {batches : List (List OwnedFileWrite)}
    (hwrites : ∀ batch ∈ batches, ∀ write ∈ batch,
      ∃ entry ∈ metadata.files, write.entry.path = entry.path) :
    (writeBatches target options batches).Within (Call.Stays target t₀ (ThroughDirs metadata))
      (Reply.Stays target t₀) fun _ => True := by
  induction batches with
  | nil => exact .pure trivial
  | cons batch rest ih =>
      have hbatch : StaysWithin target t₀ (ThroughDirs metadata)
          (writeOwnedEntries target batch options) := by
        refine stays_writeOwnedEntries options fun write hwrite => ?_
        obtain ⟨entry, hentry, hpath⟩ := hwrites batch List.mem_cons_self write hwrite
        exact hpath ▸ usable_of_entry hentry
      exact .bind hbatch fun _ _ => ih fun other hmem => hwrites other (List.mem_cons_of_mem _ hmem)

/-- The workers' calls keep the directories they go through. -/
theorem Writing.exec {c : Call} (hc : c.Stays target t₀ (ThroughDirs metadata))
    (h : Writing metadata target t₀ t) :
    Reply.Stays target t₀ c (FileTree.exec c t).1 ∧
      Writing metadata target t₀ (FileTree.exec c t).2 := by
  have hlinks : ∀ names, ThroughDirs metadata names → NoLinks t.node target names := by
    intro names hnames first hne hfirst hproper link hlink
    rw [h.dirs first (hnames first hne hfirst hproper)] at hlink
    cases hlink
  obtain ⟨hreply, hafter, hkept⟩ := h.confined.exec hc hlinks
  exact ⟨hreply, hafter, fun names hnames => hkept _ (h.dirs names hnames)⟩

/-- Whatever an accepted table names and in whatever order its files are written, an extraction into
an empty directory creates and writes only below it, and goes through no symlink for it. -/
theorem extraction_confined (hvalid : metadata.validateGeometry = .ok ())
    (hempty : EmptyTarget target t₀) (hworkers : WritesOf metadata workers)
    (h : Extracting metadata target options workers t₀ t) : Confined target t₀ t := by
  have hstart := prepared_of_empty hempty
  cases h with
  | prepared hprepared => exact (hstart.run prepareWorktreeDirs_within hprepared).1.confined
  | @writing t₁ order s hprepared hrun =>
      have hafter := (hstart.run prepareWorktreeDirs_within hprepared).1
      have hwriting : Writing metadata target t₀ t₁ := by
        refine ⟨hafter.confined, ?_⟩
        rintro names ⟨hne, entry, hentry, hnames⟩
        exact prepareWorktreeDirs_made (validateGeometry_ok.mp hvalid) hstart hprepared hentry names
          hne hnames
      have hinv : Writing metadata target t₀ s.state := by
        have hexec : ∀ c t, c.Stays target t₀ (ThroughDirs metadata) →
            Writing metadata target t₀ t → Reply.Stays target t₀ c (FileTree.exec c t).1 ∧
              Writing metadata target t₀ (FileTree.exec c t).2 := fun _ _ => Writing.exec
        refine Threads.invariant hexec hrun hwriting ?_
        intro p hp
        obtain ⟨batches, hbatches, rfl⟩ := List.mem_map.mp hp
        exact writeBatches_within (hworkers batches hbatches)
      exact hinv.confined

end Writing

/-- A symlink `l` and a file `d/l`. -/
def linkedTable : MetadataChunk where
  frames := []
  files := [⟨[0x6c], 0o120000, List.replicate 20 0, []⟩,
    ⟨[0x64, 0x2f, 0x6c], 0o100644, List.replicate 20 0, []⟩]
  gitlinks := []

/-- One empty directory `t` in the root. -/
def emptyTree : FileTree where
  node := fun place => if place = [] ∨ place = [[0x74]] then some .dir else none
  inodes := []
  effects := []
  faults := []

/-- One worker writes a symlink to `..`, another one the file. -/
def linkedWorkers : List (List (List OwnedFileWrite)) :=
  linkedTable.files.map fun entry => [[⟨entry, .owned parentDir⟩]]

theorem linked_table_confined : ∃ t,
    Extracting linkedTable [[0x74]] archiveWriteOptions linkedWorkers emptyTree t ∧
      t.node [[0x74], [0x6c]] = some (.symlink parentDir) ∧
      t.node [[0x74], [0x64], [0x6c]] = some (.file 0) ∧
      ∀ effect ∈ t.effects, Under [[0x74]] effect.place ∧ effect.followed = [] := by
  let prepared := runExcept FileTree.exec (prepareWorktreeDirs [[0x74]] linkedTable) emptyTree
  have hprepared : prepared = (.ok (), prepared.2) := by
    refine Prod.ext ?_ rfl
    decide
  let start : Threads Call Reply FileTree :=
    ⟨prepared.2, linkedWorkers.map (writeBatches [[0x74]] archiveWriteOptions)⟩
  let order := [0, 0, 1, 0, 1, 0, 1, 0, 1, 1, 1]
  have hnodes : (order.foldlM (Threads.step FileTree.exec) start).map (fun s =>
      (s.state.node [[0x74], [0x6c]], s.state.node [[0x74], [0x64], [0x6c]])) =
      some (some (.symlink parentDir), some (.file 0)) := by decide
  obtain ⟨s, hs, hnodes⟩ := Option.map_eq_some_iff.mp hnodes
  obtain ⟨hlink, hfile⟩ := Prod.mk.inj hnodes
  have hextracting : Extracting linkedTable [[0x74]] archiveWriteOptions linkedWorkers emptyTree
      s.state := .writing hprepared (Run.of_foldlM hs)
  have hconfined := extraction_confined (by decide)
    ⟨by decide, fun place hunder => ?_, rfl⟩ ?_ hextracting
  · exact ⟨s.state, hextracting, hlink, hfile, hconfined.effects⟩
  · obtain ⟨⟨rest, rfl⟩, hne⟩ := hunder
    have hrest : rest ≠ [] := fun hnil => hne (by simp [hnil])
    simp [emptyTree, hrest]
  · unfold WritesOf
    decide

end Ripclone
