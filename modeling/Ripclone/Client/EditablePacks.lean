import Mathlib.Algebra.BigOperators.Group.List.Basic
import Ripclone.Extract.Confinement
import Ripclone.Extract.PackBytes

/-!
# Installing an editable clone's packs

The packs are downloaded and parsed side by side, and each blob of the worktree is written as its pack
is parsed. What tells a clone that it has every file is a count: the writes of all packs are as many as
the table's files. A blob that is met twice is written and counted twice, so a repeated blob can stand in
for one that no pack has.
-/

namespace Ripclone.Client

open Ripclone.Library

/-- An entry of the manifest's packs, with the bytes its download gives. -/
structure EditablePack where
  historyOnly : Bool
  bytes : Bytes
  deriving DecidableEq, Repr

/-- What an install reads. -/
structure EditableInstall where
  packs : List EditablePack
  /-- Whether there is a pack directory, and whether it gets the history packs. -/
  packDir : Bool
  history : Bool
  table : MetadataChunk
  workTree : Place

inductive InstallError where
  /-- "clonepack has no packs for editable install" -/
  | noPacks
  /-- "manifest blob_sha1 for … is … bytes, expected 20" -/
  | blobSha1 (path : Bytes) (len : Nat)
  /-- "prepare worktree dirs" -/
  | prepare (error : WriteError)
  /-- A download or a write into the pack directory. -/
  | fetch (message : String)
  /-- "pack … too short (… bytes)" -/
  | tooShort (len : Nat)
  /-- "extract pack …" -/
  | extract (error : PackError)
  /-- "editable extraction wrote … files but manifest lists …" -/
  | underExtraction (written listed : Nat)
  deriving DecidableEq, Repr

/-- The packs that are downloaded: without a pack directory or the history, only the HEAD packs. -/
def EditableInstall.wanted (install : EditableInstall) : List EditablePack :=
  install.packs.filter fun pack => !pack.historyOnly || (install.packDir && install.history)

/-- A history pack goes to a file and is not parsed. -/
def EditableInstall.streamed (install : EditableInstall) (pack : EditablePack) : Bool :=
  pack.historyOnly && install.packDir

def EditableInstall.checks (install : EditableInstall) : Except InstallError Unit :=
  if install.packs = [] then throw .noPacks
  else install.table.files.forM fun entry =>
    if entry.blobSha1.length ≠ 20 then throw (.blobSha1 entry.path entry.blobSha1.length) else return ()

section Install

variable (inflate : Bytes → Option (Bytes × Nat)) (blobId : Bytes → Bytes) (install : EditableInstall)

/-- What is done with a pack once it is in the pack directory, if it is kept. -/
def installPack (pack : EditablePack) : ExceptT InstallError (Prog Call Reply) Nat :=
  if pack.bytes.length < 20 then throw (.tooShort pack.bytes.length)
  else if install.streamed pack then return 0
  else (extractBlobsFromPackBytes inflate blobId (buildBlobPathMap install.table.files)
    install.workTree pack.bytes).adapt .extract

/-- A pack's download and its task: the calls it makes in the worktree, and what it returns. -/
inductive PackTask (pack : EditablePack) : List FileEvent → Except InstallError Nat → Prop
  | failed (message : String) : PackTask pack [] (.error (.fetch message))
  | installed {events : List FileEvent} {result : Except InstallError Nat}
      (h : (installPack inflate blobId install pack).run.Runs events result) : PackTask pack events result

/-- The counts of the tasks, in the order in which these end. -/
def sumWritten (results : List (Except InstallError Nat)) : Except InstallError Nat :=
  results.foldlM (fun total result => do
    let files ← result
    return total + files) 0

/-- Every tracked path must have been materialized. -/
def filesGuard (files : List FileEntry) (written : Nat) : Except InstallError Nat :=
  if written ≠ files.length then throw (.underExtraction written files.length) else return written

/-- An install: the calls of each pack's task, and what the install returns. The tasks run at once in one
worktree, so the reply to a call may be any. -/
inductive Installs : List (List FileEvent) → Except InstallError Nat → Prop
  | refused {error : InstallError} (h : install.checks = .error error) : Installs [] (.error error)
  | unprepared {events : List FileEvent} {error : WriteError} (hchecks : install.checks = .ok ())
      (h : (prepareWorktreeDirs install.workTree install.table).run.Runs events (.error error)) :
      Installs [] (.error (.prepare error))
  | done {prepared : List FileEvent} {tasks : List (List FileEvent × Except InstallError Nat)}
      {ended : List (Except InstallError Nat)} (hchecks : install.checks = .ok ())
      (hprepared : RunsTo (prepareWorktreeDirs install.workTree install.table) prepared ())
      (htasks : List.Forall₂ (fun pack task => PackTask inflate blobId install pack task.1 task.2)
        install.wanted tasks)
      (hended : ended.Perm (tasks.map Prod.snd)) :
      Installs (tasks.map Prod.fst) (do
        let written ← sumWritten ended
        filesGuard install.table.files written)

/-! ## What it should mean -/

/-- Each file was written with the content of its blob. -/
def FilesWritten (runs : List (List FileEvent)) : Prop :=
  ∀ entry ∈ install.table.files, ∃ content, blobId content = entry.blobSha1 ∧
    ∃ events ∈ runs, Written ⟨install.workTree, entry.path⟩ entry.mode content events

/-- The blobs of a pack that the install writes. -/
def packBlobs (pack : EditablePack) : Except InstallError (List Bytes) :=
  if pack.bytes.length < 20 then throw (.tooShort pack.bytes.length)
  else if install.streamed pack then return []
  else do
    let objects ← (readPack inflate pack.bytes).mapError .extract
    return blobContents objects

/-- The blobs of all packs. -/
def allBlobs : Except InstallError (List Bytes) := do
  let blobs ← install.wanted.mapM (packBlobs inflate install)
  return blobs.flatten

/-- How often a file's blob is met. -/
def met (blobs : List Bytes) (entry : FileEntry) : Nat :=
  blobs.countP fun content => decide (blobId content = entry.blobSha1)

/-- An install that succeeds has written every file, and no file's blob was missing. -/
def Complete : Prop :=
  ∀ runs written, Installs inflate blobId install runs (.ok written) →
    FilesWritten blobId install runs ∧
      ∃ blobs, allBlobs inflate install = .ok blobs ∧
        ∀ entry ∈ install.table.files, met blobId blobs entry ≠ 0

/-- The files whose blob is in no pack. -/
def missing (blobs : List Bytes) : List FileEntry :=
  install.table.files.filter fun entry => decide (met blobId blobs entry = 0)

/-- The writes of a file beyond its first. -/
def surplus (blobs : List Bytes) : Nat :=
  (install.table.files.map fun entry => met blobId blobs entry - 1).sum

/-- Blobs that are met again make up for the ones that are missing. -/
def MadeUp : Prop :=
  ∃ blobs, allBlobs inflate install = .ok blobs ∧ missing blobId install blobs ≠ [] ∧
    surplus blobId install blobs = (missing blobId install blobs).length

/-! ## Counting -/

/-- The writes that some blobs cause. -/
def pathCount (files : List FileEntry) (blobs : List Bytes) : Nat :=
  (blobs.map fun content => (buildBlobPathMap files (blobId content)).length).sum

section Counts

variable {blobId install} {files : List FileEntry}

/-- A write for every file each time its blob is met. -/
theorem pathCount_eq (h : ∀ entry ∈ files, entry.blobSha1.length = 20) (blobs : List Bytes) :
    pathCount blobId files blobs = (files.map (met blobId blobs)).sum := by
  induction blobs with
  | nil =>
      have hnone : met blobId [] = fun _ => 0 := rfl
      simp [pathCount, hnone]
  | cons content rest ih =>
      have hmet : ∀ entry, met blobId (content :: rest) entry =
          (if entry.blobSha1 = blobId content then 1 else 0) + met blobId rest entry := by
        intro entry
        rw [met, List.countP_cons, Nat.add_comm, met]
        simp only [decide_eq_true_eq, eq_comm (a := blobId content)]
      have hsum : (files.map fun entry => if entry.blobSha1 = blobId content then 1 else 0).sum =
          (files.filter fun entry => decide (entry.blobSha1 = blobId content)).length := by
        rw [← List.countP_eq_length_filter]
        clear h ih
        induction files with
        | nil => rfl
        | cons entry later ihfiles =>
            rw [List.map_cons, List.sum_cons, ihfiles, List.countP_cons]
            simp only [decide_eq_true_eq]
            exact Nat.add_comm _ _
      rw [pathCount, List.map_cons, List.sum_cons, buildBlobPathMap_eq h, List.length_map, ← hsum]
      show _ + pathCount blobId files rest = _
      rw [ih, ← List.sum_map_add]
      exact congrArg List.sum (List.map_congr_left fun entry _ => (hmet entry).symm)

variable (blobId install) in
/-- The writes are as many as the files when the surplus makes up for what is missing. -/
theorem sum_met (blobs : List Bytes) :
    (install.table.files.map (met blobId blobs)).sum + (missing blobId install blobs).length =
      surplus blobId install blobs + install.table.files.length := by
  unfold missing surplus
  induction install.table.files with
  | nil => rfl
  | cons entry rest ih =>
      rw [List.map_cons, List.sum_cons, List.filter_cons, List.map_cons, List.sum_cons, List.length_cons]
      by_cases hnone : met blobId blobs entry = 0
      · rw [if_pos (by simpa using hnone), List.length_cons]
        omega
      · rw [if_neg (by simpa using hnone)]
        omega

def countOf : Except InstallError Nat → Nat
  | .ok files => files
  | .error _ => 0

/-- The order in which the tasks end does not matter to a sum. -/
theorem sumWritten_ok {results : List (Except InstallError Nat)} {written : Nat} :
    sumWritten results = .ok written ↔
      (∀ result ∈ results, ∃ files, result = .ok files) ∧ (results.map countOf).sum = written := by
  have hfold : ∀ (results : List (Except InstallError Nat)) (total : Nat),
      results.foldlM (fun total result => do
        let files ← result
        return total + files) total = .ok written ↔
      (∀ result ∈ results, ∃ files, result = .ok files) ∧
        total + (results.map countOf).sum = written := by
    intro results
    induction results with
    | nil => simp
    | cons result rest ih =>
        intro total
        cases result with
        | ok files =>
            rw [List.foldlM_cons]
            show rest.foldlM _ (total + files) = _ ↔ _
            rw [ih, List.forall_mem_cons, List.map_cons, List.sum_cons, ← Nat.add_assoc]
            simp [countOf]
        | error e =>
            constructor
            · intro h
              cases h
            · rintro ⟨hall, -⟩
              obtain ⟨files, h⟩ := hall _ List.mem_cons_self
              cases h
  rw [sumWritten, hfold, Nat.zero_add]

theorem sumWritten_perm {results ended : List (Except InstallError Nat)} {written : Nat}
    (h : ended.Perm results) : sumWritten ended = .ok written ↔ sumWritten results = .ok written := by
  rw [sumWritten_ok, sumWritten_ok, (h.map countOf).sum_eq]
  exact and_congr_left fun _ => ⟨fun hall result hmem => hall result (h.mem_iff.mpr hmem),
    fun hall result hmem => hall result (h.mem_iff.mp hmem)⟩

end Counts

/-! ## What an install has done -/

section Tasks

variable {inflate blobId install} {packs : List EditablePack}
  {tasks : List (List FileEvent × Except InstallError Nat)}

/-- Every path of these blobs was written in one of the runs. -/
def BlobsWritten (blobId : Bytes → Bytes) (install : EditableInstall) (blobs : List Bytes)
    (runs : List (List FileEvent)) : Prop :=
  ∀ content ∈ blobs, ∀ path ∈ buildBlobPathMap install.table.files (blobId content),
    ∃ events ∈ runs, Written ⟨install.workTree, path.1⟩ path.2 content events

theorem length_blobWrites (objects : List PackObject) :
    (blobWrites blobId (buildBlobPathMap install.table.files) objects).length =
      pathCount blobId install.table.files (blobContents objects) := by
  rw [blobWrites, List.length_flatMap, pathCount]
  simp only [List.length_map]

/-- A task that succeeds counts the writes of its pack's blobs, and has made them. -/
theorem PackTask.ok {pack : EditablePack} {events : List FileEvent} {written : Nat}
    (h : PackTask inflate blobId install pack events (.ok written)) :
    ∃ blobs, packBlobs inflate install pack = .ok blobs ∧
      written = pathCount blobId install.table.files blobs ∧
      BlobsWritten blobId install blobs [events] := by
  cases h with
  | installed h =>
      have hruns : RunsTo (installPack inflate blobId install pack) events written := h
      unfold installPack at hruns
      unfold packBlobs
      split at hruns
      · cases runsTo_throw.mp hruns
      · next hlen =>
          rw [if_neg hlen]
          split at hruns
          · next hstreamed =>
              obtain ⟨-, rfl⟩ := runsTo_pure.mp hruns
              rw [if_pos hstreamed]
              exact ⟨[], rfl, rfl, by simp [BlobsWritten]⟩
          · next hstreamed =>
              obtain ⟨objects, hread, rfl, hwritten⟩ := extractBlobs_written (runsTo_adapt.mp hruns)
              rw [if_neg hstreamed, hread]
              refine ⟨blobContents objects, rfl, length_blobWrites objects, ?_⟩
              intro content hcontent path hpath
              refine ⟨events, List.mem_singleton_self _, ?_⟩
              refine hwritten (pathWrite content path) ?_ content rfl
              exact List.mem_flatMap.mpr ⟨content, hcontent, List.mem_map_of_mem hpath⟩

/-- The tasks of all packs, when none fails. -/
theorem tasks_ok {written : Nat}
    (h : List.Forall₂ (fun pack task => PackTask inflate blobId install pack task.1 task.2) packs tasks)
    (hsum : sumWritten (tasks.map Prod.snd) = .ok written) :
    ∃ blobs, packs.mapM (packBlobs inflate install) = .ok blobs ∧
      written = pathCount blobId install.table.files blobs.flatten ∧
      BlobsWritten blobId install blobs.flatten (tasks.map Prod.fst) := by
  induction h generalizing written with
  | nil =>
      refine ⟨[], rfl, (sumWritten_ok.mp hsum).2.symm, by simp [BlobsWritten]⟩
  | @cons pack task packs tasks hfirst _ ih =>
      obtain ⟨hall, rfl⟩ := sumWritten_ok.mp hsum
      obtain ⟨⟨files, hfiles⟩, hrest⟩ := List.forall_mem_cons.mp hall
      obtain ⟨blobs, hblobs, rfl, hwritten⟩ := PackTask.ok (hfiles ▸ hfirst)
      obtain ⟨later, hlater, hcount, hwrittenLater⟩ := ih (sumWritten_ok.mpr ⟨hrest, rfl⟩)
      refine ⟨blobs :: later, ?_, ?_, ?_⟩
      · rw [List.mapM_cons, hblobs, hlater]
        rfl
      · rw [List.map_cons, List.map_cons, List.sum_cons, hcount, hfiles, List.flatten_cons]
        simp [pathCount, countOf]
      · intro content hcontent path hpath
        rw [List.flatten_cons] at hcontent
        rcases List.mem_append.mp hcontent with hnow | hlater
        · obtain ⟨events, hevents, hdone⟩ := hwritten content hnow path hpath
          obtain rfl := List.mem_singleton.mp hevents
          exact ⟨task.1, List.mem_cons_self, hdone⟩
        · obtain ⟨events, hevents, hdone⟩ := hwrittenLater content hlater path hpath
          exact ⟨events, List.mem_cons_of_mem _ hevents, hdone⟩

theorem filesGuard_ok {files : List FileEntry} {written result : Nat} :
    filesGuard files written = .ok result ↔ written = files.length ∧ written = result := by
  rw [filesGuard, ite_throw_eq_ok, not_not, pure_eq_ok]

/-- An install that succeeds wrote every path of every blob, and as many as there are files. -/
theorem Installs.ok {runs : List (List FileEvent)} {written : Nat}
    (h : Installs inflate blobId install runs (.ok written)) :
    ∃ blobs, allBlobs inflate install = .ok blobs ∧
      pathCount blobId install.table.files blobs = install.table.files.length ∧
      BlobsWritten blobId install blobs runs := by
  generalize hresult : (Except.ok written : Except InstallError Nat) = result at h
  cases h with
  | refused => cases hresult
  | unprepared => cases hresult
  | done _ _ htasks hended =>
      obtain ⟨total, hsum, hguard⟩ := bind_eq_ok.mp hresult.symm
      obtain ⟨hlen, -⟩ := filesGuard_ok.mp hguard
      obtain ⟨blobs, hblobs, hcount, hwritten⟩ := tasks_ok htasks ((sumWritten_perm hended).mp hsum)
      refine ⟨blobs.flatten, ?_, hcount.symm.trans hlen, hwritten⟩
      rw [allBlobs, hblobs]
      rfl

end Tasks

/-! ## When nothing goes wrong -/

section CanReturn

variable {inflate blobId install} {table : MetadataChunk}

theorem canReturn_createDirs (root : Place) (current : List Bytes) (components : List Component) :
    CanReturn (createDirs root current components) () := by
  induction components generalizing current with
  | nil => exact .pure ()
  | cons component rest ih =>
      cases component with
      | normal name =>
          refine .bind (a := ()) (.bind (canReturn_isSymlink _) ?_) (ih _)
          exact .call (R := Reply) (Call.mkdir ⟨root, joinNames (current ++ [name])⟩)
            (.ok () : Except Errno Unit) (.pure ())
      | curDir => exact ih _
      | parentDir => exact ih _

theorem canReturn_validRelativePath {path : Bytes} (h : validateRelativePath path = .ok ()) :
    CanReturn (validRelativePath path) () := by
  rw [validRelativePath, h]
  exact .pure ()

/-- The directories of an accepted table can be made. -/
theorem canReturn_prepareWorktreeDirs (hvalid : table.Valid) (workTree : Place) :
    CanReturn (prepareWorktreeDirs workTree table) () := by
  have hchecked (paths : List Bytes) (hpaths : ∀ path ∈ paths, validateRelativePath path = .ok ()) :
      CanReturn (checkPaths paths) () := by
    induction paths with
    | nil => exact .pure ()
    | cons path rest ih =>
        obtain ⟨hpath, hrest⟩ := List.forall_mem_cons.mp hpaths
        exact .bind (canReturn_validRelativePath hpath) (ih hrest)
  have hcreated (dirs : List Bytes) (hdirs : ∀ dir ∈ dirs, validateRelativePath dir = .ok ()) :
      CanReturn (createAll workTree dirs) () := by
    induction dirs with
    | nil => exact .pure ()
    | cons dir rest ih =>
        obtain ⟨hdir, hrest⟩ := List.forall_mem_cons.mp hdirs
        refine .bind (a := ()) (.bind (canReturn_validRelativePath hdir) ?_) (ih hrest)
        exact canReturn_createDirs _ _ _
  refine .bind (hchecked _ ?_) (hcreated _ ?_)
  · intro path hpath
    rcases List.mem_append.mp hpath with hfile | hlink
    · obtain ⟨entry, hentry, rfl⟩ := List.mem_map.mp hfile
      exact (hvalid.files entry hentry).path
    · exact (hvalid.gitlinks path hlink).2
  · intro dir hdir
    rcases List.mem_append.mp (mem_of_mem_pathSet ((List.mem_insertionSort _).mp hdir)) with hfile | hlink
    · obtain ⟨entry, hentry, hparent⟩ := List.mem_filterMap.mp hfile
      obtain ⟨hparent, hne⟩ := Option.filter_eq_some_iff.mp hparent
      exact valid_parentPath (hvalid.files entry hentry).path hparent (by simpa using hne)
    · exact (hvalid.gitlinks dir hlink).2

variable (blobId) in
theorem canReturn_installPack (hvalid : install.table.Valid) {pack : EditablePack} {blobs : List Bytes}
    (h : packBlobs inflate install pack = .ok blobs) :
    CanReturn (installPack inflate blobId install pack)
      (pathCount blobId install.table.files blobs) := by
  unfold packBlobs at h
  unfold installPack
  split at h
  · cases h
  · next hlen =>
      rw [if_neg hlen]
      split at h
      · next hstreamed =>
          obtain rfl := pure_eq_ok.mp h
          rw [if_pos hstreamed]
          exact .pure 0
      · next hstreamed =>
          obtain ⟨objects, hread, h⟩ := bind_eq_ok.mp h
          obtain rfl := pure_eq_ok.mp h
          rw [if_neg hstreamed, ← length_blobWrites]
          have hallowed : WritesAllowed
              (blobWrites blobId (buildBlobPathMap install.table.files) objects) := by
            intro write hwrite
            obtain ⟨content, -, hpaths⟩ := List.mem_flatMap.mp hwrite
            obtain ⟨path, hpath, rfl⟩ := List.mem_map.mp hpaths
            rw [buildBlobPathMap_eq fun entry hentry => (hvalid.files entry hentry).blob] at hpath
            obtain ⟨entry, hentry, rfl⟩ := List.mem_map.mp hpath
            have hfile := hvalid.files entry (List.mem_filter.mp hentry).1
            exact ⟨hfile.path, hfile.mode⟩
          obtain ⟨events, hevents⟩ := canReturn_extractBlobs install.workTree
            (mapError_eq_ok.mp hread) hallowed
          exact ⟨events, runsTo_adapt.mpr hevents⟩

variable (blobId) in
/-- When every pack can be read, an install can get as far as its guard. -/
theorem exists_installs (hvalid : install.table.Valid) (hne : install.packs ≠ []) {blobs : List Bytes}
    (hblobs : allBlobs inflate install = .ok blobs) :
    ∃ runs, Installs inflate blobId install runs
      (filesGuard install.table.files (pathCount blobId install.table.files blobs)) := by
  have hchecks : install.checks = .ok () := by
    rw [EditableInstall.checks, if_neg hne, forM_eq_ok]
    intro entry hentry
    rw [if_neg (not_not.mpr (hvalid.files entry hentry).blob)]
    rfl
  have htasks : ∀ (packs : List EditablePack) (blobs : List (List Bytes)),
      packs.mapM (packBlobs inflate install) = .ok blobs → ∃ tasks,
        List.Forall₂ (fun pack task => PackTask inflate blobId install pack task.1 task.2) packs tasks ∧
          sumWritten (tasks.map Prod.snd) =
            .ok (pathCount blobId install.table.files blobs.flatten) := by
    intro packs
    induction packs with
    | nil =>
        intro blobs h
        rw [List.mapM_nil] at h
        obtain rfl := pure_eq_ok.mp h
        exact ⟨[], .nil, rfl⟩
    | cons pack packs ih =>
        intro blobs h
        rw [List.mapM_cons] at h
        obtain ⟨first, hfirst, h⟩ := bind_eq_ok.mp h
        obtain ⟨later, hlater, h⟩ := bind_eq_ok.mp h
        obtain rfl := pure_eq_ok.mp h
        obtain ⟨tasks, htasks, hsum⟩ := ih later hlater
        obtain ⟨events, hevents⟩ := canReturn_installPack blobId hvalid hfirst
        obtain ⟨hall, htotal⟩ := sumWritten_ok.mp hsum
        refine ⟨(events, .ok _) :: tasks, .cons (.installed hevents) htasks, sumWritten_ok.mpr ⟨?_, ?_⟩⟩
        · exact List.forall_mem_cons.mpr ⟨⟨_, rfl⟩, hall⟩
        · rw [List.map_cons, List.map_cons, List.sum_cons, htotal, List.flatten_cons]
          simp [pathCount, countOf]
  obtain ⟨perPack, hperPack, hflat⟩ := bind_eq_ok.mp hblobs
  obtain rfl := pure_eq_ok.mp hflat
  obtain ⟨tasks, htasks, hsum⟩ := htasks _ _ hperPack
  obtain ⟨prepared, hprepared⟩ := canReturn_prepareWorktreeDirs hvalid install.workTree
  refine ⟨tasks.map Prod.fst, ?_⟩
  have hdone := Installs.done hchecks hprepared htasks (List.Perm.refl _)
  rw [hsum] at hdone
  exact hdone

end CanReturn

/-- Of an accepted table, an install that succeeds has written every file, unless blobs that are met
again make up exactly for the ones that no pack has. -/
theorem editable_install_complete (hvalid : install.table.validateGeometry = .ok ()) :
    Complete inflate blobId install ↔ ¬ MadeUp inflate blobId install := by
  have hvalid := validateGeometry_ok.mp hvalid
  have hlen : ∀ entry ∈ install.table.files, entry.blobSha1.length = 20 := fun entry hentry =>
    (hvalid.files entry hentry).blob
  constructor
  · rintro hcomplete ⟨blobs, hblobs, hmissing, hmade⟩
    have hne : install.packs ≠ [] := by
      intro hnil
      -- without a pack everything is missing and nothing makes up for it
      rw [allBlobs, EditableInstall.wanted, hnil] at hblobs
      obtain rfl : [] = blobs := Except.ok.inj hblobs
      have hnone : surplus blobId install [] = 0 := by
        have hzero : (fun entry => met blobId [] entry - 1) = fun _ => 0 := rfl
        simp [surplus, hzero]
      exact hmissing (List.length_eq_zero_iff.mp (hmade.symm.trans hnone))
    have hcount : pathCount blobId install.table.files blobs = install.table.files.length := by
      have hsum := sum_met blobId install blobs
      rw [pathCount_eq hlen]
      omega
    obtain ⟨runs, hruns⟩ := exists_installs blobId hvalid hne hblobs
    rw [filesGuard_ok.mpr ⟨hcount, hcount⟩] at hruns
    obtain ⟨-, blobs', hblobs', hmet⟩ := hcomplete runs _ hruns
    obtain rfl := Except.ok.inj (hblobs.symm.trans hblobs')
    apply hmissing
    rw [missing, List.filter_eq_nil_iff]
    intro entry hentry
    rw [decide_eq_true_eq]
    exact hmet entry hentry
  · intro hnot runs written h
    obtain ⟨blobs, hblobs, hcount, hwritten⟩ := h.ok
    have hmet : ∀ entry ∈ install.table.files, met blobId blobs entry ≠ 0 := by
      intro entry hentry hzero
      refine hnot ⟨blobs, hblobs, ?_, ?_⟩
      · exact List.ne_nil_of_mem (List.mem_filter.mpr ⟨hentry, decide_eq_true hzero⟩)
      · have hsum := sum_met blobId install blobs
        rw [pathCount_eq hlen] at hcount
        omega
    refine ⟨fun entry hentry => ?_, blobs, hblobs, hmet⟩
    obtain ⟨content, hcontent, hid⟩ := List.countP_pos_iff.mp (Nat.pos_of_ne_zero (hmet entry hentry))
    have hid := of_decide_eq_true hid
    refine ⟨content, hid, hwritten content hcontent (entry.path, entry.mode) ?_⟩
    rw [buildBlobPathMap_eq hlen]
    exact List.mem_map.mpr ⟨entry, List.mem_filter.mpr ⟨hentry, decide_eq_true hid.symm⟩, rfl⟩

end Install

/-! ## Two files -/

def contentA : Bytes := [0x61]

def contentB : Bytes := [0x62]

def blobA : Bytes :=
  [0x2e, 0x65, 0xef, 0xe2, 0xa1, 0x45, 0xdd, 0xa7, 0xee, 0x51, 0xd1, 0x74, 0x12, 0x99, 0xf8, 0x48,
   0xe5, 0xbf, 0x75, 0x2e]

def blobB : Bytes :=
  [0x63, 0xd8, 0xdb, 0xd4, 0x0c, 0x23, 0x54, 0x2e, 0x74, 0x06, 0x59, 0xa7, 0x16, 0x8a, 0x0c, 0xe3,
   0x13, 0x8e, 0xa7, 0x48]

/-- The ids of the two contents. -/
def twoBlobIds (content : Bytes) : Bytes :=
  if content = contentA then blobA else if content = contentB then blobB else []

/-- The files `a` and `b`. -/
def twoFiles : MetadataChunk where
  frames := [⟨0, 0, 2, 2⟩]
  files := [⟨[0x61], 0o100644, blobA, [⟨0, 0, 1⟩]⟩, ⟨[0x62], 0o100644, blobB, [⟨0, 1, 1⟩]⟩]
  gitlinks := []

/-- The content of `a` as an object of a pack. -/
def objectA : Bytes := [0x31, 0x78, 0x01, 0x01, 0x01, 0x00, 0xfe, 0xff, 0x61, 0x00, 0x62, 0x00, 0x62]

def objectB : Bytes := [0x31, 0x78, 0x01, 0x01, 0x01, 0x00, 0xfe, 0xff, 0x62, 0x00, 0x63, 0x00, 0x63]

def packOfTwo : Bytes := packMagic ++ [0, 0, 0, 2, 0, 0, 0, 2]

/-- A pack that has the content of `a` twice. -/
def repeatedPack : Bytes := packOfTwo ++ objectA ++ objectA ++
  [0x55, 0xdf, 0x3c, 0x18, 0x55, 0xb1, 0x4f, 0xc3, 0x16, 0x05, 0x10, 0x8b, 0x09, 0xf7, 0x6e, 0x7f,
   0xf9, 0x35, 0xf2, 0x2a]

def plainPack : Bytes := packOfTwo ++ objectA ++ objectB ++
  [0x1a, 0xb0, 0x0f, 0x37, 0xc9, 0x24, 0xd3, 0xa8, 0xb4, 0x54, 0xa9, 0xdc, 0xc4, 0xb4, 0x33, 0xf0,
   0xd6, 0xfc, 0x7d, 0xb2]

/-- An install of one HEAD pack into the directory `t`. -/
def installOf (pack : Bytes) : EditableInstall where
  packs := [⟨false, pack⟩]
  packDir := true
  history := false
  table := twoFiles
  workTree := [[0x74]]

/-- The directory `t` as an install's tasks find it. -/
def twoFilesTree : Except WriteError Unit × FileTree :=
  runExcept FileTree.exec (prepareWorktreeDirs [[0x74]] twoFiles) emptyTree

def repeatedTask : ExceptT InstallError (Prog Call Reply) Nat :=
  installPack inflateStored twoBlobIds (installOf repeatedPack) ⟨false, repeatedPack⟩

/-- The blob of `b` is in no pack and `a` is written twice: the install succeeds without `b`. -/
theorem repeated_blob_accepted :
    twoFiles.validateGeometry = .ok () ∧
    ¬ Complete inflateStored twoBlobIds (installOf repeatedPack) ∧
    (∃ runs, Installs inflateStored twoBlobIds (installOf repeatedPack) runs (.ok 2) ∧
      ¬ FilesWritten twoBlobIds (installOf repeatedPack) runs) ∧
    (runExcept FileTree.exec repeatedTask twoFilesTree.2).1 = .ok 2 ∧
    (runExcept FileTree.exec repeatedTask twoFilesTree.2).2.node [[0x74], [0x62]] = none := by
  have hprepare : twoFilesTree.1 = .ok () := by decide
  have htask : (runExcept FileTree.exec repeatedTask twoFilesTree.2).1 = .ok 2 := by decide
  have htasks : List.Forall₂ (fun pack task => PackTask inflateStored twoBlobIds
      (installOf repeatedPack) pack task.1 task.2) (installOf repeatedPack).wanted
      [(repeatedTask.run.trace FileTree.exec twoFilesTree.2, .ok 2)] :=
    .cons (.installed (runsTo_of_runExcept htask)) .nil
  -- nothing opens `b`
  have hopened : ∀ event ∈ repeatedTask.run.trace FileTree.exec twoFilesTree.2,
      event.1 ≠ .openFile ⟨[[0x74]], [0x62]⟩ 0o644 := by decide
  have hprepared : RunsTo (prepareWorktreeDirs (installOf repeatedPack).workTree
      (installOf repeatedPack).table) _ () := runsTo_of_runExcept hprepare
  have hruns := Installs.done (by decide) hprepared htasks (.refl _)
  suffices hnot : ¬ FilesWritten twoBlobIds (installOf repeatedPack) _ from
    ⟨by decide, fun hcomplete => hnot (hcomplete _ _ hruns).1, ⟨_, hruns, hnot⟩, htask, by decide⟩
  intro hwritten
  obtain ⟨content, -, events, hevents, hwrite⟩ := hwritten _ (List.mem_cons_of_mem _ List.mem_cons_self)
  obtain rfl := List.mem_singleton.mp hevents
  obtain ⟨handle, before, after, hsplit⟩ := hwrite
  refine hopened ⟨.openFile ⟨[[0x74]], [0x62]⟩ 0o644, (.ok handle : Except Errno Handle)⟩ ?_ rfl
  dsimp only at hsplit
  rw [← hsplit]
  exact List.mem_append_left _ (List.mem_append_right _ List.mem_cons_self)

theorem plain_install_complete : Complete inflateStored twoBlobIds (installOf plainPack) := by
  refine (editable_install_complete _ _ _ (by decide)).mpr ?_
  rintro ⟨blobs, hblobs, hmissing, -⟩
  have hall : allBlobs inflateStored (installOf plainPack) = .ok [contentA, contentB] := by
    decide
  obtain rfl := Except.ok.inj (hall.symm.trans hblobs)
  exact hmissing (by decide)

end Ripclone.Client
