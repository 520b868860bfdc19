import Ripclone.Fsutil

/-!
# The worktree writer

Entries are written in batches: a batch's symlinks while it is prepared, its regular files after
that. Several threads write batches into one worktree at once.
-/

namespace Ripclone

open Ripclone.Library

structure WriteOptions where
  /-- Skip creating parent directories: the caller has created them all. -/
  parentsPrepared : Bool
  stampMtime : Bool
  /-- Skip looking for what is at the path already. -/
  freshTarget : Bool
  deriving DecidableEq, Repr

def freshIndexedCheckout : WriteOptions := ⟨true, false, true⟩

/-- The options of every archive write. -/
def archiveWriteOptions : WriteOptions := ⟨true, false, false⟩

structure FileSlice where
  data : Bytes
  offset : Nat
  len : Nat
  deriving DecidableEq, Repr

def FileSlice.bytes (slice : FileSlice) : Bytes := (slice.data.drop slice.offset).take slice.len

inductive FileWriteContent where
  | owned (content : Bytes)
  | shared (slice : FileSlice)
  | fragments (slices : List FileSlice)
  deriving DecidableEq, Repr

/-- What is written, one piece after the other. -/
def FileWriteContent.pieces : FileWriteContent → List Bytes
  | .owned content => [content]
  | .shared slice => [slice.bytes]
  | .fragments slices => slices.map FileSlice.bytes

def FileWriteContent.bytes (content : FileWriteContent) : Bytes := content.pieces.flatten

structure OwnedFileWrite where
  entry : FileEntry
  content : FileWriteContent
  deriving DecidableEq, Repr

structure PreparedRegularWrite where
  target : PathAt
  mode : Nat
  content : FileWriteContent
  deriving DecidableEq, Repr

/-! ## One entry -/

def removeFile (p : PathAt) : FileM (Except Errno Unit) := attempt (Call.unlink p)

/-- Fail with `error` if a call failed. -/
def orThrow (error : WriteError) : Except Errno Unit → FileM Unit
  | .ok () => return ()
  | .error _ => throw error

def writeAllTo (handle : Handle) : List Bytes → FileM Unit
  | [] => return ()
  | piece :: rest => do
    let written : Except Errno Unit ← attempt (Call.write handle piece)
    orThrow .writeContent written
    writeAllTo handle rest

def writeRegularContent (target : PathAt) (mode : Nat) (content : FileWriteContent) :
    FileM Unit := do
  if ← pathExists target then
    let _ ← removeFile target
  let opened : Except Errno Handle ← attempt (Call.openFile target mode)
  match opened with
  | .error _ => throw (.openFile target.path)
  | .ok handle => do
    writeAllTo handle content.pieces
    let stat : Except Errno Unit ← attempt (Call.fstat handle)
    orThrow (.statFile target.path) stat

/-- A broken symlink is there, though nothing exists at its path. -/
def existsOrSymlink (p : PathAt) : FileM Bool := do
  if ← pathExists p then return true else isSymlink p

def writeSymlinkEntry (target : PathAt) (content : Bytes) : FileM Unit := do
  if ← existsOrSymlink target then
    let _ ← removeFile target
  let linked : Except Errno Unit ← attempt (Call.symlink content target)
  orThrow (.symlink target.path) linked
  let stamped : Except Errno Unit ← attempt (Call.utimens target false)
  orThrow (.setTimes target.path) stamped

/-- Create what is above the path. -/
def createParent (targetDir : Place) (path : Bytes) : FileM Unit :=
  match parentPath path with
  | some parent => if parent = [] then return () else safeCreateDirAll targetDir parent
  | none => return ()

/-- Remove a symlink at the path. -/
def removeSymlink (target : PathAt) : FileM Unit := do
  if ← isSymlink target then
    let removed ← removeFile target
    orThrow (.removeSymlink target.path) removed

/-- A symlink is written here; what is left of a regular file is returned. -/
def prepareOwnedEntry (targetDir : Place) (options : WriteOptions) (write : OwnedFileWrite) :
    FileM (Option PreparedRegularWrite) := do
  validRelativePath write.entry.path
  if !options.parentsPrepared then createParent targetDir write.entry.path
  let target : PathAt := ⟨targetDir, write.entry.path⟩
  if !options.freshTarget then removeSymlink target
  if write.entry.mode = 0o120000 then
    writeSymlinkEntry target write.content.bytes
    return none
  else if write.entry.mode = 0o100755 ∨ write.entry.mode = 0o100644 then
    if !options.freshTarget then
      if ← pathExists target then
        let _ ← removeFile target
    let mode := if write.entry.mode = 0o100755 then 0o755 else 0o644
    return some ⟨target, mode, write.content⟩
  else throw (.illegalMode write.entry.path write.entry.mode)

/-! ## Batches -/

/-- How many entries there are, and the regular files among them. -/
def prepareOwnedEntries (targetDir : Place) (options : WriteOptions) :
    List OwnedFileWrite → FileM (Nat × List PreparedRegularWrite)
  | [] => return (0, [])
  | write :: rest => do
    let regular ← prepareOwnedEntry targetDir options write
    let (written, regulars) ← prepareOwnedEntries targetDir options rest
    return (written + 1, regular.toList ++ regulars)

def writeRegulars : List PreparedRegularWrite → FileM Unit
  | [] => return ()
  | write :: rest => do
    writeRegularContent write.target write.mode write.content
    writeRegulars rest

def stampRegulars : List PreparedRegularWrite → FileM Unit
  | [] => return ()
  | write :: rest => do
    let stamped : Except Errno Unit ← attempt (Call.utimens write.target true)
    orThrow (.setTimes write.target.path) stamped
    stampRegulars rest

def writeRegularBatch (writes : List PreparedRegularWrite) (options : WriteOptions) : FileM Unit := do
  writeRegulars writes
  if options.stampMtime then stampRegulars writes

/-- Write a batch and count its entries. -/
def writeOwnedEntries (targetDir : Place) (writes : List OwnedFileWrite) (options : WriteOptions) :
    FileM Nat := do
  let (written, regulars) ← prepareOwnedEntries targetDir options writes
  writeRegularBatch regulars options
  return written

/-! ## Where they write -/

/-- Every call of the program stays below `target`. -/
abbrev StaysWithin (target : Place) (t₀ : FileTree) (allowed : List Name → Prop) {α : Type}
    (x : FileM α) : Prop :=
  Within (Call.Stays target t₀ allowed) (Reply.Stays target t₀) (fun _ => True) x

section Stays

variable {target : Place} {t₀ : FileTree} {allowed : List Name → Prop} {p : PathAt}

theorem stays_of_makesDirs {α : Type} {x : FileM α} (h : MakesDirsWithin target t₀ allowed x) :
    StaysWithin target t₀ allowed x :=
  h.mono fun _ hc => hc.1

/-- A call on a path below the target. -/
theorem stays_attempt (c : Call) (hp : p.Stays target allowed) (hpath : c.path? = some p) :
    Within (Call.Stays target t₀ allowed) (Reply.Stays target t₀) (Reply.Stays target t₀ c)
      (attempt c : FileM (Reply c)) :=
  .attempt (.path hpath hp)

theorem stays_orThrow (error : WriteError) (result : Except Errno Unit) :
    StaysWithin target t₀ allowed (orThrow error result) := by
  cases result with
  | ok => exact .ret trivial
  | error => exact .throw _

theorem stays_isSymlink (hp : p.Stays target allowed) :
    StaysWithin target t₀ allowed (isSymlink p) :=
  stays_of_makesDirs (isSymlink_within hp)

theorem stays_pathExists (hp : p.Stays target allowed) :
    StaysWithin target t₀ allowed (pathExists p) :=
  .bind (stays_attempt (.stat p) hp rfl) fun _ _ => .ret trivial

theorem stays_existsOrSymlink (hp : p.Stays target allowed) :
    StaysWithin target t₀ allowed (existsOrSymlink p) := by
  refine .bind (stays_pathExists hp) fun found _ => ?_
  cases found with
  | true => exact .ret trivial
  | false => exact stays_isSymlink hp

/-- Remove what is there, whether or not that succeeds, and go on. -/
theorem stays_removeIf (hp : p.Stays target allowed) {β : Type} {S : β → Prop} {found : Bool}
    {rest : FileM β}
    (hrest : Within (Call.Stays target t₀ allowed) (Reply.Stays target t₀) S rest) :
    Within (Call.Stays target t₀ allowed) (Reply.Stays target t₀) S (do
      if found then
        let _ ← removeFile p
      rest) := by
  cases found with
  | true => exact .bind (stays_attempt (.unlink p) hp rfl) fun _ _ => hrest
  | false => exact hrest

theorem stays_writeAllTo {handle : Handle} (hinode : t₀.inodes.length ≤ handle.inode)
    (hunder : Under target handle.place) (pieces : List Bytes) :
    StaysWithin target t₀ allowed (writeAllTo handle pieces) := by
  induction pieces with
  | nil => exact .ret trivial
  | cons piece rest ih =>
      have hwrite : Within (Call.Stays target t₀ allowed) (Reply.Stays target t₀)
          (Reply.Stays target t₀ (.write handle piece))
          (attempt (Call.write handle piece) : FileM (Except Errno Unit)) :=
        .attempt (.write hinode hunder)
      exact .bind hwrite fun written _ => .bind (stays_orThrow _ written) fun _ _ => ih

theorem stays_writeRegularContent (hp : p.Stays target allowed) (mode : Nat)
    (content : FileWriteContent) :
    StaysWithin target t₀ allowed (writeRegularContent p mode content) := by
  refine .bind (stays_pathExists hp) fun found _ => stays_removeIf hp ?_
  refine .bind (stays_attempt (.openFile p mode) hp rfl) fun opened hopened => ?_
  cases opened with
  | error => exact .throw _
  | ok handle =>
      -- The handle's file is one that was opened below the target.
      obtain ⟨hinode, hunder⟩ := hopened handle rfl
      have hstat : Within (Call.Stays target t₀ allowed) (Reply.Stays target t₀)
          (Reply.Stays target t₀ (.fstat handle))
          (attempt (Call.fstat handle) : FileM (Except Errno Unit)) := .attempt .fstat
      exact .bind (stays_writeAllTo hinode hunder _) fun _ _ =>
        .bind hstat fun stat _ => stays_orThrow _ stat

theorem stays_writeSymlinkEntry (hp : p.Stays target allowed) (content : Bytes) :
    StaysWithin target t₀ allowed (writeSymlinkEntry p content) := by
  refine .bind (stays_existsOrSymlink hp) fun found _ => stays_removeIf hp ?_
  exact .bind (stays_attempt (.symlink content p) hp rfl) fun linked _ =>
    .bind (stays_orThrow _ linked) fun _ _ =>
    .bind (stays_attempt (.utimens p false) hp rfl) fun stamped _ => stays_orThrow _ stamped

theorem stays_when {β : Type} {S : β → Prop} {wanted : Bool} {first : FileM Unit}
    {rest : FileM β} (hfirst : StaysWithin target t₀ allowed first)
    (hrest : Within (Call.Stays target t₀ allowed) (Reply.Stays target t₀) S rest) :
    Within (Call.Stays target t₀ allowed) (Reply.Stays target t₀) S (do
      if wanted then first
      rest) := by
  cases wanted with
  | true => exact .bind hfirst fun _ _ => hrest
  | false => exact hrest

theorem stays_removeSymlink (hp : p.Stays target allowed) :
    StaysWithin target t₀ allowed (removeSymlink p) := by
  refine .bind (stays_isSymlink hp) fun found _ => ?_
  cases found with
  | true =>
      exact .bind (stays_attempt (.unlink p) hp rfl) fun removed _ => stays_orThrow _ removed
  | false => exact .ret trivial

/-- A path whose names may be used, with what is above it. -/
def Usable (allowed : List Name → Prop) (path : Bytes) : Prop :=
  ∀ first, first ≠ [] → first <+: plainNames path → allowed first

theorem stays_createParent {path : Bytes} (hpath : Usable allowed path)
    (hvalid : validateRelativePath path = .ok ()) :
    StaysWithin target t₀ allowed (createParent target path) := by
  obtain ⟨parent, hparent, hnames⟩ := parentPath_of_valid hvalid
  unfold createParent
  rw [hparent]
  dsimp only
  split
  · exact .ret trivial
  · refine stays_of_makesDirs (safeCreateDirAll_within fun first hne hfirst => ?_)
    exact hpath first hne (hfirst.trans (hnames ▸ List.dropLast_prefix _))

/-- What is left to write of an entry is below the target. -/
theorem stays_prepareOwnedEntry (options : WriteOptions) {write : OwnedFileWrite}
    (hpath : Usable allowed write.entry.path) :
    Within (Call.Stays target t₀ allowed) (Reply.Stays target t₀)
      (fun regular => ∀ prepared ∈ regular, prepared.target.Stays target allowed)
      (prepareOwnedEntry target options write) := by
  unfold prepareOwnedEntry validRelativePath
  cases hvalid : validateRelativePath write.entry.path with
  | error error => exact .throw _
  | ok =>
      obtain ⟨-, hup, hne⟩ := names_of_valid hvalid
      have hp : (⟨target, write.entry.path⟩ : PathAt).Stays target allowed :=
        ⟨rfl, hup, hne, hpath _ hne List.prefix_rfl⟩
      refine stays_when (stays_createParent hpath hvalid) (stays_when (stays_removeSymlink hp) ?_)
      split
      · exact .bind (stays_writeSymlinkEntry hp _) fun _ _ => .ret (by simp)
      · split
        · cases options.freshTarget with
          | true => exact .ret (by simpa using hp)
          | false =>
              refine .bind (stays_pathExists hp) fun found _ => stays_removeIf hp ?_
              exact .ret (by simpa using hp)
        · exact .throw _

theorem stays_prepareOwnedEntries (options : WriteOptions) {writes : List OwnedFileWrite}
    (hpaths : ∀ write ∈ writes, Usable allowed write.entry.path) :
    Within (Call.Stays target t₀ allowed) (Reply.Stays target t₀)
      (fun prepared => ∀ regular ∈ prepared.2, regular.target.Stays target allowed)
      (prepareOwnedEntries target options writes) := by
  induction writes with
  | nil => exact .ret (by simp)
  | cons write rest ih =>
      have hrest := ih fun other hmem => hpaths other (List.mem_cons_of_mem _ hmem)
      refine .bind (stays_prepareOwnedEntry options (hpaths write List.mem_cons_self))
        fun regular hregular => .bind hrest fun prepared hprepared => .ret ?_
      intro other hmem
      rcases List.mem_append.mp hmem with hfirst | hlater
      · exact hregular other (by simpa using hfirst)
      · exact hprepared other hlater

theorem stays_writeRegularBatch (options : WriteOptions) {writes : List PreparedRegularWrite}
    (hwrites : ∀ write ∈ writes, write.target.Stays target allowed) :
    StaysWithin target t₀ allowed (writeRegularBatch writes options) := by
  have hregulars : StaysWithin target t₀ allowed (writeRegulars writes) := by
    induction writes with
    | nil => exact .ret trivial
    | cons write rest ih =>
        exact .bind (stays_writeRegularContent (hwrites write List.mem_cons_self) _ _)
          fun _ _ => ih fun other hmem => hwrites other (List.mem_cons_of_mem _ hmem)
  have hstamps : StaysWithin target t₀ allowed (stampRegulars writes) := by
    clear hregulars
    induction writes with
    | nil => exact .ret trivial
    | cons write rest ih =>
        refine .bind (stays_attempt (.utimens write.target true)
          (hwrites write List.mem_cons_self) rfl) fun stamped _ => ?_
        exact .bind (stays_orThrow _ stamped)
          fun _ _ => ih fun other hmem => hwrites other (List.mem_cons_of_mem _ hmem)
  refine .bind hregulars fun _ _ => ?_
  split
  · exact hstamps
  · exact .ret trivial

/-- Whatever a batch has, it is written below the target. -/
theorem stays_writeOwnedEntries (options : WriteOptions) {writes : List OwnedFileWrite}
    (hpaths : ∀ write ∈ writes, Usable allowed write.entry.path) :
    StaysWithin target t₀ allowed (writeOwnedEntries target writes options) :=
  .bind (stays_prepareOwnedEntries options hpaths) fun _ hprepared =>
    .bind (stays_writeRegularBatch options hprepared) fun _ _ => .ret trivial

end Stays

end Ripclone
