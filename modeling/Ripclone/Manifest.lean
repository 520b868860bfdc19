import Mathlib.Data.List.Nodup
import Ripclone.Library.Result
import Ripclone.Results

/-!
# The files table

A metadata chunk is the table of a commit's worktree: its files with the pieces of archive frames
that make them up, the frames with their places in the download chunks, and the paths of submodules.
A reader validates a table before it uses an offset or a path of it.

A table may be stored as a delta on an older one. Entries of the base that the table keeps are not
in the delta; they name their frames through a map from the base's frames to the table's.
-/

namespace Ripclone

open Ripclone.Library

/-! ## Relative paths -/

inductive PathError where
  /-- "path is empty" -/
  | empty
  /-- "path is absolute: …" -/
  | absolute (path : Bytes)
  /-- "path contains parent-dir component: …" -/
  | parentDir (path : Bytes)
  /-- "path contains a .git component: …" -/
  | dotGit (path : Bytes)
  /-- "path contains invalid component: …" -/
  | invalidComponent (path : Bytes)
  /-- "path contains NUL byte: …" -/
  | nul (path : Bytes)
  deriving DecidableEq, Repr

/-- A component of a path that is not absolute. -/
inductive Component where
  | curDir
  | parentDir
  | normal (name : Bytes)
  deriving DecidableEq, Repr

def dot : UInt8 := 0x2e

def slash : UInt8 := 0x2f

/-- The part between two slashes; an empty one and `.` are none. -/
def component (part : Bytes) : Option Component :=
  if part = [] ∨ part = [dot] then none
  else if part = [dot, dot] then some .parentDir
  else some (.normal part)

/-- Only a path that begins with `.` has it as a component. -/
def components (path : Bytes) : List Component :=
  match path.splitOn slash with
  | [] => []
  | first :: rest => (if first = [dot] then [.curDir] else (component first).toList) ++
      rest.filterMap component

def lowerAscii (b : UInt8) : UInt8 := if 0x41 ≤ b ∧ b ≤ 0x5a then b + 32 else b

/-- `.git` -/
def dotGitName : Bytes := [0x2e, 0x67, 0x69, 0x74]

def checkComponent (path : Bytes) : Component → Except PathError Unit
  | .parentDir => throw (.parentDir path)
  | .normal name => if name.map lowerAscii = dotGitName then throw (.dotGit path) else return ()
  | .curDir => throw (.invalidComponent path)

def validateRelativePath (path : Bytes) : Except PathError Unit :=
  if path = [] then throw .empty
  else if path.head? = some slash then throw (.absolute path)
  else do
    (components path).forM (checkComponent path)
    if path.contains 0 then throw (.nul path) else return ()

/-! ## Tables -/

/-- A piece of a frame. -/
structure Fragment where
  frameIndex : Nat
  frameOffset : Nat
  rawLen : Nat
  deriving DecidableEq, Repr

/-- One zstd frame inside an archive chunk. -/
structure FrameInfo where
  chunkIndex : Nat
  /-- Byte offset within the chunk. -/
  chunkOffset : Nat
  compressedLen : Nat
  rawLen : Nat
  deriving DecidableEq, Repr

/-- One file of the worktree. -/
structure FileEntry where
  path : Bytes
  mode : Nat
  /-- The blob's git object id. -/
  blobSha1 : Bytes
  fragments : List Fragment
  deriving DecidableEq, Repr

structure MetadataChunk where
  frames : List FrameInfo
  files : List FileEntry
  /-- Paths of submodules. -/
  gitlinks : List Bytes
  deriving DecidableEq, Repr

/-! ## Geometry -/

inductive GeometryError where
  /-- "file … has illegal mode …" -/
  | illegalMode (path : Bytes) (mode : Nat)
  /-- "file … has empty path" -/
  | emptyPath (fileIdx : Nat)
  /-- "file … has unsafe path: …" -/
  | unsafePath (fileIdx : Nat) (path : Bytes) (error : PathError)
  /-- "duplicate file path: …" -/
  | duplicateFile (path : Bytes)
  /-- "file … has invalid blob_sha1 length: expected 20, got …" -/
  | blobLength (path : Bytes) (len : Nat)
  /-- "file … has no fragments" -/
  | noFragments (path : Bytes)
  /-- "file … fragment … references missing frame …" -/
  | missingFrame (path : Bytes) (fragIdx frameIndex : Nat)
  /-- "fragment bounds overflow" -/
  | boundsOverflow
  /-- "file … fragment … extends past frame …: …+… > …" -/
  | pastFrame (path : Bytes) (fragIdx : Nat) (fragment : Fragment) (rawLen : Nat)
  /-- "gitlink has empty path" -/
  | emptyGitlink
  /-- "unsafe gitlink path: …" -/
  | unsafeGitlink (path : Bytes) (error : PathError)
  /-- "duplicate path: …" -/
  | duplicatePath (path : Bytes)
  /-- "frame … compressed bounds overflow" -/
  | frameOverflow (frameIdx : Nat)
  /-- "first frame must start at archive chunk 0 offset 0, got chunk … offset …" -/
  | firstFrame (chunkIndex chunkOffset : Nat)
  /-- "frame … moves archive chunk index backwards from … to …" -/
  | backwards (frameIdx previous chunkIndex : Nat)
  /-- "frame … is not contiguous with archive chunk …: offset … != …" -/
  | notContiguous (frameIdx chunkIndex chunkOffset previousEnd : Nat)
  /-- "frame … starts a non-contiguous archive chunk: previous …, current … offset …" -/
  | chunkGap (frameIdx previous chunkIndex chunkOffset : Nat)
  deriving DecidableEq, Repr

/-- A file, an executable and a symlink. -/
def allowedModes : List Nat := [0o100644, 0o100755, 0o120000]

def checkFragment (frames : List FrameInfo) (path : Bytes) (fragIdx : Nat) (fragment : Fragment) :
    Except GeometryError Unit :=
  match frames[fragment.frameIndex]? with
  | none => throw (.missingFrame path fragIdx fragment.frameIndex)
  | some frame =>
    if 2 ^ 32 ≤ fragment.frameOffset + fragment.rawLen then throw .boundsOverflow
    else if frame.rawLen < fragment.frameOffset + fragment.rawLen then
      throw (.pastFrame path fragIdx fragment frame.rawLen)
    else return ()

def checkFragments (frames : List FrameInfo) (path : Bytes) :
    Nat → List Fragment → Except GeometryError Unit
  | _, [] => return ()
  | fragIdx, fragment :: rest => do
    checkFragment frames path fragIdx fragment
    checkFragments frames path (fragIdx + 1) rest

/-- `seen` are the paths of the entries before this one. A table without frames has no fragments
while its archive is built. -/
def checkFile (frames : List FrameInfo) (fileIdx : Nat) (seen : List Bytes) (entry : FileEntry) :
    Except GeometryError Unit :=
  if entry.mode ∉ allowedModes then throw (.illegalMode entry.path entry.mode)
  else if entry.path = [] then throw (.emptyPath fileIdx)
  else
    match validateRelativePath entry.path with
    | .error error => throw (.unsafePath fileIdx entry.path error)
    | .ok () =>
      if entry.path ∈ seen then throw (.duplicateFile entry.path)
      else if entry.blobSha1.length ≠ 20 then
        throw (.blobLength entry.path entry.blobSha1.length)
      else if entry.fragments = [] ∧ frames ≠ [] then throw (.noFragments entry.path)
      else checkFragments frames entry.path 0 entry.fragments

/-- Check the files and return every path seen. -/
def checkFiles (frames : List FrameInfo) :
    Nat → List Bytes → List FileEntry → Except GeometryError (List Bytes)
  | _, seen, [] => return seen
  | fileIdx, seen, entry :: rest => do
    checkFile frames fileIdx seen entry
    checkFiles frames (fileIdx + 1) (entry.path :: seen) rest

def checkGitlinks : List Bytes → List Bytes → Except GeometryError Unit
  | _, [] => return ()
  | seen, gitlink :: rest =>
    if gitlink = [] then throw .emptyGitlink
    else
      match validateRelativePath gitlink with
      | .error error => throw (.unsafeGitlink gitlink error)
      | .ok () =>
        if gitlink ∈ seen then throw (.duplicatePath gitlink)
        else checkGitlinks (gitlink :: seen) rest

/-- Where a frame has to be: right after the one before it, in its chunk or at the start of the next
one. `previous` is the chunk of the frame before and where that frame ended. -/
def checkFrame (frameIdx : Nat) (previous : Option (Nat × Nat)) (frame : FrameInfo) :
    Except GeometryError Unit :=
  match previous with
  | none =>
    if frame.chunkIndex ≠ 0 ∨ frame.chunkOffset ≠ 0 then
      throw (.firstFrame frame.chunkIndex frame.chunkOffset)
    else return ()
  | some (chunk, chunkEnd) =>
    if frame.chunkIndex < chunk then throw (.backwards frameIdx chunk frame.chunkIndex)
    else if frame.chunkIndex = chunk then
      if frame.chunkOffset ≠ chunkEnd then
        throw (.notContiguous frameIdx frame.chunkIndex frame.chunkOffset chunkEnd)
      else return ()
    else if frame.chunkIndex ≠ min (chunk + 1) (2 ^ 32 - 1) ∨ frame.chunkOffset ≠ 0 then
      throw (.chunkGap frameIdx chunk frame.chunkIndex frame.chunkOffset)
    else return ()

def checkFrames : Nat → Option (Nat × Nat) → List FrameInfo → Except GeometryError Unit
  | _, _, [] => return ()
  | frameIdx, previous, frame :: rest =>
    if 2 ^ 64 ≤ frame.chunkOffset + frame.compressedLen then throw (.frameOverflow frameIdx)
    else do
      checkFrame frameIdx previous frame
      checkFrames (frameIdx + 1)
        (some (frame.chunkIndex, frame.chunkOffset + frame.compressedLen)) rest

def MetadataChunk.validateGeometry (table : MetadataChunk) : Except GeometryError Unit := do
  let seen ← checkFiles table.frames 0 [] table.files
  checkGitlinks seen table.gitlinks
  checkFrames 0 none table.frames

/-! ## Deltas -/

/-- A table as the changes from a base. -/
structure MetadataDelta where
  /-- The table's frames, all of them. -/
  frames : List FrameInfo
  /-- For each frame of the base, its index in `frames` plus one, or 0 when the table drops it. -/
  baseFrames : List Nat
  /-- Entries the base lacks or holds otherwise. -/
  files : List FileEntry
  /-- Paths of the base the table lacks. -/
  removed : List Bytes
  gitlinks : List Bytes
  deriving DecidableEq, Repr

inductive DeltaError where
  /-- "frame names missing bundle …" -/
  | missingBundle (chunkIndex : Nat)
  /-- "too many frames" -/
  | tooManyFrames
  /-- "frame map names a missing frame" -/
  | missingSlot
  /-- "frame map has … frames, the base …" and "delta maps … base frames, the base has …" -/
  | mapLength (mapped frames : Nat)
  /-- "base fragment names a missing frame" -/
  | missingFrame
  /-- "… keeps a frame the delta drops" -/
  | droppedFrame (path : Bytes)
  /-- "delta removes a path its base lacks" -/
  | removedMissing
  | geometry (error : GeometryError)
  deriving DecidableEq, Repr

def bundleOf (bundles : List String) (frame : FrameInfo) : Except DeltaError String :=
  match bundles[frame.chunkIndex]? with
  | some bundle => return bundle
  | none => throw (.missingBundle frame.chunkIndex)

/-- The slots of the frames from `index` on, by bundle and offset. -/
def frameSlots (bundles : List String) :
    Nat → List FrameInfo → Except DeltaError (List ((String × Nat) × Nat))
  | _, [] => return []
  | index, frame :: rest =>
    if 2 ^ 32 ≤ index + 1 then throw .tooManyFrames
    else do
      let bundle ← bundleOf bundles frame
      let slots ← frameSlots bundles (index + 1) rest
      return ((bundle, frame.chunkOffset), index + 1) :: slots

/-- Where each frame of one table is in another: its index in `to` plus one, or 0 when `to` lacks
it. Frames are the same at the same offset of the same bundle; a later slot of a place counts. -/
def frameMap (frames : List FrameInfo) (bundles : List String) (toFrames : List FrameInfo)
    (toBundles : List String) : Except DeltaError (List Nat) := do
  let slots ← frameSlots toBundles 0 toFrames
  frames.mapM fun frame => do
    let bundle ← bundleOf bundles frame
    return (slots.reverse.lookup (bundle, frame.chunkOffset)).getD 0

/-- The frame map of `first` then `second`. -/
def composeFrameMaps (first second : List Nat) : Except DeltaError (List Nat) :=
  first.mapM fun slot =>
    match slot with
    | 0 => return 0
    | slot + 1 =>
      match second[slot]? with
      | some slot => return slot
      | none => throw .missingSlot

/-- The entry of a path, as a map from paths built in order has it: the last one. -/
def entryAt (files : List FileEntry) (path : Bytes) : Option FileEntry :=
  files.reverse.find? fun f => f.path = path

def keptFragment (baseFrames : List Nat) (old new : Fragment) : Bool :=
  decide (baseFrames[old.frameIndex]? = some ((new.frameIndex + 1) % 2 ^ 32) ∧
    old.frameOffset = new.frameOffset ∧ old.rawLen = new.rawLen)

/-- Whether the base holds the entry, on frames the table keeps. -/
def keptEntry (base : MetadataChunk) (baseFrames : List Nat) (entry : FileEntry) : Bool :=
  (entryAt base.files entry.path).any fun old =>
    decide (old.mode = entry.mode ∧ old.blobSha1 = entry.blobSha1 ∧
      old.fragments.length = entry.fragments.length) &&
    (old.fragments.zip entry.fragments).all fun pair => keptFragment baseFrames pair.1 pair.2

namespace MetadataDelta

/-- The changes from `base` to `table`. `baseFrames` is where each base frame is in `table`. -/
def between (base : MetadataChunk) (baseFrames : List Nat) (table : MetadataChunk) :
    Except DeltaError MetadataDelta :=
  if baseFrames.length ≠ base.frames.length then
    throw (.mapLength baseFrames.length base.frames.length)
  else return {
    frames := table.frames
    baseFrames := baseFrames
    files := table.files.filter fun f => !keptEntry base baseFrames f
    removed := (base.files.filter fun f => decide (f.path ∉ table.files.map FileEntry.path)).map
      FileEntry.path
    gitlinks := table.gitlinks }

def remapFragment (delta : MetadataDelta) (path : Bytes) (fragment : Fragment) :
    Except DeltaError Fragment :=
  match delta.baseFrames[fragment.frameIndex]? with
  | none => throw .missingFrame
  | some 0 => throw (.droppedFrame path)
  | some (slot + 1) => return { fragment with frameIndex := slot }

/-- What becomes of an entry of the base. -/
def applyEntry (delta : MetadataDelta) (entry : FileEntry) : Except DeltaError (Option FileEntry) :=
  if entry.path ∈ delta.removed then return none
  else
    match entryAt delta.files entry.path with
    | some new => return some new
    | none => do
      let fragments ← entry.fragments.mapM (delta.remapFragment entry.path)
      return some { entry with fragments }

/-- The paths of base entries the delta has another entry for. -/
def placed (delta : MetadataDelta) (base : MetadataChunk) : List Bytes :=
  (base.files.filter fun f => decide (f.path ∉ delta.removed) &&
    (entryAt delta.files f.path).isSome).map FileEntry.path

def validated (table : MetadataChunk) : Except DeltaError MetadataChunk :=
  match table.validateGeometry with
  | .error error => throw (.geometry error)
  | .ok () => return table

/-- The table this delta makes of `base`, validated. -/
def apply (delta : MetadataDelta) (base : MetadataChunk) : Except DeltaError MetadataChunk :=
  if delta.baseFrames.length ≠ base.frames.length then
    throw (.mapLength delta.baseFrames.length base.frames.length)
  else do
    let entries ← base.files.mapM delta.applyEntry
    let removedSeen := (base.files.filter fun f => decide (f.path ∈ delta.removed)).length
    if removedSeen ≠ delta.removed.dedup.length then throw .removedMissing
    else
      let added := delta.files.filter fun f => decide (f.path ∉ delta.placed base)
      validated ⟨delta.frames, entries.reduceOption ++ added, delta.gitlinks⟩

end MetadataDelta

end Ripclone
