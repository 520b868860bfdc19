import Ripclone.Archive.TailExact
import Ripclone.Server.Builder
import Ripclone.Server.Tables

/-!
# Files builds

The Files result of a commit: an archive of its worktree and the table that says where each file is
in it. A build is cold, a tail on the previous result, or, once the tails have grown, a compaction on
the previous result's compact archive. The base's table is read back from what an earlier build
stored for it.
-/

namespace Ripclone.Server

open Ripclone.Library Ripclone.Pack Ripclone.Archive

inductive FilesError where
  /-- A call of the build failed. -/
  | call (error : String)
  | geometry (error : GeometryError)
  /-- "archive chunk length overflow" -/
  | lengthOverflow
  /-- "archive chunk index … is not contiguous" -/
  | notContiguous (index : Nat)
  /-- "archive chunk hash/length mismatch: hashes=… lengths=…" -/
  | mismatch (hashes lengths : Nat)
  deriving DecidableEq, Repr

/-! ## Chunk references -/

/-- The chunk lengths, with one more frame. -/
def growChunk (lengths : List Nat) (frame : FrameInfo) : Except FilesError (List Nat) :=
  if 2 ^ 64 ≤ frame.chunkOffset + frame.compressedLen then throw .lengthOverflow
  else if lengths.length < frame.chunkIndex then throw (.notContiguous frame.chunkIndex)
  else
    let lengths := if frame.chunkIndex = lengths.length then lengths ++ [0] else lengths
    return lengths.modify frame.chunkIndex (max (frame.chunkOffset + frame.compressedLen))

/-- The compressed length of each archive chunk, from the frame table. -/
def archiveChunkLengths (table : MetadataChunk) : Except FilesError (List Nat) := do
  table.validateGeometry.mapError .geometry
  table.frames.foldlM growChunk []

def archiveChunkRefs (hashes : List String) (table : MetadataChunk) :
    Except FilesError (List ChunkRef) := do
  let lengths ← archiveChunkLengths table
  if lengths.length ≠ hashes.length then throw (.mismatch hashes.length lengths.length)
  else return (hashes.zip lengths).map fun (hash, len) => ⟨hash, len⟩

/-! ## Which base -/

/-- How much larger than its compact archive, in percent, an archive with tails may grow before the
next build compacts it. -/
def filesTailPercent : Nat := 25

/-- Tail bundles past which the next build compacts. -/
def maxFilesTails : Nat := 32

/-- Default compressed size of an archive download bundle. -/
def defaultArchiveChunkSize : Nat := 4 * 1024 * 1024

/-- The bytes a client downloads for the archive. -/
def filesBytes (files : FilesResult) : Nat :=
  (files.archiveFrames.map ArchiveFrame.compressedLen).sum % 2 ^ 64

/-- Whether a build may add a tail to `parent`, whose compact archive is `compact`. -/
def filesTailFits (parent compact : FilesResult) (percent : Nat) : Bool :=
  let tails := parent.archiveChunks.countP fun hash => decide (hash ∉ compact.archiveChunks)
  decide (filesBytes parent * 100 < filesBytes compact * (100 + percent)) &&
    decide (tails < maxFilesTails)

/-- The archive the next compaction starts from. -/
def compactOf (files : FilesResult) : FilesResult := files.compact.getD files

/-- Whether the build on `previous` is a tail. -/
def addsTail (previous : FilesResult) : Bool :=
  filesTailFits previous (compactOf previous) filesTailPercent

/-- The result the build on `previous` takes frames from. -/
def baseFiles (previous : FilesResult) : FilesResult :=
  if addsTail previous then previous else compactOf previous

/-- What a build is asked for, and the calls it makes. -/
structure FilesBuild where
  mirror : Mirror
  cas : Archive.Cas
  storage : Storage
  commit : String
  parent : Option String
  /-- A ready Files result of an ancestor. -/
  previous : Option FilesResult

namespace FilesBuild

section

variable (codec : Codec) (tools : Tools) (build : FilesBuild)

/-- The base archive, when its table loads. -/
def base : Option ArchiveBase := do
  let files := baseFiles (← build.previous)
  let metadata ← loadMetadata codec build.storage files.clonepack
  return ⟨files.archiveFrames, metadata, files.archiveChunks⟩

/-- The archive of the commit. A tail that cannot be built gives way to a cold build. -/
def archive : Except String ArchiveBuildOutput :=
  let builder := ArchiveBuilder.new build.mirror
  let intoCas (base : Option ArchiveBase) :=
    builder.buildIntoCas tools build.cas build.commit base defaultArchiveChunkSize
  match build.base codec with
  | none => intoCas none
  | some base =>
    if build.previous.any addsTail then
      match builder.buildTailIntoCas tools build.cas build.commit base defaultArchiveChunkSize with
      | .ok output => return output
      | .error _ => intoCas none
    else intoCas (some base)

/-- Store the archive's table and manifest. -/
def publish (output : ArchiveBuildOutput) : Except FilesError FilesResult := do
  let compact := if output.tail then build.previous.map compactOf else none
  let hashes := output.downloadBundleHashes
  let previous := build.previous.map fun files => (files.clonepack, files.archiveChunks)
  let table ← (storeTable codec build.storage output.metadata hashes previous).mapError .call
  let archiveChunks ← archiveChunkRefs hashes output.metadata
  let manifest := makeManifest build.commit build.parent archiveChunks table.chunkRef
    table.deltaRef [] none none
  let manifestHash ← (build.storage.putManifest manifest).mapError .call
  return {
    clonepack := {
      manifest := manifestHash
      metadataChunk := table.metadataChunk
      metadataDelta := table.metadataDelta
      midx := ""
      idxBundle := ""
      commit := build.commit }
    archiveChunks := hashes
    archiveFrames := output.archiveFrames
    compact }

end

end FilesBuild

/-- Build and publish the Files result. -/
def buildFilesResult (codec : Codec) (tools : Tools) (build : FilesBuild) :
    Except FilesError FilesResult := do
  let output ← (build.archive codec tools).mapError .call
  build.publish codec output

/-! ## Chains of builds -/

/-- A published result, with the table its build stored. -/
structure PublishedFiles where
  files : FilesResult
  table : MetadataChunk

/-- A build on nothing or on a published result adds a result, unless it fails. -/
inductive FilesStep (codec : Codec) (tools : Tools) :
    List PublishedFiles → FilesBuild → List PublishedFiles → Prop
  | built {s build output files} (hprevious : ∀ previous ∈ build.previous,
        ∃ published ∈ s, published.files = previous)
      (harchive : build.archive codec tools = .ok output)
      (hpublish : build.publish codec output = .ok files) :
      FilesStep codec tools s build (s ++ [⟨files, output.metadata⟩])
  | failed {s build error} (hfailed : buildFilesResult codec tools build = .error error) :
      FilesStep codec tools s build s

end Ripclone.Server
