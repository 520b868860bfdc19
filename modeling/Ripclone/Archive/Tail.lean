import Ripclone.Archive.Rebuild

/-!
# Tails

A tail keeps the frames of its base where they are: a file whose blob the base holds takes the base's
fragments, and the other blobs are streamed into new frames in new bundles after the base's. A bundle
of the base with no used frame is dropped, so bundles and frames get new numbers.

The order of the base's files plays no part: a file's fragments are found by its blob.
-/

namespace Ripclone.Archive

open Ripclone.Library

namespace ArchiveBuilder

/-- The number of a bundle or frame that is not in the new table. -/
def unused : Nat := 2 ^ 32 - 1

/-- The base's fragments of a blob. -/
def baseFragments (base : ArchiveBase) (oid : Bytes) : Option (List Fragment) :=
  lastOf ((base.metadata.files.filter fun file => !file.fragments.isEmpty).map fun file =>
    (file.blobSha1, file.fragments)) oid

/-- The blobs the base lacks, each once. -/
def tailBlobs (base : ArchiveBase) : List Bytes → List Blob → List Blob
  | _, [] => []
  | seen, blob :: rest =>
    if (baseFragments base blob.oid).isNone ∧ blob.oid ∉ seen then
      blob :: tailBlobs base (blob.oid :: seen) rest
    else tailBlobs base seen rest

/-- The bundle of a fragment of the base. -/
def fragmentBundle (base : ArchiveBase) (fragment : Fragment) : Except String Nat :=
  match base.metadata.frames[fragment.frameIndex]? with
  | none => throw "base fragment names a missing frame"
  | some info =>
    if info.chunkIndex < base.bundles.length then return info.chunkIndex
    else throw "base frame names a missing bundle"

/-- The live bundles from `k` on, and the new number of each bundle. `next` is the number of the next
live one. -/
def liveBundles (live : List Nat) : Nat → Nat → List String → Except String (List Nat × List String)
  | _, _, [] => return ([], [])
  | k, next, hash :: rest =>
    if k ∈ live then do
      let index ← toU32 next "too many bundles"
      let (indexes, bundles) ← liveBundles live (k + 1) (next + 1) rest
      return (index :: indexes, hash :: bundles)
    else do
      let (indexes, bundles) ← liveBundles live (k + 1) next rest
      return (unused :: indexes, bundles)

/-- Frames with their places. -/
structure PlacedFrames where
  infos : List FrameInfo
  frames : List ArchiveFrame

/-- Every frame of a live bundle, and the new number of each frame. -/
def liveFrames (bundleIndex : List Nat) :
    Nat → List (FrameInfo × ArchiveFrame) → Except String (List Nat × PlacedFrames)
  | _, [] => return ([], ⟨[], []⟩)
  | next, (info, frame) :: rest =>
    match bundleIndex[info.chunkIndex]? with
    | none => throw "index out of bounds"
    | some chunkIndex =>
      if chunkIndex = unused then do
        let (indexes, placed) ← liveFrames bundleIndex next rest
        return (unused :: indexes, placed)
      else do
        let index ← toU32 next "too many frames"
        let (indexes, placed) ← liveFrames bundleIndex (next + 1) rest
        return (index :: indexes, ⟨{ info with chunkIndex } :: placed.infos, frame :: placed.frames⟩)

/-- What a tail adds to the live frames. -/
structure TailFrames where
  /-- The fragments of each blob of the tail. -/
  fragments : List (Bytes × List Fragment)
  placed : PlacedFrames
  bundles : List String
  newBundles : List String

section Building

variable (builder : ArchiveBuilder) (tools : Tools) (cas : Cas)

/-- The blobs, streamed into frames that come after `frameBase` frames and `bundleBase` bundles. -/
def streamTail (blobs : List (Blob × Nat)) (frameCount bundleCount bundleSize : Nat) :
    Except String TailFrames := do
  let layout ← Layout.new (blobs.map Prod.fst) [] (blobs.map Prod.snd)
  let (bounds, frames) ← streamFrames builder tools layout none
  let bundler ← pushAll tools cas none (Bundler.new bundleSize) frames
  let bundler ← bundler.close tools cas none
  let frameBase ← toU32 frameCount "too many frames"
  let bundleBase ← toU32 bundleCount "too many bundles"
  let table ← layout.filesTable bounds
  return {
    fragments := (layout.blobs.zip table.files).map fun (blob, file) =>
      (blob.oid, file.fragments.map fun fragment =>
        { fragment with frameIndex := (fragment.frameIndex + frameBase) % 2 ^ 32 })
    placed := ⟨bundler.infos.map fun info =>
      { info with chunkIndex := (info.chunkIndex + bundleBase) % 2 ^ 32 }, bundler.frames⟩
    bundles := bundler.bundles
    newBundles := bundler.newBundles }

/-- The tail's frames and fragments. An empty blob needs no bytes: it points at frame 0, unless it
would be the only frame. -/
def tailFrames (blobs : List Blob) (frameCount bundleCount bundleSize : Nat) :
    Except String TailFrames := do
  let sizes ← blobSizes builder.mirror (blobs.map Blob.oid)
  let sized := blobs.zip sizes
  let apart := decide (frameCount ≠ 0) || sizes.any fun size => decide (0 < size)
  let empty := if apart then sized.filter fun blob => decide (blob.2 = 0) else []
  let full := if apart then sized.filter fun blob => decide (blob.2 ≠ 0) else sized
  let atStart := empty.map fun blob => (blob.1.oid, [⟨0, 0, 0⟩])
  if full.isEmpty then return ⟨atStart, ⟨[], []⟩, [], []⟩
  else do
    let tail ← streamTail builder tools cas full frameCount bundleCount bundleSize
    return { tail with fragments := atStart ++ tail.fragments }

/-- A fragment of the base, in the new table. -/
def moveFragment (frameIndex : List Nat) (fragment : Fragment) : Except String Fragment :=
  match frameIndex[fragment.frameIndex]? with
  | none => throw "index out of bounds"
  | some index => return { fragment with frameIndex := index }

/-- The fragments of a file: the base's of its blob, or the tail's. -/
def tailEntry (base : ArchiveBase) (frameIndex : List Nat) (tail : TailFrames) (blob : Blob) :
    Except String FileEntry := do
  match baseFragments base blob.oid with
  | some fragments => do
    let fragments ← fragments.mapM (moveFragment frameIndex)
    return ⟨blob.path, blob.mode, blob.oid, fragments⟩
  | none =>
    match lastOf tail.fragments blob.oid with
    | none => throw "tail blob has no fragments"
    | some fragments => return ⟨blob.path, blob.mode, blob.oid, fragments⟩

/-- Build the archive of `commit` as a tail on `base`. -/
def buildTailIntoCas (commit : String) (base : ArchiveBase) (bundleSize : Nat) :
    Except String ArchiveBuildOutput := do
  let (blobs, gitlinks) ← collectBlobs builder.mirror commit
  if base.metadata.frames.length ≠ base.frames.length then
    throw s!"base has {base.frames.length} frames but its metadata places {base.metadata.frames.length}"
  else do
    let kept := blobs.filterMap fun blob => baseFragments base blob.oid
    let live ← kept.flatten.mapM (fragmentBundle base)
    let (bundleIndex, bundles) ← liveBundles live 0 0 base.bundles
    let (frameIndex, placed) ←
      liveFrames bundleIndex 0 (base.metadata.frames.zip base.frames)
    let tail ← tailFrames builder tools cas (tailBlobs base [] blobs) placed.frames.length
      bundles.length bundleSize
    let files ← blobs.mapM (tailEntry base frameIndex tail)
    return {
      downloadBundleHashes := bundles ++ tail.bundles
      newBundleHashes := tail.newBundles
      metadata := ⟨placed.infos ++ tail.placed.infos, files, gitlinks⟩
      archiveFrames := placed.frames ++ tail.placed.frames
      incremental := true
      tail := true }

end Building

end ArchiveBuilder

end Ripclone.Archive
