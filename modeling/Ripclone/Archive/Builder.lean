import Ripclone.Archive.Plan

/-!
# Building archives

An archive is built cold, from the whole worktree; incrementally, from the changed bytes and the
frames of a base; or as a tail on a base, whose frames it keeps where they are.
-/

namespace Ripclone.Archive

open Ripclone.Library

structure ArchiveBuilder where
  mirror : Mirror
  cdc : CdcBounds

def ArchiveBuilder.new (mirror : Mirror) : ArchiveBuilder := ⟨mirror, Archive.cdc⟩

structure ArchiveBuildOutput where
  /-- Every download bundle, in frame order. -/
  downloadBundleHashes : List String
  /-- Bundles this build wrote. -/
  newBundleHashes : List String
  metadata : MetadataChunk
  archiveFrames : List ArchiveFrame
  /-- Whether the build read only the changed bytes. -/
  incremental : Bool
  /-- Whether the build is a tail on its base. -/
  tail : Bool
  deriving DecidableEq, Repr

namespace ArchiveBuilder

section Building

variable (builder : ArchiveBuilder) (tools : Tools) (cas : Cas)

/-! ## The whole worktree -/

/-- The pieces that read every file. -/
def filePieces (layout : Layout) : List Piece :=
  (layout.blobs.zip layout.sizes).map fun (blob, size) => ⟨blob.oid, size, 0, size⟩

/-- The worktree cut by content: each frame's start and end, and the frames in order. A worktree of
only empty files gets one empty frame. -/
def streamFrames (layout : Layout) (base : Option BaseIndex) :
    Except String (List (Nat × Nat) × List BuiltFrame) := do
  let data ← readPieces builder.mirror (filePieces layout)
  let chunks ← tools.streamCdc builder.cdc data.flatten
  let bounds := chunks.map fun (start, raw) => (start, start + raw.length)
  let frames ← chunks.mapM fun (_, raw) => buildFrame tools base raw
  let streamed := (bounds.getLast?.map Prod.snd).getD 0
  if streamed ≠ layout.total then
    throw s!"archive stream has {streamed} bytes, expected {layout.total}"
  else if bounds.isEmpty && !layout.blobs.isEmpty then do
    let frame ← buildFrame tools base []
    return ([(0, 0)], [frame])
  else return (bounds, frames)

/-- Hand frames to the bundler, in order. -/
def pushAll (base : Option BaseIndex) (bundler : Bundler) (frames : List BuiltFrame) :
    Except String Bundler :=
  frames.foldlM (fun bundler frame => bundler.push tools cas base frame) bundler

/-! ## The changed bytes -/

/-- The pieces of files that make up a gap. The first file that may have bytes of it is the last one
that starts at or before it. -/
def gapPieces (layout : Layout) (gap : Nat × Nat) : List Piece :=
  let idx := (layout.starts.takeWhile fun start => decide (start ≤ gap.1)).length - 1
  let near := (layout.entries.drop idx).takeWhile fun (_, start, _) => decide (start < gap.2)
  near.filterMap fun (blob, start, size) =>
    if 0 < size ∧ gap.1 < start + size then
      some ⟨blob.oid, size, max gap.1 start - start, min gap.2 (start + size) - start⟩
    else none

/-- A frame cut from a gap, with its start and end in the stream. -/
structure CutFrame where
  start : Nat
  stop : Nat
  frame : BuiltFrame

/-- Read a gap of the new stream and cut it into frames. -/
def cutGap (layout : Layout) (base : BaseIndex) (gap : Nat × Nat) :
    Except String (List CutFrame) := do
  let parts ← readPieces builder.mirror (gapPieces layout gap)
  let buffer := parts.flatten
  if buffer.length ≠ gapLen gap then
    throw s!"archive gap {gap.1}..{gap.2} read {buffer.length} bytes"
  else
    (tools.fastCdc builder.cdc buffer).mapM fun (offset, len) => do
      let frame ← buildFrame tools (some base) (slice buffer offset (offset + len))
      return ⟨gap.1 + offset, gap.1 + offset + len, frame⟩

def cutGaps (layout : Layout) (base : BaseIndex) (gaps : List (Nat × Nat)) :
    Except String (List CutFrame) := do
  let cuts ← gaps.mapM (cutGap builder tools layout base)
  return cuts.flatten

/-- Gaps in batches of up to `maxGapBytes`, at least one in each. `batch` is the open batch and
`batchBytes` what its gaps have together. -/
def gapBatches (batch : List (Nat × Nat)) (batchBytes : Nat) :
    List (Nat × Nat) → List (List (Nat × Nat))
  | [] => if batch.isEmpty then [] else [batch]
  | gap :: rest =>
    if batch.isEmpty || decide (batchBytes + gapLen gap ≤ maxGapBytes) then
      gapBatches (batch ++ [gap]) (batchBytes + gapLen gap) rest
    else batch :: gapBatches [gap] (gapLen gap) rest

/-- An incremental build under way: the kept frames still to come, and the frames so far. -/
structure GapState where
  kept : List KeptFrame
  bounds : List (Nat × Nat)
  bundler : Bundler

/-- A kept frame, ready for a bundle. -/
def keptFrame (base : BaseIndex) (kept : KeptFrame) : Except String BuiltFrame :=
  match base.frames[kept.frame]? with
  | none => throw "index out of bounds"
  | some frame => return ⟨frame.rawHash, frame.rawLen, frame.chunkHash, frame.compressedLen, none,
      some kept.frame⟩

/-- Hand over the kept frames that start before `stop`. -/
def emitKept (base : BaseIndex) (stop : Nat) :
    List KeptFrame → List (Nat × Nat) → Bundler → Except String GapState
  | [], bounds, bundler => return ⟨[], bounds, bundler⟩
  | kept :: rest, bounds, bundler =>
    if kept.start < stop then do
      let frame ← keptFrame base kept
      let bundler ← bundler.push tools cas (some base) frame
      emitKept base stop rest (bounds ++ [(kept.start, kept.stop)]) bundler
    else return ⟨kept :: rest, bounds, bundler⟩

/-- Hand over a frame cut from a gap, after the kept frames before it. -/
def emitCut (base : BaseIndex) (state : GapState) (cut : CutFrame) : Except String GapState := do
  let state ← emitKept tools cas base cut.start state.kept state.bounds state.bundler
  let bundler ← state.bundler.push tools cas (some base) cut.frame
  return { state with bounds := state.bounds ++ [(cut.start, cut.stop)], bundler }

def emitBatches (layout : Layout) (base : BaseIndex) :
    List (List (Nat × Nat)) → GapState → Except String GapState
  | [], state => return state
  | batch :: rest, state => do
    let cuts ← cutGaps builder tools layout base batch
    let state ← cuts.foldlM (emitCut tools cas base) state
    emitBatches layout base rest state

/-- Whether the frames tile the new stream exactly. -/
def tiled (total : Nat) (bounds : List (Nat × Nat)) : Bool :=
  decide (bounds.head?.map Prod.fst = some 0) && decide (bounds.getLast?.map Prod.snd = some total) &&
    (bounds.zip bounds.tail).all fun pair => decide (pair.1.2 = pair.2.1)

/-- All frames of an incremental build, kept and new, handed over in stream order. -/
def emitAll (layout : Layout) (plan : Plan) (base : BaseIndex) (bundler : Bundler) :
    Except String GapState := do
  let state ← emitBatches builder tools cas layout base (gapBatches [] 0 plan.gaps)
    ⟨plan.reused, [], bundler⟩
  emitKept tools cas base (2 ^ 64 - 1) state.kept state.bounds state.bundler

/-- Read and cut the plan's gaps, and hand every frame over. Returns the frame bounds. -/
def buildGaps (layout : Layout) (plan : Plan) (base : BaseIndex) (bundler : Bundler) :
    Except String (List (Nat × Nat) × Bundler) := do
  let state ← emitAll builder tools cas layout plan base bundler
  if tiled layout.total state.bounds then return (state.bounds, state.bundler)
  else throw "incremental archive frames do not tile the worktree"

/-! ## Archives -/

/-- The files of the table. A worktree without files has no frames to map them onto. -/
def tableOf (layout : Layout) (bounds : List (Nat × Nat)) : Except String MetadataChunk :=
  if layout.blobs.isEmpty then return ⟨[], [], layout.gitlinks⟩ else layout.filesTable bounds

/-- The output of a build whose frames are all handed over. -/
def finish (base : Option BaseIndex) (layout : Layout) (bounds : List (Nat × Nat))
    (bundler : Bundler) (incremental : Bool) : Except String ArchiveBuildOutput := do
  let bundler ← bundler.close tools cas base
  let table ← tableOf layout bounds
  return {
    downloadBundleHashes := bundler.bundles
    newBundleHashes := bundler.newBundles
    metadata := { table with frames := bundler.infos }
    archiveFrames := bundler.frames
    incremental
    tail := false }

/-- The whole worktree, streamed. -/
def buildStreamed (blobs : List Blob) (gitlinks : List Bytes) (base : Option BaseIndex)
    (bundleSize : Nat) : Except String ArchiveBuildOutput := do
  let sizes ← blobSizes builder.mirror (blobs.map Blob.oid)
  let layout ← Layout.new blobs gitlinks sizes
  let (bounds, frames) ← streamFrames builder tools layout base
  let bundler ← pushAll tools cas base (Bundler.new bundleSize) frames
  finish tools cas base layout bounds bundler false

/-- The plan's frames and gaps. -/
def buildIncremental (blobs : List Blob) (gitlinks : List Bytes) (base : BaseIndex) (plan : Plan)
    (sizes : List Nat) (bundleSize : Nat) : Except String ArchiveBuildOutput := do
  let layout ← Layout.new blobs gitlinks sizes
  let (bounds, bundler) ← buildGaps builder tools cas layout plan base (Bundler.new bundleSize)
  finish tools cas (some base) layout bounds bundler true

/-- The worktree on an indexed base, incrementally when there is a plan. -/
def buildOnBase (blobs : List Blob) (gitlinks : List Bytes) (index : BaseIndex)
    (bundleSize : Nat) : Except String ArchiveBuildOutput := do
  let planned ← planIncremental builder.mirror index builder.cdc blobs
  match planned with
  | some (plan, sizes) =>
    buildIncremental builder tools cas blobs gitlinks index plan sizes bundleSize
  | none => buildStreamed builder tools cas blobs gitlinks (some index) bundleSize

/-- Build the archive of `commit`. A base that cannot be indexed is not used. -/
def buildIntoCas (commit : String) (base : Option ArchiveBase) (bundleSize : Nat) :
    Except String ArchiveBuildOutput := do
  let (blobs, gitlinks) ← collectBlobs builder.mirror commit
  match base.bind fun base => (BaseIndex.new base).toOption with
  | none => buildStreamed builder tools cas blobs gitlinks none bundleSize
  | some index => buildOnBase builder tools cas blobs gitlinks index bundleSize

end Building

end ArchiveBuilder

end Ripclone.Archive
