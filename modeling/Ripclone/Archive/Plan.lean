import Mathlib.Data.List.DropRight
import Mathlib.Data.List.Sort
import Ripclone.Archive.Layout

/-!
# The plan of an incremental build

A base frame that lies wholly inside a run of unchanged files is kept, at the run's new place. The
ranges between the kept frames are the gaps, which are read and cut again. Kept frames around a short
gap are given up, so that new frames do not shrink build after build.
-/

namespace Ripclone.Archive

open Ripclone.Library

/-- Changed bytes an incremental build reads into memory at once. -/
def maxGapBytes : Nat := 128 * 1024 * 1024

/-- A run of unchanged files that are adjacent in the base stream and in the new one. -/
structure Segment where
  oldStart : Nat
  oldEnd : Nat
  newStart : Nat
  deriving DecidableEq, Repr

/-- A base frame to keep, at its place in the new stream. -/
structure KeptFrame where
  start : Nat
  stop : Nat
  /-- Its number in the base. -/
  frame : Nat
  deriving DecidableEq, Repr

structure Plan where
  reused : List KeptFrame
  gaps : List (Nat × Nat)
  deriving DecidableEq, Repr

section Planning

variable (mirror : Mirror) (base : BaseIndex)

/-- The blob's start and length in the base, when the base has it at the same path. -/
def unchanged (blob : Blob) : Option (Nat × Nat) :=
  (lastOf base.files blob.path).bind fun (id, start, len) =>
    if id = blob.oid then some (start, len) else none

/-- Each blob's old start and its size, with the sizes of the changed ones from `headers`. -/
def fillSizes : List Blob → List Nat → List (Option Nat × Nat)
  | [], _ => []
  | blob :: rest, headers =>
    match unchanged base blob with
    | some (start, len) => (some start, len) :: fillSizes rest headers
    | none => (none, headers.headD 0) :: fillSizes rest headers.tail

/-- An unchanged file keeps the base's size and start. Other files are sized from their headers. -/
def sizeFiles (blobs : List Blob) : Except String (List (Option Nat × Nat)) := do
  let unknown := blobs.filter fun blob => (unchanged base blob).isNone
  let headers ← blobSizes mirror (unknown.map Blob.oid)
  return fillSizes base blobs headers

/-- Add an unchanged file to the run before it, or start a new one. The last run is first. -/
def pushSegment (segments : List Segment) (old size newPos : Nat) : List Segment :=
  match segments with
  | [] => [⟨old, old + size, newPos⟩]
  | last :: rest =>
    if last.oldEnd = old ∧ last.newStart + (last.oldEnd - last.oldStart) = newPos then
      { last with oldEnd := last.oldEnd + size } :: rest
    else ⟨old, old + size, newPos⟩ :: last :: rest

/-- The runs of unchanged files, and the new stream's length. -/
def findSegments : List Segment → Nat → List (Option Nat × Nat) →
    Except String (List Segment × Nat)
  | segments, newPos, [] => return (segments.reverse, newPos)
  | segments, newPos, (old, size) :: rest => do
    let next ← checkedAdd newPos size "archive stream length overflow"
    match old with
    | some old => findSegments (pushSegment segments old size newPos) next rest
    | none => findSegments segments next rest

/-- Where the frame is in the new stream, when it lies wholly inside the segment. -/
def keepIn (segment : Segment) (fs fe k : Nat) : Option KeptFrame :=
  if segment.oldStart ≤ fs ∧ fe ≤ segment.oldEnd then
    some ⟨segment.newStart + (fs - segment.oldStart), segment.newStart + (fe - segment.oldStart), k⟩
  else none

/-- The base frames that lie wholly inside one segment. The segments come in the order of the base,
and so do the frames, so those a frame has passed are not looked at again. -/
def reuseFrames : List Segment → List ((Nat × Nat) × Nat) → List KeptFrame
  | _, [] => []
  | segments, ((fs, fe), k) :: rest =>
    if fe = fs then reuseFrames segments rest
    else
      let segments := segments.dropWhile fun segment => decide (segment.oldEnd ≤ fs)
      (segments.head?.bind fun segment => keepIn segment fs fe k).toList ++
        reuseFrames segments rest

/-- Each base frame with its number. -/
def BaseIndex.frameSpans : List ((Nat × Nat) × Nat) :=
  (base.starts.zip base.starts.tail).zipIdx

/-- Drop kept frames that would leave a gap shorter than a minimum frame after `pos`. -/
def keepFrames (min : Nat) : Nat → List KeptFrame → Option (List KeptFrame)
  | _, [] => some []
  | pos, frame :: rest =>
    if frame.start < pos then none
    else if 0 < frame.start - pos ∧ frame.start - pos < min then keepFrames min pos rest
    else (keepFrames min frame.stop rest).map (frame :: ·)

/-- Drop kept frames that would leave a short gap at the end. -/
def trimTail (min total : Nat) (kept : List KeptFrame) : List KeptFrame :=
  kept.rdropWhile fun frame => decide (total - frame.stop ≠ 0 ∧ total - frame.stop < min)

/-- The ranges between kept frames, from `pos` on. -/
def gapsFrom (total : Nat) : Nat → List KeptFrame → List (Nat × Nat)
  | pos, [] => if pos < total then [(pos, total)] else []
  | pos, frame :: rest =>
    (if pos < frame.start then [(pos, frame.start)] else []) ++ gapsFrom total frame.stop rest

def gapLen (gap : Nat × Nat) : Nat := gap.2 - gap.1

/-- The plan that keeps these frames, unless it would read too much. -/
def planOf (total : Nat) (kept : List KeptFrame) : Option Plan :=
  let gaps := gapsFrom total 0 kept
  if kept.isEmpty then none
  else if total / 2 < (gaps.map gapLen).sum ∨ gaps.any fun gap => decide (maxGapBytes < gapLen gap)
  then none
  else some ⟨kept, gaps⟩

/-- Plan an incremental build. `none` when the whole worktree should be streamed instead. -/
def planIncremental (bounds : CdcBounds) (blobs : List Blob) :
    Except String (Option (Plan × List Nat)) := do
  let files ← sizeFiles mirror base blobs
  let (segments, total) ← findSegments [] 0 files
  if total = 0 then return none
  else
    let byOld := segments.insertionSort fun a b => a.oldStart ≤ b.oldStart
    let reused := (reuseFrames byOld base.frameSpans).insertionSort fun a b => a.start ≤ b.start
    let plan := (keepFrames bounds.min 0 reused).bind fun kept =>
      planOf total (trimTail bounds.min total kept)
    return plan.map fun plan => (plan, files.map Prod.snd)

end Planning

end Ripclone.Archive
