import Ripclone.Archive.Frames

/-!
# The worktree's layout

The worktree's stream is the content of its files, one after the other in the order of the tree. The
frames cut it up by content, so a file is a run of fragments of frames.
-/

namespace Ripclone.Archive

open Ripclone.Library

/-- A blob in tree order: raw path, object id, git mode. -/
structure Blob where
  path : Bytes
  oid : Bytes
  mode : Nat
  deriving DecidableEq, Repr

/-- The calls on a repository's mirror. -/
structure Mirror where
  /-- The entries of a commit's tree and of the trees below it, in git pre-order. -/
  walk (commit : String) : Except String (List Blob)
  /-- A blob's size, from its object header. -/
  blobSize (oid : Bytes) : Except String Nat
  findBlob (oid : Bytes) : Except String Bytes

/-- The bits of a mode that say what kind of entry it is. -/
def entryKind (mode : Nat) : Nat := mode &&& 0o170000

/-- The blobs of a commit's tree, and the paths of its submodules. Trees are recursed into. -/
def collectBlobs (mirror : Mirror) (commit : String) : Except String (List Blob × List Bytes) := do
  let records ← mirror.walk commit
  return (records.filter fun entry => entryKind entry.mode ∉ [0o160000, 0o040000],
    (records.filter fun entry => entryKind entry.mode = 0o160000).map Blob.path)

def blobSizes (mirror : Mirror) (oids : List Bytes) : Except String (List Nat) :=
  oids.mapM mirror.blobSize

/-- The bytes of one blob to read: the whole blob, or a range of it. -/
structure Piece where
  oid : Bytes
  size : Nat
  lo : Nat
  hi : Nat

def readPiece (mirror : Mirror) (piece : Piece) : Except String Bytes := do
  let data ← mirror.findBlob piece.oid
  if data.length ≠ piece.size then
    throw s!"blob {piece.oid} has {data.length} bytes, expected {piece.size}"
  else return slice data piece.lo piece.hi

/-- Each blob must have the size the caller planned with. -/
def readPieces (mirror : Mirror) (pieces : List Piece) : Except String (List Bytes) :=
  pieces.mapM (readPiece mirror)

/-! ## Fragments -/

def toU32 (n : Nat) (error : String) : Except String Nat :=
  if n < 2 ^ 32 then return n else throw error

/-- The fragments of `[start, stop)` over the frames from `k` on. -/
def overlaps (start stop : Nat) : Nat → List (Nat × Nat) → Except String (List Fragment)
  | _, [] => return []
  | k, (frs, fre) :: rest =>
    if frs < stop then
      if max start frs < min stop fre then do
        let frameIndex ← toU32 k "archive has too many frames"
        let frameOffset ← toU32 (max start frs - frs) "file fragment frame offset is too large"
        let rawLen ← toU32 (min stop fre - max start frs) "file fragment length is too large"
        let more ← overlaps start stop (k + 1) rest
        return ⟨frameIndex, frameOffset, rawLen⟩ :: more
      else overlaps start stop (k + 1) rest
    else return []

/-- How many of the frames at the front end at or before `start`. -/
def countPast (start : Nat) (bounds : List (Nat × Nat)) : Nat :=
  (bounds.takeWhile fun frame => decide (frame.2 ≤ start)).length

/-- The frame an empty file points at: the one that contains its place, or the last. -/
def emptyFrame (bounds : List (Nat × Nat)) (start hint : Nat) : Nat :=
  let idx := min hint (bounds.length - 1)
  idx + countPast start (bounds.drop idx).dropLast

/-- A file's bytes as fragments over the frames, and the first frame that might overlap the next
file. `hint` is the first one that might overlap this file. -/
def fragmentsFor (bounds : List (Nat × Nat)) (start len hint : Nat) :
    Except String (List Fragment × Nat) :=
  if bounds.isEmpty then throw "cannot map file range onto an empty frame table"
  else if len = 0 then
    match bounds[emptyFrame bounds start hint]? with
    | none => throw "index out of bounds"
    | some (frs, _) => do
      let frameIndex ← toU32 (emptyFrame bounds start hint) "archive has too many frames"
      let frameOffset ← toU32 (start - frs) "empty file frame offset is too large"
      return ([⟨frameIndex, frameOffset, 0⟩], hint)
  else do
    let hint := hint + countPast start (bounds.drop hint)
    let stop ← checkedAdd start len "file range end overflow"
    let fragments ← overlaps start stop hint (bounds.drop hint)
    return (fragments, hint)

/-! ## Layouts -/

/-- The worktree's files in tree order, with their sizes and stream offsets. -/
structure Layout where
  blobs : List Blob
  gitlinks : List Bytes
  sizes : List Nat
  starts : List Nat
  total : Nat

/-- Where each file starts, the first one at `total`, and where the last one ends. -/
def layoutStarts : Nat → List Nat → Except String (List Nat × Nat)
  | total, [] => return ([], total)
  | total, size :: rest => do
    let next ← checkedAdd total size "archive stream length overflow"
    let (starts, last) ← layoutStarts next rest
    return (total :: starts, last)

namespace Layout

def new (blobs : List Blob) (gitlinks : List Bytes) (sizes : List Nat) : Except String Layout := do
  let (starts, total) ← layoutStarts 0 sizes
  return ⟨blobs, gitlinks, sizes, starts, total⟩

/-- The files with their starts and sizes. -/
def entries (layout : Layout) : List (Blob × Nat × Nat) :=
  layout.blobs.zip (layout.starts.zip layout.sizes)

/-- The entries of the files, from a hint on. -/
def tableFrom (bounds : List (Nat × Nat)) :
    Nat → List (Blob × Nat × Nat) → Except String (List FileEntry)
  | _, [] => return []
  | hint, (blob, start, size) :: rest => do
    let (fragments, next) ← fragmentsFor bounds start size hint
    let files ← tableFrom bounds next rest
    return ⟨blob.path, blob.mode, blob.oid, fragments⟩ :: files

/-- The files of the table: each file's fragments over `bounds`. -/
def filesTable (layout : Layout) (bounds : List (Nat × Nat)) : Except String MetadataChunk := do
  let files ← tableFrom bounds 0 layout.entries
  return ⟨[], files, layout.gitlinks⟩

end Layout

/-! ## Exactness -/

/-- The bytes of a fragment, when it is inside its frame. -/
def fragmentBytes (raws : List Bytes) (fragment : Fragment) : Option Bytes :=
  raws[fragment.frameIndex]?.bind fun raw =>
    if fragment.frameOffset + fragment.rawLen ≤ raw.length then
      some (slice raw fragment.frameOffset (fragment.frameOffset + fragment.rawLen))
    else none

/-- The bytes fragments make up, over the raw bytes of the frames. -/
def fragmentsBytes (raws : List Bytes) (fragments : List Fragment) : Option Bytes :=
  (fragments.mapM (fragmentBytes raws)).map List.flatten

end Ripclone.Archive
