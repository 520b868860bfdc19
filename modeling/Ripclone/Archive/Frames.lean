import Ripclone.Library.Slices
import Ripclone.Manifest

/-!
# Archive frames and download bundles

The worktree's bytes are cut into frames by content, each frame is compressed by itself, and frames
are grouped into bundles, the objects a client downloads. A build on an older archive takes over a
frame when the base has one with the same raw bytes, and a bundle when the base has one with the same
frames; it writes the others.

Hashing, zstd and the two chunkers are `Tools`. What a build reads from its local store and from
object storage may be anything: frames are checked against their hashes.
-/

namespace Ripclone.Archive

open Ripclone.Library

/-- Content-defined chunking bounds. -/
structure CdcBounds where
  min : Nat
  avg : Nat
  max : Nat
  deriving DecidableEq, Repr

/-- The production bounds. -/
def cdc : CdcBounds := ⟨1024 * 1024, 4 * 1024 * 1024, 16 * 1024 * 1024⟩

structure Tools where
  /-- The name of bytes in storage. -/
  hash (bytes : Bytes) : String
  compress (bytes : Bytes) : Except String Bytes
  decompress (bytes : Bytes) : Except String Bytes
  /-- The offset and length of each piece `FastCDC` cuts a buffer into. -/
  fastCdc (bounds : CdcBounds) (buffer : Bytes) : List (Nat × Nat)
  /-- The offset and bytes of each piece `StreamCDC` cuts a stream into. -/
  streamCdc (bounds : CdcBounds) (stream : Bytes) : Except String (List (Nat × Bytes))

/-- What a build reads bundles from and writes them to. -/
structure Cas where
  getRange (bundle : String) (offset len : Nat) : Except String Bytes
  /-- Object storage, when the build may read it. -/
  storage : Option (String → Nat → Nat → Except String Bytes)
  /-- Whether the bytes could be stored. -/
  write (bytes : Bytes) : Except String Unit

/-- A ready archive of an ancestor. -/
structure ArchiveBase where
  /-- The base's frames, in stream order. -/
  frames : List ArchiveFrame
  metadata : MetadataChunk
  bundles : List String

/-- The value a map built by inserting the pairs in order has at a key. -/
def lastOf {α β : Type} [BEq α] (pairs : List (α × β)) (key : α) : Option β :=
  pairs.reverse.lookup key

/-- A base archive, indexed for reuse. -/
structure BaseIndex where
  frames : List ArchiveFrame
  /-- Each frame's start in the base stream, and the stream's length. -/
  starts : List Nat
  /-- Each frame's bundle and its offset in it. -/
  places : List (String × Nat)
  /-- Frames by the hash of their raw bytes. -/
  byRaw : List (String × Nat)
  /-- Bundles by the chunk hashes of their frames, in order. -/
  bundles : List (String × String)
  /-- Files by path: blob id, start in the base stream, length. -/
  files : List (Bytes × Bytes × Nat × Nat)
  deriving DecidableEq, Repr

/-- What the frames from `k` on give the index: starts, places, frames by hash and bundles by key.
`key` has the hashes of the frames before in the same bundle. -/
def indexFrames (bundles : List String) :
    Nat → Nat → String → List (ArchiveFrame × FrameInfo) →
      Except String (List Nat × List (String × Nat) × List (String × Nat) × List (String × String))
  | _, pos, _, [] => return ([pos], [], [], [])
  | k, pos, key, (frame, info) :: rest =>
    if frame.compressedLen ≠ info.compressedLen ∨ frame.rawLen ≠ info.rawLen then
      throw s!"base frame {k} does not match its metadata"
    else
      match bundles[info.chunkIndex]? with
      | none => throw s!"base frame {k} names a missing bundle"
      | some bundle => do
        let next ← checkedAdd pos frame.rawLen "base stream length overflow"
        let key := key ++ frame.chunkHash
        let lastInBundle := rest.head?.all fun next => decide (next.2.chunkIndex ≠ info.chunkIndex)
        let (starts, places, byRaw, keys) ←
          indexFrames bundles (k + 1) next (if lastInBundle then "" else key) rest
        return (pos :: starts, (bundle, info.chunkOffset) :: places, (frame.rawHash, k) :: byRaw,
          if lastInBundle then (key, bundle) :: keys else keys)

/-- The bytes a file takes in the stream. -/
def fileLen (file : FileEntry) : Except String Nat :=
  file.fragments.foldlM (fun total fragment => checkedAdd total fragment.rawLen
    "base file length overflow") 0

/-- The files with their starts, and where the last one ends. A file starts where the one before it
in the list ends. -/
def indexFiles : Nat → List FileEntry → Except String (List (Bytes × Bytes × Nat × Nat) × Nat)
  | pos, [] => return ([], pos)
  | pos, file :: rest => do
    let len ← fileLen file
    let next ← checkedAdd pos len "base file offset overflow"
    let (files, filePos) ← indexFiles next rest
    return ((file.path, file.blobSha1, pos, len) :: files, filePos)

def BaseIndex.new (base : ArchiveBase) : Except String BaseIndex :=
  if base.metadata.frames.length ≠ base.frames.length then
    throw s!"base has {base.frames.length} frames but its metadata places {base.metadata.frames.length}"
  else do
    let (starts, places, byRaw, bundles) ←
      indexFrames base.bundles 0 0 "" (base.frames.zip base.metadata.frames)
    let (files, filePos) ← indexFiles 0 base.metadata.files
    let pos := starts.getLast?.getD 0
    if filePos ≠ pos then throw s!"base files cover {filePos} bytes but its frames cover {pos}"
    else return ⟨base.frames, starts, places, byRaw, bundles, files⟩

/-! ## Frames -/

/-- One frame ready for a bundle: its compressed bytes when this build made them, or the base frame
that holds the same bytes. -/
structure BuiltFrame where
  rawHash : String
  rawLen : Nat
  chunkHash : String
  compressedLen : Nat
  bytes : Option Bytes
  baseFrame : Option Nat

section Bundling

variable (tools : Tools) (cas : Cas) (base : Option BaseIndex)

/-- Empty frames stay empty. -/
def compressFrame (raw : Bytes) : Except String Bytes :=
  if raw.isEmpty then return [] else tools.compress raw

/-- The base frame with these raw bytes. -/
def baseFrameOf (rawHash : String) : Option (Nat × ArchiveFrame) :=
  base.bind fun base => (lastOf base.byRaw rawHash).bind fun k =>
    (base.frames[k]?).map fun frame => (k, frame)

def buildFrame (raw : Bytes) : Except String BuiltFrame :=
  match baseFrameOf base (tools.hash raw) with
  | some (k, frame) =>
    return ⟨tools.hash raw, raw.length, frame.chunkHash, frame.compressedLen, none, some k⟩
  | none => do
    let bytes ← compressFrame tools raw
    return ⟨tools.hash raw, raw.length, tools.hash bytes, bytes.length, some bytes, none⟩

/-- Whether the bytes are the frame's. -/
def isFrame (frame : ArchiveFrame) (data : Bytes) : Bool :=
  decide (data.length = frame.compressedLen ∧ tools.hash data = frame.chunkHash)

def readFrameFromStorage (frame : ArchiveFrame) (bundle : String) (offset : Nat) :
    Except String Bytes :=
  match cas.storage with
  | none => throw s!"archive frame {frame.chunkHash} is not in the local copy of bundle {bundle}"
  | some getRange => do
    let data ← getRange bundle offset frame.compressedLen
    if isFrame tools frame data then return data
    else throw s!"archive frame {frame.chunkHash} from bundle {bundle}: hash mismatch"

/-- The compressed bytes of base frame `k`, from the local copy of its bundle or from storage. -/
def BaseIndex.readFrame (base : BaseIndex) (k : Nat) : Except String Bytes :=
  match base.frames[k]?, base.places[k]? with
  | some frame, some (bundle, offset) =>
    match cas.getRange bundle offset frame.compressedLen with
    | .ok data =>
      if isFrame tools frame data then return data
      else readFrameFromStorage tools cas frame bundle offset
    | .error _ => readFrameFromStorage tools cas frame bundle offset
  | _, _ => throw "index out of bounds"

/-! ## Bundles -/

structure Bundler where
  min : Nat
  max : Nat
  group : List BuiltFrame
  groupLen : Nat
  bundles : List String
  /-- The bundles this build wrote. -/
  newBundles : List String
  infos : List FrameInfo
  frames : List ArchiveFrame

def Bundler.new (target : Nat) : Bundler where
  min := Nat.max target 2 / 2
  max := Nat.min (Nat.max target 2 * 2) (2 ^ 64 - 1)
  group := []
  groupLen := 0
  bundles := []
  newBundles := []
  infos := []
  frames := []

/-- Whether a bundle may end after the frame with this hash: about half do. -/
def cutsAfter (chunkHash : String) : Bool :=
  chunkHash.toUTF8.toList.getLast?.any fun b => b % 2 == 0

/-- The bytes of a frame of the group. -/
def frameBytes (frame : BuiltFrame) : Except String Bytes :=
  match frame.bytes, frame.baseFrame, base with
  | some bytes, _, _ => return bytes
  | none, some k, some base => base.readFrame tools cas k
  | _, _, _ => throw s!"archive frame {frame.chunkHash} has no bytes"

/-- Write the group as a new bundle. -/
def writeGroup (group : List BuiltFrame) (groupLen : Nat) : Except String String := do
  let parts ← group.mapM (frameBytes tools cas base)
  cas.write parts.flatten
  if parts.flatten.length ≠ groupLen then
    throw s!"archive bundle length {parts.flatten.length} != frames {groupLen}"
  else return tools.hash parts.flatten

/-- The base's bundle of the same frames, or else a new one. -/
def bundleGroup (group : List BuiltFrame) (groupLen : Nat) :
    Except String (String × Option String) :=
  match base.bind fun base => lastOf base.bundles (String.join (group.map BuiltFrame.chunkHash)) with
  | some hash => return (hash, none)
  | none => do
    let hash ← writeGroup tools cas base group groupLen
    return (hash, some hash)

/-- The places of the group's frames in bundle `index`, the first one at `offset`. -/
def placeFrames (index : Nat) : Nat → List BuiltFrame → Except String (List FrameInfo)
  | _, [] => return []
  | offset, frame :: rest =>
    if 2 ^ 32 ≤ frame.compressedLen then throw "compressed archive frame exceeds manifest limit"
    else if 2 ^ 32 ≤ frame.rawLen then throw "raw archive frame exceeds manifest limit"
    else do
      let infos ← placeFrames index (offset + frame.compressedLen) rest
      return ⟨index, offset, frame.compressedLen, frame.rawLen⟩ :: infos

def BuiltFrame.archiveFrame (frame : BuiltFrame) : ArchiveFrame :=
  ⟨frame.rawHash, frame.chunkHash, frame.compressedLen, frame.rawLen⟩

namespace Bundler

/-- End the open bundle. -/
def close (bundler : Bundler) : Except String Bundler :=
  if bundler.group.isEmpty then return bundler
  else if 2 ^ 32 ≤ bundler.bundles.length then throw "too many archive bundles"
  else do
    let (hash, new) ← bundleGroup tools cas base bundler.group bundler.groupLen
    let infos ← placeFrames bundler.bundles.length 0 bundler.group
    return { bundler with
      group := []
      groupLen := 0
      bundles := bundler.bundles ++ [hash]
      newBundles := bundler.newBundles ++ new.toList
      infos := bundler.infos ++ infos
      frames := bundler.frames ++ bundler.group.map BuiltFrame.archiveFrame }

/-- Close the bundle in which the frame has no room. -/
def makeRoom (bundler : Bundler) (frame : BuiltFrame) : Except String Bundler :=
  if !bundler.group.isEmpty && decide (bundler.max < bundler.groupLen + frame.compressedLen) then
    bundler.close tools cas base
  else return bundler

def push (bundler : Bundler) (frame : BuiltFrame) : Except String Bundler := do
  let bundler ← bundler.makeRoom tools cas base frame
  let groupLen := bundler.groupLen + frame.compressedLen
  let bundler := { bundler with group := bundler.group ++ [frame], groupLen }
  if bundler.max ≤ groupLen ∨ bundler.min ≤ groupLen ∧ cutsAfter frame.chunkHash then
    bundler.close tools cas base
  else return bundler

end Bundler

end Bundling

end Ripclone.Archive
