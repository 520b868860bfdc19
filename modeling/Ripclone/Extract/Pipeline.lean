import Mathlib.Logic.Function.Basic
import Ripclone.Extract.Chunks
import Ripclone.Library.Utf8
import Ripclone.WorktreeWriter

/-!
# The extraction pipeline

Archive chunks arrive in any order. Each is sliced into its frames, and writers take the frames: they
decompress a frame, cut the fragments of files out of it, and write files in batches. A file of one
fragment is written with its frame. A file of several is put together in a map the writers share, and the
writer that has its last missing fragment writes it. A writer sends one result for each frame.
-/

namespace Ripclone

open Ripclone.Library

/-- Files of a batch. -/
def packWriteBatchFiles : Nat := 512

/-- A file of several fragments, some of them still to come. -/
structure PendingFile where
  fragments : List (Option FileSlice)
  remaining : Nat
  deriving DecidableEq, Repr

/-- The pending files, by their place in the table. -/
abbrev PendingFiles := Nat → Option PendingFile

/-- What a chunk's message leads to, when the fetchers know the chunk: a message for each frame. -/
def frameMessages (table : MetadataChunk) (chunks : List Chunk)
    (message : Nat × Except String Bytes) : List (Nat × Except ExtractError Bytes) :=
  match chunks.find? fun chunk => chunk.chunkIndex = message.1 with
  | none => [(message.1, throw (.writer s!"unknown archive chunk index {message.1}"))]
  | some chunk =>
    match message.2 with
    | .ok bytes => (sliceChunk table.frames message.1 chunk bytes).map fun frame =>
        (frame.1, frame.2.mapError .slice)
    | .error error => (List.range' chunk.startFrame (chunk.endFrame - chunk.startFrame)).map fun frameIdx =>
        (frameIdx, throw (.writer s!"chunk {message.1} failed: {error}"))

/-- The fragments of files in a frame: the file's place and the fragment's. -/
def MetadataChunk.fragmentsByFrame (table : MetadataChunk) (frameIdx : Nat) : List (Nat × Nat) :=
  table.files.zipIdx.flatMap fun (entry, fileIdx) =>
    entry.fragments.zipIdx.filterMap fun (fragment, fragIdx) =>
      if fragment.frameIndex = frameIdx then some (fileIdx, fragIdx) else none

/-- The files of several fragments, none of which has come. -/
def MetadataChunk.pendingFiles (table : MetadataChunk) : PendingFiles := fun fileIdx =>
  (table.files[fileIdx]?).bind fun entry =>
    if 1 < entry.fragments.length then
      some ⟨List.replicate entry.fragments.length none, entry.fragments.length⟩
    else none

def sliceAt (path : String) : Option FileSlice × Nat → Except ExtractError FileSlice
  | (some slice, _) => return slice
  | (none, index) => throw (.writer s!"fragment {index} missing at completion for {path}")

/-- The slices of a complete file. -/
def PendingFile.slices (pending : PendingFile) (path : String) : Except ExtractError (List FileSlice) :=
  pending.fragments.zipIdx.mapM (sliceAt path)

/-- Put a fragment in its place, under the map's lock. The file is taken out of the map when it is
complete. -/
def placeFragment (pendingFiles : PendingFiles) (path : String) (fileIdx fragIdx : Nat)
    (slice : FileSlice) : Except ExtractError (Option PendingFile) × PendingFiles :=
  match pendingFiles fileIdx with
  | none => (throw (.writer s!"missing pending state for {path}"), pendingFiles)
  | some pending =>
    match pending.fragments[fragIdx]? with
    | none => (throw (.writer s!"fragment index {fragIdx} out of range for {path}"), pendingFiles)
    | some (some _) => (throw (.writer s!"duplicate fragment {fragIdx} for {path}"), pendingFiles)
    | some none =>
      let fragments := pending.fragments.set fragIdx (some slice)
      match pending.remaining with
      | 0 => (throw (.writer "pending fragment count underflow"),
          Function.update pendingFiles fileIdx (some { pending with fragments }))
      | 1 => (return some ⟨fragments, 0⟩, Function.update pendingFiles fileIdx none)
      | remaining + 1 =>
        (return none, Function.update pendingFiles fileIdx (some ⟨fragments, remaining⟩))

/-- A writer at its frame. -/
structure FrameWriter where
  frame : Nat
  raw : Bytes
  /-- The fragments still to be cut out of the frame. -/
  rest : List (Nat × Nat)
  pendingWrites : List OwnedFileWrite
  written : Nat
  deriving DecidableEq, Repr

/-- What an extraction works on. -/
structure Extraction where
  table : MetadataChunk
  /-- Whether there is a target directory. Without one nothing is written. -/
  target : Bool
  /-- zstd's decompression, with the most bytes it may return. -/
  decompress (compressed : Bytes) (limit : Nat) : Except String Bytes
  /-- The object id of the blob with this content. -/
  blobId (content : Bytes) : Bytes

/-- The state of an extraction. -/
structure PipelineState where
  /-- The frames that no writer has taken. -/
  arrived : List (Nat × Except ExtractError Bytes)
  writers : List FrameWriter
  pendingFiles : PendingFiles
  /-- The files that are in the target directory. -/
  files : List OwnedFileWrite
  /-- What was sent to the collector. -/
  results : List (Except ExtractError Nat)

inductive ExtractEvent where
  /-- A writer takes frame `k` of those that have arrived. -/
  | take (k : Nat)
  /-- Writer `i` goes on with its frame. -/
  | advance (i : Nat)
  /-- Writer `i` writes its batch, or fails after some of its files. -/
  | write (i : Nat) (failed : Option (Nat × String))
  deriving DecidableEq, Repr

namespace Extraction

variable (x : Extraction)

def decompressFrame (compressed : Bytes) (frame : FrameInfo) (frameIdx : Nat) :
    Except ExtractError Bytes :=
  if frame.compressedLen = 0 ∧ frame.rawLen = 0 then return []
  else (x.decompress compressed frame.rawLen).mapError fun error =>
    .writer s!"decompress frame {frameIdx}: {error}"

/-- A writer begins with a frame. -/
def takeFrame (message : Nat × Except ExtractError Bytes) : Except ExtractError FrameWriter := do
  let compressed ← message.2
  match x.table.frames[message.1]? with
  | none => throw (.writer "index out of bounds")
  | some frame => do
    let raw ← x.decompressFrame compressed frame message.1
    if raw.length ≠ frame.rawLen then
      throw (.writer s!"frame {message.1} raw length mismatch: {raw.length} vs {frame.rawLen}")
    else if 2 ^ 32 ≤ message.1 then
      throw (.writer "archive frame index does not fit in manifest key")
    else return ⟨message.1, raw, x.table.fragmentsByFrame message.1, [], 0⟩

/-- A file whose content is known is written when its id is right. -/
def checkedWrite (entry : FileEntry) (content : FileWriteContent) :
    Except ExtractError OwnedFileWrite :=
  if x.blobId content.bytes ≠ entry.blobSha1 then
    throw (.writer s!"sha1 mismatch for {Utf8.lossy entry.path}")
  else return ⟨entry, content⟩

/-- Cut a fragment out of a frame. The file is returned when it is complete. -/
def cutFragment (writer : FrameWriter) (pendingFiles : PendingFiles) (pair : Nat × Nat) :
    Except ExtractError (Option OwnedFileWrite) × PendingFiles :=
  match (x.table.files[pair.1]?).bind fun entry => (entry.fragments[pair.2]?).map fun f => (entry, f) with
  | none => (throw (.writer "index out of bounds"), pendingFiles)
  | some (entry, fragment) =>
    let path := Utf8.lossy entry.path
    let slice : FileSlice := ⟨writer.raw, fragment.frameOffset, fragment.rawLen⟩
    if writer.raw.length < fragment.frameOffset + fragment.rawLen then
      (throw (.writer s!"fragment for {path} extends past frame {writer.frame}"), pendingFiles)
    else if entry.fragments.length = 1 then
      ((x.checkedWrite entry (.shared slice)).map some, pendingFiles)
    else
      let (placed, pendingFiles) := placeFragment pendingFiles path pair.1 pair.2 slice
      (do
        match ← placed with
        | none => return none
        | some pending => do
          let slices ← pending.slices path
          let write ← x.checkedWrite entry (.fragments slices)
          return some write, pendingFiles)

/-- Whether the writer's next step is to write its batch: it is full, or the frame is at its end. -/
def writesNext (writer : FrameWriter) : Bool :=
  x.target && (decide (packWriteBatchFiles ≤ writer.pendingWrites.length) || writer.rest.isEmpty)

/-- The writer is done with its frame. -/
def finish (s : PipelineState) (i : Nat) (result : Except ExtractError Nat) : PipelineState :=
  { s with writers := s.writers.eraseIdx i, results := s.results ++ [result] }

/-- Go on with the next fragment, or end without a batch to write. -/
def advance (s : PipelineState) (i : Nat) (writer : FrameWriter) : PipelineState :=
  match writer.rest with
  | [] => finish s i (.ok writer.written)
  | pair :: rest =>
    let (cut, pendingFiles) := x.cutFragment writer s.pendingFiles pair
    match cut with
    | .error error => finish { s with pendingFiles } i (.error error)
    | .ok write =>
      let writes := if x.target then write.toList else []
      { s with
        pendingFiles
        writers := s.writers.set i
          { writer with rest, pendingWrites := writer.pendingWrites ++ writes } }

/-- The batch is in the target directory, or some of it. -/
def writeBatch (s : PipelineState) (i : Nat) (writer : FrameWriter) (failed : Option (Nat × String)) :
    PipelineState :=
  match failed with
  | some (k, error) =>
    finish { s with files := s.files ++ writer.pendingWrites.take k } i (.error (.writer error))
  | none =>
    let s := { s with files := s.files ++ writer.pendingWrites }
    let written := writer.written + writer.pendingWrites.length
    if writer.pendingWrites.length < packWriteBatchFiles then finish s i (.ok written)
    else { s with writers := s.writers.set i { writer with pendingWrites := [], written } }

def exec (s : PipelineState) : ExtractEvent → Option PipelineState
  | .take k =>
    (s.arrived[k]?).map fun message =>
      let s := { s with arrived := s.arrived.eraseIdx k }
      match x.takeFrame message with
      | .error error => { s with results := s.results ++ [.error error] }
      | .ok writer => { s with writers := s.writers ++ [writer] }
  | .advance i =>
    (s.writers[i]?).bind fun writer =>
      if x.writesNext writer then none else some (x.advance s i writer)
  | .write i failed =>
    (s.writers[i]?).bind fun writer =>
      if x.writesNext writer then some (writeBatch s i writer failed) else none

def Step (s : PipelineState) (e : ExtractEvent) (s' : PipelineState) : Prop := x.exec s e = some s'

/-- All that will arrive of these chunks. -/
def start (messages : List (Nat × Except String Bytes)) : Except String PipelineState := do
  let chunks ← computeChunks x.table.frames wholeChunks
  return ⟨messages.flatMap (frameMessages x.table chunks), [], x.table.pendingFiles, [], []⟩

end Extraction

end Ripclone
