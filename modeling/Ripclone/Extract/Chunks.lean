import Ripclone.Archive.TailTable
import Ripclone.Server.FilesBuild

/-!
# Archive chunks

A client downloads the archive chunk by chunk and slices each chunk into frames. The lengths of the
chunks, the table of which frames are in which chunk and the slices are computed in three places from
the frame table alone; an accepted table packs its frames into chunks (`Packed`), and all three agree
on the packing.
-/

namespace Ripclone

open Ripclone.Library Ripclone.Archive Ripclone.Server

/-! ## The chunk table -/

/-- A range of frames in an archive chunk. -/
structure Chunk where
  chunkIndex : Nat
  startFrame : Nat
  /-- One past the last frame. -/
  endFrame : Nat
  /-- Byte offset of the first frame within the archive chunk. -/
  byteStart : Nat
  byteEnd : Nat
  deriving DecidableEq, Repr

/-- The chunk that is open. -/
structure OpenChunk where
  start : Nat
  byteStart : Nat
  currentLen : Nat
  chunkIndex : Nat

def OpenChunk.close (chunk : OpenChunk) (stop : Nat) : Except String Chunk := do
  let byteEnd ← checkedAdd chunk.byteStart chunk.currentLen "archive chunk offset overflow"
  return ⟨chunk.chunkIndex, chunk.start, stop, chunk.byteStart, byteEnd⟩

/-- Whether the frame is in another archive chunk or would not fit. -/
def startsChunk (chunkSize : Nat) (chunk : OpenChunk) (frame : FrameInfo) : Except String Bool :=
  if frame.chunkIndex ≠ chunk.chunkIndex then return true
  else if 0 < chunk.currentLen then do
    let len ← checkedAdd chunk.currentLen frame.compressedLen "archive chunk length overflow"
    return decide (chunkSize < len)
  else return false

/-- The chunks of the frames from `i` on, the open one first. -/
def chunksFrom (chunkSize : Nat) :
    Nat → OpenChunk → List FrameInfo → Except String (List Chunk)
  | i, chunk, [] => do
    let last ← chunk.close i
    return [last]
  | i, chunk, frame :: rest => do
    if ← startsChunk chunkSize chunk frame then
      let closed ← chunk.close i
      let len ← checkedAdd 0 frame.compressedLen "archive chunk length overflow"
      let chunks ← chunksFrom chunkSize (i + 1) ⟨i, frame.chunkOffset, len, frame.chunkIndex⟩ rest
      return closed :: chunks
    else
      let len ← checkedAdd chunk.currentLen frame.compressedLen "archive chunk length overflow"
      chunksFrom chunkSize (i + 1) { chunk with currentLen := len } rest

/-- Group consecutive frames into chunks of at most `chunkSize` compressed bytes. A larger frame gets
its own chunk. -/
def computeChunks (frames : List FrameInfo) (chunkSize : Nat) : Except String (List Chunk) :=
  match frames.head? with
  | none => return []
  | some first => chunksFrom chunkSize 0 ⟨0, 0, 0, first.chunkIndex⟩ frames

/-- The size with which whole archive chunks are received. -/
def wholeChunks : Nat := 2 ^ 64 - 1

inductive SliceError where
  /-- "frame … starts before archive chunk …" -/
  | startsBefore (frameIdx chunkIdx frameOffset chunkStart : Nat)
  /-- "archive frame slice end overflow" -/
  | overflow
  /-- "frame … (offset=… len=…) out of chunk … bounds (start=… len=…)" -/
  | outOfBounds (frameIdx frameOffset frameLen chunkIdx chunkStart bytesLen : Nat)
  deriving DecidableEq, Repr

def sliceArchiveFrame (bytes : Bytes) (chunk : Chunk) (frame : FrameInfo) (frameIdx chunkIdx : Nat) :
    Except SliceError Bytes :=
  if frame.chunkOffset < chunk.byteStart then
    throw (.startsBefore frameIdx chunkIdx frame.chunkOffset chunk.byteStart)
  else do
    let offset := frame.chunkOffset - chunk.byteStart
    let stop ← checkedAdd offset frame.compressedLen SliceError.overflow
    if bytes.length < stop then
      throw (.outOfBounds frameIdx frame.chunkOffset frame.compressedLen chunkIdx chunk.byteStart
        bytes.length)
    else return slice bytes offset stop

/-- The frames of a received chunk, sliced and handed to the writers. -/
def sliceChunk (frames : List FrameInfo) (chunkIdx : Nat) (chunk : Chunk) (bytes : Bytes) :
    List (Nat × Except SliceError Bytes) :=
  ((slice frames chunk.startFrame chunk.endFrame).zipIdx chunk.startFrame).map fun (frame, frameIdx) =>
    (frameIdx, sliceArchiveFrame bytes chunk frame frameIdx chunkIdx)

/-! ## Results -/

inductive ExtractError where
  | slice (error : SliceError)
  /-- A writer failed on its frame. -/
  | writer (error : String)
  /-- "writer thread disappeared" -/
  | disappeared
  /-- "extractor wrote … files but expected …; frames=…" -/
  | count (written expected frames : Nat)
  /-- "file fragment length total overflow" -/
  | fileTotal
  /-- "archive raw byte total overflow" -/
  | rawTotal
  deriving DecidableEq, Repr

/-- What a writer returns for a frame: the error of its slice, or what comes of the bytes. -/
def frameResult (write : Nat → Bytes → Except String Nat) (frame : Nat × Except SliceError Bytes) :
    Except ExtractError Nat := do
  let compressed ← frame.2.mapError .slice
  (write frame.1 compressed).mapError .writer

def resultError : Except ExtractError Nat → Option ExtractError
  | .error e => some e
  | .ok _ => none

/-- Collect a result for each frame, with the files written. `results` are those the writers send
before they are gone. -/
def collectResults (frames expected : Nat) (results : List (Except ExtractError Nat)) :
    Except ExtractError Nat :=
  let received := results.take frames
  let written := (received.filterMap Except.toOption).sum
  let error :=
    if received.length < frames then some .disappeared
    else (received.filterMap resultError).getLast?
  match error with
  | some error => throw error
  | none => if written ≠ expected then throw (.count written expected frames) else return written

def FileEntry.checkedTotalLen (entry : FileEntry) : Except ExtractError Nat :=
  entry.fragments.foldlM (fun total fragment => checkedAdd total fragment.rawLen .fileTotal) 0

/-- The raw bytes of the files together. -/
def rawTotal (files : List FileEntry) : Except ExtractError Nat :=
  files.foldlM (fun total entry => do
    let len ← entry.checkedTotalLen
    checkedAdd total len .rawTotal) 0

structure ExtractStats where
  files : Nat
  rawBytes : Nat
  deriving DecidableEq, Repr

/-- What the extractor returns, from the results of its writers. Files are written only with a
target. -/
def extractStats (table : MetadataChunk) (target : Bool) (results : List (Except ExtractError Nat)) :
    Except ExtractError ExtractStats := do
  let collected :=
    collectResults table.frames.length (if target then table.files.length else 0) results
  let rawBytes ← rawTotal table.files
  let files ← collected
  return ⟨files, rawBytes⟩

/-! ## Packings -/

/-- The compressed bytes of the frames together. -/
def chunkLen (frames : List FrameInfo) : Nat := (frames.map FrameInfo.compressedLen).sum

/-- Where a frame is in its chunk. -/
def frameSpan (frame : FrameInfo) : Nat × Nat :=
  (frame.chunkOffset, frame.chunkOffset + frame.compressedLen)

/-- Frames that follow one another in chunk `index`, from `start` on. -/
structure FrameRun (index start : Nat) (group : List FrameInfo) : Prop where
  index : ∀ frame ∈ group, frame.chunkIndex = index
  tiles : Tiles start (start + chunkLen group) (group.map frameSpan)
  fits : ∀ frame ∈ group, frame.chunkOffset + frame.compressedLen < 2 ^ 64

/-- Groups of frames, the first one in chunk `index` and each of the others in the chunk after. -/
def Packed : Nat → List (List FrameInfo) → Prop
  | _, [] => True
  | index, group :: rest => group ≠ [] ∧ FrameRun index 0 group ∧ Packed (index + 1) rest

theorem chunkLen_cons (frame : FrameInfo) (group : List FrameInfo) :
    chunkLen (frame :: group) = frame.compressedLen + chunkLen group := by
  rw [chunkLen, List.map_cons, List.sum_cons, chunkLen]

theorem FrameRun.nil (index start : Nat) : FrameRun index start [] := ⟨by simp, rfl, by simp⟩

theorem run_cons {index start : Nat} {frame : FrameInfo} {group : List FrameInfo} :
    FrameRun index start (frame :: group) ↔ frame.chunkIndex = index ∧ frame.chunkOffset = start ∧
      start + frame.compressedLen < 2 ^ 64 ∧ FrameRun index (start + frame.compressedLen) group := by
  constructor
  · rintro ⟨hindex, ⟨hstart, _, htiles⟩, hfits⟩
    obtain ⟨hfirst, hrest⟩ := List.forall_mem_cons.mp hindex
    obtain ⟨hfit, hfits⟩ := List.forall_mem_cons.mp hfits
    have hoffset : frame.chunkOffset = start := hstart
    have hend : (frameSpan frame).2 = start + frame.compressedLen := by
      rw [frameSpan, hoffset]
    rw [hend, chunkLen_cons, ← Nat.add_assoc] at htiles
    exact ⟨hfirst, hoffset, hoffset ▸ hfit, hrest, htiles, hfits⟩
  · rintro ⟨hfirst, rfl, hfit, hrest, htiles, hfits⟩
    refine ⟨List.forall_mem_cons.mpr ⟨hfirst, hrest⟩, ⟨rfl, Nat.le_add_right _ _, ?_⟩,
      List.forall_mem_cons.mpr ⟨hfit, hfits⟩⟩
    rw [chunkLen_cons, ← Nat.add_assoc]
    exact htiles

theorem FrameRun.chunkLen_lt {index start : Nat} {group : List FrameInfo} (h : FrameRun index start group)
    (hne : group ≠ []) : start + chunkLen group < 2 ^ 64 := by
  induction group generalizing start with
  | nil => exact absurd rfl hne
  | cons frame rest ih =>
      obtain ⟨_, _, hfit, hrest⟩ := run_cons.mp h
      rw [chunkLen_cons, ← Nat.add_assoc]
      by_cases hnil : rest = []
      · rw [hnil]
        exact hfit
      · exact ih hrest hnil

/-- The frames of an accepted table, from the middle of a chunk on. -/
theorem exists_run {frames : List FrameInfo} {frameIdx chunk stop : Nat}
    (hchunk : chunk < 2 ^ 32) (h : checkFrames frameIdx (some (chunk, stop)) frames = .ok ()) :
    ∃ first groups, frames = first ++ groups.flatten ∧ FrameRun chunk stop first ∧
      Packed (chunk + 1) groups ∧ chunk + groups.length < 2 ^ 32 := by
  induction frames generalizing frameIdx chunk stop with
  | nil => exact ⟨[], [], rfl, .nil _ _, trivial, hchunk⟩
  | cons frame rest ih =>
      obtain ⟨hfit, h⟩ := ite_throw_eq_ok.mp h
      obtain ⟨hcheck, hrest⟩ := bind_unit_eq_ok.mp h
      have hle := checkFrame_chunkIndex_le hcheck
      have hlt : frame.chunkIndex < 2 ^ 32 := checkFrame_chunkIndex_lt hchunk hcheck
      have hstep : frame.chunkIndex = chunk ∧ frame.chunkOffset = stop ∨
          frame.chunkIndex = chunk + 1 ∧ frame.chunkOffset = 0 := (checkFrame_ok hlt).mp hcheck
      obtain ⟨first, groups, rfl, hrun, hpacked, hcount⟩ := ih hlt hrest
      rcases hstep with ⟨rfl, rfl⟩ | ⟨hnext, hzero⟩
      · -- the frame goes on in the chunk
        exact ⟨frame :: first, groups, rfl, run_cons.mpr ⟨rfl, rfl, by omega, hrun⟩, hpacked, hcount⟩
      · -- the frame starts the next one
        rw [hzero] at hrun hfit
        rw [hnext] at hrun hpacked hcount
        refine ⟨[], (frame :: first) :: groups, rfl, .nil _ _, ⟨by simp, ?_, hpacked⟩, ?_⟩
        · exact run_cons.mpr ⟨hnext, hzero, by omega, hrun⟩
        · rw [List.length_cons]
          omega

/-- An accepted table packs its frames into chunks. -/
theorem exists_packed {frames : List FrameInfo} (h : checkFrames 0 none frames = .ok ()) :
    ∃ groups, frames = groups.flatten ∧ Packed 0 groups := by
  cases frames with
  | nil => exact ⟨[], rfl, trivial⟩
  | cons frame rest =>
      obtain ⟨hfit, h⟩ := ite_throw_eq_ok.mp h
      obtain ⟨hcheck, hrest⟩ := bind_unit_eq_ok.mp h
      simp only [checkFrame, ite_throw_eq_ok, not_or, not_not] at hcheck
      obtain ⟨⟨hindex, hoffset⟩, _⟩ := hcheck
      rw [hindex, hoffset] at hrest
      obtain ⟨first, groups, rfl, hrun, hpacked, _⟩ := exists_run (Nat.two_pow_pos 32) hrest
      refine ⟨(frame :: first) :: groups, rfl, by simp, ?_, hpacked⟩
      rw [hoffset] at hfit
      exact run_cons.mpr ⟨hindex, hoffset, by omega, hrun⟩

/-! ## Lengths -/

theorem modify_concat_length (f : Nat → Nat) (lengths : List Nat) (last : Nat) :
    (lengths ++ [last]).modify lengths.length f = lengths ++ [f last] := by
  induction lengths with
  | nil => rfl
  | cons first rest ih =>
      rw [List.cons_append, List.length_cons, List.modify_succ_cons, ih, List.cons_append]

theorem growChunk_run {lengths : List Nat} {stop : Nat} {group : List FrameInfo}
    (hrun : FrameRun lengths.length stop group) :
    group.foldlM growChunk (lengths ++ [stop]) = .ok (lengths ++ [stop + chunkLen group]) := by
  induction group generalizing stop with
  | nil => rfl
  | cons frame rest ih =>
      obtain ⟨hindex, hoffset, hfit, hrest⟩ := run_cons.mp hrun
      have hgrow : growChunk (lengths ++ [stop]) frame =
          .ok (lengths ++ [stop + frame.compressedLen]) := by
        rw [growChunk, hindex, hoffset, if_neg (Nat.not_le.mpr hfit), if_neg (by simp),
          if_neg (by simp)]
        dsimp only
        rw [modify_concat_length, Nat.max_eq_left (Nat.le_add_right _ _)]
        rfl
      rw [List.foldlM_cons, hgrow]
      show rest.foldlM growChunk (lengths ++ [stop + frame.compressedLen]) = _
      rw [ih hrest, chunkLen_cons, Nat.add_assoc]

/-- Each chunk is as long as its frames together. -/
theorem growChunk_packed {lengths : List Nat} {groups : List (List FrameInfo)}
    (hpacked : Packed lengths.length groups) :
    groups.flatten.foldlM growChunk lengths = .ok (lengths ++ groups.map chunkLen) := by
  induction groups generalizing lengths with
  | nil => simp
  | cons group groups ih =>
      obtain ⟨hne, hrun, hrest⟩ := hpacked
      obtain ⟨frame, rest, rfl⟩ := List.exists_cons_of_ne_nil hne
      obtain ⟨hindex, hoffset, hfit, hrun⟩ := run_cons.mp hrun
      have hgrow : growChunk lengths frame = .ok (lengths ++ [0 + frame.compressedLen]) := by
        rw [growChunk, hindex, hoffset, if_neg (Nat.not_le.mpr hfit), if_neg (by simp), if_pos rfl]
        dsimp only
        rw [modify_concat_length, Nat.max_eq_left (Nat.zero_le _)]
        rfl
      rw [List.flatten_cons, List.cons_append, List.foldlM_cons, hgrow]
      show (rest ++ groups.flatten).foldlM growChunk (lengths ++ [0 + frame.compressedLen]) = _
      rw [List.foldlM_append, growChunk_run hrun]
      have hnext : Packed (lengths ++ [0 + frame.compressedLen + chunkLen rest]).length groups := by
        rwa [List.length_append, List.length_singleton]
      show groups.flatten.foldlM growChunk (lengths ++ [0 + frame.compressedLen + chunkLen rest]) = _
      rw [ih hnext, List.map_cons, chunkLen_cons, Nat.zero_add, List.append_assoc]
      rfl

/-! ## The table of whole chunks -/

/-- A chunk for each group, from `index` and frame `start` on. -/
def chunkTable : Nat → Nat → List (List FrameInfo) → List Chunk
  | _, _, [] => []
  | index, start, group :: rest =>
    ⟨index, start, start + group.length, 0, chunkLen group⟩ ::
      chunkTable (index + 1) (start + group.length) rest

theorem startsChunk_same {chunk : OpenChunk} {frame : FrameInfo}
    (hindex : frame.chunkIndex = chunk.chunkIndex)
    (hfit : chunk.currentLen + frame.compressedLen < 2 ^ 64) :
    startsChunk wholeChunks chunk frame = .ok false := by
  rw [startsChunk, if_neg (not_not.mpr hindex)]
  split
  · rw [checkedAdd_ok hfit]
    have hle : ¬ wholeChunks < chunk.currentLen + frame.compressedLen := by
      unfold wholeChunks
      omega
    simp [bind, Except.bind, pure, Except.pure, hle]
  · rfl

/-- The frames of a chunk lengthen the open one. -/
theorem chunksFrom_run {i : Nat} {chunk : OpenChunk} {group rest : List FrameInfo}
    (hrun : FrameRun chunk.chunkIndex (chunk.byteStart + chunk.currentLen) group) :
    chunksFrom wholeChunks i chunk (group ++ rest) = chunksFrom wholeChunks (i + group.length)
      { chunk with currentLen := chunk.currentLen + chunkLen group } rest := by
  induction group generalizing i chunk with
  | nil => rfl
  | cons frame group ih =>
      obtain ⟨hindex, _, hfit, hrest⟩ := run_cons.mp hrun
      rw [Nat.add_assoc] at hrest
      have hlen : chunk.currentLen + frame.compressedLen < 2 ^ 64 := by omega
      have hstep := @ih (i + 1) { chunk with currentLen := chunk.currentLen + frame.compressedLen }
        hrest
      rw [List.cons_append, chunksFrom, startsChunk_same hindex hlen]
      show (do
        let len ← checkedAdd chunk.currentLen frame.compressedLen "archive chunk length overflow"
        chunksFrom wholeChunks (i + 1) { chunk with currentLen := len } (group ++ rest)) = _
      rw [checkedAdd_ok hlen]
      show chunksFrom wholeChunks (i + 1)
        { chunk with currentLen := chunk.currentLen + frame.compressedLen } (group ++ rest) = _
      rw [hstep, chunkLen_cons, List.length_cons, Nat.add_assoc i, Nat.add_comm 1, Nat.add_assoc]

theorem OpenChunk.close_ok {chunk : OpenChunk} (hfit : chunk.byteStart + chunk.currentLen < 2 ^ 64)
    (i : Nat) : chunk.close i = .ok ⟨chunk.chunkIndex, chunk.start, i, chunk.byteStart,
      chunk.byteStart + chunk.currentLen⟩ := by
  rw [OpenChunk.close, checkedAdd_ok hfit]
  rfl

/-- Each group after the open chunk is a chunk of its own. -/
theorem chunksFrom_packed {i : Nat} {chunk : OpenChunk} {groups : List (List FrameInfo)}
    (hfit : chunk.byteStart + chunk.currentLen < 2 ^ 64)
    (hpacked : Packed (chunk.chunkIndex + 1) groups) :
    chunksFrom wholeChunks i chunk groups.flatten =
      .ok (⟨chunk.chunkIndex, chunk.start, i, chunk.byteStart, chunk.byteStart + chunk.currentLen⟩ ::
        chunkTable (chunk.chunkIndex + 1) i groups) := by
  induction groups generalizing i chunk with
  | nil =>
      rw [List.flatten_nil, chunksFrom, chunk.close_ok hfit]
      rfl
  | cons group groups ih =>
      obtain ⟨hne, hrun, hrest⟩ := hpacked
      have hlen := hrun.chunkLen_lt hne
      obtain ⟨frame, rest, rfl⟩ := List.exists_cons_of_ne_nil hne
      obtain ⟨hindex, hoffset, hframe, hrun⟩ := run_cons.mp hrun
      have hstarts : startsChunk wholeChunks chunk frame = .ok true := by
        rw [startsChunk, if_pos (by omega)]
        rfl
      let opened : OpenChunk := ⟨i, 0, 0 + frame.compressedLen, chunk.chunkIndex + 1⟩
      have hopened : chunksFrom wholeChunks (i + 1) opened (rest ++ groups.flatten) =
          .ok (chunkTable (chunk.chunkIndex + 1) i ((frame :: rest) :: groups)) := by
        have hrun' : FrameRun opened.chunkIndex (opened.byteStart + opened.currentLen) rest := by
          rw [show opened.byteStart + opened.currentLen = 0 + frame.compressedLen from
            Nat.zero_add _]
          exact hrun
        rw [chunksFrom_run hrun', ih ?_ hrest, chunkTable, List.length_cons, chunkLen_cons]
        · simp only [opened, Nat.zero_add, Nat.add_right_comm i 1, Nat.add_assoc]
        · rw [chunkLen_cons] at hlen
          show 0 + (0 + frame.compressedLen + chunkLen rest) < 2 ^ 64
          omega
      rw [List.flatten_cons, List.cons_append, chunksFrom, hstarts, hoffset, hindex]
      show (do
        let closed ← chunk.close i
        let len ← checkedAdd 0 frame.compressedLen "archive chunk length overflow"
        let chunks ← chunksFrom wholeChunks (i + 1) ⟨i, 0, len, chunk.chunkIndex + 1⟩
          (rest ++ groups.flatten)
        return closed :: chunks) = _
      rw [chunk.close_ok hfit, checkedAdd_ok hframe]
      show (do
        let chunks ← chunksFrom wholeChunks (i + 1) opened (rest ++ groups.flatten)
        return _ :: chunks) = _
      rw [hopened]
      rfl

theorem computeChunks_packed {groups : List (List FrameInfo)} (hpacked : Packed 0 groups) :
    computeChunks groups.flatten wholeChunks = .ok (chunkTable 0 0 groups) := by
  cases groups with
  | nil => rfl
  | cons group groups =>
      obtain ⟨hne, hrun, hrest⟩ := hpacked
      have hlen := hrun.chunkLen_lt hne
      obtain ⟨frame, rest, rfl⟩ := List.exists_cons_of_ne_nil hne
      have hindex := (run_cons.mp hrun).1
      let opened : OpenChunk := ⟨0, 0, 0, 0⟩
      have hrun' : FrameRun opened.chunkIndex (opened.byteStart + opened.currentLen) (frame :: rest) := hrun
      show chunksFrom wholeChunks 0 ⟨0, 0, 0, frame.chunkIndex⟩ ((frame :: rest) ++ groups.flatten) = _
      rw [hindex, chunksFrom_run hrun', chunksFrom_packed ?_ hrest]
      · simp only [opened, chunkTable, Nat.zero_add]
      · show 0 + (0 + chunkLen (frame :: rest)) < 2 ^ 64
        omega

/-! ## Slices -/

/-- The frames of an archive chunk. -/
def chunkFrames (frames : List FrameInfo) (index : Nat) : List FrameInfo :=
  frames.filter fun frame => decide (frame.chunkIndex = index)

theorem Packed.le_index {index : Nat} {groups : List (List FrameInfo)} (h : Packed index groups) :
    ∀ frame ∈ groups.flatten, index ≤ frame.chunkIndex ∧ frame.chunkIndex < index + groups.length := by
  induction groups generalizing index with
  | nil => simp
  | cons group groups ih =>
      obtain ⟨_, hrun, hrest⟩ := h
      intro frame hframe
      rw [List.length_cons]
      rcases List.mem_append.mp hframe with hmem | hmem
      · have := hrun.index frame hmem
        omega
      · have := ih hrest frame hmem
        omega

/-- Each group is the frames of its chunk. -/
theorem Packed.chunkFrames_eq {index i : Nat} {groups : List (List FrameInfo)}
    {group : List FrameInfo} (h : Packed index groups) (hgroup : groups[i]? = some group) :
    chunkFrames groups.flatten (index + i) = group := by
  induction groups generalizing index i with
  | nil => cases hgroup
  | cons first groups ih =>
      obtain ⟨_, hrun, hrest⟩ := h
      rw [List.flatten_cons, chunkFrames, List.filter_append]
      cases i with
      | zero =>
          obtain rfl := Option.some.inj hgroup
          have hall : first.filter (fun frame => decide (frame.chunkIndex = index + 0)) = first := by
            rw [List.filter_eq_self]
            intro frame hframe
            exact decide_eq_true (hrun.index frame hframe)
          have hnone : groups.flatten.filter (fun frame => decide (frame.chunkIndex = index + 0)) =
              [] := by
            rw [List.filter_eq_nil_iff]
            intro frame hframe
            have := hrest.le_index frame hframe
            simp only [decide_eq_true_eq]
            omega
          rw [hall, hnone, List.append_nil]
      | succ i =>
          have hnone : first.filter (fun frame => decide (frame.chunkIndex = index + (i + 1))) =
              [] := by
            rw [List.filter_eq_nil_iff]
            intro frame hframe
            have := hrun.index frame hframe
            simp only [decide_eq_true_eq]
            omega
          have htail := ih hrest hgroup
          rw [chunkFrames, Nat.add_assoc, Nat.add_comm 1] at htail
          rw [hnone, htail, List.nil_append]

/-- The chunk table: chunk `i` is group `i`. -/
theorem chunkTable_get {index start : Nat} {groups : List (List FrameInfo)} {i : Nat} {chunk : Chunk}
    (h : (chunkTable index start groups)[i]? = some chunk) (before : List FrameInfo)
    (hbefore : before.length = start) :
    ∃ group, groups[i]? = some group ∧ chunk.chunkIndex = index + i ∧ chunk.byteStart = 0 ∧
      slice (before ++ groups.flatten) chunk.startFrame chunk.endFrame = group := by
  induction groups generalizing index start i before with
  | nil => cases h
  | cons group groups ih =>
      cases i with
      | zero =>
          obtain rfl := Option.some.inj h
          refine ⟨group, rfl, rfl, rfl, ?_⟩
          rw [List.flatten_cons, ← hbefore]
          exact slice_middle
      | succ i =>
          obtain ⟨found, hfound, hindex, hstart, hslice⟩ := ih h (before ++ group) (by simp [hbefore])
          refine ⟨found, hfound, by omega, hstart, ?_⟩
          rwa [List.flatten_cons, ← List.append_assoc]

theorem tiles_chunkTable (index start : Nat) (groups : List (List FrameInfo)) :
    Tiles start (start + groups.flatten.length)
      ((chunkTable index start groups).map fun chunk => (chunk.startFrame, chunk.endFrame)) := by
  induction groups generalizing index start with
  | nil => rfl
  | cons group groups ih =>
      refine ⟨rfl, Nat.le_add_right _ _, ?_⟩
      have := ih (index + 1) (start + group.length)
      rwa [List.flatten_cons, List.length_append, ← Nat.add_assoc]

theorem map_chunkIndex_chunkTable (index start : Nat) (groups : List (List FrameInfo)) :
    (chunkTable index start groups).map Chunk.chunkIndex = List.range' index groups.length := by
  induction groups generalizing index start with
  | nil => rfl
  | cons group groups ih =>
      rw [chunkTable, List.map_cons, ih, List.length_cons, List.range'_succ]

section Slices

variable {index : Nat} {group : List FrameInfo} {chunk : Chunk} {bytes : Bytes}

/-- A frame's slice of a whole chunk. -/
theorem sliceArchiveFrame_eq (hstart : chunk.byteStart = 0) {frame : FrameInfo}
    (hfit : frame.chunkOffset + frame.compressedLen < 2 ^ 64) (frameIdx chunkIdx : Nat) :
    sliceArchiveFrame bytes chunk frame frameIdx chunkIdx =
      if bytes.length < frame.chunkOffset + frame.compressedLen then
        .error (.outOfBounds frameIdx frame.chunkOffset frame.compressedLen chunkIdx 0 bytes.length)
      else .ok (slice bytes (frameSpan frame).1 (frameSpan frame).2) := by
  rw [sliceArchiveFrame, hstart, if_neg (Nat.not_lt_zero _)]
  dsimp only
  rw [Nat.sub_zero, checkedAdd_ok hfit]
  rfl

/-- The results of a chunk's slices are those of its frames. -/
theorem map_snd_sliceChunk {frames : List FrameInfo} (hstart : chunk.byteStart = 0)
    (hgroup : slice frames chunk.startFrame chunk.endFrame = group) (hrun : FrameRun index 0 group)
    (hlong : chunkLen group ≤ bytes.length) (chunkIdx : Nat) :
    (sliceChunk frames chunkIdx chunk bytes).map Prod.snd =
      (group.map fun frame => slice bytes (frameSpan frame).1 (frameSpan frame).2).map .ok := by
  rw [sliceChunk, hgroup, List.map_map, List.map_map]
  have hzip : group = (group.zipIdx chunk.startFrame).map Prod.fst := (List.zipIdx_map_fst _ _).symm
  conv_rhs => rw [hzip]
  rw [List.map_map]
  refine List.map_congr_left fun pair hpair => ?_
  have hmem : pair.1 ∈ group := hzip ▸ List.mem_map_of_mem hpair
  have hspan := (hrun.tiles.mem (List.mem_map_of_mem hmem)).2.2
  have hend : pair.1.chunkOffset + pair.1.compressedLen ≤ 0 + chunkLen group := hspan
  show sliceArchiveFrame bytes chunk pair.1 pair.2 chunkIdx = _
  rw [sliceArchiveFrame_eq hstart (hrun.fits pair.1 hmem), if_neg (by omega)]
  rfl

/-- The last frame of a group ends where the group does. -/
theorem FrameRun.exists_last {start : Nat} (h : FrameRun index start group) (hne : group ≠ []) :
    ∃ frame ∈ group, frame.chunkOffset + frame.compressedLen = start + chunkLen group := by
  induction group generalizing start with
  | nil => exact absurd rfl hne
  | cons frame rest ih =>
      obtain ⟨_, hoffset, _, hrest⟩ := run_cons.mp h
      rw [chunkLen_cons, ← Nat.add_assoc]
      by_cases hnil : rest = []
      · refine ⟨frame, List.mem_cons_self, ?_⟩
        rw [hnil, hoffset]
        rfl
      · obtain ⟨last, hlast, hend⟩ := ih hrest hnil
        exact ⟨last, List.mem_cons_of_mem _ hlast, hend⟩

/-- Of a chunk that is too short some frame has no slice. -/
theorem sliceChunk_short {frames : List FrameInfo} (hstart : chunk.byteStart = 0)
    (hgroup : slice frames chunk.startFrame chunk.endFrame = group) (hrun : FrameRun index 0 group)
    (hne : group ≠ []) (hshort : bytes.length < chunkLen group) (chunkIdx : Nat) :
    ∃ frameIdx error, (frameIdx, Except.error error) ∈ sliceChunk frames chunkIdx chunk bytes := by
  obtain ⟨frame, hframe, hend⟩ := hrun.exists_last hne
  have hmem : frame ∈ (group.zipIdx chunk.startFrame).map Prod.fst := by
    rwa [List.zipIdx_map_fst]
  obtain ⟨⟨frame', frameIdx⟩, hpair, rfl⟩ := List.mem_map.mp hmem
  have hlast : bytes.length < frame'.chunkOffset + frame'.compressedLen := by
    dsimp only at hend
    omega
  refine ⟨frameIdx, .outOfBounds frameIdx frame'.chunkOffset frame'.compressedLen chunkIdx 0
    bytes.length, List.mem_map.mpr ⟨(frame', frameIdx), hgroup ▸ hpair, ?_⟩⟩
  show (frameIdx, sliceArchiveFrame bytes chunk frame' frameIdx chunkIdx) = _
  rw [sliceArchiveFrame_eq hstart (hrun.fits frame' hframe), if_pos hlast]

end Slices

theorem mem_filterMap_resultError {results : List (Except ExtractError Nat)} {error : ExtractError}
    (h : .error error ∈ results) : error ∈ results.filterMap resultError :=
  List.mem_filterMap.mpr ⟨_, h, rfl⟩

/-- An error of a frame is an error of the extractor. -/
theorem extractStats_error {table : MetadataChunk} {results : List (Except ExtractError Nat)}
    {error : ExtractError} (h : .error error ∈ results) (hlen : results.length ≤ table.frames.length)
    (target : Bool) : ∃ reported, extractStats table target results = .error reported := by
  have hcollected (expected : Nat) :
      ∃ reported, collectResults table.frames.length expected results = .error reported := by
    rw [collectResults, List.take_of_length_le hlen]
    by_cases hgone : results.length < table.frames.length
    · exact ⟨.disappeared, by simp only [if_pos hgone]; rfl⟩
    · -- no result is missing, so the last error is reported
      have hne := List.ne_nil_of_mem (mem_filterMap_resultError h)
      refine ⟨(results.filterMap resultError).getLast hne, ?_⟩
      simp only [if_neg hgone, List.getLast?_eq_getLast_of_ne_nil hne]
      rfl
  obtain ⟨reported, hreported⟩ := hcollected (if target then table.files.length else 0)
  rw [extractStats, hreported]
  cases rawTotal table.files with
  | error total => exact ⟨total, rfl⟩
  | ok total => exact ⟨reported, rfl⟩

/-! ## Agreement -/

/-- The lengths and the chunk table agree on which frames each archive chunk has. -/
structure ChunksAgree (frames : List FrameInfo) (lengths : List Nat) (chunks : List Chunk) : Prop where
  /-- Each chunk is as long as its frames together. -/
  sums : lengths = (List.range lengths.length).map fun index => chunkLen (chunkFrames frames index)
  /-- No frame is past the last chunk. -/
  index_lt : ∀ frame ∈ frames, frame.chunkIndex < lengths.length
  /-- The table has each chunk once, in order. -/
  indexes : chunks.map Chunk.chunkIndex = List.range lengths.length
  /-- Every frame belongs to one chunk of the table. -/
  unique : ∀ frameIdx < frames.length,
    ∃! chunk, chunk ∈ chunks ∧ chunk.startFrame ≤ frameIdx ∧ frameIdx < chunk.endFrame
  /-- A chunk of the table has the frames of the archive chunk. -/
  grouped : ∀ chunk ∈ chunks,
    slice frames chunk.startFrame chunk.endFrame = chunkFrames frames chunk.chunkIndex

/-- Every frame of the chunk has a slice of these bytes, and the slices tile its part of them. -/
structure ChunkSliced (frames : List FrameInfo) (chunk : Chunk) (bytes : Bytes) : Prop where
  slices : ∃ parts : List Bytes,
    (sliceChunk frames chunk.chunkIndex chunk bytes).map Prod.snd = parts.map .ok ∧
      parts.map List.length = (chunkFrames frames chunk.chunkIndex).map FrameInfo.compressedLen ∧
      parts.flatten = bytes.take (chunkLen (chunkFrames frames chunk.chunkIndex))

/-- The results of the chunk's frames, received together with those of others in whichever order, make
the extractor report an error. -/
def ChunkRefused (table : MetadataChunk) (chunk : Chunk) (bytes : Bytes) : Prop :=
  ∀ (write : Nat → Bytes → Except String Nat) (target : Bool)
    (others results : List (Except ExtractError Nat)),
    results.Perm ((sliceChunk table.frames chunk.chunkIndex chunk bytes).map (frameResult write) ++
      others) → results.length ≤ table.frames.length →
      ∃ error, extractStats table target results = .error error

theorem chunksAgree_packed {groups : List (List FrameInfo)} (hpacked : Packed 0 groups) :
    ChunksAgree groups.flatten (groups.map chunkLen) (chunkTable 0 0 groups) where
  sums := by
    rw [List.length_map]
    apply List.ext_getElem
    · simp
    · intro i hi _
      have hi : i < groups.length := by simpa using hi
      have hgroup := hpacked.chunkFrames_eq (List.getElem?_eq_getElem hi)
      rw [Nat.zero_add] at hgroup
      simp only [List.getElem_map, List.getElem_range, hgroup]
  index_lt frame hframe := by
    have := (hpacked.le_index frame hframe).2
    rwa [List.length_map, ← Nat.zero_add groups.length]
  indexes := by rw [map_chunkIndex_chunkTable, List.length_map, List.range_eq_range']
  unique frameIdx hlt := by
    have htiles := tiles_chunkTable 0 0 groups
    rw [Nat.zero_add] at htiles
    exact htiles.existsUnique (Nat.zero_le _) hlt
  grouped chunk hchunk := by
    obtain ⟨i, hi⟩ := List.getElem?_of_mem hchunk
    obtain ⟨group, hgroup, hindex, _, hslice⟩ := chunkTable_get hi [] rfl
    rw [hindex, hpacked.chunkFrames_eq hgroup]
    exact hslice

theorem Packed.get {index i : Nat} {groups : List (List FrameInfo)} {group : List FrameInfo}
    (h : Packed index groups) (hgroup : groups[i]? = some group) :
    group ≠ [] ∧ FrameRun (index + i) 0 group := by
  induction groups generalizing index i with
  | nil => cases hgroup
  | cons first groups ih =>
      obtain ⟨hne, hrun, hrest⟩ := h
      cases i with
      | zero =>
          obtain rfl := Option.some.inj hgroup
          exact ⟨hne, hrun⟩
      | succ i =>
          have := ih hrest hgroup
          rwa [Nat.add_assoc, Nat.add_comm 1] at this

/-- A chunk of the table is a group of the packing. -/
theorem Packed.chunk_run {groups : List (List FrameInfo)} {chunk : Chunk} (hpacked : Packed 0 groups)
    (hchunk : chunk ∈ chunkTable 0 0 groups) :
    chunk.byteStart = 0 ∧ chunkFrames groups.flatten chunk.chunkIndex ≠ [] ∧
      FrameRun chunk.chunkIndex 0 (chunkFrames groups.flatten chunk.chunkIndex) := by
  obtain ⟨i, hi⟩ := List.getElem?_of_mem hchunk
  obtain ⟨group, hgroup, hindex, hstart, _⟩ := chunkTable_get hi [] rfl
  rw [hindex, hpacked.chunkFrames_eq hgroup]
  exact ⟨hstart, hpacked.get hgroup⟩

theorem chunkSliced_packed {groups : List (List FrameInfo)} {chunk : Chunk} {bytes : Bytes}
    (hpacked : Packed 0 groups) (hchunk : chunk ∈ chunkTable 0 0 groups)
    (hlong : chunkLen (chunkFrames groups.flatten chunk.chunkIndex) ≤ bytes.length) :
    ChunkSliced groups.flatten chunk bytes := by
  obtain ⟨hstart, _, hrun⟩ := hpacked.chunk_run hchunk
  have hgroup := (chunksAgree_packed hpacked).grouped chunk hchunk
  refine ⟨_, map_snd_sliceChunk hstart hgroup hrun hlong _, ?_, ?_⟩
  · rw [List.map_map]
    refine List.map_congr_left fun frame hframe => ?_
    have hspan := hrun.tiles.mem (List.mem_map_of_mem hframe)
    show (slice bytes (frameSpan frame).1 (frameSpan frame).2).length = frame.compressedLen
    rw [length_slice (by omega), frameSpan]
    exact Nat.add_sub_cancel_left _ _
  · rw [← List.flatMap_def]
    have htiles : (_ : List (Nat × Nat)).flatMap (fun span => slice bytes span.1 span.2) = _ :=
      hrun.tiles.flatMap_slice
    rw [List.flatMap_map, Nat.zero_add] at htiles
    exact htiles

theorem chunkRefused_packed {table : MetadataChunk} {groups : List (List FrameInfo)} {chunk : Chunk}
    {bytes : Bytes} (hframes : table.frames = groups.flatten) (hpacked : Packed 0 groups)
    (hchunk : chunk ∈ chunkTable 0 0 groups)
    (hshort : bytes.length < chunkLen (chunkFrames groups.flatten chunk.chunkIndex)) :
    ChunkRefused table chunk bytes := by
  intro write target others results hperm hlen
  obtain ⟨hstart, hne, hrun⟩ := hpacked.chunk_run hchunk
  have hgroup := (chunksAgree_packed hpacked).grouped chunk hchunk
  obtain ⟨frameIdx, error, hmem⟩ := sliceChunk_short hstart hgroup hrun hne hshort chunk.chunkIndex
  have hresult : .error (.slice error) ∈ results := by
    rw [hperm.mem_iff, hframes]
    exact List.mem_append_left _ (List.mem_map.mpr ⟨_, hmem, rfl⟩)
  exact extractStats_error hresult hlen target

/-- Of an accepted table the chunk lengths are computed and are the lengths of the chunks' frames
together, and the chunk table has every frame in the one chunk it belongs to. Of chunk bytes that are at
least this long every frame is sliced, and the slices tile the chunk; of shorter ones a frame is out of
bounds, which is the extractor's error. -/
theorem chunks_slice_frames (table : MetadataChunk) (hvalid : table.validateGeometry = .ok ()) :
    ∃ lengths chunks, archiveChunkLengths table = .ok lengths ∧
      computeChunks table.frames wholeChunks = .ok chunks ∧
      ChunksAgree table.frames lengths chunks ∧
      ∀ chunk ∈ chunks, ∃ len, lengths[chunk.chunkIndex]? = some len ∧ ∀ bytes : Bytes,
        (len ≤ bytes.length → ChunkSliced table.frames chunk bytes) ∧
        (bytes.length < len → ChunkRefused table chunk bytes) := by
  obtain ⟨groups, hframes, hpacked⟩ := exists_packed (validateGeometry_ok.mp hvalid).frames
  have hagree := chunksAgree_packed hpacked
  refine ⟨groups.map chunkLen, chunkTable 0 0 groups, ?_, ?_, hframes ▸ hagree, ?_⟩
  · rw [archiveChunkLengths, hvalid, hframes]
    exact @growChunk_packed [] groups hpacked
  · rw [hframes]
    exact computeChunks_packed hpacked
  · intro chunk hchunk
    have hindex : chunk.chunkIndex ∈ List.range (groups.map chunkLen).length :=
      hagree.indexes ▸ List.mem_map_of_mem hchunk
    refine ⟨chunkLen (chunkFrames groups.flatten chunk.chunkIndex), ?_, fun bytes => ⟨?_, ?_⟩⟩
    · rw [hagree.sums, List.getElem?_map, List.getElem?_range (List.mem_range.mp hindex)]
      rfl
    · intro hlong
      rw [hframes]
      exact chunkSliced_packed hpacked hchunk hlong
    · exact chunkRefused_packed hframes hpacked hchunk

/-- Two chunks, the first of two frames. -/
def twoChunks : MetadataChunk where
  frames := [⟨0, 0, 3, 8⟩, ⟨0, 3, 2, 8⟩, ⟨1, 0, 4, 8⟩]
  files := []
  gitlinks := []

theorem two_chunks_sliced :
    twoChunks.validateGeometry = .ok () ∧ archiveChunkLengths twoChunks = .ok [5, 4] ∧
      ∃ lengths chunks, archiveChunkLengths twoChunks = .ok lengths ∧
        computeChunks twoChunks.frames wholeChunks = .ok chunks ∧
        ChunksAgree twoChunks.frames lengths chunks ∧
        ∀ chunk ∈ chunks, ∃ len, lengths[chunk.chunkIndex]? = some len ∧ ∀ bytes : Bytes,
          (len ≤ bytes.length → ChunkSliced twoChunks.frames chunk bytes) ∧
          (bytes.length < len → ChunkRefused twoChunks chunk bytes) :=
  ⟨by decide, by decide, chunks_slice_frames twoChunks (by decide)⟩

/-- A chunk that is longer than its frames is extracted, and its last byte is not read. -/
theorem longer_chunk_extracted :
    let table : MetadataChunk := ⟨[⟨0, 0, 2, 8⟩], [], []⟩
    let chunk : Chunk := ⟨0, 0, 1, 0, 2⟩
    table.validateGeometry = .ok () ∧ archiveChunkLengths table = .ok [2] ∧
      computeChunks table.frames wholeChunks = .ok [chunk] ∧
      sliceChunk table.frames 0 chunk [1, 2, 3] = [(0, .ok [1, 2])] ∧
      extractStats table true ((sliceChunk table.frames 0 chunk [1, 2, 3]).map
        (frameResult fun _ _ => .ok 0)) = .ok ⟨0, 0⟩ := by
  decide

end Ripclone
