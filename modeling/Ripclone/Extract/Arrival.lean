import Ripclone.Extract.Pipeline

/-!
# What arrives

A chunk of the table leads to one message for each of its frames, whether it was fetched or not. So of
different chunks no frame arrives twice, and which frames arrive is seen from the frame table alone.
-/

namespace Ripclone

open Ripclone.Library

/-- The message of a frame whose chunk has arrived. -/
def frameArrival (message : Nat × Except String Bytes) (frameIdx : Nat) (frame : FrameInfo) :
    Except ExtractError Bytes :=
  match message.2 with
  | .ok bytes =>
    if bytes.length < frame.chunkOffset + frame.compressedLen then
      .error (.slice (.outOfBounds frameIdx frame.chunkOffset frame.compressedLen message.1 0 bytes.length))
    else .ok (slice bytes frame.chunkOffset (frame.chunkOffset + frame.compressedLen))
  | .error error => .error (.writer s!"chunk {message.1} failed: {error}")

theorem mem_slice_zipIdx {α : Type} {xs : List α} {start stop k : Nat} {a : α} :
    (a, k) ∈ (slice xs start stop).zipIdx start ↔ start ≤ k ∧ k < stop ∧ xs[k]? = some a := by
  rw [List.mk_mem_zipIdx_iff_le_and_getElem?_sub, slice, List.getElem?_take, List.getElem?_drop]
  constructor
  · rintro ⟨hle, hget⟩
    split at hget
    · refine ⟨hle, by omega, ?_⟩
      rwa [Nat.add_sub_cancel' hle] at hget
    · cases hget
  · rintro ⟨hle, hlt, hget⟩
    refine ⟨hle, ?_⟩
    rwa [if_pos (by omega), Nat.add_sub_cancel' hle]

section Arrives

variable {groups : List (List FrameInfo)} {chunk : Chunk} {message : Nat × Except String Bytes}
  {table : MetadataChunk}

theorem endFrame_le (hchunk : chunk ∈ chunkTable 0 0 groups) : chunk.endFrame ≤ groups.flatten.length := by
  have htiles := tiles_chunkTable 0 0 groups
  rw [Nat.zero_add] at htiles
  exact (htiles.mem (List.mem_map_of_mem hchunk)).2.2

variable (hpacked : Packed 0 groups)

include hpacked

theorem chunk_frames (hchunk : chunk ∈ chunkTable 0 0 groups) {frameIdx : Nat} {frame : FrameInfo}
    (hframe : groups.flatten[frameIdx]? = some frame) (hstart : chunk.startFrame ≤ frameIdx)
    (hend : frameIdx < chunk.endFrame) : frame.chunkIndex = chunk.chunkIndex := by
  have hslice : (frame, frameIdx) ∈
      (slice groups.flatten chunk.startFrame chunk.endFrame).zipIdx chunk.startFrame :=
    mem_slice_zipIdx.mpr ⟨hstart, hend, hframe⟩
  have hmem : frame ∈ slice groups.flatten chunk.startFrame chunk.endFrame := by
    rw [← List.zipIdx_map_fst chunk.startFrame (slice _ _ _)]
    exact List.mem_map_of_mem hslice
  rw [(chunksAgree_packed hpacked).grouped chunk hchunk] at hmem
  exact of_decide_eq_true (List.mem_filter.mp hmem).2

/-- The chunk's frames are those that name it. -/
theorem mem_chunk (hchunk : chunk ∈ chunkTable 0 0 groups) {frameIdx : Nat} {frame : FrameInfo}
    (hframe : groups.flatten[frameIdx]? = some frame) :
    chunk.startFrame ≤ frameIdx ∧ frameIdx < chunk.endFrame ↔ frame.chunkIndex = chunk.chunkIndex := by
  have hagree := chunksAgree_packed hpacked
  constructor
  · rintro ⟨hstart, hend⟩
    exact chunk_frames hpacked hchunk hframe hstart hend
  · intro hindex
    obtain ⟨other, ⟨hother, hstart, hend⟩, _⟩ :=
      hagree.unique frameIdx (List.getElem?_eq_some_iff.mp hframe).1
    have hsame : other.chunkIndex = chunk.chunkIndex :=
      (chunk_frames hpacked hother hframe hstart hend).symm.trans hindex
    have hnodup : ((chunkTable 0 0 groups).map Chunk.chunkIndex).Nodup := by
      rw [hagree.indexes]
      exact List.nodup_range
    obtain rfl : other = chunk := List.inj_on_of_nodup_map hnodup hother hchunk hsame
    exact ⟨hstart, hend⟩

theorem find_chunk (hchunk : chunk ∈ chunkTable 0 0 groups) (hindex : chunk.chunkIndex = message.1) :
    (chunkTable 0 0 groups).find? (fun chunk => chunk.chunkIndex = message.1) = some chunk := by
  have hnodup : ((chunkTable 0 0 groups).map Chunk.chunkIndex).Nodup := by
    rw [(chunksAgree_packed hpacked).indexes]
    exact List.nodup_range
  cases hfind : (chunkTable 0 0 groups).find? fun chunk => chunk.chunkIndex = message.1 with
  | none => simpa [hindex] using List.find?_eq_none.mp hfind chunk hchunk
  | some other =>
      have hsame : other.chunkIndex = message.1 := by simpa using List.find?_some hfind
      rw [List.inj_on_of_nodup_map hnodup (List.mem_of_find?_eq_some hfind) hchunk (hsame.trans hindex.symm)]

theorem slice_arrival (hchunk : chunk ∈ chunkTable 0 0 groups)
    {bytes : Bytes} (hbytes : message.2 = .ok bytes) {frameIdx : Nat} {frame : FrameInfo}
    (hframe : groups.flatten[frameIdx]? = some frame) (hnames : frame.chunkIndex = chunk.chunkIndex) :
    (sliceArchiveFrame bytes chunk frame frameIdx message.1).mapError .slice =
      frameArrival message frameIdx frame := by
  obtain ⟨hstart, _, hrun⟩ := hpacked.chunk_run hchunk
  have hmem : frame ∈ chunkFrames groups.flatten chunk.chunkIndex :=
    List.mem_filter.mpr ⟨List.mem_of_getElem? hframe, decide_eq_true hnames⟩
  rw [sliceArchiveFrame_eq hstart (hrun.fits frame hmem), frameArrival, hbytes]
  dsimp only [frameSpan]
  split <;> rfl

/-- A chunk's messages are those of its frames. -/
theorem mem_frameMessages (hframes : table.frames = groups.flatten) (hchunk : chunk ∈ chunkTable 0 0 groups)
    (hindex : chunk.chunkIndex = message.1) {frameIdx : Nat} {arrival : Except ExtractError Bytes} :
    (frameIdx, arrival) ∈ frameMessages table (chunkTable 0 0 groups) message ↔
      ∃ frame, table.frames[frameIdx]? = some frame ∧ frame.chunkIndex = message.1 ∧
        arrival = frameArrival message frameIdx frame := by
  rw [frameMessages, find_chunk hpacked hchunk hindex, hframes, ← hindex]
  dsimp only
  cases hbytes : message.2 with
  | ok bytes =>
      simp only [sliceChunk, List.map_map, List.mem_map, Prod.exists, mem_slice_zipIdx, Function.comp,
        Prod.mk.injEq]
      constructor
      · rintro ⟨frame, _, ⟨hle, hlt, hframe⟩, rfl, rfl⟩
        have hnames := (mem_chunk hpacked hchunk hframe).mp ⟨hle, hlt⟩
        refine ⟨frame, hframe, hnames, ?_⟩
        rw [hindex]
        exact slice_arrival hpacked hchunk hbytes hframe hnames
      · rintro ⟨frame, hframe, hnames, rfl⟩
        obtain ⟨hle, hlt⟩ := (mem_chunk hpacked hchunk hframe).mpr hnames
        refine ⟨frame, frameIdx, ⟨hle, hlt, hframe⟩, rfl, ?_⟩
        rw [hindex]
        exact slice_arrival hpacked hchunk hbytes hframe hnames
  | error error =>
      simp only [List.mem_map, List.mem_range'_1, Prod.mk.injEq]
      constructor
      · rintro ⟨frameIdx, ⟨hle, hlt⟩, rfl, rfl⟩
        have hend := endFrame_le hchunk
        have hframe : groups.flatten[frameIdx]? = some groups.flatten[frameIdx] :=
          List.getElem?_eq_getElem (by omega)
        refine ⟨_, hframe, (mem_chunk hpacked hchunk hframe).mp ⟨hle, by omega⟩, ?_⟩
        rw [frameArrival, hbytes, hindex]
        rfl
      · rintro ⟨frame, hframe, hnames, rfl⟩
        obtain ⟨hle, hlt⟩ := (mem_chunk hpacked hchunk hframe).mpr hnames
        refine ⟨frameIdx, ⟨hle, by omega⟩, rfl, ?_⟩
        rw [frameArrival, hbytes, hindex]
        rfl

theorem nodup_frameMessages (table : MetadataChunk) (hchunk : chunk ∈ chunkTable 0 0 groups)
    (hindex : chunk.chunkIndex = message.1) :
    ((frameMessages table (chunkTable 0 0 groups) message).map Prod.fst).Nodup := by
  rw [frameMessages, find_chunk hpacked hchunk hindex]
  dsimp only
  cases message.2 with
  | ok bytes =>
      have hsnd : ((sliceChunk table.frames message.1 chunk bytes).map fun frame =>
          (frame.1, frame.2.mapError ExtractError.slice)).map Prod.fst =
          ((slice table.frames chunk.startFrame chunk.endFrame).zipIdx chunk.startFrame).map Prod.snd := by
        rw [sliceChunk, List.map_map, List.map_map]
        rfl
      rw [hsnd, List.zipIdx_map_snd]
      exact List.nodup_range'
  | error error =>
      rw [List.map_map]
      show ((List.range' chunk.startFrame _).map id).Nodup
      rw [List.map_id]
      exact List.nodup_range'

end Arrives

/-- Chunks that are known, each at most once. -/
structure ChunksOnce (table : MetadataChunk) (messages : List (Nat × Except String Bytes)) : Prop where
  known : ∀ message ∈ messages, ∃ frame ∈ table.frames, frame.chunkIndex = message.1
  once : (messages.map Prod.fst).Nodup

/-- What arrives of these chunks. -/
structure Arrives (table : MetadataChunk) (messages : List (Nat × Except String Bytes))
    (arrived : List (Nat × Except ExtractError Bytes)) : Prop where
  mem : ∀ frameIdx arrival, (frameIdx, arrival) ∈ arrived ↔ ∃ frame, table.frames[frameIdx]? = some frame ∧
    ∃ message ∈ messages, message.1 = frame.chunkIndex ∧ arrival = frameArrival message frameIdx frame
  once : (arrived.map Prod.fst).Nodup

theorem arrives_start {x : Extraction} {messages : List (Nat × Except String Bytes)} {s : PipelineState}
    (hvalid : x.table.validateGeometry = .ok ()) (hchunks : ChunksOnce x.table messages)
    (hstart : x.start messages = .ok s) :
    Arrives x.table messages s.arrived ∧ s.writers = [] ∧ s.pendingFiles = x.table.pendingFiles ∧
      s.files = [] ∧ s.results = [] := by
  obtain ⟨groups, hframes, hpacked⟩ := exists_packed (validateGeometry_ok.mp hvalid).frames
  obtain ⟨chunks, hcompute, hs⟩ := bind_eq_ok.mp hstart
  rw [hframes, computeChunks_packed hpacked] at hcompute
  obtain rfl := Except.ok.inj hcompute
  obtain rfl := pure_eq_ok.mp hs
  -- A message names a chunk of the table, so its frames are that chunk's.
  have hknown : ∀ message ∈ messages, ∃ chunk ∈ chunkTable 0 0 groups, chunk.chunkIndex = message.1 := by
    intro message hmessage
    obtain ⟨frame, hframe, hindex⟩ := hchunks.known message hmessage
    rw [hframes] at hframe
    obtain ⟨frameIdx, hget⟩ := List.getElem?_of_mem hframe
    obtain ⟨chunk, ⟨hchunk, hle, hlt⟩, _⟩ :=
      (chunksAgree_packed hpacked).unique frameIdx (List.getElem?_eq_some_iff.mp hget).1
    exact ⟨chunk, hchunk, ((mem_chunk hpacked hchunk hget).mp ⟨hle, hlt⟩).symm.trans hindex⟩
  refine ⟨⟨?_, ?_⟩, rfl, rfl, rfl, rfl⟩
  · intro frameIdx arrival
    rw [List.mem_flatMap]
    constructor
    · rintro ⟨message, hmessage, hmem⟩
      obtain ⟨chunk, hchunk, hindex⟩ := hknown message hmessage
      obtain ⟨frame, hframe, hnames, harrival⟩ := (mem_frameMessages hpacked hframes hchunk hindex).mp hmem
      exact ⟨frame, hframe, message, hmessage, hnames.symm, harrival⟩
    · rintro ⟨frame, hframe, message, hmessage, hnames, harrival⟩
      obtain ⟨chunk, hchunk, hindex⟩ := hknown message hmessage
      exact ⟨message, hmessage,
        (mem_frameMessages hpacked hframes hchunk hindex).mpr ⟨frame, hframe, hnames.symm, harrival⟩⟩
  · rw [List.map_flatMap, List.nodup_flatMap]
    constructor
    · intro message hmessage
      obtain ⟨chunk, hchunk, hindex⟩ := hknown message hmessage
      exact nodup_frameMessages hpacked x.table hchunk hindex
    · -- a frame that arrives of two chunks would name both
      refine (List.pairwise_map.mp hchunks.once).imp_of_mem ?_
      intro message message' hmessage hmessage' hne frameIdx hleft hright
      obtain ⟨chunk, hchunk, hindex⟩ := hknown message hmessage
      obtain ⟨chunk', hchunk', hindex'⟩ := hknown message' hmessage'
      obtain ⟨⟨_, arrival⟩, hmem, rfl⟩ := List.mem_map.mp hleft
      obtain ⟨⟨_, arrival'⟩, hmem', hsame⟩ := List.mem_map.mp hright
      dsimp only at hsame
      subst hsame
      obtain ⟨frame, hframe, hnames, _⟩ := (mem_frameMessages hpacked hframes hchunk hindex).mp hmem
      obtain ⟨frame', hframe', hnames', _⟩ := (mem_frameMessages hpacked hframes hchunk' hindex').mp hmem'
      obtain rfl := Option.some.inj (hframe.symm.trans hframe')
      exact hne (hnames.symm.trans hnames')

end Ripclone
