import Mathlib.Data.List.Perm.Subperm
import Ripclone.Extract.Going

/-!
# What an extraction returns

Whatever order the chunks arrive in and however the writers interleave, the extractor returns without an
error exactly when every frame arrived whole and every file made of the frames is the blob its entry
names. The files in the target directory are then those of the table (`extraction_exact`).
-/

namespace Ripclone

open Ripclone.Library Ripclone.Archive

theorem missing_all {left : List (Nat × Nat)} {fileIdx : Nat} {fragments : List Fragment}
    (hall : ∀ fragIdx < fragments.length, (fileIdx, fragIdx) ∈ left) (raws : Nat → Bytes) :
    slotsOf raws left fileIdx fragments = List.replicate fragments.length none ∧
      missing left fileIdx fragments = fragments.length := by
  have hslots : slotsOf raws left fileIdx fragments = List.replicate fragments.length none := by
    apply List.ext_getElem?
    intro fragIdx
    rw [slotsOf_getElem?, List.getElem?_replicate]
    by_cases hlt : fragIdx < fragments.length
    · rw [List.getElem?_eq_getElem hlt, Option.map_some, if_pos (hall fragIdx hlt), if_pos hlt]
    · rw [List.getElem?_eq_none (Nat.not_lt.mp hlt), if_neg hlt]
      rfl
  refine ⟨hslots, ?_⟩
  calc missing left fileIdx fragments
      _ = (slotsOf raws left fileIdx fragments).count none := count_slotsOf.symm
      _ = fragments.length := by rw [hslots, List.count_replicate_self]

theorem madeWrites_nil (table : MetadataChunk) (raws : Nat → Bytes) :
    table.madeWrites raws [] = (table.files.filter fun entry => decide (entry.fragments ≠ [])).map fun entry =>
      ⟨entry, entry.content raws⟩ := by
  have hzero (fileIdx : Nat) (fragments : List Fragment) : missing [] fileIdx fragments = 0 :=
    missing_eq_zero.mpr fun _ _ => List.not_mem_nil
  conv_rhs => rw [← List.zipIdx_map_fst 0 table.files]
  rw [MetadataChunk.madeWrites, List.filter_map, List.map_map]
  simp only [hzero, and_true]
  rfl

/-- The bytes a file's writes have are those of its fragments. -/
theorem fragmentsBytes_content {raws : List Bytes} {rawAt : Nat → Bytes} {entry : FileEntry}
    (hraws : ∀ fragment ∈ entry.fragments, raws[fragment.frameIndex]? = some (rawAt fragment.frameIndex) ∧
      fragment.frameOffset + fragment.rawLen ≤ (rawAt fragment.frameIndex).length) :
    fragmentsBytes raws entry.fragments = some (entry.content rawAt).bytes := by
  rw [fragmentsBytes, content_bytes, Option.map_eq_some_iff]
  refine ⟨_, ?_, rfl⟩
  generalize entry.fragments = fragments at hraws
  induction fragments with
  | nil => rfl
  | cons fragment rest ih =>
      obtain ⟨⟨hraw, hfits⟩, hrest⟩ := List.forall_mem_cons.mp hraws
      have hfirst : fragmentBytes raws fragment = some (fragment.sliceOf rawAt).bytes := by
        rw [fragmentBytes, hraw, Option.bind_some, if_pos hfits, slice, Nat.add_sub_cancel_left]
        rfl
      rw [List.mapM_cons, hfirst, List.map_cons]
      show (do
        let tail ← rest.mapM (fragmentBytes raws)
        return (fragment.sliceOf rawAt).bytes :: tail) = _
      rw [ih hrest]
      rfl

namespace Extraction

variable (x : Extraction) (messages : List (Nat × Except String Bytes))

/-- The frame's bytes came with its chunk, and are unpacked to `raw`. -/
def FrameRight (frameIdx : Nat) (frame : FrameInfo) (raw : Bytes) : Prop :=
  ∃ bytes, (frame.chunkIndex, .ok bytes) ∈ messages ∧
    frame.chunkOffset + frame.compressedLen ≤ bytes.length ∧
    x.decompressFrame (slice bytes frame.chunkOffset (frame.chunkOffset + frame.compressedLen)) frame frameIdx =
      .ok raw ∧ raw.length = frame.rawLen

/-- These are the frames, and the files made of them have the contents their entries name. -/
structure Whole (raws : List Bytes) : Prop where
  length : raws.length = x.table.frames.length
  frames : ∀ frameIdx frame raw, x.table.frames[frameIdx]? = some frame → raws[frameIdx]? = some raw →
    x.FrameRight messages frameIdx frame raw
  files : ∀ entry ∈ x.table.files, entry.fragments ≠ [] →
    ∃ content, fragmentsBytes raws entry.fragments = some content ∧ x.blobId content = entry.blobSha1

/-- The files of the table are in the target directory, each once and with the content it should have. -/
structure Placed (raws : List Bytes) (files : List OwnedFileWrite) : Prop where
  entries : (files.map OwnedFileWrite.entry).Perm x.table.files
  content : ∀ write ∈ files, fragmentsBytes raws write.entry.fragments = some write.content.bytes

variable {x messages} {arrived : List (Nat × Except ExtractError Bytes)} {s : PipelineState}

/-- Every frame has arrived. -/
def AllArrive (x : Extraction) (arrived : List (Nat × Except ExtractError Bytes)) : Prop :=
  ∀ frameIdx < x.table.frames.length, frameIdx ∈ arrived.map Prod.fst

theorem arrives_lt (h : Arrives x.table messages arrived) {frameIdx : Nat}
    (hmem : frameIdx ∈ arrived.map Prod.fst) : frameIdx < x.table.frames.length := by
  obtain ⟨⟨_, arrival⟩, harrival, rfl⟩ := List.mem_map.mp hmem
  obtain ⟨frame, hframe, _⟩ := (h.mem _ _).mp harrival
  exact (List.getElem?_eq_some_iff.mp hframe).1

theorem arrives_subset (h : Arrives x.table messages arrived) :
    arrived.map Prod.fst ⊆ List.range x.table.frames.length :=
  fun _ hmem => List.mem_range.mpr (arrives_lt h hmem)

/-- Every frame arrives, or there are fewer messages than frames. -/
theorem allArrive_iff (h : Arrives x.table messages arrived) :
    x.AllArrive arrived ↔ arrived.length = x.table.frames.length := by
  have hsub := h.once.subperm (arrives_subset h)
  constructor
  · intro hall
    have hperm : (arrived.map Prod.fst).Perm (List.range x.table.frames.length) :=
      hsub.antisymm (List.nodup_range.subperm fun _ hmem => hall _ (List.mem_range.mp hmem))
    rw [← List.length_map Prod.fst, hperm.length_eq, List.length_range]
  · intro hlen frameIdx hlt
    have hperm := hsub.perm_of_length_le (by rw [List.length_map, List.length_range, hlen])
    exact hperm.mem_iff.mpr (List.mem_range.mpr hlt)

/-! ## Sound frames and files -/

/-- What is unpacked of a frame that is right. -/
theorem FrameRight.take (h : Arrives x.table messages arrived) (hchunks : ChunksOnce x.table messages)
    {frameIdx : Nat} {frame : FrameInfo} {raw : Bytes} (hframe : x.table.frames[frameIdx]? = some frame)
    (hright : x.FrameRight messages frameIdx frame raw) (hindex : frameIdx < 2 ^ 32)
    {arrival : Except ExtractError Bytes} (hmem : (frameIdx, arrival) ∈ arrived) :
    x.takeFrame (frameIdx, arrival) = .ok ⟨frameIdx, raw, x.table.fragmentsByFrame frameIdx, [], 0⟩ := by
  obtain ⟨bytes, hbytes, hfits, hraw, hlen⟩ := hright
  obtain ⟨frame', hframe', message, hmessage, hnames, rfl⟩ := (h.mem _ _).mp hmem
  obtain rfl := Option.some.inj (hframe.symm.trans hframe')
  obtain rfl : message = (frame.chunkIndex, .ok bytes) :=
    List.inj_on_of_nodup_map hchunks.once hmessage hbytes hnames
  refine takeFrame_ok.mpr ⟨_, frame, raw, ?_, hframe, hraw, hlen, hindex, rfl⟩
  exact if_neg (Nat.not_lt.mpr hfits)

theorem FrameRight.arrives (h : Arrives x.table messages arrived) {frameIdx : Nat} {frame : FrameInfo}
    {raw : Bytes} (hframe : x.table.frames[frameIdx]? = some frame)
    (hright : x.FrameRight messages frameIdx frame raw) : frameIdx ∈ arrived.map Prod.fst := by
  obtain ⟨bytes, hbytes, _⟩ := hright
  exact List.mem_map_of_mem ((h.mem frameIdx _).mpr ⟨frame, hframe, _, hbytes, rfl, rfl⟩)

/-- The bytes a frame is unpacked to are right. -/
theorem frameRight_of_take (h : Arrives x.table messages arrived)
    {message : Nat × Except ExtractError Bytes} (hmem : message ∈ arrived) {writer : FrameWriter}
    (htake : x.takeFrame message = .ok writer) {frame : FrameInfo}
    (hframe : x.table.frames[message.1]? = some frame) :
    x.FrameRight messages message.1 frame writer.raw ∧ message.1 < 2 ^ 32 := by
  obtain ⟨compressed, frame', raw, hcompressed, hframe', hraw, hlen, hindex, rfl⟩ := takeFrame_ok.mp htake
  obtain rfl := Option.some.inj (hframe.symm.trans hframe')
  obtain ⟨frame'', hframe'', ⟨index, reply⟩, hmessage, rfl, harrival⟩ := (h.mem _ _).mp hmem
  obtain rfl := Option.some.inj (hframe.symm.trans hframe'')
  rw [hcompressed, frameArrival] at harrival
  dsimp only at harrival
  cases reply with
  | error error => cases harrival
  | ok bytes =>
      dsimp only at harrival
      split at harrival
      · cases harrival
      · next hfits =>
          obtain rfl := Except.ok.inj harrival
          exact ⟨⟨bytes, hmessage, Nat.not_lt.mp hfits, hraw, hlen⟩, hindex⟩

/-- The raw bytes of all frames. -/
def rawsOf (x : Extraction) (arrived : List (Nat × Except ExtractError Bytes)) : List Bytes :=
  (List.range x.table.frames.length).map (x.rawOf arrived)

theorem rawsOf_getElem? {frameIdx : Nat} (hlt : frameIdx < x.table.frames.length) :
    (x.rawsOf arrived)[frameIdx]? = some (x.rawOf arrived frameIdx) := by
  rw [rawsOf, List.getElem?_map, List.getElem?_range hlt]
  rfl

/-- A file's fragments, over frames as long as the table says. -/
theorem fragmentsBytes_rawsOf (hvalid : x.table.Valid)
    (hlens : ∀ frameIdx frame, x.table.frames[frameIdx]? = some frame →
      (x.rawOf arrived frameIdx).length = frame.rawLen)
    {entry : FileEntry} (hentry : entry ∈ x.table.files) :
    fragmentsBytes (x.rawsOf arrived) entry.fragments = some (entry.content (x.rawOf arrived)).bytes := by
  apply fragmentsBytes_content
  intro fragment hfragment
  obtain ⟨frame, hframe, _, hinside⟩ := (hvalid.files entry hentry).fragments fragment hfragment
  refine ⟨rawsOf_getElem? (List.getElem?_eq_some_iff.mp hframe).1, ?_⟩
  rwa [hlens _ frame hframe]

section Sound

variable (hvalid : x.table.Valid) (hchunks : ChunksOnce x.table messages)
  (h : Arrives x.table messages arrived)

include hvalid hchunks h

omit hchunks in
theorem Sound.whole (hsound : x.Sound arrived) (hall : x.AllArrive arrived) :
    x.Whole messages (x.rawsOf arrived) ∧ x.table.frames.length ≤ 2 ^ 32 := by
  have hright : ∀ frameIdx frame, x.table.frames[frameIdx]? = some frame →
      x.FrameRight messages frameIdx frame (x.rawOf arrived frameIdx) ∧ frameIdx < 2 ^ 32 := by
    intro frameIdx frame hframe
    obtain ⟨message, hmem, rfl⟩ := List.mem_map.mp (hall _ (List.getElem?_eq_some_iff.mp hframe).1)
    obtain ⟨writer, htake⟩ := hsound.taken message hmem
    rw [rawOf_of_mem h.once hmem htake]
    exact frameRight_of_take h hmem htake hframe
  refine ⟨⟨?_, ?_, ?_⟩, ?_⟩
  · rw [rawsOf, List.length_map, List.length_range]
  · intro frameIdx frame raw hframe hraw
    rw [rawsOf_getElem? (List.getElem?_eq_some_iff.mp hframe).1] at hraw
    obtain rfl := Option.some.inj hraw
    exact (hright frameIdx frame hframe).1
  · intro entry hentry hne
    refine ⟨_, fragmentsBytes_rawsOf hvalid ?_ hentry, hsound.right entry hentry hne⟩
    intro frameIdx frame hframe
    obtain ⟨⟨_, _, _, _, hlen⟩, _⟩ := hright frameIdx frame hframe
    exact hlen
  · rcases Nat.eq_zero_or_pos x.table.frames.length with hzero | hpos
    · omega
    · have hlast := (hright (x.table.frames.length - 1) _
        (List.getElem?_eq_getElem (by omega : x.table.frames.length - 1 < _))).2
      omega

theorem Whole.sound {raws : List Bytes} (hwhole : x.Whole messages raws)
    (hindex : x.table.frames.length ≤ 2 ^ 32) : x.Sound arrived ∧ x.AllArrive arrived := by
  have hframe : ∀ frameIdx frame, x.table.frames[frameIdx]? = some frame →
      ∃ raw, raws[frameIdx]? = some raw ∧ x.FrameRight messages frameIdx frame raw := by
    intro frameIdx frame hframe
    have hlt : frameIdx < raws.length := hwhole.length ▸ (List.getElem?_eq_some_iff.mp hframe).1
    have hget : raws[frameIdx]? = some raws[frameIdx] := List.getElem?_eq_getElem hlt
    exact ⟨_, hget, hwhole.frames frameIdx frame _ hframe hget⟩
  have htake : ∀ message ∈ arrived, ∃ raw, raws[message.1]? = some raw ∧ x.takeFrame message =
      .ok ⟨message.1, raw, x.table.fragmentsByFrame message.1, [], 0⟩ := by
    rintro ⟨frameIdx, arrival⟩ hmem
    have hlt := arrives_lt h (List.mem_map_of_mem hmem)
    obtain ⟨raw, hraw, hright⟩ := hframe frameIdx _ (List.getElem?_eq_getElem hlt)
    exact ⟨raw, hraw, hright.take h hchunks (List.getElem?_eq_getElem hlt) (by omega) hmem⟩
  have hall : x.AllArrive arrived := by
    intro frameIdx hlt
    obtain ⟨raw, _, hright⟩ := hframe frameIdx _ (List.getElem?_eq_getElem hlt)
    exact hright.arrives h (List.getElem?_eq_getElem hlt)
  -- What a frame unpacks to does not depend on when it is taken.
  have hrawOf : ∀ frameIdx < x.table.frames.length, raws[frameIdx]? = some (x.rawOf arrived frameIdx) := by
    intro frameIdx hlt
    obtain ⟨message, hmem, rfl⟩ := List.mem_map.mp (hall frameIdx hlt)
    obtain ⟨raw, hraw, htaken⟩ := htake message hmem
    rw [hraw, rawOf_of_mem h.once hmem htaken]
  have hraws : raws = x.rawsOf arrived := by
    apply List.ext_getElem?
    intro frameIdx
    by_cases hlt : frameIdx < x.table.frames.length
    · rw [hrawOf frameIdx hlt, rawsOf_getElem? hlt]
    · rw [List.getElem?_eq_none (by rw [hwhole.length]; omega),
        List.getElem?_eq_none (by rw [rawsOf, List.length_map, List.length_range]; omega)]
  refine ⟨⟨?_, ?_⟩, hall⟩
  · intro message hmem
    obtain ⟨raw, _, htaken⟩ := htake message hmem
    exact ⟨_, htaken⟩
  intro entry hentry hne
  obtain ⟨content, hcontent, hright⟩ := hwhole.files entry hentry hne
  rw [hraws, fragmentsBytes_rawsOf hvalid ?_ hentry] at hcontent
  · rw [Option.some.inj hcontent]
    exact hright
  · intro frameIdx frame hget
    obtain ⟨raw, hraw, _, _, _, _, hlen⟩ := hframe frameIdx frame hget
    rw [hrawOf frameIdx (List.getElem?_eq_some_iff.mp hget).1] at hraw
    rw [Option.some.inj hraw]
    exact hlen

end Sound

/-! ## Runs -/

/-- At the start nothing has failed, when every frame will arrive. -/
theorem Going.start (hvalid : x.table.Valid) (h : Arrives x.table messages s.arrived)
    (hall : x.AllArrive s.arrived) (hwriters : s.writers = []) (hpending : s.pendingFiles = x.table.pendingFiles)
    (hfiles : s.files = []) (hresults : s.results = []) : x.Going s.arrived s := by
  have hleft : x.left s = s.arrived.flatMap fun message => x.table.fragmentsByFrame message.1 := by
    rw [left, hwriters, List.flatMap_nil, List.append_nil]
  have hmem : ∀ entry fileIdx, x.table.files[fileIdx]? = some entry →
      ∀ fragIdx < entry.fragments.length, (fileIdx, fragIdx) ∈ x.left s := by
    intro entry fileIdx hentry fragIdx hlt
    have hfragment := List.getElem?_eq_getElem hlt
    obtain ⟨frame, hframe, _⟩ := (hvalid.files entry (List.mem_of_getElem? hentry)).fragments _
      (List.mem_of_getElem? hfragment)
    obtain ⟨message, hmessage, hindex⟩ := List.mem_map.mp (hall _ (List.getElem?_eq_some_iff.mp hframe).1)
    rw [hleft]
    exact List.mem_flatMap.mpr ⟨message, hmessage,
      mem_fragmentsByFrame.mpr ⟨entry, _, hentry, hfragment, hindex.symm⟩⟩
  have hmissing : ∀ entry fileIdx, x.table.files[fileIdx]? = some entry → entry.fragments ≠ [] →
      missing (x.left s) fileIdx entry.fragments ≠ 0 := by
    intro entry fileIdx hentry hne hzero
    rw [(missing_all (hmem entry fileIdx hentry) fun _ => []).2] at hzero
    exact hne (List.length_eq_zero_iff.mp hzero)
  refine ⟨fun _ hmessage => hmessage, ?_, fun _ hmessage => .inl hmessage, ?_, ?_, ?_, ?_, ?_, ?_⟩
  · rw [hleft, List.nodup_flatMap]
    refine ⟨fun message _ => nodup_fragmentsByFrame _ _, (List.pairwise_map.mp h.once).imp ?_⟩
    rintro message message' hne ⟨fileIdx, fragIdx⟩ hpair hpair'
    -- a fragment is in one frame only
    obtain ⟨entry, fragment, hentry, hfragment, hindex⟩ := mem_fragmentsByFrame.mp hpair
    obtain ⟨entry', fragment', hentry', hfragment', hindex'⟩ := mem_fragmentsByFrame.mp hpair'
    obtain rfl := Option.some.inj (hentry.symm.trans hentry')
    obtain rfl := Option.some.inj (hfragment.symm.trans hfragment')
    exact hne (hindex.symm.trans hindex')
  · intro writer hwriter
    rw [hwriters] at hwriter
    cases hwriter
  · rw [hpending]
    funext fileIdx
    rw [MetadataChunk.pendingFiles, MetadataChunk.pendingOf]
    cases hentry : x.table.files[fileIdx]? with
    | none => rfl
    | some entry =>
        obtain ⟨hslots, hcount⟩ := missing_all (hmem entry fileIdx hentry) (x.rawOf s.arrived)
        rw [Option.bind_some, Option.bind_some, hslots, hcount]
        by_cases hmulti : 1 < entry.fragments.length
        · rw [if_pos hmulti, if_pos ⟨hmulti, by omega⟩]
        · rw [if_neg hmulti, if_neg fun hboth => hmulti hboth.1]
  · have hnone : x.table.madeWrites (x.rawOf s.arrived) (x.left s) = [] := by
      rw [MetadataChunk.madeWrites, List.map_eq_nil_iff, List.filter_eq_nil_iff]
      rintro ⟨entry, fileIdx⟩ hentry hmade
      obtain ⟨hne, hzero⟩ := of_decide_eq_true hmade
      exact hmissing entry fileIdx (List.mk_mem_zipIdx_iff_getElem?.mp hentry) hne hzero
    rw [hnone, hfiles, hwriters, ite_self]
    exact List.Perm.nil
  · intro entry fileIdx hentry hne hzero
    exact absurd hzero (hmissing entry fileIdx hentry hne)
  · rw [hresults, hwriters, hfiles]
    rfl
  · intro result hresult
    rw [hresults] at hresult
    cases hresult

/-- Each frame is somewhere, and what was sent stays sent. -/
theorem step_counts {e : ExtractEvent} {s' : PipelineState} (hstep : x.Step s e s') :
    s'.arrived.length + s'.writers.length + s'.results.length =
      s.arrived.length + s.writers.length + s.results.length ∧ s.results ⊆ s'.results := by
  have herase {α : Type} {xs : List α} {i : Nat} {a : α} (h : xs[i]? = some a) :
      (xs.eraseIdx i).length + 1 = xs.length := by
    have hlt := (List.getElem?_eq_some_iff.mp h).1
    rw [List.length_eraseIdx_of_lt hlt]
    omega
  -- A step moves one frame on: from those that arrived to the writers, or from the writers to the results.
  cases e with
  | take k =>
      obtain ⟨message, hmessage, rfl⟩ := Option.map_eq_some_iff.mp hstep
      have := herase hmessage
      dsimp only
      cases x.takeFrame message with
      | ok writer => exact ⟨by simp only [List.length_append, List.length_singleton]; omega, fun _ h => h⟩
      | error error =>
          exact ⟨by simp only [List.length_append, List.length_singleton]; omega, List.subset_append_left _ _⟩
  | advance i =>
      obtain ⟨writer, hwriter, hstep⟩ := Option.bind_eq_some_iff.mp hstep
      have := herase hwriter
      split at hstep
      · cases hstep
      · obtain rfl := Option.some.inj hstep
        unfold advance
        split
        · exact ⟨by simp only [finish, List.length_append, List.length_singleton]; omega,
            List.subset_append_left _ _⟩
        · dsimp only
          split
          · exact ⟨by simp only [finish, List.length_append, List.length_singleton]; omega,
              List.subset_append_left _ _⟩
          · exact ⟨by simp only [List.length_set], fun _ h => h⟩
  | write i failed =>
      obtain ⟨writer, hwriter, hstep⟩ := Option.bind_eq_some_iff.mp hstep
      have := herase hwriter
      split at hstep
      · obtain rfl := Option.some.inj hstep
        unfold writeBatch
        split
        · exact ⟨by simp only [finish, List.length_append, List.length_singleton]; omega,
            List.subset_append_left _ _⟩
        · dsimp only
          split
          · exact ⟨by simp only [finish, List.length_append, List.length_singleton]; omega,
              List.subset_append_left _ _⟩
          · exact ⟨by simp only [List.length_set], fun _ h => h⟩
      · cases hstep

/-- What holds of every run when all frames arrive: it goes on, or it has failed for a reason. -/
theorem going_or_failed {start : PipelineState} {es : List ExtractEvent} (hvalid : x.table.Valid)
    (h : Arrives x.table messages start.arrived) (hgoing : x.Going start.arrived start)
    (hrun : Run x.Step start es s) :
    (x.Going start.arrived s ∧ ∀ e ∈ es, e.failed = false) ∨
      (∃ error, .error error ∈ s.results) ∧ ((∃ e ∈ es, e.failed = true) ∨ ¬ x.Sound start.arrived) := by
  refine hrun.invariant_history (I := fun es s => (x.Going start.arrived s ∧ ∀ e ∈ es, e.failed = false) ∨
      (∃ error, .error error ∈ s.results) ∧ ((∃ e ∈ es, e.failed = true) ∨ ¬ x.Sound start.arrived))
    (.inl ⟨hgoing, fun _ h => by cases h⟩) ?_
  intro es e s s' _ hinv hstep
  rcases hinv with ⟨hgoing, hnone⟩ | ⟨⟨error, herror⟩, hcause⟩
  · rcases hgoing.step hvalid h.once hstep with ⟨hgoing', he⟩ | ⟨herror, hcause⟩
    · refine .inl ⟨hgoing', fun e' he' => ?_⟩
      rcases List.mem_append.mp he' with he' | he'
      · exact hnone e' he'
      · rw [List.mem_singleton.mp he']
        exact he
    · refine .inr ⟨herror, hcause.imp_left fun he => ?_⟩
      exact ⟨e, List.mem_append_right _ (List.mem_singleton.mpr rfl), he⟩
  · refine .inr ⟨⟨error, (step_counts hstep).2 herror⟩, hcause.imp_left ?_⟩
    rintro ⟨e', he', hfailed⟩
    exact ⟨e', List.mem_append_left _ he', hfailed⟩

/-- Results without an error, one for each frame. -/
theorem extractStats_fine {table : MetadataChunk} {results : List (Except ExtractError Nat)}
    (hlen : results.length = table.frames.length) (hfine : ∀ result ∈ results, ∃ written, result = .ok written)
    (target : Bool) {stats : ExtractStats} : extractStats table target results = .ok stats ↔
      rawTotal table.files = .ok stats.rawBytes ∧ stats.files = (results.filterMap Except.toOption).sum ∧
        stats.files = if target then table.files.length else 0 := by
  have hnone : results.filterMap resultError = [] := by
    rw [List.filterMap_eq_nil_iff]
    intro result hresult
    obtain ⟨written, rfl⟩ := hfine result hresult
    rfl
  have hcollect (expected : Nat) : collectResults table.frames.length expected results =
      if (results.filterMap Except.toOption).sum ≠ expected then
        throw (.count (results.filterMap Except.toOption).sum expected table.frames.length)
      else return (results.filterMap Except.toOption).sum := by
    rw [collectResults, ← hlen, List.take_length]
    simp only [Nat.lt_irrefl, ↓reduceIte, hnone, List.getLast?_nil]
  rw [extractStats, hcollect, bind_eq_ok]
  constructor
  · rintro ⟨rawBytes, hraw, h⟩
    obtain ⟨files, hfiles, h⟩ := bind_eq_ok.mp h
    obtain ⟨hexpected, hsum⟩ := ite_throw_eq_ok.mp hfiles
    obtain rfl := pure_eq_ok.mp h
    obtain rfl := pure_eq_ok.mp hsum
    exact ⟨hraw, rfl, not_not.mp hexpected⟩
  · rintro ⟨hraw, hsum, hexpected⟩
    refine ⟨_, hraw, bind_eq_ok.mpr ⟨stats.files, ?_, rfl⟩⟩
    rw [← hsum]
    exact ite_throw_eq_ok.mpr ⟨not_not.mpr hexpected, rfl⟩

/-- A writer is gone that should have sent a result. -/
theorem extractStats_few {table : MetadataChunk} {results : List (Except ExtractError Nat)}
    (hlen : results.length < table.frames.length) (target : Bool) :
    ∃ error, extractStats table target results = .error error := by
  have hcollect (expected : Nat) :
      collectResults table.frames.length expected results = .error .disappeared := by
    rw [collectResults, List.take_of_length_le (Nat.le_of_lt hlen)]
    simp only [if_pos hlen]
    rfl
  rw [extractStats, hcollect]
  cases rawTotal table.files with
  | error error => exact ⟨error, rfl⟩
  | ok total => exact ⟨.disappeared, rfl⟩

/-- With no frames there is no file that could be written. -/
theorem made_files (hvalid : x.table.Valid) : (x.table.files.filter fun entry => decide (entry.fragments ≠ [])) =
    if x.table.frames = [] then [] else x.table.files := by
  split
  · next hnone =>
      rw [List.filter_eq_nil_iff]
      intro entry hentry hne
      obtain ⟨fragment, hfragment⟩ := List.exists_mem_of_ne_nil _ (of_decide_eq_true hne)
      obtain ⟨frame, hframe, _⟩ := (hvalid.files entry hentry).fragments fragment hfragment
      rw [hnone] at hframe
      cases hframe
  · next hsome =>
      rw [List.filter_eq_self]
      intro entry hentry
      exact decide_eq_true fun hnil => hsome ((hvalid.files entry hentry).some_fragment hnil)

/-- The end of an extraction of which nothing has failed. -/
theorem Going.done (hvalid : x.table.Valid) (hgoing : x.Going arrived s)
    (harrived : s.arrived = []) (hwriters : s.writers = []) :
    x.Sound arrived ∧ s.files.length = (s.results.filterMap Except.toOption).sum ∧
      s.files.Perm (if x.target ∧ x.table.frames ≠ [] then
        x.table.files.map fun entry => ⟨entry, entry.content (x.rawOf arrived)⟩ else []) := by
  have hleft : x.left s = [] := by
    rw [left, harrived, hwriters]
    rfl
  refine ⟨⟨?_, ?_⟩, ?_, ?_⟩
  · intro message hmem
    rcases hgoing.taken message hmem with hin | htaken
    · rw [harrived] at hin
      cases hin
    · exact htaken
  · intro entry hentry hne
    obtain ⟨fileIdx, hget⟩ := List.getElem?_of_mem hentry
    refine hgoing.right entry fileIdx hget hne ?_
    rw [hleft]
    exact missing_eq_zero.mpr fun _ _ => List.not_mem_nil
  · rw [← hgoing.counted, hwriters]
    rfl
  · have hwrites := hgoing.writes
    rw [hwriters, hleft, List.flatMap_nil, List.append_nil, madeWrites_nil, made_files hvalid] at hwrites
    refine hwrites.trans (List.Perm.of_eq ?_)
    cases x.target with
    | false => simp
    | true => by_cases hnone : x.table.frames = [] <;> simp [hnone]

variable (x messages) in
/-- What the result says about the run `es` that led to it. -/
structure ResultExact (es : List ExtractEvent) (s : PipelineState) : Prop where
  ok_iff : (∃ stats, extractStats x.table x.target s.results = .ok stats) ↔
    (∃ raws, x.Whole messages raws) ∧ (∀ e ∈ es, e.failed = false) ∧ x.table.frames.length ≤ 2 ^ 32 ∧
      (∃ total, rawTotal x.table.files = .ok total) ∧ (x.target → x.table.frames = [] → x.table.files = [])
  placed : ∀ stats, extractStats x.table x.target s.results = .ok stats → stats.files = s.files.length ∧
    ∃ raws, x.Whole messages raws ∧ if x.target then x.Placed raws s.files else s.files = []

/-- An error is right when not everything is as it should be. -/
theorem ResultExact.refused {es : List ExtractEvent}
    (herror : ∃ error, extractStats x.table x.target s.results = .error error)
    (hbroken : ∀ raws, x.Whole messages raws → x.table.frames.length ≤ 2 ^ 32 → ∃ e ∈ es, e.failed = true) :
    x.ResultExact messages es s := by
  obtain ⟨error, herror⟩ := herror
  have hnone : ∀ stats, extractStats x.table x.target s.results ≠ .ok stats := by
    intro stats hstats
    rw [herror] at hstats
    cases hstats
  constructor
  · constructor
    · rintro ⟨stats, hstats⟩
      exact absurd hstats (hnone stats)
    · rintro ⟨⟨raws, hwhole⟩, hfine, hindex, _⟩
      obtain ⟨e, he, hfailed⟩ := hbroken raws hwhole hindex
      rw [hfine e he] at hfailed
      cases hfailed
  · exact fun stats hstats => absurd hstats (hnone stats)

/-- The result of an extraction of which nothing has failed. -/
theorem Going.result {es : List ExtractEvent} (hvalid : x.table.Valid) (h : Arrives x.table messages arrived)
    (hall : x.AllArrive arrived) (hgoing : x.Going arrived s) (hfine : ∀ e ∈ es, e.failed = false)
    (hframes : s.results.length = x.table.frames.length) (harrived : s.arrived = []) (hwriters : s.writers = []) :
    x.ResultExact messages es s := by
  obtain ⟨hsound, hsum, hfiles⟩ := hgoing.done hvalid harrived hwriters
  obtain ⟨hwhole, hindex⟩ := hsound.whole hvalid h hall
  have hstats (stats : ExtractStats) := @extractStats_fine x.table s.results hframes hgoing.fine x.target stats
  rw [← hsum] at hstats
  have hcount : s.files.length = if x.target ∧ x.table.frames ≠ [] then x.table.files.length else 0 := by
    rw [hfiles.length_eq, apply_ite List.length, List.length_map, List.length_nil]
  -- The count that the result is checked against is that of the files, but for a table without frames.
  have hcomplete : (s.files.length = if x.target then x.table.files.length else 0) ↔
      (x.target → x.table.frames = [] → x.table.files = []) := by
    rw [hcount, ← List.length_eq_zero_iff (l := x.table.files)]
    cases x.target with
    | false => simp
    | true => by_cases hnil : x.table.frames = [] <;> simp [hnil, eq_comm]
  constructor
  · constructor
    · rintro ⟨stats, hok⟩
      obtain ⟨htotal, hwritten, hexpected⟩ := (hstats stats).mp hok
      exact ⟨⟨_, hwhole⟩, hfine, hindex, ⟨_, htotal⟩, hcomplete.mp (hwritten ▸ hexpected)⟩
    · rintro ⟨_, _, _, ⟨total, htotal⟩, hempty⟩
      exact ⟨⟨s.files.length, total⟩, (hstats _).mpr ⟨htotal, rfl, hcomplete.mpr hempty⟩⟩
  · intro stats hok
    obtain ⟨_, hwritten, hexpected⟩ := (hstats stats).mp hok
    refine ⟨hwritten, _, hwhole, ?_⟩
    have hempty := hcomplete.mp (hwritten ▸ hexpected)
    split
    · next htarget =>
        have hall : s.files.Perm (x.table.files.map fun entry => ⟨entry, entry.content (x.rawOf arrived)⟩) := by
          refine hfiles.trans (List.Perm.of_eq ?_)
          split
          · rfl
          · next hnot =>
              have hnil : x.table.frames = [] := not_not.mp fun hne => hnot ⟨htarget, hne⟩
              rw [hempty htarget hnil, List.map_nil]
        constructor
        · have hentries := hall.map OwnedFileWrite.entry
          rw [List.map_map] at hentries
          exact hentries.trans (List.Perm.of_eq (List.map_id _))
        · intro write hwrite
          obtain ⟨entry, hentry, rfl⟩ := List.mem_map.mp (hall.mem_iff.mp hwrite)
          refine fragmentsBytes_rawsOf hvalid ?_ hentry
          intro frameIdx frame hframe
          obtain ⟨_, _, _, _, hlen⟩ := hwhole.frames frameIdx frame _ hframe
            (rawsOf_getElem? (List.getElem?_eq_some_iff.mp hframe).1)
          exact hlen
    · next htarget =>
        rw [if_neg fun hboth => htarget hboth.1] at hfiles
        exact hfiles.eq_nil

/-! ## How long it takes -/

def messageWeight (x : Extraction) (message : Nat × Except ExtractError Bytes) : Nat :=
  2 * (x.table.fragmentsByFrame message.1).length + 2

def writerWeight (writer : FrameWriter) : Nat :=
  2 * writer.rest.length + writer.pendingWrites.length + 1

/-- A bound on the steps that are still to be taken. -/
def weight (x : Extraction) (s : PipelineState) : Nat :=
  (s.arrived.map x.messageWeight).sum + (s.writers.map writerWeight).sum

theorem sum_eraseIdx {α : Type} {xs : List α} {i : Nat} {a : α} (h : xs[i]? = some a) (f : α → Nat) :
    (xs.map f).sum = f a + ((xs.eraseIdx i).map f).sum := by
  rw [((perm_of_getElem? h).map f).sum_nat, List.map_cons, List.sum_cons]

theorem sum_set {α : Type} {xs : List α} {i : Nat} {a : α} (h : xs[i]? = some a) (b : α) (f : α → Nat) :
    ((xs.set i b).map f).sum = f b + ((xs.eraseIdx i).map f).sum := by
  have hlt := (List.getElem?_eq_some_iff.mp h).1
  rw [((List.set_perm_cons_eraseIdx hlt b).map f).sum_nat, List.map_cons, List.sum_cons]

/-- Every step brings the extraction closer to its end. -/
theorem step_weight {e : ExtractEvent} {s' : PipelineState} (hstep : x.Step s e s') :
    x.weight s' < x.weight s := by
  cases e with
  | take k =>
      obtain ⟨message, hmessage, rfl⟩ := Option.map_eq_some_iff.mp hstep
      have hsum := sum_eraseIdx hmessage x.messageWeight
      dsimp only
      cases htake : x.takeFrame message with
      | ok writer =>
          obtain ⟨_, _, raw, _, _, _, _, _, rfl⟩ := takeFrame_ok.mp htake
          simp only [weight, List.map_append, List.sum_append, List.map_singleton, List.sum_singleton,
            writerWeight, List.length_nil, messageWeight] at hsum ⊢
          omega
      | error error =>
          simp only [weight, messageWeight] at hsum ⊢
          omega
  | advance i =>
      obtain ⟨writer, hwriter, hstep⟩ := Option.bind_eq_some_iff.mp hstep
      have hsum := sum_eraseIdx hwriter writerWeight
      split at hstep
      · cases hstep
      · obtain rfl := Option.some.inj hstep
        unfold advance
        split
        · simp only [weight, finish, writerWeight] at hsum ⊢
          omega
        · next pair rest hrest =>
            dsimp only
            split
            · simp only [weight, finish, writerWeight] at hsum ⊢
              omega
            · next write _ =>
                -- a fragment less, and at most one file more in the batch
                have hwrites : (if x.target then write.toList else []).length ≤ 1 := by
                  cases write <;> cases x.target <;> simp
                rw [weight, weight, sum_set hwriter, hsum]
                simp only [writerWeight, hrest, List.length_cons, List.length_append]
                omega
  | write i failed =>
      obtain ⟨writer, hwriter, hstep⟩ := Option.bind_eq_some_iff.mp hstep
      have hsum := sum_eraseIdx hwriter writerWeight
      split at hstep
      · obtain rfl := Option.some.inj hstep
        unfold writeBatch
        split
        · simp only [weight, finish, writerWeight] at hsum ⊢
          omega
        · dsimp only
          split
          · simp only [weight, finish, writerWeight] at hsum ⊢
            omega
          · next hfull =>
              have hpos : 0 < writer.pendingWrites.length := by
                unfold packWriteBatchFiles at hfull
                omega
              rw [weight, weight, sum_set hwriter, hsum]
              simp only [writerWeight, List.length_nil]
              omega
      · cases hstep

/-- As long as there is a frame or a writer left, a step can be taken. -/
theorem exists_step (h : s.arrived ≠ [] ∨ s.writers ≠ []) : ∃ e s', x.Step s e s' := by
  rcases h with harrived | hwriters
  · obtain ⟨message, rest, harrived⟩ := List.exists_cons_of_ne_nil harrived
    refine ⟨.take 0, Option.isSome_iff_exists.mp ?_⟩
    rw [exec, harrived]
    rfl
  · obtain ⟨writer, rest, hwriters⟩ := List.exists_cons_of_ne_nil hwriters
    cases hnext : x.writesNext writer with
    | true =>
        refine ⟨.write 0 none, writeBatch s 0 writer none, ?_⟩
        show x.exec s (.write 0 none) = _
        rw [exec, hwriters, List.getElem?_cons_zero, Option.bind_some, if_pos hnext]
    | false =>
        refine ⟨.advance 0, x.advance s 0 writer, ?_⟩
        show x.exec s (.advance 0) = _
        rw [exec, hwriters, List.getElem?_cons_zero, Option.bind_some, hnext]
        rfl

end Extraction

/-- The end of an extraction. -/
theorem Extraction.result_of_end {x : Extraction} {messages : List (Nat × Except String Bytes)}
    {start s : PipelineState} {es : List ExtractEvent} (hvalid : x.table.validateGeometry = .ok ())
    (hchunks : ChunksOnce x.table messages) (hstart : x.start messages = .ok start)
    (hrun : Run x.Step start es s) (harrived : s.arrived = []) (hwriters : s.writers = []) :
    x.ResultExact messages es s := by
  obtain ⟨harrives, hnoWriters, hpending, hnoFiles, hnoResults⟩ := arrives_start hvalid hchunks hstart
  have hvalid := validateGeometry_ok.mp hvalid
  have hresults : s.results.length = start.arrived.length := by
    have hcount := hrun.invariant_history
      (I := fun _ s => s.arrived.length + s.writers.length + s.results.length = start.arrived.length)
      (by rw [hnoWriters, hnoResults]; rfl)
      fun _ hinv hstep => (Extraction.step_counts hstep).1.trans hinv
    simpa [harrived, hwriters] using hcount
  by_cases hall : x.AllArrive start.arrived
  · have hgoing := Extraction.Going.start hvalid harrives hall hnoWriters hpending hnoFiles hnoResults
    have hframes : s.results.length = x.table.frames.length :=
      hresults.trans ((Extraction.allArrive_iff harrives).mp hall)
    rcases Extraction.going_or_failed hvalid harrives hgoing hrun with ⟨hend, hfine⟩ | ⟨⟨error, herror⟩, hcause⟩
    · exact hend.result hvalid harrives hall hfine hframes harrived hwriters
    · refine .refused (extractStats_error herror (Nat.le_of_eq hframes) x.target) ?_
      intro raws hwhole hindex
      rcases hcause with hfailed | hunsound
      · exact hfailed
      · exact absurd (hwhole.sound hvalid hchunks harrives hindex).1 hunsound
  · refine .refused (Extraction.extractStats_few ?_ x.target) ?_
    · rw [hresults]
      have hle := (harrives.once.subperm (Extraction.arrives_subset harrives)).length_le
      rw [List.length_map, List.length_range] at hle
      exact Nat.lt_of_le_of_ne hle fun hlen => hall ((Extraction.allArrive_iff harrives).mpr hlen)
    · intro raws hwhole hindex
      exact absurd (hwhole.sound hvalid hchunks harrives hindex).2 hall

/-- An extraction comes to its end, and returns then without an error exactly when every frame came with
its chunk and is unpacked to its length, every file made of the frames is the blob it should be, and no
write failed. The files of the table are then in the target directory with those contents; without a
target nothing is. -/
theorem extraction_exact {x : Extraction} {messages : List (Nat × Except String Bytes)}
    {start s : PipelineState} {es : List ExtractEvent} (hvalid : x.table.validateGeometry = .ok ())
    (hchunks : ChunksOnce x.table messages) (hstart : x.start messages = .ok start)
    (hrun : Run x.Step start es s) :
    es.length ≤ x.weight start ∧
      ((∃ e s', x.Step s e s') ∨ s.arrived = [] ∧ s.writers = [] ∧ x.ResultExact messages es s) := by
  constructor
  · have hbound := hrun.invariant_history (I := fun es s => es.length + x.weight s ≤ x.weight start)
      (by rw [List.length_nil, Nat.zero_add]) fun _ hinv hstep => by
        have := Extraction.step_weight hstep
        rw [List.length_append, List.length_singleton]
        omega
    omega
  · by_cases hend : s.arrived = [] ∧ s.writers = []
    · exact .inr ⟨hend.1, hend.2, Extraction.result_of_end hvalid hchunks hstart hrun hend.1 hend.2⟩
    · refine .inl (Extraction.exists_step ?_)
      rwa [← not_and_or]

/-- Two files over two chunks, the first in both. Nothing is compressed. -/
def twoFiles : Extraction where
  table :=
    { frames := [⟨0, 0, 3, 3⟩, ⟨1, 0, 4, 4⟩]
      files := [⟨[97], 0o100644, [1, 2, 3, 4] ++ List.replicate 16 0, [⟨0, 1, 2⟩, ⟨1, 0, 2⟩]⟩,
        ⟨[98], 0o100644, [5] ++ List.replicate 19 0, [⟨1, 3, 1⟩]⟩]
      gitlinks := [] }
  target := true
  decompress compressed _ := .ok compressed
  blobId content := content ++ List.replicate (20 - content.length) 0

/-- The writers take turns, the second frame first. -/
def twoFilesRun : List ExtractEvent :=
  [.take 0, .advance 0, .take 0, .advance 0, .advance 1, .write 0 none, .write 0 none]

theorem two_files_extracted : ∃ start s,
    twoFiles.start [(1, .ok [3, 4, 9, 5]), (0, .ok [9, 1, 2])] = .ok start ∧
      Run twoFiles.Step start twoFilesRun s ∧ extractStats twoFiles.table true s.results = .ok ⟨2, 5⟩ ∧
      (twoFilesRun.length ≤ twoFiles.weight start ∧ ((∃ e s', twoFiles.Step s e s') ∨
        s.arrived = [] ∧ s.writers = [] ∧
          twoFiles.ResultExact [(1, .ok [3, 4, 9, 5]), (0, .ok [9, 1, 2])] twoFilesRun s)) :=
  ⟨_, _, rfl, .of_foldlM rfl, rfl,
    extraction_exact (by decide) ⟨by decide, by decide⟩ rfl (.of_foldlM rfl)⟩

end Ripclone
