import Ripclone.Archive.Builder
import Ripclone.Archive.Incremental

/-!
# Reading and cutting

A build that streams the worktree cuts all of it, and one that reads the gaps of a plan cuts each gap
by itself. Either way the frames are the pieces of the stream at their bounds.
-/

namespace Ripclone.Archive

open Ripclone.Library

section Reading

variable {blobOf : Bytes → Bytes} {mirror : Mirror} (hmirror : mirror.Ok blobOf)

include hmirror

theorem readPiece_eq {piece : Piece} {data : Bytes} (h : readPiece mirror piece = .ok data) :
    data = slice (blobOf piece.oid) piece.lo piece.hi ∧ (blobOf piece.oid).length = piece.size := by
  obtain ⟨blob, hblob, h⟩ := bind_eq_ok.mp h
  obtain ⟨hsize, h⟩ := ite_throw_eq_ok.mp h
  obtain rfl := hmirror.findBlob hblob
  exact ⟨(pure_eq_ok.mp h).symm, not_not.mp hsize⟩

/-- The pieces of whole files are their contents. -/
theorem readPieces_files {blobs : List Blob} {data : List Bytes}
    (h : readPieces mirror ((blobs.zip ((contents blobOf blobs).map List.length)).map
      fun (blob, size) => ⟨blob.oid, size, 0, size⟩) = .ok data) :
    data = contents blobOf blobs := by
  induction blobs generalizing data with
  | nil => exact List.forall₂_nil_left_iff.mp (mapM_eq_ok.mp h)
  | cons blob blobs ih =>
      obtain ⟨bytes, rest, hbytes, hrest, rfl⟩ := List.forall₂_cons_left_iff.mp (mapM_eq_ok.mp h)
      obtain ⟨rfl, _⟩ := readPiece_eq hmirror hbytes
      exact congrArg₂ List.cons (slice_all rfl) (ih (mapM_eq_ok.mpr hrest))

/-- What a file has of a gap. -/
def gapPiece (gap : Nat × Nat) : Blob × Nat × Nat → Option Piece
  | (blob, start, size) =>
    if 0 < size ∧ gap.1 < start + size then
      some ⟨blob.oid, size, max gap.1 start - start, min gap.2 (start + size) - start⟩
    else none

omit hmirror in
theorem slice_piece {before blob after : Bytes} {gap : Nat × Nat} :
    slice blob (max gap.1 before.length - before.length)
        (min gap.2 (before.length + blob.length) - before.length) =
      slice (before ++ (blob ++ after)) (max gap.1 before.length)
        (min gap.2 (before.length + blob.length)) := by
  by_cases h : before.length ≤ min gap.2 (before.length + blob.length)
  · have hblob : slice (slice (before ++ (blob ++ after)) before.length
        (before.length + blob.length)) (max gap.1 before.length - before.length)
        (min gap.2 (before.length + blob.length) - before.length) = _ := slice_slice (by omega)
    rw [slice_middle] at hblob
    rw [hblob, Nat.add_sub_cancel' (Nat.le_max_right _ _), Nat.add_sub_cancel' h]
  · rw [slice_eq_nil (by omega), slice_eq_nil (by omega)]

/-- What consecutive files have of a gap, together. -/
theorem readPieces_gap {gap : Nat × Nat} (before : Bytes) {blobs : List Blob} {parts : List Bytes}
    (h : readPieces mirror ((entriesFrom blobOf before.length blobs).filterMap (gapPiece gap)) =
      .ok parts) :
    parts.flatten = slice (before ++ stream blobOf blobs) (max gap.1 before.length)
      (min gap.2 (before ++ stream blobOf blobs).length) := by
  -- On the blobs that are left; those before are carried, so the offsets stay those of the stream.
  induction blobs generalizing before parts with
  | nil =>
      obtain rfl := List.forall₂_nil_left_iff.mp (mapM_eq_ok.mp h)
      rw [slice_eq_nil]
      · rfl
      · simp only [stream, contents, List.map_nil, List.flatten_nil, List.append_nil]
        omega
  | cons blob blobs ih =>
      have hsplit : before ++ stream blobOf (blob :: blobs) =
          before ++ (blobOf blob.oid ++ stream blobOf blobs) := rfl
      have hafter : (before ++ blobOf blob.oid).length = before.length + (blobOf blob.oid).length :=
        List.length_append
      have hrest : ∀ {more}, readPieces mirror ((entriesFrom blobOf
          (before.length + (blobOf blob.oid).length) blobs).filterMap (gapPiece gap)) = .ok more →
          more.flatten = slice (before ++ (blobOf blob.oid ++ stream blobOf blobs))
            (max gap.1 (before.length + (blobOf blob.oid).length))
            (min gap.2 (before ++ (blobOf blob.oid ++ stream blobOf blobs)).length) := by
        intro more hmore
        have := ih (before ++ blobOf blob.oid) (hafter ▸ hmore)
        rwa [hafter, List.append_assoc] at this
      have hclip := slice_clip (before ++ (blobOf blob.oid ++ stream blobOf blobs))
        (i := gap.1) (j := gap.2) (Nat.le_add_right before.length (blobOf blob.oid).length)
        (c := (before ++ (blobOf blob.oid ++ stream blobOf blobs)).length)
        (by simp only [List.length_append]; omega)
      rw [hsplit, ← hclip]
      rw [entriesFrom, List.filterMap_cons] at h
      split at h
      · next hnone =>
          have hpast : min gap.2 (before.length + (blobOf blob.oid).length) ≤
              max gap.1 before.length := by
            simp only [gapPiece, ite_eq_right_iff, reduceCtorEq, imp_false] at hnone
            omega
          rw [hrest h, slice_eq_nil hpast, List.nil_append]
      · next piece hsome =>
          obtain ⟨bytes, more, hbytes, hmore, rfl⟩ :=
            List.forall₂_cons_left_iff.mp (mapM_eq_ok.mp h)
          simp only [gapPiece] at hsome
          split at hsome
          · obtain rfl := Option.some.inj hsome
            rw [List.flatten_cons, hrest (mapM_eq_ok.mpr hmore), (readPiece_eq hmirror hbytes).1]
            dsimp only
            rw [slice_piece]
          · cases hsome

end Reading

section Gaps

variable {blobOf : Bytes → Bytes} {layout : Layout} {gap : Nat × Nat}

theorem drop_entriesFrom (pos k : Nat) (blobs : List Blob) :
    (entriesFrom blobOf pos blobs).drop k =
      entriesFrom blobOf (pos + (stream blobOf (blobs.take k)).length) (blobs.drop k) := by
  induction blobs generalizing pos k with
  | nil => simp [entriesFrom]
  | cons blob blobs ih =>
      cases k with
      | zero => simp [stream, contents]
      | succ k =>
          rw [entriesFrom, List.drop_succ_cons, ih, List.take_succ_cons, List.drop_succ_cons]
          simp [stream, contents, Nat.add_assoc]

/-- The files that start before `stop` are the first ones, and together reach it when there are
more. -/
theorem takeWhile_entriesFrom (stop pos : Nat) (blobs : List Blob) :
    ∃ m, ((entriesFrom blobOf pos blobs).takeWhile fun entry => decide (entry.2.1 < stop)) =
        entriesFrom blobOf pos (blobs.take m) ∧
      (blobs.take m = blobs ∨ stop ≤ pos + (stream blobOf (blobs.take m)).length) := by
  induction blobs generalizing pos with
  | nil => exact ⟨0, rfl, .inl rfl⟩
  | cons blob blobs ih =>
      rw [entriesFrom, List.takeWhile_cons]
      split
      · obtain ⟨m, htake, hreach⟩ := ih (pos + (blobOf blob.oid).length)
        refine ⟨m + 1, by rw [htake]; rfl, hreach.imp (congrArg _) fun hstop => ?_⟩
        rw [List.take_succ_cons]
        simp only [stream, contents, List.map_cons, List.flatten_cons, List.length_append] at hstop ⊢
        omega
      · next hpast =>
          rw [decide_eq_true_eq] at hpast
          exact ⟨0, rfl, .inr (Nat.le_trans (Nat.not_lt.mp hpast) (Nat.le_add_right _ _))⟩

/-- The last file that starts at or before `start`. -/
theorem stream_takeWhile_le {start pos : Nat} {blobs : List Blob} (hpos : pos ≤ start) :
    pos + (stream blobOf (blobs.take ((((spansFrom pos (contents blobOf blobs)).map
      Prod.fst).takeWhile fun at' => decide (at' ≤ start)).length - 1))).length ≤ start := by
  induction blobs generalizing pos with
  | nil => simpa [stream, contents] using hpos
  | cons blob blobs ih =>
      rw [contents, List.map_cons, spansFrom, List.map_cons, List.takeWhile_cons,
        if_pos (decide_eq_true hpos), List.length_cons, Nat.add_sub_cancel]
      by_cases hnext : pos + (blobOf blob.oid).length ≤ start
      · have hrest := ih hnext
        rw [contents] at hrest
        -- the files after this one that start in time
        generalize (((spansFrom (pos + (blobOf blob.oid).length)
          (blobs.map fun blob => blobOf blob.oid)).map Prod.fst).takeWhile
            fun at' => decide (at' ≤ start)).length = n at hrest ⊢
        cases n with
        | zero => simpa [stream, contents] using hpos
        | succ n =>
            rw [Nat.add_sub_cancel] at hrest
            rw [List.take_succ_cons]
            simp only [stream, contents, List.map_cons, List.flatten_cons, List.length_append]
              at hrest ⊢
            omega
      · have hnone : ((spansFrom (pos + (blobOf blob.oid).length)
            (blobs.map fun blob => blobOf blob.oid)).map Prod.fst).takeWhile
              (fun at' => decide (at' ≤ start)) = [] := by
          cases blobs with
          | nil => rfl
          | cons next blobs =>
              rw [List.map_cons, spansFrom, List.map_cons, List.takeWhile_cons, if_neg]
              simpa using hnext
        simpa [hnone, stream, contents] using hpos

theorem readPieces_gapPieces {mirror : Mirror} (hmirror : mirror.Ok blobOf)
    (hlayout : layout.Ok blobOf) (hgap : gap.2 ≤ layout.total) {parts : List Bytes}
    (h : readPieces mirror (ArchiveBuilder.gapPieces layout gap) = .ok parts) :
    parts.flatten = slice (stream blobOf layout.blobs) gap.1 gap.2 := by
  have hnear := @stream_takeWhile_le blobOf gap.1 0 layout.blobs (Nat.zero_le _)
  rw [← hlayout.starts] at hnear
  simp only [ArchiveBuilder.gapPieces] at h
  generalize (layout.starts.takeWhile fun start => decide (start ≤ gap.1)).length - 1 = k at h hnear
  rw [hlayout.entries, drop_entriesFrom] at h
  obtain ⟨m, htake, hreach⟩ := @takeWhile_entriesFrom blobOf gap.2
    (0 + (stream blobOf (layout.blobs.take k)).length) (layout.blobs.drop k)
  rw [htake, Nat.zero_add] at h
  have hparts := readPieces_gap hmirror (stream blobOf (layout.blobs.take k)) h
  have hjoin : ∀ front back, stream blobOf front ++ stream blobOf back = stream blobOf (front ++ back) :=
    fun front back => by simp [stream, contents]
  rw [hjoin, Nat.max_eq_left (by omega)] at hparts
  -- these files have all of the gap
  have hrest := hjoin (layout.blobs.take k ++ (layout.blobs.drop k).take m)
    ((layout.blobs.drop k).drop m)
  rw [List.append_assoc, List.take_append_drop, List.take_append_drop] at hrest
  have hend : gap.2 ≤ (stream blobOf (layout.blobs.take k ++
      (layout.blobs.drop k).take m)).length := by
    rcases hreach with hall | hstop
    · rw [hall, List.take_append_drop, ← hlayout.total]
      exact hgap
    · rw [← hjoin, List.length_append]
      omega
  rw [hparts, Nat.min_eq_left hend, ← hrest, slice_append_left hend]

end Gaps

section Cutting

variable {bytesOf : String → Bytes} {blobOf : Bytes → Bytes} {tools : Tools} {layout : Layout}
  {builder : ArchiveBuilder} {baseRaws : List Bytes} (htools : tools.Ok bytesOf)
  (hmirror : builder.mirror.Ok blobOf) (hlayout : layout.Ok blobOf)

/-- The frame is the piece of the stream at its bounds. -/
def CutOk (tools : Tools) (base : BaseIndex) (new : Bytes) (cut : ArchiveBuilder.CutFrame) : Prop :=
  ∃ comp, cut.frame.Holds tools (some base) comp (slice new cut.start cut.stop)

def cutSpan (cut : ArchiveBuilder.CutFrame) : Nat × Nat := (cut.start, cut.stop)

include htools hmirror hlayout

theorem cutGap_ok {base : BaseIndex} (hbase : base.Ok bytesOf tools baseRaws) {gap : Nat × Nat}
    (hle : gap.1 ≤ gap.2) (hgap : gap.2 ≤ layout.total) {cuts : List ArchiveBuilder.CutFrame}
    (h : builder.cutGap tools layout base gap = .ok cuts) :
    Tiles gap.1 gap.2 (cuts.map cutSpan) ∧
      ∀ cut ∈ cuts, CutOk tools base (stream blobOf layout.blobs) cut := by
  obtain ⟨parts, hparts, h⟩ := bind_eq_ok.mp h
  obtain ⟨hlen, h⟩ := ite_throw_eq_ok.mp h
  have hbuffer := readPieces_gapPieces hmirror hlayout hgap hparts
  have htiles := htools.fastCdc builder.cdc parts.flatten
  rw [not_not.mp hlen] at htiles
  have hmoved := htiles.shift (d := gap.1)
  rw [Nat.add_zero, gapLen, Nat.add_sub_cancel' hle, List.map_map] at hmoved
  have hall := forall₂_map_eq (g := cutSpan)
    (f := fun piece => (gap.1 + piece.1, gap.1 + (piece.1 + piece.2)))
    (P := CutOk tools base (stream blobOf layout.blobs)) (mapM_eq_ok.mp h)
    (fun piece hpiece cut hcut => by
      obtain ⟨frame, hframe, hcut⟩ := bind_eq_ok.mp hcut
      obtain rfl := pure_eq_ok.mp hcut
      obtain ⟨_, _, hend⟩ := htiles.mem (List.mem_map_of_mem hpiece)
      dsimp only at hend
      obtain ⟨comp, hholds⟩ := buildFrame_holds htools
        (fun index hindex => Option.some.inj hindex ▸ hbase) hframe
      -- the piece of the buffer is a piece of the stream
      rw [hbuffer, slice_slice (by rw [gapLen] at hend; omega), ← Nat.add_assoc] at hholds
      exact ⟨by rw [cutSpan, Nat.add_assoc], comp, hholds⟩)
  exact ⟨hall.1 ▸ hmoved, hall.2⟩

/-- The cuts of several gaps, gap by gap. -/
theorem cutGaps_ok {base : BaseIndex} (hbase : base.Ok bytesOf tools baseRaws)
    {gaps : List (Nat × Nat)} (hgaps : ∀ gap ∈ gaps, gap.1 ≤ gap.2 ∧ gap.2 ≤ layout.total)
    {cuts : List ArchiveBuilder.CutFrame} (h : builder.cutGaps tools layout base gaps = .ok cuts) :
    (∃ tilings, List.Forall₂ (fun gap spans => Tiles gap.1 gap.2 spans) gaps tilings ∧
      cuts.map cutSpan = tilings.flatten) ∧
      ∀ cut ∈ cuts, CutOk tools base (stream blobOf layout.blobs) cut := by
  rw [ArchiveBuilder.cutGaps, bind_eq_ok] at h
  obtain ⟨cuts', hcuts, hflat⟩ := h
  obtain rfl := pure_eq_ok.mp hflat
  rw [mapM_eq_ok] at hcuts
  clear hflat
  induction hcuts with
  | nil => exact ⟨⟨[], .nil, rfl⟩, by simp⟩
  | @cons gap cuts gaps rest hcut _ ih =>
      obtain ⟨hle, hend⟩ := hgaps gap List.mem_cons_self
      obtain ⟨htiles, hok⟩ := cutGap_ok htools hmirror hlayout hbase hle hend hcut
      obtain ⟨⟨tilings, hrest, hflat⟩, hall⟩ := ih fun gap hgap =>
        hgaps gap (List.mem_cons_of_mem _ hgap)
      refine ⟨⟨cuts.map cutSpan :: tilings, .cons htiles hrest, ?_⟩, ?_⟩
      · rw [List.flatten_cons, List.map_append, List.flatten_cons, hflat]
      · intro cut hcut
        rw [List.flatten_cons] at hcut
        rcases List.mem_append.mp hcut with hcut | hcut
        · exact hok cut hcut
        · exact hall cut hcut

omit htools hmirror hlayout in
/-- Pieces that tile a stream are where their bytes are. -/
theorem bounds_eq {chunks : List (Nat × Bytes)} {start stop : Nat}
    (h : Tiles start stop (chunks.map fun chunk => (chunk.1, chunk.1 + chunk.2.length))) :
    (chunks.map fun chunk => (chunk.1, chunk.1 + chunk.2.length)) =
      spansFrom start (chunks.map Prod.snd) := by
  induction chunks generalizing start with
  | nil => rfl
  | cons chunk chunks ih =>
      obtain ⟨rfl, _, hrest⟩ := h
      exact congrArg _ (ih hrest)

omit htools hmirror hlayout in
/-- How many pieces there can be when all but the last have a minimal length. -/
theorem mul_le_length_flatten {chunks : List (Nat × Bytes)} {min : Nat}
    (h : ∀ chunk ∈ chunks.dropLast, min ≤ chunk.2.length) :
    ((chunks.map Prod.snd).length - 1) * min ≤ (chunks.map Prod.snd).flatten.length := by
  induction chunks with
  | nil => simp
  | cons chunk chunks ih =>
      cases chunks with
      | nil => simp
      | cons next chunks =>
          have hfirst := h chunk (by rw [List.dropLast_cons_cons]; exact List.mem_cons_self)
          have hrest := ih fun c hc => h c (by
            rw [List.dropLast_cons_cons]
            exact List.mem_cons_of_mem _ hc)
          simp only [List.map_cons, List.length_cons, Nat.add_sub_cancel, List.flatten_cons,
            List.length_append, Nat.succ_mul] at hrest ⊢
          omega

/-- Streaming the worktree cuts it into frames, one at least when it has files. -/
theorem streamFrames_ok {base : Option BaseIndex}
    (hbase : ∀ index, base = some index → index.Ok bytesOf tools baseRaws)
    {bounds : List (Nat × Nat)} {frames : List BuiltFrame}
    (h : builder.streamFrames tools layout base = .ok (bounds, frames)) :
    ∃ raws, bounds = spansFrom 0 raws ∧ raws.flatten = stream blobOf layout.blobs ∧
      List.Forall₂ (fun frame raw => ∃ comp, BuiltFrame.Holds tools base frame comp raw)
        frames raws ∧
      (layout.blobs ≠ [] → raws ≠ []) ∧
      (raws.length - 1) * builder.cdc.min ≤ (stream blobOf layout.blobs).length := by
  obtain ⟨data, hdata, h⟩ := bind_eq_ok.mp h
  obtain ⟨chunks, hchunks, h⟩ := bind_eq_ok.mp h
  obtain ⟨built, hbuilt, h⟩ := bind_eq_ok.mp h
  obtain ⟨_, h⟩ := ite_throw_eq_ok.mp h
  rw [ArchiveBuilder.filePieces, hlayout.sizes] at hdata
  have hcontents := readPieces_files hmirror hdata
  obtain ⟨htiles, hflat⟩ := htools.streamCdc hchunks
  have hbounds := bounds_eq htiles
  have hframes : List.Forall₂ (fun frame raw => ∃ comp, BuiltFrame.Holds tools base frame comp raw)
      built (chunks.map Prod.snd) := by
    refine List.forall₂_map_right_iff.mpr ((mapM_eq_ok.mp hbuilt).flip.imp fun frame chunk hframe => ?_)
    exact buildFrame_holds htools hbase hframe
  rw [hcontents] at hflat
  split at h
  · next hempty =>
      obtain ⟨frame, hframe, h⟩ := bind_eq_ok.mp h
      obtain ⟨rfl, rfl⟩ := Prod.mk.inj (pure_eq_ok.mp h)
      obtain ⟨comp, hholds⟩ := buildFrame_holds htools hbase hframe
      rw [Bool.and_eq_true, List.isEmpty_iff, List.map_eq_nil_iff] at hempty
      rw [hempty.1] at hflat
      exact ⟨[[]], rfl, hflat, .cons ⟨comp, hholds⟩ .nil, by simp, by simp⟩
  · next hsome =>
      obtain ⟨rfl, rfl⟩ := Prod.mk.inj (pure_eq_ok.mp h)
      refine ⟨chunks.map Prod.snd, hbounds, hflat, hframes, fun hblobs hnil => hsome ?_, ?_⟩
      · rw [hbounds, hnil]
        simpa [spansFrom] using hblobs
      · have hmin := mul_le_length_flatten (htools.streamCdc_min hchunks)
        rwa [hflat] at hmin

end Cutting

end Ripclone.Archive
