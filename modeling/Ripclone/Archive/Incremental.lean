import Ripclone.Archive.Fragments
import Ripclone.Archive.Plan

/-!
# What a plan keeps

A plan's kept frames and gaps tile the new stream, and a kept frame is the base's frame of the bytes
at its new place: `planIncremental_ok`. The order in which the frames were found does not matter for
it; a frame that would overlap the one before it ends the plan.
-/

namespace Ripclone.Archive

open Ripclone.Library

/-- The base's files are in the order of its stream: each one is the blob at the start the index has
for it. -/
def BaseIndex.InOrder (blobOf : Bytes → Bytes) (index : BaseIndex) (raws : List Bytes) : Prop :=
  ∀ path id start len, (path, id, start, len) ∈ index.files →
    len = (blobOf id).length ∧ slice raws.flatten start (start + len) = blobOf id

/-- The segment is the same in both streams, the new one up to `newPos`. -/
structure Segment.Ok (old new : Bytes) (newPos : Nat) (segment : Segment) : Prop where
  le : segment.oldStart ≤ segment.oldEnd
  newEnd : segment.newStart + (segment.oldEnd - segment.oldStart) ≤ newPos
  same : slice old segment.oldStart segment.oldEnd =
    slice new segment.newStart (segment.newStart + (segment.oldEnd - segment.oldStart))

/-- The kept frame is not empty, and holds the bytes of the new stream at its place. -/
structure KeptFrame.Ok (new : Bytes) (raws : List Bytes) (kept : KeptFrame) : Prop where
  lt : kept.start < kept.stop
  le : kept.stop ≤ new.length
  raw : raws[kept.frame]? = some (slice new kept.start kept.stop)

section Files

variable {blobOf : Bytes → Bytes} {base : BaseIndex} {raws : List Bytes} {mirror : Mirror}
  {blobs : List Blob}

theorem unchanged_some (hbase : base.InOrder blobOf raws) {blob : Blob} {start len : Nat}
    (h : unchanged base blob = some (start, len)) :
    len = (blobOf blob.oid).length ∧ slice raws.flatten start (start + len) = blobOf blob.oid := by
  obtain ⟨⟨id, start', len'⟩, hfound, h⟩ := Option.bind_eq_some_iff.mp h
  dsimp only at h
  split at h
  · next hid =>
      obtain ⟨rfl, rfl⟩ := Prod.mk.inj (Option.some.inj h)
      exact hid ▸ hbase _ _ _ _ (lastOf_mem hfound)
  · cases h

/-- The file's size, and its place in the base when it is unchanged. -/
def SizedFile (blobOf : Bytes → Bytes) (raws : List Bytes) (blob : Blob) (file : Option Nat × Nat) :
    Prop :=
  file.2 = (blobOf blob.oid).length ∧
    ∀ old, file.1 = some old → slice raws.flatten old (old + file.2) = blobOf blob.oid

theorem sizes_eq {files : List (Option Nat × Nat)}
    (h : List.Forall₂ (SizedFile blobOf raws) blobs files) :
    files.map Prod.snd = (contents blobOf blobs).map List.length := by
  induction h with
  | nil => rfl
  | cons hfile _ ih => exact congrArg₂ List.cons hfile.1 ih

theorem fillSizes_ok (hbase : base.InOrder blobOf raws) :
    List.Forall₂ (SizedFile blobOf raws) blobs (fillSizes base blobs
      ((blobs.filter fun blob => (unchanged base blob).isNone).map fun blob =>
        (blobOf blob.oid).length)) := by
  induction blobs with
  | nil => exact .nil
  | cons blob blobs ih =>
      rw [fillSizes]
      split
      · next start len hunchanged =>
          obtain ⟨hlen, hslice⟩ := unchanged_some hbase hunchanged
          rw [List.filter_cons_of_neg (by simp [hunchanged])]
          refine .cons ⟨hlen, fun old hold => ?_⟩ ih
          obtain rfl := Option.some.inj hold
          exact hslice
      · next hchanged =>
          rw [List.filter_cons_of_pos (by simp [hchanged])]
          exact .cons ⟨rfl, fun old hold => by cases hold⟩ ih

theorem sizeFiles_ok (hmirror : mirror.Ok blobOf) (hbase : base.InOrder blobOf raws)
    {files : List (Option Nat × Nat)} (h : sizeFiles mirror base blobs = .ok files) :
    List.Forall₂ (SizedFile blobOf raws) blobs files := by
  obtain ⟨headers, hheaders, h⟩ := bind_eq_ok.mp h
  obtain rfl := pure_eq_ok.mp h
  rw [blobSizes_eq hmirror hheaders, List.map_map]
  exact fillSizes_ok hbase

end Files

section Segments

variable {blobOf : Bytes → Bytes} {raws : List Bytes} {old new : Bytes} {segments : List Segment}

theorem Segment.Ok.mono {segment : Segment} {newPos newPos' : Nat}
    (h : segment.Ok old new newPos) (hle : newPos ≤ newPos') : segment.Ok old new newPos' :=
  ⟨h.le, Nat.le_trans h.newEnd hle, h.same⟩

theorem pushSegment_ok {start size newPos : Nat}
    (h : ∀ segment ∈ segments, segment.Ok old new newPos)
    (hsame : slice old start (start + size) = slice new newPos (newPos + size)) :
    ∀ segment ∈ pushSegment segments start size newPos, segment.Ok old new (newPos + size) := by
  have hmono : ∀ segment ∈ segments, segment.Ok old new (newPos + size) :=
    fun segment hsegment => (h segment hsegment).mono (Nat.le_add_right _ _)
  have hnew : Segment.Ok old new (newPos + size) ⟨start, start + size, newPos⟩ :=
    ⟨Nat.le_add_right _ _, by simp, by simpa using hsame⟩
  intro segment hsegment
  cases segments with
  | nil =>
      obtain rfl := List.mem_singleton.mp hsegment
      exact hnew
  | cons last rest =>
      rw [pushSegment] at hsegment
      split at hsegment
      · next hextend =>
          rcases List.mem_cons.mp hsegment with rfl | hsegment
          · obtain ⟨rfl, rfl⟩ := hextend
            have hlast := h last List.mem_cons_self
            have hle := hlast.le
            -- the two parts are neighbours in both streams
            have hlen : last.oldEnd + size - last.oldStart =
                last.oldEnd - last.oldStart + size := by omega
            refine ⟨by dsimp only; omega, by dsimp only; omega, ?_⟩
            dsimp only
            rw [hlen, ← slice_append hle (Nat.le_add_right _ _), hlast.same, hsame,
              slice_append (Nat.le_add_right _ _) (Nat.le_add_right _ _), Nat.add_assoc]
          · exact hmono segment (List.mem_cons_of_mem _ hsegment)
      · rcases List.mem_cons.mp hsegment with rfl | hsegment
        · exact hnew
        · exact hmono segment hsegment

theorem findSegments_ok {blobs : List Blob} {files : List (Option Nat × Nat)} (before : Bytes)
    {found : List Segment} {total : Nat} (hfiles : List.Forall₂ (SizedFile blobOf raws) blobs files)
    (hsegments : ∀ segment ∈ segments, segment.Ok raws.flatten (before ++ stream blobOf blobs)
      before.length)
    (h : findSegments segments before.length files = .ok (found, total)) :
    total = (before ++ stream blobOf blobs).length ∧
      ∀ segment ∈ found, segment.Ok raws.flatten (before ++ stream blobOf blobs) total := by
  induction hfiles generalizing segments before with
  | nil =>
      obtain ⟨rfl, rfl⟩ := Prod.mk.inj (pure_eq_ok.mp h)
      refine ⟨by simp [stream, contents], fun segment hsegment => ?_⟩
      exact hsegments segment (List.mem_reverse.mp hsegment)
  | @cons blob file blobs files hfile _ ih =>
      obtain ⟨old, size⟩ := file
      obtain ⟨rfl, hold⟩ := hfile
      obtain ⟨next, hnext, h⟩ := bind_eq_ok.mp h
      obtain rfl := checkedAdd_eq_ok hnext
      have hsplit : before ++ stream blobOf (blob :: blobs) =
          (before ++ blobOf blob.oid) ++ stream blobOf blobs := by
        simp [stream, contents]
      have hlen : (before ++ blobOf blob.oid).length = before.length + (blobOf blob.oid).length :=
        List.length_append
      rw [← hlen] at h
      rw [hsplit] at hsegments ⊢
      cases old with
      | none =>
          refine ih _ (fun segment hsegment => ?_) h
          exact (hsegments segment hsegment).mono (hlen ▸ Nat.le_add_right _ _)
      | some old =>
          refine ih _ ?_ h
          rw [hlen]
          refine pushSegment_ok hsegments ?_
          rw [hold old rfl, List.append_assoc, slice_middle]

end Segments

section Kept

variable {raws : List Bytes} {new : Bytes} {min total pos : Nat} {kept reused : List KeptFrame}

theorem keepIn_ok {segment : Segment} {fs fe k : Nat} {frame : KeptFrame} {raw : Bytes}
    (hsegment : segment.Ok raws.flatten new new.length) (hlt : fs < fe)
    (hraw : raws[k]? = some raw) (hslice : slice raws.flatten fs fe = raw)
    (h : keepIn segment fs fe k = some frame) : frame.Ok new raws := by
  unfold keepIn at h
  split at h
  · next hinside =>
      obtain ⟨hstart, hend⟩ := hinside
      obtain rfl := Option.some.inj h
      have hnew := hsegment.newEnd
      -- the frame is a slice of the segment, which is the same in both streams
      have hold : slice (slice raws.flatten segment.oldStart segment.oldEnd)
          (fs - segment.oldStart) (fe - segment.oldStart) = raw := by
        rw [slice_slice (by omega), Nat.add_sub_cancel' hstart, Nat.add_sub_cancel' (by omega),
          hslice]
      rw [hsegment.same, slice_slice (by omega)] at hold
      exact ⟨by dsimp only; omega, by dsimp only; omega, by rw [hraw, ← hold]⟩
  · cases h

theorem reuseFrames_ok {segments : List Segment} {spans : List ((Nat × Nat) × Nat)}
    (hsegments : ∀ segment ∈ segments, segment.Ok raws.flatten new new.length)
    (hspans : ∀ span ∈ spans, span.1.1 ≤ span.1.2 ∧
      ∃ raw, raws[span.2]? = some raw ∧ slice raws.flatten span.1.1 span.1.2 = raw) :
    ∀ frame ∈ reuseFrames segments spans, frame.Ok new raws := by
  induction spans generalizing segments with
  | nil => exact fun frame hframe => absurd hframe List.not_mem_nil
  | cons span rest ih =>
      obtain ⟨⟨fs, fe⟩, k⟩ := span
      have hrest := fun span hspan => hspans span (List.mem_cons_of_mem _ hspan)
      obtain ⟨hle, raw, hraw, hslice⟩ := hspans _ List.mem_cons_self
      dsimp only at hle hraw hslice
      intro frame hframe
      rw [reuseFrames] at hframe
      split at hframe
      · exact ih hsegments hrest frame hframe
      · next hne =>
          dsimp only at hframe
          have hdrop : ∀ segment ∈ segments.dropWhile fun segment => decide (segment.oldEnd ≤ fs),
              segment.Ok raws.flatten new new.length :=
            fun segment hsegment => hsegments segment ((List.dropWhile_sublist _).mem hsegment)
          rcases List.mem_append.mp hframe with hframe | hframe
          · obtain ⟨segment, hhead, hkeep⟩ :=
              Option.bind_eq_some_iff.mp (Option.mem_toList.mp hframe)
            exact keepIn_ok (hdrop segment (List.mem_of_mem_head? hhead)) (by omega) hraw hslice hkeep
          · exact ih hdrop hrest frame hframe

theorem frameSpans_ok {bytesOf : String → Bytes} {tools : Tools} {base : BaseIndex}
    (hbase : base.Ok bytesOf tools raws) :
    ∀ span ∈ base.frameSpans, span.1.1 ≤ span.1.2 ∧
      ∃ raw, raws[span.2]? = some raw ∧ slice raws.flatten span.1.1 span.1.2 = raw := by
  intro span hspan
  rw [BaseIndex.frameSpans, hbase.spans, List.mem_zipIdx_iff_getElem?] at hspan
  obtain ⟨raw, hraw, hslice⟩ := forall₂_getElem? (slice_spansFrom raws) hspan
  exact ⟨((tiles_spansFrom 0 raws).mem (List.mem_of_getElem? hspan)).2.1, raw, hraw, hslice⟩

/-- From `pos` on, each kept frame starts where the one before it ends or at least `min` later. -/
def Spaced (min : Nat) : Nat → List KeptFrame → Prop
  | _, [] => True
  | pos, frame :: rest =>
    (frame.start = pos ∨ pos + min ≤ frame.start) ∧ Spaced min frame.stop rest

/-- Where the last kept frame ends. -/
def lastStop (pos : Nat) (kept : List KeptFrame) : Nat := (kept.getLast?.map KeptFrame.stop).getD pos

theorem lastStop_cons (frame : KeptFrame) :
    lastStop pos (frame :: kept) = lastStop frame.stop kept := by
  rw [lastStop, lastStop, List.getLast?_cons]
  cases kept.getLast? <;> rfl

theorem keepFrames_spaced (h : keepFrames min pos reused = some kept) : Spaced min pos kept := by
  induction reused generalizing pos kept with
  | nil =>
      obtain rfl := Option.some.inj h
      exact trivial
  | cons frame rest ih =>
      rw [keepFrames] at h
      split at h
      · cases h
      · next hle =>
          split at h
          · exact ih h
          · next hgap =>
              obtain ⟨kept', hkept, rfl⟩ := Option.map_eq_some_iff.mp h
              exact ⟨by omega, ih hkept⟩

theorem keepFrames_sublist (h : keepFrames min pos reused = some kept) : kept.Sublist reused := by
  induction reused generalizing pos kept with
  | nil =>
      obtain rfl := Option.some.inj h
      exact .refl _
  | cons frame rest ih =>
      rw [keepFrames] at h
      split at h
      · cases h
      · split at h
        · exact (ih h).cons _
        · obtain ⟨kept', hkept, rfl⟩ := Option.map_eq_some_iff.mp h
          exact (ih hkept).cons_cons _

theorem Spaced.append_left {rest : List KeptFrame} (h : Spaced min pos (kept ++ rest)) :
    Spaced min pos kept := by
  induction kept generalizing pos with
  | nil => exact trivial
  | cons frame kept ih => exact ⟨h.1, ih h.2⟩

theorem trimTail_prefixOf : trimTail min total kept <+: kept := List.rdropWhile_prefix _ _

theorem trimTail_last {frame : KeptFrame} (h : (trimTail min total kept).getLast? = some frame) :
    total ≤ frame.stop ∨ frame.stop + min ≤ total := by
  rw [trimTail] at h
  have hne : kept.rdropWhile (fun frame => decide (total - frame.stop ≠ 0 ∧
      total - frame.stop < min)) ≠ [] := by
    intro hnil
    rw [hnil] at h
    cases h
  have hstop := List.rdropWhile_last_not _ _ hne
  rw [List.getLast?_eq_some_getLast hne] at h
  rw [decide_eq_true_eq, Option.some.inj h] at hstop
  omega

/-- The gaps between spaced frames, together with them, fill the stream. -/
theorem weaves_gapsFrom (hkept : ∀ frame ∈ kept, frame.Ok new raws) (hspaced : Spaced min pos kept)
    (hpos : pos ≤ new.length) :
    Weaves new.length pos (kept.map fun frame => (frame.start, frame.stop))
      (gapsFrom new.length pos kept) := by
  induction kept generalizing pos with
  | nil =>
      rw [gapsFrom]
      split
      · exact .right hpos .nil
      · obtain rfl : pos = new.length := by omega
        exact .nil
  | cons frame rest ih =>
      have hframe := hkept frame List.mem_cons_self
      have hrest := ih (fun frame h => hkept frame (List.mem_cons_of_mem _ h)) hspaced.2 hframe.le
      have hweaves := Weaves.left hframe.lt hrest
      rw [gapsFrom]
      split
      · next hgap => exact .right (Nat.le_of_lt hgap) hweaves
      · next hgap =>
          obtain rfl : pos = frame.start := by
            rcases hspaced.1 with h | h <;> omega
          exact hweaves

/-- No gap is shorter than the minimum. -/
theorem gapsFrom_min (hspaced : Spaced min pos kept)
    (hlast : total ≤ lastStop pos kept ∨ lastStop pos kept + min ≤ total) :
    ∀ gap ∈ gapsFrom total pos kept, gap.1 < gap.2 ∧ min ≤ gapLen gap := by
  induction kept generalizing pos with
  | nil =>
      intro gap hgap
      rw [gapsFrom] at hgap
      split at hgap
      · next hlt =>
          obtain rfl := List.mem_singleton.mp hgap
          have : total ≤ pos ∨ pos + min ≤ total := hlast
          exact ⟨hlt, by simp only [gapLen]; omega⟩
      · cases hgap
  | cons frame rest ih =>
      rw [lastStop_cons] at hlast
      intro gap hgap
      rcases List.mem_append.mp hgap with hgap | hgap
      · split at hgap
        · next hlt =>
            obtain rfl := List.mem_singleton.mp hgap
            exact ⟨hlt, by rcases hspaced.1 with h | h <;> simp only [gapLen] <;> omega⟩
        · cases hgap
      · exact ih hspaced.2 hlast gap hgap

end Kept

/-- What a plan over these blobs is: its kept frames are the base's, and its gaps are what is left of
the stream, none of them too short or too long and all of them together at most half of it. -/
structure Plan.Ok (blobOf : Bytes → Bytes) (raws : List Bytes) (bounds : CdcBounds)
    (blobs : List Blob) (plan : Plan) : Prop where
  kept : ∀ frame ∈ plan.reused, frame.Ok (stream blobOf blobs) raws
  weaves : Weaves (stream blobOf blobs).length 0
    (plan.reused.map fun frame => (frame.start, frame.stop)) plan.gaps
  gaps : ∀ gap ∈ plan.gaps,
    gap.1 < gap.2 ∧ bounds.min ≤ gapLen gap ∧ gapLen gap ≤ maxGapBytes
  half : (plan.gaps.map gapLen).sum ≤ (stream blobOf blobs).length / 2
  reused_ne : plan.reused ≠ []

theorem Plan.Ok.pos {blobOf : Bytes → Bytes} {raws : List Bytes} {bounds : CdcBounds}
    {blobs : List Blob} {plan : Plan} (h : plan.Ok blobOf raws bounds blobs) :
    0 < (stream blobOf blobs).length := by
  obtain ⟨frame, hframe⟩ := List.exists_mem_of_ne_nil _ h.reused_ne
  have hkept := h.kept frame hframe
  exact Nat.lt_of_lt_of_le (Nat.zero_lt_of_lt hkept.lt) hkept.le

section Plans

variable {bytesOf : String → Bytes} {blobOf : Bytes → Bytes} {tools : Tools} {raws : List Bytes}
  {bounds : CdcBounds} {blobs : List Blob} {plan : Plan}

theorem planOf_ok {kept : List KeptFrame}
    (hkept : ∀ frame ∈ kept, frame.Ok (stream blobOf blobs) raws)
    (hspaced : Spaced bounds.min 0 kept)
    (hlast : ∀ frame, kept.getLast? = some frame → (stream blobOf blobs).length ≤ frame.stop ∨
      frame.stop + bounds.min ≤ (stream blobOf blobs).length)
    (h : planOf (stream blobOf blobs).length kept = some plan) :
    plan.Ok blobOf raws bounds blobs := by
  simp only [planOf] at h
  split at h
  · cases h
  · next hne =>
      split at h
      · cases h
      · next hsmall =>
          obtain rfl := Option.some.inj h
          obtain ⟨hhalf, hmax⟩ := not_or.mp hsmall
          have hstop : (stream blobOf blobs).length ≤ lastStop 0 kept ∨
              lastStop 0 kept + bounds.min ≤ (stream blobOf blobs).length := by
            cases hgetLast : kept.getLast? with
            | none => exact absurd (List.isEmpty_iff.mpr (List.getLast?_eq_none_iff.mp hgetLast)) hne
            | some frame =>
                rw [lastStop, hgetLast]
                exact hlast frame hgetLast
          refine ⟨hkept, weaves_gapsFrom hkept hspaced (Nat.zero_le _), fun gap hgap => ?_,
            Nat.not_lt.mp hhalf, fun hnil => hne (List.isEmpty_iff.mpr hnil)⟩
          obtain ⟨hlt, hmin⟩ := gapsFrom_min hspaced hstop gap hgap
          refine ⟨hlt, hmin, Nat.not_lt.mp fun hlong => hmax ?_⟩
          exact List.any_eq_true.mpr ⟨gap, hgap, decide_eq_true hlong⟩

/-- Every plan over a base whose files are in stream order is right. -/
theorem planIncremental_ok {mirror : Mirror} {base : BaseIndex} {sizes : List Nat}
    (hmirror : mirror.Ok blobOf) (hbase : base.Ok bytesOf tools raws)
    (horder : base.InOrder blobOf raws)
    (h : planIncremental mirror base bounds blobs = .ok (some (plan, sizes))) :
    plan.Ok blobOf raws bounds blobs ∧ sizes = (contents blobOf blobs).map List.length := by
  obtain ⟨files, hfiles, h⟩ := bind_eq_ok.mp h
  obtain ⟨⟨segments, total⟩, hsegments, h⟩ := bind_eq_ok.mp h
  have hsized := sizeFiles_ok hmirror horder hfiles
  obtain ⟨rfl, hsegmentsOk⟩ := findSegments_ok [] hsized (by simp) hsegments
  dsimp only at h
  split at h
  · simp at h
  · obtain ⟨plan', hplan, hpair⟩ := Option.map_eq_some_iff.mp (pure_eq_ok.mp h)
    obtain ⟨rfl, rfl⟩ := Prod.mk.inj hpair
    obtain ⟨kept, hkept, hplan⟩ := Option.bind_eq_some_iff.mp hplan
    have hbyOld : ∀ segment ∈ segments.insertionSort fun a b => a.oldStart ≤ b.oldStart,
        segment.Ok raws.flatten (stream blobOf blobs) (stream blobOf blobs).length :=
      fun segment hsegment => hsegmentsOk segment ((List.mem_insertionSort _).mp hsegment)
    have hreused := reuseFrames_ok hbyOld (frameSpans_ok hbase)
    have hsorted := keepFrames_sublist hkept
    have hkeptOf := @trimTail_prefixOf bounds.min (stream blobOf blobs).length kept
    refine ⟨?_, sizes_eq hsized⟩
    refine planOf_ok ?_ ?_ (fun frame => trimTail_last) hplan
    · intro frame hframe
      exact hreused frame ((List.mem_insertionSort _).mp (hsorted.mem (hkeptOf.mem hframe)))
    · obtain ⟨rest, hrest⟩ := hkeptOf
      have hspaced := keepFrames_spaced hkept
      rw [← hrest] at hspaced
      exact hspaced.append_left

end Plans

end Ripclone.Archive
