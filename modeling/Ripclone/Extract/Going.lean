import Mathlib.Data.List.Sigma
import Ripclone.Extract.Arrival
import Ripclone.Extract.Assembly

/-!
# An extraction under way

Until a frame, a file or a write fails, the fragments that are left determine everything the writers
share: the map of pending files, which files are written or in a batch, and what was counted
(`Going`). A step keeps this, or it sends the collector an error and has a cause to (`Going.step`).
-/

namespace Ripclone

open Ripclone.Library

/-- The writes of the files of which nothing is left. -/
def MetadataChunk.madeWrites (table : MetadataChunk) (raws : Nat → Bytes) (left : List (Nat × Nat)) :
    List OwnedFileWrite :=
  (table.files.zipIdx.filter fun (entry, fileIdx) =>
    decide (entry.fragments ≠ [] ∧ missing left fileIdx entry.fragments = 0)).map fun (entry, _) =>
      ⟨entry, entry.content raws⟩

section Fragments

variable {table : MetadataChunk} {frameIdx fileIdx fragIdx : Nat}

theorem mem_fragmentsByFrame : (fileIdx, fragIdx) ∈ table.fragmentsByFrame frameIdx ↔
    ∃ entry fragment, table.files[fileIdx]? = some entry ∧ entry.fragments[fragIdx]? = some fragment ∧
      fragment.frameIndex = frameIdx := by
  simp only [MetadataChunk.fragmentsByFrame, List.mem_flatMap, List.mem_filterMap, Prod.exists,
    List.mk_mem_zipIdx_iff_getElem?]
  constructor
  · rintro ⟨entry, fileIdx', hentry, fragment, fragIdx', hfragment, hpair⟩
    split at hpair
    · next hframe =>
        obtain ⟨rfl, rfl⟩ := Prod.mk.inj (Option.some.inj hpair)
        exact ⟨entry, fragment, hentry, hfragment, hframe⟩
    · cases hpair
  · rintro ⟨entry, fragment, hentry, hfragment, hframe⟩
    exact ⟨entry, fileIdx, hentry, fragment, fragIdx, hfragment, if_pos hframe⟩

theorem nodup_zipIdx {α : Type} (xs : List α) : xs.zipIdx.Nodup :=
  (List.nodup_zipIdx_map_snd xs).of_map _

theorem nodup_fragmentsByFrame (table : MetadataChunk) (frameIdx : Nat) :
    (table.fragmentsByFrame frameIdx).Nodup := by
  have hfound {fileIdx fragIdx : Nat} {fragment : Fragment} {pair : Nat × Nat}
      (h : (if fragment.frameIndex = frameIdx then some (fileIdx, fragIdx) else none) = some pair) :
      pair.1 = fileIdx := by
    split at h
    · rw [← Option.some.inj h]
    · cases h
  rw [MetadataChunk.fragmentsByFrame, List.nodup_flatMap]
  constructor
  · rintro ⟨entry, fileIdx⟩ _
    apply List.pairwise_filterMap.mpr
    refine (List.pairwise_map.mp (List.nodup_zipIdx_map_snd entry.fragments)).imp ?_
    rintro ⟨fragment, fragIdx⟩ ⟨fragment', fragIdx'⟩ hne pair hpair pair' hpair' rfl
    dsimp only at hpair hpair' hne
    split at hpair
    · split at hpair'
      · exact hne (congrArg Prod.snd (Option.some.inj (hpair.trans hpair'.symm)))
      · cases hpair'
    · cases hpair
  · refine (List.pairwise_map.mp (List.nodup_zipIdx_map_snd table.files)).imp ?_
    rintro ⟨entry, fileIdx⟩ ⟨entry', fileIdx'⟩ hne pair hpair hpair'
    obtain ⟨⟨_, _⟩, _, hpair⟩ := List.mem_filterMap.mp hpair
    obtain ⟨⟨_, _⟩, _, hpair'⟩ := List.mem_filterMap.mp hpair'
    exact hne ((hfound hpair).symm.trans (hfound hpair'))

/-- One element more passes the filter. -/
theorem filter_perm_cons {α : Type} {xs : List α} (hnodup : xs.Nodup) {a : α} (ha : a ∈ xs) {p q : α → Bool}
    (hp : p a = false) (hq : ∀ b ∈ xs, q b = true ↔ p b = true ∨ b = a) :
    (xs.filter q).Perm (a :: xs.filter p) := by
  rw [List.perm_ext_iff_of_nodup (hnodup.filter _)
    (List.nodup_cons.mpr ⟨by simp [hp], hnodup.filter _⟩)]
  intro b
  rw [List.mem_cons, List.mem_filter, List.mem_filter]
  constructor
  · rintro ⟨hb, hqb⟩
    rcases (hq b hb).mp hqb with hpb | rfl
    · exact .inr ⟨hb, hpb⟩
    · exact .inl rfl
  · rintro (rfl | ⟨hb, hpb⟩)
    · exact ⟨ha, (hq b ha).mpr (.inr rfl)⟩
    · exact ⟨hb, (hq b hb).mpr (.inl hpb)⟩

end Fragments

section Made

variable {table : MetadataChunk} {raws : Nat → Bytes} {left left' : List (Nat × Nat)}
  {fileIdx fragIdx : Nat} {entry : FileEntry} {fragment : Fragment}

theorem pendingOf_congr (h : ∀ pair, pair ∈ left ↔ pair ∈ left') :
    table.pendingOf raws left = table.pendingOf raws left' := by
  funext k
  rw [MetadataChunk.pendingOf, MetadataChunk.pendingOf]
  congr 1
  funext other
  rw [slotsOf_congr fun _ _ => h _, missing_congr fun _ _ => h _]

theorem madeWrites_congr (h : ∀ pair, pair ∈ left ↔ pair ∈ left') :
    table.madeWrites raws left = table.madeWrites raws left' := by
  rw [MetadataChunk.madeWrites, MetadataChunk.madeWrites]
  congr 1
  apply List.filter_congr
  rintro ⟨other, k⟩ _
  dsimp only
  rw [missing_congr fun _ _ => h _]

variable (hperm : left.Perm ((fileIdx, fragIdx) :: left')) (hnodup : left.Nodup)
  (hentry : table.files[fileIdx]? = some entry) (hfragment : entry.fragments[fragIdx]? = some fragment)

include hperm hnodup hentry hfragment

/-- The file is made with its last fragment. -/
theorem madeWrites_last (hlast : missing left' fileIdx entry.fragments = 0) :
    (table.madeWrites raws left').Perm (⟨entry, entry.content raws⟩ :: table.madeWrites raws left) := by
  have hmem : (entry, fileIdx) ∈ table.files.zipIdx := List.mk_mem_zipIdx_iff_getElem?.mpr hentry
  have hne : entry.fragments ≠ [] := by
    intro hnil
    rw [hnil] at hfragment
    cases hfragment
  have hmissing := missing_cut hperm hnodup hfragment
  refine (filter_perm_cons (nodup_zipIdx _) hmem ?_ ?_).map _
  · simp [hmissing]
  · rintro ⟨other, k⟩ hother
    simp only [decide_eq_true_eq]
    by_cases hk : k = fileIdx
    · subst hk
      have hsame : other = entry := by
        have hget := List.mk_mem_zipIdx_iff_getElem?.mp hother
        exact Option.some.inj (hget.symm.trans hentry)
      subst hsame
      simp [hlast, hne]
    · rw [missing_other hperm hnodup hk]
      simp [hk]

/-- The others are made as before. -/
theorem madeWrites_more (hmore : missing left' fileIdx entry.fragments ≠ 0) :
    table.madeWrites raws left' = table.madeWrites raws left := by
  have hmissing := missing_cut hperm hnodup hfragment
  rw [MetadataChunk.madeWrites, MetadataChunk.madeWrites]
  congr 1
  apply List.filter_congr
  rintro ⟨other, k⟩ hother
  by_cases hk : k = fileIdx
  · subst hk
    have hsame : other = entry := by
      have hget := List.mk_mem_zipIdx_iff_getElem?.mp hother
      exact Option.some.inj (hget.symm.trans hentry)
    subst hsame
    simp [hmore, hmissing]
  · dsimp only
    rw [missing_other hperm hnodup hk]

end Made

/-- A batch was not written, or not all of it. -/
def ExtractEvent.failed : ExtractEvent → Bool
  | .write _ (some _) => true
  | _ => false

/-! ## The invariant -/

namespace Extraction

variable (x : Extraction)

/-- The raw bytes of a frame that arrives and is unpacked. -/
def rawOf (arrived : List (Nat × Except ExtractError Bytes)) (frameIdx : Nat) : Bytes :=
  match arrived.find? fun message => message.1 = frameIdx with
  | none => []
  | some message =>
    match x.takeFrame message with
    | .ok writer => writer.raw
    | .error _ => []

/-- Every frame of `arrived` is unpacked, and every file made of them is the blob it should be. -/
structure Sound (arrived : List (Nat × Except ExtractError Bytes)) : Prop where
  taken : ∀ message ∈ arrived, ∃ writer, x.takeFrame message = .ok writer
  right : ∀ entry ∈ x.table.files, entry.fragments ≠ [] →
    x.blobId (entry.content (x.rawOf arrived)).bytes = entry.blobSha1

/-- The fragments that are left. -/
def left (s : PipelineState) : List (Nat × Nat) :=
  (s.arrived.flatMap fun message => x.table.fragmentsByFrame message.1) ++ s.writers.flatMap FrameWriter.rest

/-- The writer is at a frame of `arrived`. -/
structure AtFrame (arrived : List (Nat × Except ExtractError Bytes)) (writer : FrameWriter) : Prop where
  raw : writer.raw = x.rawOf arrived writer.frame
  whole : ∃ frame, x.table.frames[writer.frame]? = some frame ∧ writer.raw.length = frame.rawLen
  rest : ∀ pair ∈ writer.rest, pair ∈ x.table.fragmentsByFrame writer.frame

/-- Nothing has failed of what has been done. -/
structure Going (arrived : List (Nat × Except ExtractError Bytes)) (s : PipelineState) : Prop where
  mem : ∀ message ∈ s.arrived, message ∈ arrived
  nodup : (x.left s).Nodup
  taken : ∀ message ∈ arrived, message ∈ s.arrived ∨ ∃ writer, x.takeFrame message = .ok writer
  writers : ∀ writer ∈ s.writers, x.AtFrame arrived writer
  pending : s.pendingFiles = x.table.pendingOf (x.rawOf arrived) (x.left s)
  /-- The files that are made are written or in a batch. -/
  writes : (s.files ++ s.writers.flatMap FrameWriter.pendingWrites).Perm
    (if x.target then x.table.madeWrites (x.rawOf arrived) (x.left s) else [])
  right : ∀ entry fileIdx, x.table.files[fileIdx]? = some entry → entry.fragments ≠ [] →
    missing (x.left s) fileIdx entry.fragments = 0 →
      x.blobId (entry.content (x.rawOf arrived)).bytes = entry.blobSha1
  counted : (s.results.filterMap Except.toOption).sum + (s.writers.map FrameWriter.written).sum =
    s.files.length
  fine : ∀ result ∈ s.results, ∃ written, result = .ok written

section Steps

variable {x} {arrived : List (Nat × Except ExtractError Bytes)} {s : PipelineState}

theorem takeFrame_ok {message : Nat × Except ExtractError Bytes} {writer : FrameWriter} :
    x.takeFrame message = .ok writer ↔ ∃ compressed frame raw, message.2 = .ok compressed ∧
      x.table.frames[message.1]? = some frame ∧ x.decompressFrame compressed frame message.1 = .ok raw ∧
      raw.length = frame.rawLen ∧ message.1 < 2 ^ 32 ∧
      writer = ⟨message.1, raw, x.table.fragmentsByFrame message.1, [], 0⟩ := by
  rw [takeFrame, bind_eq_ok]
  constructor
  · rintro ⟨compressed, hcompressed, h⟩
    cases hframe : x.table.frames[message.1]? with
    | none => simp [hframe] at h
    | some frame =>
        rw [hframe] at h
        obtain ⟨raw, hraw, h⟩ := bind_eq_ok.mp h
        obtain ⟨hlen, h⟩ := ite_throw_eq_ok.mp h
        obtain ⟨hindex, h⟩ := ite_throw_eq_ok.mp h
        exact ⟨compressed, frame, raw, hcompressed, rfl, hraw, not_not.mp hlen, Nat.not_le.mp hindex,
          (pure_eq_ok.mp h).symm⟩
  · rintro ⟨compressed, frame, raw, hcompressed, hframe, hraw, hlen, hindex, rfl⟩
    refine ⟨compressed, hcompressed, ?_⟩
    rw [hframe]
    refine bind_eq_ok.mpr ⟨raw, hraw, ?_⟩
    rw [if_neg (not_not.mpr hlen), if_neg (Nat.not_le.mpr hindex)]
    rfl

theorem rawOf_of_mem (hnodup : (arrived.map Prod.fst).Nodup) {message : Nat × Except ExtractError Bytes}
    (hmessage : message ∈ arrived) {writer : FrameWriter} (htake : x.takeFrame message = .ok writer) :
    x.rawOf arrived message.1 = writer.raw := by
  have hfind : arrived.find? (fun other => other.1 = message.1) = some message := by
    cases hfind : arrived.find? fun other => other.1 = message.1 with
    | none => simpa using List.find?_eq_none.mp hfind message hmessage
    | some other =>
        have hsame : other.1 = message.1 := by simpa using List.find?_some hfind
        rw [List.inj_on_of_nodup_map hnodup (List.mem_of_find?_eq_some hfind) hmessage hsame]
  rw [rawOf, hfind]
  dsimp only
  rw [htake]

/-- While the same fragments are left, the map and the files that are made stay as they are. -/
theorem Going.same_left {s' : PipelineState} (h : x.Going arrived s) (hleft : (x.left s).Perm (x.left s'))
    (hmem : ∀ message ∈ s'.arrived, message ∈ arrived)
    (htaken : ∀ message ∈ s.arrived, message ∈ s'.arrived ∨ ∃ writer, x.takeFrame message = .ok writer)
    (hwriters : ∀ writer ∈ s'.writers, x.AtFrame arrived writer)
    (hpending : s'.pendingFiles = s.pendingFiles)
    (hwrites : (s'.files ++ s'.writers.flatMap FrameWriter.pendingWrites).Perm
      (s.files ++ s.writers.flatMap FrameWriter.pendingWrites))
    (hcounted : (s'.results.filterMap Except.toOption).sum + (s'.writers.map FrameWriter.written).sum =
      s'.files.length)
    (hfine : ∀ result ∈ s'.results, ∃ written, result = .ok written) : x.Going arrived s' := by
  have hsame (pair : Nat × Nat) := @List.Perm.mem_iff _ pair _ _ hleft
  refine ⟨hmem, hleft.nodup_iff.mp h.nodup, ?_, hwriters, ?_, ?_, ?_, hcounted, hfine⟩
  · intro message hmessage
    rcases h.taken message hmessage with hin | hout
    · exact htaken message hin
    · exact .inr hout
  · rw [hpending, h.pending]
    exact pendingOf_congr hsame
  · rw [← madeWrites_congr hsame]
    exact hwrites.trans h.writes
  · intro entry fileIdx hentry hne hzero
    rw [← missing_congr fun _ _ => hsame _] at hzero
    exact h.right entry fileIdx hentry hne hzero

/-- In which order the frames and the writers stand does not matter. -/
theorem Going.perm (h : x.Going arrived s) {messages : List (Nat × Except ExtractError Bytes)}
    {writers : List FrameWriter} (hmessages : s.arrived.Perm messages) (hwriters : s.writers.Perm writers) :
    x.Going arrived { s with arrived := messages, writers } := by
  apply h.same_left
  · exact (hmessages.flatMap_right _).append (hwriters.flatMap_right _)
  · exact fun message hmessage => h.mem message (hmessages.mem_iff.mpr hmessage)
  · exact fun message hmessage => .inl (hmessages.mem_iff.mp hmessage)
  · exact fun writer hwriter => h.writers writer (hwriters.mem_iff.mpr hwriter)
  · rfl
  · exact (hwriters.flatMap_right _).symm.append_left _
  · rw [← h.counted]
    exact congrArg _ (hwriters.map _).sum_nat.symm
  · exact h.fine

section Head

variable {messages : List (Nat × Except ExtractError Bytes)} {message : Nat × Except ExtractError Bytes}
  {writer : FrameWriter} {writers : List FrameWriter} {pendingFiles : PendingFiles}
  {files : List OwnedFileWrite} {results : List (Except ExtractError Nat)}

theorem Going.take (hnodup : (arrived.map Prod.fst).Nodup)
    (h : x.Going arrived ⟨message :: messages, writers, pendingFiles, files, results⟩)
    (htake : x.takeFrame message = .ok writer) :
    x.Going arrived ⟨messages, writer :: writers, pendingFiles, files, results⟩ := by
  have hraw := rawOf_of_mem hnodup (h.mem message List.mem_cons_self) htake
  obtain ⟨compressed, frame, raw, _, hframe, _, hlen, _, rfl⟩ := takeFrame_ok.mp htake
  apply h.same_left
  · rw [left, left, List.flatMap_cons, List.flatMap_cons, List.append_assoc]
    exact List.perm_append_comm_assoc _ _ _
  · exact fun other hother => h.mem other (List.mem_cons_of_mem _ hother)
  · intro other hother
    rcases List.mem_cons.mp hother with rfl | hother
    · exact .inr ⟨_, htake⟩
    · exact .inl hother
  · intro other hother
    rcases List.mem_cons.mp hother with rfl | hother
    · exact ⟨hraw.symm, ⟨frame, hframe, hlen⟩, fun _ hpair => hpair⟩
    · exact h.writers other hother
  · rfl
  · rw [List.flatMap_cons, List.nil_append]
  · rw [List.map_cons, List.sum_cons, Nat.zero_add]
    exact h.counted
  · exact h.fine

/-- The writer's batch is written. -/
theorem Going.flush (h : x.Going arrived ⟨messages, writer :: writers, pendingFiles, files, results⟩) :
    x.Going arrived ⟨messages,
      { writer with pendingWrites := [], written := writer.written + writer.pendingWrites.length } :: writers,
      pendingFiles, files ++ writer.pendingWrites, results⟩ := by
  have hcounted := h.counted
  apply h.same_left
  · rw [left, left, List.flatMap_cons, List.flatMap_cons]
  · exact h.mem
  · exact fun message hmessage => .inl hmessage
  · intro other hother
    rcases List.mem_cons.mp hother with rfl | hother
    · exact ⟨(h.writers writer List.mem_cons_self).raw, (h.writers writer List.mem_cons_self).whole,
        (h.writers writer List.mem_cons_self).rest⟩
    · exact h.writers other (List.mem_cons_of_mem _ hother)
  · rfl
  · rw [List.flatMap_cons, List.flatMap_cons, List.nil_append, List.append_assoc]
  · simp only [List.map_cons, List.sum_cons, List.length_append] at hcounted ⊢
    omega
  · exact h.fine

/-- The writer has nothing left to do. -/
theorem Going.finish (h : x.Going arrived ⟨messages, writer :: writers, pendingFiles, files, results⟩)
    (hrest : writer.rest = []) (hnothing : writer.pendingWrites = []) :
    x.Going arrived ⟨messages, writers, pendingFiles, files, results ++ [.ok writer.written]⟩ := by
  have hcounted := h.counted
  apply h.same_left
  · rw [left, left, List.flatMap_cons, hrest, List.nil_append]
  · exact h.mem
  · exact fun message hmessage => .inl hmessage
  · exact fun other hother => h.writers other (List.mem_cons_of_mem _ hother)
  · rfl
  · rw [List.flatMap_cons, hnothing, List.nil_append]
  · simp only [List.map_cons, List.sum_cons, List.filterMap_append, List.sum_append] at hcounted ⊢
    simp only [List.filterMap_cons, Except.toOption, List.filterMap_nil, List.sum_cons, List.sum_nil]
    omega
  · intro result hresult
    rcases List.mem_append.mp hresult with hresult | hresult
    · exact h.fine result hresult
    · exact ⟨_, List.mem_singleton.mp hresult⟩

theorem checkedWrite_ok {entry : FileEntry} {content : FileWriteContent} {write : OwnedFileWrite} :
    x.checkedWrite entry content = .ok write ↔ x.blobId content.bytes = entry.blobSha1 ∧ write = ⟨entry, content⟩ := by
  rw [checkedWrite, ite_throw_eq_ok, not_not, pure_eq_ok, eq_comm (a := write)]

/-- One fragment of a file less is left, and `writes` are the files that are made with it. -/
theorem Going.next {entry : FileEntry} {fragment : Fragment} {fileIdx fragIdx : Nat}
    {rest less : List (Nat × Nat)} {writes : List OwnedFileWrite}
    (h : x.Going arrived ⟨messages, writer :: writers, pendingFiles, files, results⟩)
    (hrest : writer.rest = (fileIdx, fragIdx) :: rest)
    (hless : less = (messages.flatMap fun message => x.table.fragmentsByFrame message.1) ++
      (rest ++ writers.flatMap FrameWriter.rest))
    (hentry : x.table.files[fileIdx]? = some entry) (hfragment : entry.fragments[fragIdx]? = some fragment)
    (hright : missing less fileIdx entry.fragments = 0 →
      x.blobId (entry.content (x.rawOf arrived)).bytes = entry.blobSha1)
    (hwrites : writes = if x.target ∧ missing less fileIdx entry.fragments = 0 then
      [⟨entry, entry.content (x.rawOf arrived)⟩] else []) :
    x.Going arrived ⟨messages, { writer with rest, pendingWrites := writer.pendingWrites ++ writes } :: writers,
      x.table.pendingOf (x.rawOf arrived) less, files, results⟩ := by
  have hperm : (x.left ⟨messages, writer :: writers, pendingFiles, files, results⟩).Perm
      ((fileIdx, fragIdx) :: less) := by
    rw [left, List.flatMap_cons, hrest, hless]
    exact List.perm_middle
  obtain ⟨hraw, hwhole, hpairs⟩ := h.writers writer List.mem_cons_self
  subst hless
  refine ⟨h.mem, (List.nodup_cons.mp (hperm.nodup_iff.mp h.nodup)).2, h.taken, ?_, rfl, ?_, ?_, h.counted,
    h.fine⟩
  · intro other hother
    rcases List.mem_cons.mp hother with rfl | hother
    · exact ⟨hraw, hwhole, fun pair hpair => hpairs pair (hrest ▸ List.mem_cons_of_mem _ hpair)⟩
    · exact h.writers other (List.mem_cons_of_mem _ hother)
  · have hmade : (files ++ (writer.pendingWrites ++ writes ++ writers.flatMap FrameWriter.pendingWrites)).Perm
        (writes ++ (files ++ (writer.pendingWrites ++ writers.flatMap FrameWriter.pendingWrites))) := by
      rw [List.append_assoc, ← List.append_assoc files]
      refine (List.perm_append_comm_assoc _ _ _).trans ?_
      rw [List.append_assoc]
    refine hmade.trans ((h.writes.append_left writes).trans ?_)
    rw [hwrites]
    cases x.target with
    | false => simp
    | true =>
        -- The fragment was the file's last, and the file is made, or others are missing.
        by_cases hzero : missing ((messages.flatMap fun message => x.table.fragmentsByFrame message.1) ++
            (rest ++ writers.flatMap FrameWriter.rest)) fileIdx entry.fragments = 0
        · rw [if_pos ⟨rfl, hzero⟩]
          exact (madeWrites_last hperm h.nodup hentry hfragment hzero).symm
        · rw [if_neg fun hboth => hzero hboth.2]
          exact (madeWrites_more hperm h.nodup hentry hfragment hzero).symm ▸ List.Perm.refl _
  · intro other k hother hne hzero
    by_cases hk : k = fileIdx
    · subst hk
      obtain rfl := Option.some.inj (hentry.symm.trans hother)
      exact hright hzero
    · refine h.right other k hother hne ?_
      rw [← missing_other hperm h.nodup hk]
      exact hzero

/-- A fragment is cut out of the writer's frame, unless it completes a file that is not right. -/
theorem Going.cut (hvalid : x.table.Valid) {pair : Nat × Nat} {rest : List (Nat × Nat)}
    (h : x.Going arrived ⟨messages, writer :: writers, pendingFiles, files, results⟩)
    (hrest : writer.rest = pair :: rest) :
    ∃ cut pendingFiles', x.cutFragment writer pendingFiles pair = (cut, pendingFiles') ∧
      ((∃ write, cut = .ok write ∧ x.Going arrived ⟨messages,
        { writer with rest, pendingWrites := writer.pendingWrites ++ if x.target then write.toList else [] } ::
          writers, pendingFiles', files, results⟩) ∨
        (∃ error, cut = .error error) ∧ ¬ x.Sound arrived) := by
  obtain ⟨fileIdx, fragIdx⟩ := pair
  obtain ⟨hraw, ⟨frame, hframe, hlen⟩, hpairs⟩ := h.writers writer List.mem_cons_self
  have hcut := hpairs (fileIdx, fragIdx) (hrest ▸ List.mem_cons_self)
  obtain ⟨entry, fragment, hentry, hfragment, hin⟩ := mem_fragmentsByFrame.mp hcut
  have hmem := List.mem_of_getElem? hentry
  have hne : entry.fragments ≠ [] := List.ne_nil_of_mem (List.mem_of_getElem? hfragment)
  have hfits : fragment.frameOffset + fragment.rawLen ≤ writer.raw.length := by
    obtain ⟨frame', hframe', _, hinside⟩ :=
      (hvalid.files entry hmem).fragments fragment (List.mem_of_getElem? hfragment)
    rw [hin, hframe] at hframe'
    rwa [hlen, Option.some.inj hframe']
  generalize hless : (messages.flatMap fun message => x.table.fragmentsByFrame message.1) ++
    (rest ++ writers.flatMap FrameWriter.rest) = less
  have hperm : (x.left ⟨messages, writer :: writers, pendingFiles, files, results⟩).Perm
      ((fileIdx, fragIdx) :: less) := by
    rw [left, List.flatMap_cons, hrest, ← hless]
    exact List.perm_middle
  have hcutFragment := cutFragment_ok hperm h.nodup hentry hfragment hin hraw hfits
  have hpending : pendingFiles = _ := h.pending
  rw [← hpending] at hcutFragment
  refine ⟨_, _, hcutFragment, ?_⟩
  by_cases hzero : missing less fileIdx entry.fragments = 0
  · rw [if_pos hzero]
    cases hcheck : x.checkedWrite entry (entry.content (x.rawOf arrived)) with
    | ok write =>
        obtain ⟨hright, rfl⟩ := checkedWrite_ok.mp hcheck
        refine .inl ⟨some _, rfl, h.next hrest hless.symm hentry hfragment (fun _ => hright) ?_⟩
        simp [hzero]
    | error error =>
        refine .inr ⟨⟨error, rfl⟩, fun hsound => ?_⟩
        rw [checkedWrite_ok.mpr ⟨hsound.right entry hmem hne, rfl⟩] at hcheck
        cases hcheck
  · rw [if_neg hzero]
    refine .inl ⟨none, rfl, h.next hrest hless.symm hentry hfragment (fun hz => absurd hz hzero) ?_⟩
    simp [hzero]

end Head

theorem perm_of_getElem? {α : Type} {xs : List α} {i : Nat} {a : α} (h : xs[i]? = some a) :
    xs.Perm (a :: xs.eraseIdx i) := by
  obtain ⟨hlt, rfl⟩ := List.getElem?_eq_some_iff.mp h
  exact (List.getElem_cons_eraseIdx_perm hlt).symm

/-- What is done when no files are written. -/
theorem Going.nothing_written (h : x.Going arrived s) (htarget : x.target = false) :
    s.files = [] ∧ ∀ writer ∈ s.writers, writer.pendingWrites = [] := by
  have hnil := h.writes
  rw [htarget] at hnil
  obtain ⟨hfiles, hwriters⟩ := List.append_eq_nil_iff.mp hnil.eq_nil
  exact ⟨hfiles, List.flatMap_eq_nil_iff.mp hwriters⟩

/-- A step goes on, or sends an error that has a cause. -/
theorem Going.step (hvalid : x.table.Valid) (hnodup : (arrived.map Prod.fst).Nodup) {e : ExtractEvent}
    {s' : PipelineState} (h : x.Going arrived s) (hstep : x.Step s e s') :
    (x.Going arrived s' ∧ e.failed = false) ∨
      (∃ error, .error error ∈ s'.results) ∧ (e.failed = true ∨ ¬ x.Sound arrived) := by
  cases e with
  | take k =>
      obtain ⟨message, hmessage, rfl⟩ := Option.map_eq_some_iff.mp hstep
      have hhead := h.perm (perm_of_getElem? hmessage) (List.Perm.refl _)
      dsimp only
      cases htake : x.takeFrame message with
      | ok writer =>
          exact .inl ⟨(hhead.take hnodup htake).perm (List.Perm.refl _)
            (List.perm_append_singleton _ _).symm, rfl⟩
      | error error =>
          refine .inr ⟨⟨error, List.mem_append_right _ (List.mem_singleton.mpr rfl)⟩, .inr fun hsound => ?_⟩
          obtain ⟨writer, hwriter⟩ := hsound.taken message (hhead.mem message List.mem_cons_self)
          rw [htake] at hwriter
          cases hwriter
  | advance i =>
      obtain ⟨writer, hwriter, hstep⟩ := Option.bind_eq_some_iff.mp hstep
      have hhead := h.perm (List.Perm.refl _) (perm_of_getElem? hwriter)
      split at hstep
      · cases hstep
      · next hnext =>
          obtain rfl := Option.some.inj hstep
          cases hrest : writer.rest with
          | nil =>
              -- the last batch has nothing in it when there is no target
              have htarget : x.target = false := by
                rw [writesNext, hrest, List.isEmpty_nil, Bool.or_true, Bool.and_true] at hnext
                exact Bool.not_eq_true _ ▸ hnext
              have hnothing := (h.nothing_written htarget).2 writer (List.mem_of_getElem? hwriter)
              rw [advance, hrest]
              exact .inl ⟨hhead.finish hrest hnothing, rfl⟩
          | cons pair rest =>
              obtain ⟨cut, pendingFiles', hcut, hgoes⟩ := hhead.cut hvalid hrest
              rw [advance, hrest]
              dsimp only
              rw [hcut]
              rcases hgoes with ⟨write, rfl, hgoing⟩ | ⟨⟨error, rfl⟩, hsound⟩
              · refine .inl ⟨?_, rfl⟩
                have hlt := (List.getElem?_eq_some_iff.mp hwriter).1
                exact hgoing.perm (List.Perm.refl _) (List.set_perm_cons_eraseIdx hlt _).symm
              · exact .inr ⟨⟨error, List.mem_append_right _ (List.mem_singleton.mpr rfl)⟩, .inr hsound⟩
  | write i failed =>
      obtain ⟨writer, hwriter, hstep⟩ := Option.bind_eq_some_iff.mp hstep
      have hhead := h.perm (List.Perm.refl _) (perm_of_getElem? hwriter)
      split at hstep
      · next hnext =>
          obtain rfl := Option.some.inj hstep
          cases failed with
          | some failure =>
              exact .inr ⟨⟨_, List.mem_append_right _ (List.mem_singleton.mpr rfl)⟩, .inl rfl⟩
          | none =>
              refine .inl ⟨?_, rfl⟩
              have hflushed := hhead.flush
              rw [writeBatch]
              dsimp only
              split
              · next hshort =>
                  have hrest : writer.rest = [] := by
                    rw [writesNext, decide_eq_false (Nat.not_le.mpr hshort), Bool.false_or,
                      Bool.and_eq_true, List.isEmpty_iff] at hnext
                    exact hnext.2
                  exact hflushed.finish hrest rfl
              · have hlt := (List.getElem?_eq_some_iff.mp hwriter).1
                exact hflushed.perm (List.Perm.refl _) (List.set_perm_cons_eraseIdx hlt _).symm
      · cases hstep

end Steps

end Extraction

end Ripclone
