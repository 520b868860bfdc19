import Ripclone.Archive.Gaps
import Ripclone.Archive.PlainTools

/-!
# Incremental builds

The frames of an incremental build, kept and new, come out in stream order and are the consecutive
pieces of the new stream. The kept frames and the cuts of the gaps weave into a tiling, and the
build follows it: before a cut it hands over the kept frames that start before it.
-/

namespace Ripclone.Archive

open Ripclone.Library ArchiveBuilder

/-- Where a kept frame is in the new stream. -/
def keptSpan (frame : KeptFrame) : Nat × Nat := (frame.start, frame.stop)

/-- The frames so far are the stream up to `pos`. -/
structure GapState.Ok (bytesOf : String → Bytes) (tools : Tools) (base : BaseIndex) (new : Bytes)
    (bounds : List (Nat × Nat)) (bundler : Bundler) (pos : Nat) (raws : List Bytes) : Prop where
  bundler : bundler.Holds bytesOf tools (some base) raws
  bounds : bounds = spansFrom 0 raws
  stream : raws.flatten = slice new 0 pos
  le : pos ≤ new.length

section Emit

variable {bytesOf : String → Bytes} {blobOf : Bytes → Bytes} {tools : Tools} {cas : Cas}
  {base : BaseIndex} {new : Bytes} {raws baseRaws : List Bytes} {bounds : List (Nat × Nat)}
  {bundler : Bundler} {pos : Nat} (htools : tools.Ok bytesOf)
  (hbase : base.Ok bytesOf tools baseRaws)

include htools hbase

/-- A frame of the next bytes of the stream is pushed. -/
theorem GapState.Ok.push {built : BuiltFrame} {comp : Bytes} {stop : Nat} {bundler' : Bundler}
    (h : GapState.Ok bytesOf tools base new bounds bundler pos raws)
    (hbuilt : built.Holds tools (some base) comp (slice new pos stop)) (hle : pos ≤ stop)
    (hstop : stop ≤ new.length) (hpush : bundler.push tools cas (some base) built = .ok bundler') :
    GapState.Ok bytesOf tools base new (bounds ++ [(pos, stop)]) bundler' stop
      (raws ++ [slice new pos stop]) := by
  have hlen : raws.flatten.length = pos := by
    rw [h.stream, length_slice h.le, Nat.sub_zero]
  have hindex : ∀ index, some base = some index → index.Ok bytesOf tools baseRaws :=
    fun index hindex => Option.some.inj hindex ▸ hbase
  refine ⟨Bundler.push_holds htools hindex h.bundler hbuilt hpush, ?_, ?_, hstop⟩
  · rw [spansFrom_concat, h.bounds, hlen, length_slice hstop, Nat.zero_add,
      Nat.add_sub_cancel' hle]
  · rw [List.flatten_append, List.flatten_singleton, h.stream, slice_append (Nat.zero_le _) hle]

omit htools in
/-- A kept frame is the base's frame of the bytes at its place. -/
theorem keptFrame_holds {kept : KeptFrame} (hkept : kept.Ok new baseRaws) {built : BuiltFrame}
    (h : keptFrame base kept = .ok built) :
    ∃ comp, built.Holds tools (some base) comp (slice new kept.start kept.stop) := by
  unfold keptFrame at h
  split at h
  · cases h
  · next frame hframe =>
      obtain rfl := pure_eq_ok.mp h
      obtain ⟨comp, raw, hraw, hdescribes⟩ := hbase.frames hframe
      obtain rfl := Option.some.inj (hraw.symm.trans hkept.raw)
      refine ⟨comp, hdescribes, by simp, ?_⟩
      intro index k frame' hindex hk hframe'
      obtain rfl := Option.some.inj hindex
      obtain rfl := Option.some.inj hk
      obtain rfl := Option.some.inj (hframe.symm.trans hframe')
      rfl

/-- Handing over the kept frames that start before the next cut, or all of them when there is no cut
left, follows the weave. -/
theorem emitKept_ok {stop : Nat} {kept : List KeptFrame} {cuts : List (Nat × Nat)}
    {state : GapState} (hok : GapState.Ok bytesOf tools base new bounds bundler pos raws)
    (hkept : ∀ frame ∈ kept, frame.Ok new baseRaws)
    (hweaves : Weaves new.length pos (kept.map keptSpan) cuts)
    (hstop : ∀ cut, cuts.head? = some cut → stop = cut.1)
    (h : emitKept tools cas base stop kept bounds bundler = .ok state) :
    ∃ pos' raws', GapState.Ok bytesOf tools base new state.bounds state.bundler pos' raws' ∧
      Weaves new.length pos' (state.kept.map keptSpan) cuts ∧
      (∀ frame ∈ state.kept, frame ∈ kept) ∧
      ∀ frame, state.kept.head? = some frame → stop ≤ frame.start := by
  induction kept generalizing bounds bundler pos raws with
  | nil =>
      obtain rfl := pure_eq_ok.mp h
      exact ⟨pos, raws, hok, hweaves, fun _ h => h, by simp⟩
  | cons frame rest ih =>
      rw [emitKept] at h
      split at h
      · next hbefore =>
          obtain ⟨built, hbuilt, h⟩ := bind_eq_ok.mp h
          obtain ⟨bundler', hpush, h⟩ := bind_eq_ok.mp h
          have hframe := hkept frame List.mem_cons_self
          obtain ⟨hpos, hlt, hrest⟩ := hweaves.next_left fun cut hcut =>
            hstop cut hcut ▸ hbefore
          have hpos : frame.start = pos := hpos
          obtain ⟨comp, hholds⟩ := keptFrame_holds hbase hframe hbuilt
          rw [hpos] at hholds h
          have hnext := hok.push htools hbase hholds (Nat.le_of_lt hlt) hframe.le hpush
          obtain ⟨pos', raws', hok', hweaves', hsub, hhead⟩ :=
            ih hnext (fun frame hframe => hkept frame (List.mem_cons_of_mem _ hframe)) hrest h
          exact ⟨pos', raws', hok', hweaves', fun f hf => List.mem_cons_of_mem _ (hsub f hf), hhead⟩
      · next hafter =>
          obtain rfl := pure_eq_ok.mp h
          refine ⟨pos, raws, hok, hweaves, fun _ h => h, fun f hf => ?_⟩
          obtain rfl := Option.some.inj hf
          exact Nat.not_lt.mp hafter

theorem emitCut_ok {state state' : GapState} {cut : CutFrame} {cuts : List (Nat × Nat)}
    (hok : GapState.Ok bytesOf tools base new state.bounds state.bundler pos raws)
    (hkept : ∀ frame ∈ state.kept, frame.Ok new baseRaws) (hcut : CutOk tools base new cut)
    (hstop : cut.stop ≤ new.length)
    (hweaves : Weaves new.length pos (state.kept.map keptSpan) (cutSpan cut :: cuts))
    (h : emitCut tools cas base state cut = .ok state') :
    ∃ pos' raws', GapState.Ok bytesOf tools base new state'.bounds state'.bundler pos' raws' ∧
      Weaves new.length pos' (state'.kept.map keptSpan) cuts ∧
      ∀ frame ∈ state'.kept, frame.Ok new baseRaws := by
  obtain ⟨middle, hemit, h⟩ := bind_eq_ok.mp h
  obtain ⟨bundler', hpush, h⟩ := bind_eq_ok.mp h
  obtain rfl := pure_eq_ok.mp h
  obtain ⟨pos', raws', hok', hweaves', hsub, hhead⟩ := emitKept_ok htools hbase hok hkept hweaves
    (fun first hfirst => Option.some.inj hfirst ▸ rfl) hemit
  obtain ⟨hpos, hle, hrest⟩ := hweaves'.next_right fun span hspan => by
    rw [List.head?_map, Option.map_eq_some_iff] at hspan
    obtain ⟨frame, hframe, rfl⟩ := hspan
    exact hhead frame hframe
  have hpos : cut.start = pos' := hpos
  obtain ⟨comp, hholds⟩ := hcut
  rw [hpos] at hholds
  have hnext := hok'.push htools hbase hholds hle hstop hpush
  rw [← hpos] at hnext
  exact ⟨cut.stop, _, hnext, hrest, fun frame hframe => hkept frame (hsub frame hframe)⟩

theorem emitCuts_ok {state state' : GapState} {cuts : List CutFrame} {later : List (Nat × Nat)}
    (hok : GapState.Ok bytesOf tools base new state.bounds state.bundler pos raws)
    (hkept : ∀ frame ∈ state.kept, frame.Ok new baseRaws)
    (hcuts : ∀ cut ∈ cuts, CutOk tools base new cut)
    (hweaves : Weaves new.length pos (state.kept.map keptSpan) (cuts.map cutSpan ++ later))
    (h : cuts.foldlM (emitCut tools cas base) state = .ok state') :
    ∃ pos' raws', GapState.Ok bytesOf tools base new state'.bounds state'.bundler pos' raws' ∧
      Weaves new.length pos' (state'.kept.map keptSpan) later ∧
      ∀ frame ∈ state'.kept, frame.Ok new baseRaws := by
  induction cuts generalizing state pos raws with
  | nil =>
      obtain rfl := pure_eq_ok.mp h
      exact ⟨pos, raws, hok, hweaves, hkept⟩
  | cons cut cuts ih =>
      rw [List.foldlM_cons] at h
      obtain ⟨middle, hcut, h⟩ := bind_eq_ok.mp h
      have hstop : cut.stop ≤ new.length := by
        obtain ⟨spans, hperm, htiles⟩ := hweaves.tiles
        have hmem : cutSpan cut ∈ spans := hperm.mem_iff.mpr (by simp)
        exact (htiles.mem hmem).2.2
      obtain ⟨pos', raws', hok', hweaves', hkept'⟩ := emitCut_ok htools hbase hok hkept
        (hcuts cut List.mem_cons_self) hstop hweaves hcut
      exact ih hok' hkept' (fun cut hcut => hcuts cut (List.mem_cons_of_mem _ hcut)) hweaves' h

end Emit

/-- Batches have all the gaps, in order. -/
theorem flatten_gapBatches (batch : List (Nat × Nat)) (batchBytes : Nat) (gaps : List (Nat × Nat)) :
    (gapBatches batch batchBytes gaps).flatten = batch ++ gaps := by
  induction gaps generalizing batch batchBytes with
  | nil =>
      rw [gapBatches]
      split
      · next hempty => rw [List.isEmpty_iff.mp hempty]; rfl
      · rw [List.flatten_singleton, List.append_nil]
  | cons gap gaps ih =>
      rw [gapBatches]
      split
      · rw [ih, List.append_assoc, List.singleton_append]
      · rw [List.flatten_cons, ih, List.singleton_append]

/-- Frames at the places of consecutive pieces pass the check. -/
theorem tiled_spansFrom {raws : List Bytes} (hne : raws ≠ []) :
    tiled raws.flatten.length (spansFrom 0 raws) = true := by
  have hadjacent : ∀ (pos : Nat) (raws : List Bytes), ((spansFrom pos raws).zip
      (spansFrom pos raws).tail).all fun pair => decide (pair.1.2 = pair.2.1) := by
    intro pos raws
    induction raws generalizing pos with
    | nil => rfl
    | cons raw raws ih =>
        cases raws with
        | nil => rfl
        | cons next raws =>
            have := ih (pos + raw.length)
            rw [spansFrom, spansFrom, List.tail_cons, List.zip_cons_cons, List.all_cons]
            rw [spansFrom, List.tail_cons] at this
            rw [this]
            simp
  cases raws with
  | nil => exact absurd rfl hne
  | cons raw raws =>
      cases hlast : (spansFrom 0 (raw :: raws)).getLast? with
      | none => cases List.getLast?_eq_none_iff.mp hlast
      | some span =>
          have hstop := getLast?_spansFrom hlast
          rw [Nat.zero_add] at hstop
          rw [tiled, hadjacent, hlast, Option.map_some, hstop]
          simp [spansFrom]

section Build

variable {bytesOf : String → Bytes} {blobOf : Bytes → Bytes} {tools : Tools} {cas : Cas}
  {builder : ArchiveBuilder} {base : BaseIndex} {layout : Layout} {raws baseRaws : List Bytes}
  {plan : Plan} {bundler : Bundler} {pos : Nat} (htools : tools.Ok bytesOf)
  (hmirror : builder.mirror.Ok blobOf)

include htools hmirror

theorem emitBatches_ok (hlayout : layout.Ok blobOf) (hbase : base.Ok bytesOf tools baseRaws)
    {batches : List (List (Nat × Nat))} {state state' : GapState}
    (hok : GapState.Ok bytesOf tools base (stream blobOf layout.blobs) state.bounds state.bundler
      pos raws)
    (hkept : ∀ frame ∈ state.kept, frame.Ok (stream blobOf layout.blobs) baseRaws)
    (hweaves : Weaves (stream blobOf layout.blobs).length pos (state.kept.map keptSpan)
      batches.flatten)
    (h : builder.emitBatches tools cas layout base batches state = .ok state') :
    ∃ pos' raws', GapState.Ok bytesOf tools base (stream blobOf layout.blobs) state'.bounds
        state'.bundler pos' raws' ∧
      Weaves (stream blobOf layout.blobs).length pos' (state'.kept.map keptSpan) [] ∧
      ∀ frame ∈ state'.kept, frame.Ok (stream blobOf layout.blobs) baseRaws := by
  induction batches generalizing state pos raws with
  | nil =>
      obtain rfl := pure_eq_ok.mp h
      exact ⟨pos, raws, hok, hweaves, hkept⟩
  | cons batch batches ih =>
      obtain ⟨cuts, hcuts, h⟩ := bind_eq_ok.mp h
      obtain ⟨middle, hemit, h⟩ := bind_eq_ok.mp h
      have hgaps : ∀ gap ∈ batch, gap.1 ≤ gap.2 ∧ gap.2 ≤ layout.total := by
        intro gap hgap
        obtain ⟨spans, hperm, htiles⟩ := hweaves.tiles
        have hmem : gap ∈ spans := by
          refine hperm.mem_iff.mpr (List.mem_append_right _ ?_)
          exact List.mem_append_left _ hgap
        obtain ⟨_, hle, hend⟩ := htiles.mem hmem
        exact ⟨hle, hlayout.total ▸ hend⟩
      obtain ⟨⟨tilings, htilings, hflat⟩, hall⟩ :=
        cutGaps_ok htools hmirror hlayout hbase hgaps hcuts
      -- the batch's gaps are replaced by their cuts
      have hcutWeaves := Weaves.refine [] hweaves htilings
      rw [List.nil_append, ← hflat] at hcutWeaves
      obtain ⟨pos', raws', hok', hweaves', hkept'⟩ :=
        emitCuts_ok htools hbase hok hkept hall hcutWeaves hemit
      exact ih hok' hkept' hweaves' h

/-- All frames of an incremental build are the consecutive pieces of the new stream. -/
theorem emitAll_ok (hlayout : layout.Ok blobOf) (hbase : base.Ok bytesOf tools baseRaws)
    (hplan : plan.Ok blobOf baseRaws builder.cdc layout.blobs) {bundleSize : Nat}
    {state : GapState}
    (h : builder.emitAll tools cas layout plan base (Bundler.new bundleSize) = .ok state) :
    ∃ raws, state.bundler.Holds bytesOf tools (some base) raws ∧ state.bounds = spansFrom 0 raws ∧
      raws.flatten = stream blobOf layout.blobs := by
  obtain ⟨middle, hbatches, h⟩ := bind_eq_ok.mp h
  have hstart : GapState.Ok bytesOf tools base (stream blobOf layout.blobs) []
      (Bundler.new bundleSize) 0 [] :=
    ⟨Bundler.new_holds _, rfl, slice_self.symm, Nat.zero_le _⟩
  have hweaves := hplan.weaves
  rw [← List.nil_append plan.gaps, ← flatten_gapBatches [] 0] at hweaves
  obtain ⟨pos', raws', hok', hweaves', hkept'⟩ :=
    emitBatches_ok htools hmirror hlayout hbase hstart hplan.kept hweaves hbatches
  obtain ⟨last, raws, hok, hweaves, hsub, hhead⟩ :=
    emitKept_ok htools hbase hok' hkept' hweaves' (fun cut hcut => by cases hcut) h
  -- no kept frame starts that late
  have hnone : state.kept = [] := by
    cases hkept : state.kept with
    | nil => rfl
    | cons frame rest =>
        have hframe := hkept' frame (hsub frame (hkept ▸ List.mem_cons_self))
        have hlate := hhead frame (by rw [hkept]; rfl)
        have hlt := hframe.lt
        have hle := hframe.le
        have htotal := hlayout.total_lt
        rw [hlayout.total] at htotal
        omega
  rw [hnone] at hweaves
  obtain rfl : last = (stream blobOf layout.blobs).length := by
    cases hweaves
    rfl
  exact ⟨raws, hok.bundler, hok.bounds, by rw [hok.stream, slice_all rfl]⟩

end Build

/-! ## Archives -/

/-- What an archive of these blobs holds: frames that make up the worktree's stream, and a table with
each file, whose fragments make up its blob. -/
structure ArchiveBuildOutput.Ok (bytesOf : String → Bytes) (blobOf : Bytes → Bytes) (tools : Tools)
    (blobs : List Blob) (output : ArchiveBuildOutput) (raws : List Bytes) : Prop where
  frames : FramesHold bytesOf tools output.downloadBundleHashes output.metadata.frames
    output.archiveFrames raws
  stream : raws.flatten = stream blobOf blobs
  files : List.Forall₂ (fun blob entry => EntryOf blob entry ∧ Exact blobOf raws entry) blobs
    output.metadata.files

/-- The base's files are in the order of its stream. -/
structure ArchiveBase.StreamOrder (blobOf : Bytes → Bytes) (base : ArchiveBase)
    (raws : List Bytes) : Prop where
  lens : ∀ file ∈ base.metadata.files,
    (file.fragments.map Fragment.rawLen).sum = (blobOf file.blobSha1).length
  stream : (base.metadata.files.map fun file => blobOf file.blobSha1).flatten = raws.flatten

section Archives

variable {bytesOf : String → Bytes} {blobOf : Bytes → Bytes} {tools : Tools} {cas : Cas}
  {builder : ArchiveBuilder} {layout : Layout} {raws baseRaws : List Bytes}
  {base : Option BaseIndex} {output : ArchiveBuildOutput} {bundleSize : Nat}

theorem fileLen_eq {file : FileEntry} {len : Nat} (h : fileLen file = .ok len) :
    (file.fragments.map Fragment.rawLen).sum = len := by
  have hgeneral : ∀ {fragments : List Fragment} {total : Nat}, fragments.foldlM
      (fun total fragment => checkedAdd total fragment.rawLen "base file length overflow") total =
        .ok len → total + (fragments.map Fragment.rawLen).sum = len := by
    intro fragments
    induction fragments with
    | nil =>
        intro total h
        exact pure_eq_ok.mp h
    | cons fragment fragments ih =>
        intro total h
        rw [List.foldlM_cons] at h
        obtain ⟨next, hnext, h⟩ := bind_eq_ok.mp h
        have hrest := ih h
        rw [← checkedAdd_eq_ok hnext] at hrest
        rw [List.map_cons, List.sum_cons]
        omega
  have h := hgeneral h
  rwa [Nat.zero_add] at h

/-- A file starts where the ones before it end. -/
theorem indexFiles_inOrder (before : Bytes) {files : List FileEntry}
    {found : List (Bytes × Bytes × Nat × Nat)} {filePos : Nat}
    (hlens : ∀ file ∈ files,
      (file.fragments.map Fragment.rawLen).sum = (blobOf file.blobSha1).length)
    (h : indexFiles before.length files = .ok (found, filePos)) :
    ∀ path id start len, (path, id, start, len) ∈ found → len = (blobOf id).length ∧
      slice (before ++ (files.map fun file => blobOf file.blobSha1).flatten) start (start + len) =
        blobOf id := by
  induction files generalizing before found filePos with
  | nil =>
      obtain ⟨rfl, rfl⟩ := Prod.mk.inj (pure_eq_ok.mp h)
      simp
  | cons file files ih =>
      obtain ⟨len, hlen, h⟩ := bind_eq_ok.mp h
      obtain ⟨next, hnext, h⟩ := bind_eq_ok.mp h
      obtain ⟨⟨rest, filePos'⟩, hrest, h⟩ := bind_eq_ok.mp h
      obtain ⟨rfl, rfl⟩ := Prod.mk.inj (pure_eq_ok.mp h)
      have hlen : (blobOf file.blobSha1).length = len :=
        (hlens file List.mem_cons_self).symm.trans (fileLen_eq hlen)
      rw [← checkedAdd_eq_ok hnext, ← hlen, ← List.length_append] at hrest
      have htail := ih _ (fun file hfile => hlens file (List.mem_cons_of_mem _ hfile)) hrest
      intro path id start len' hmem
      rw [List.map_cons, List.flatten_cons]
      rcases List.mem_cons.mp hmem with hmem | hmem
      · obtain ⟨rfl, rfl, rfl, rfl⟩ : path = file.path ∧ id = file.blobSha1 ∧
            start = before.length ∧ len' = len := by simpa using hmem
        exact ⟨hlen.symm, by rw [← hlen, slice_middle]⟩
      · rw [← List.append_assoc]
        exact htail path id start len' hmem

theorem BaseIndex.new_inOrder {base : ArchiveBase} {index : BaseIndex}
    (horder : base.StreamOrder blobOf baseRaws) (h : BaseIndex.new base = .ok index) :
    index.InOrder blobOf baseRaws := by
  obtain ⟨_, h⟩ := ite_throw_eq_ok.mp h
  obtain ⟨⟨starts, places, byRaw, keys⟩, _, h⟩ := bind_eq_ok.mp h
  obtain ⟨⟨files, filePos⟩, hfiles, h⟩ := bind_eq_ok.mp h
  obtain ⟨_, h⟩ := ite_throw_eq_ok.mp h
  obtain rfl := pure_eq_ok.mp h
  have hinOrder := indexFiles_inOrder [] horder.lens hfiles
  rw [List.nil_append, horder.stream] at hinOrder
  exact hinOrder

variable (htools : tools.Ok bytesOf)
  (hbase : ∀ index, base = some index → index.Ok bytesOf tools baseRaws)

include htools hbase

theorem finish_ok {bounds : List (Nat × Nat)} {bundler : Bundler} {incremental : Bool}
    (hlayout : layout.Ok blobOf) (hbundler : bundler.Holds bytesOf tools base raws)
    (hbounds : bounds = spansFrom 0 raws) (hstream : raws.flatten = stream blobOf layout.blobs)
    (h : finish tools cas base layout bounds bundler incremental = .ok output) :
    output.Ok bytesOf blobOf tools layout.blobs raws ∧ output.incremental = incremental := by
  obtain ⟨closed, hclosed, h⟩ := bind_eq_ok.mp h
  obtain ⟨table, htable, h⟩ := bind_eq_ok.mp h
  obtain rfl := pure_eq_ok.mp h
  refine ⟨⟨(Bundler.close_holds htools hbase hbundler hclosed).1, hstream, ?_⟩, rfl⟩
  unfold tableOf at htable
  split at htable
  · next hempty =>
      obtain rfl := pure_eq_ok.mp htable
      rw [List.isEmpty_iff.mp hempty]
      exact .nil
  · rw [hbounds] at htable
    have hexact := filesTable_exact hlayout hstream htable
    exact hexact

theorem pushAll_holds {frames : List BuiltFrame} {bundler next : Bundler} {pushed : List Bytes}
    (hbundler : bundler.Holds bytesOf tools base pushed)
    (hframes : List.Forall₂ (fun frame raw => ∃ comp, BuiltFrame.Holds tools base frame comp raw)
      frames raws)
    (h : pushAll tools cas base bundler frames = .ok next) :
    next.Holds bytesOf tools base (pushed ++ raws) := by
  induction hframes generalizing bundler pushed with
  | nil =>
      obtain rfl := pure_eq_ok.mp h
      rwa [List.append_nil]
  | cons hframe _ ih =>
      rw [pushAll, List.foldlM_cons] at h
      obtain ⟨middle, hpush, h⟩ := bind_eq_ok.mp h
      obtain ⟨comp, hholds⟩ := hframe
      have hnext := ih (Bundler.push_holds htools hbase hbundler hholds hpush) h
      rwa [List.append_assoc] at hnext

variable (hmirror : builder.mirror.Ok blobOf)

include hmirror

/-- A build that streams the worktree makes an archive of it. -/
theorem buildStreamed_ok {blobs : List Blob} {gitlinks : List Bytes}
    (h : builder.buildStreamed tools cas blobs gitlinks base bundleSize = .ok output) :
    ∃ raws, output.Ok bytesOf blobOf tools blobs raws ∧ output.incremental = false := by
  obtain ⟨sizes, hsizes, h⟩ := bind_eq_ok.mp h
  obtain ⟨layout, hlayout, h⟩ := bind_eq_ok.mp h
  obtain ⟨⟨bounds, frames⟩, hframes, h⟩ := bind_eq_ok.mp h
  obtain ⟨bundler, hpush, hfinish⟩ := bind_eq_ok.mp h
  have hsizes : sizes = (contents blobOf blobs).map List.length := by
    rw [blobSizes_eq hmirror hsizes, contents, List.map_map, List.map_map]
    rfl
  obtain ⟨hok, rfl, _⟩ := Layout.new_ok hsizes hlayout
  obtain ⟨raws, hbounds, hstream, hbuilt, _, _⟩ := streamFrames_ok htools hmirror hok hbase hframes
  have hbundler := pushAll_holds htools hbase (Bundler.new_holds bundleSize) hbuilt hpush
  exact ⟨raws, finish_ok htools hbase hok hbundler hbounds hstream hfinish⟩

end Archives

section Incremental

variable {bytesOf : String → Bytes} {blobOf : Bytes → Bytes} {tools : Tools} {cas : Cas}
  {builder : ArchiveBuilder} {baseRaws : List Bytes} {blobs : List Blob} {gitlinks : List Bytes}
  {output : ArchiveBuildOutput} {bundleSize : Nat} (htools : tools.Ok bytesOf)
  (hmirror : builder.mirror.Ok blobOf)

include htools hmirror

/-- A build that follows a plan makes an archive of the worktree, as one that streams it does. -/
theorem buildIncremental_ok {index : BaseIndex} {plan : Plan} {sizes : List Nat}
    (hindex : index.Ok bytesOf tools baseRaws)
    (hplan : plan.Ok blobOf baseRaws builder.cdc blobs)
    (hsizes : sizes = (contents blobOf blobs).map List.length)
    (h : builder.buildIncremental tools cas blobs gitlinks index plan sizes bundleSize =
      .ok output) :
    ∃ raws, output.Ok bytesOf blobOf tools blobs raws ∧ output.incremental = true := by
  obtain ⟨layout, hlayout, h⟩ := bind_eq_ok.mp h
  obtain ⟨⟨bounds, bundler⟩, hgaps, hfinish⟩ := bind_eq_ok.mp h
  obtain ⟨state, hstate, hchecked⟩ := bind_eq_ok.mp hgaps
  obtain ⟨hok, rfl, _⟩ := Layout.new_ok hsizes hlayout
  obtain ⟨raws, hbundler, hbounds, hstream⟩ := emitAll_ok htools hmirror hok hindex hplan hstate
  split at hchecked
  · obtain ⟨rfl, rfl⟩ := Prod.mk.inj (pure_eq_ok.mp hchecked)
    have hbase : ∀ index', some index = some index' → index'.Ok bytesOf tools baseRaws :=
      fun index' hindex' => Option.some.inj hindex' ▸ hindex
    exact ⟨raws, finish_ok htools hbase hok hbundler hbounds hstream hfinish⟩
  · cases hchecked

/-- A build on a base makes an archive of the worktree, with a plan or without. Only the plan relies
on the order of the base's files. -/
theorem buildOnBase_ok {base : ArchiveBase} {index : BaseIndex}
    (hbase : base.Holds bytesOf tools baseRaws) (hindex : BaseIndex.new base = .ok index)
    (horder : ∀ planned, planIncremental builder.mirror index builder.cdc blobs = .ok (some planned) →
      base.StreamOrder blobOf baseRaws)
    (h : builder.buildOnBase tools cas blobs gitlinks index bundleSize = .ok output) :
    ∃ raws, output.Ok bytesOf blobOf tools blobs raws ∧
      ∃ planned, planIncremental builder.mirror index builder.cdc blobs = .ok planned ∧
        output.incremental = planned.isSome := by
  have hindexOk := BaseIndex.new_ok hbase hindex
  obtain ⟨planned, hplanned, hbuild⟩ := bind_eq_ok.mp h
  cases planned with
  | none =>
      have hsome : ∀ index', some index = some index' → index'.Ok bytesOf tools baseRaws :=
        fun index' hindex' => Option.some.inj hindex' ▸ hindexOk
      obtain ⟨raws, hok, hpath⟩ := buildStreamed_ok htools hsome hmirror hbuild
      exact ⟨raws, hok, none, hplanned, hpath⟩
  | some planned =>
      obtain ⟨plan, sizes⟩ := planned
      obtain ⟨hplan, hsizes⟩ := planIncremental_ok hmirror hindexOk
        (BaseIndex.new_inOrder (horder _ hplanned) hindex) hplanned
      obtain ⟨raws, hok, hpath⟩ := buildIncremental_ok htools hmirror hindexOk hplan hsizes hbuild
      exact ⟨raws, hok, some (plan, sizes), hplanned, hpath⟩

/-- Every build makes an archive of the worktree, from no base, from one that gives no plan, or from
one in stream order. -/
theorem buildIntoCas_ok {commit : String} {base : Option ArchiveBase}
    (hbase : ∀ archive, base = some archive → archive.Holds bytesOf tools baseRaws ∧
      ∀ index planned, BaseIndex.new archive = .ok index →
        planIncremental builder.mirror index builder.cdc blobs = .ok (some planned) →
        archive.StreamOrder blobOf baseRaws)
    (hwalk : collectBlobs builder.mirror commit = .ok (blobs, gitlinks))
    (h : builder.buildIntoCas tools cas commit base bundleSize = .ok output) :
    ∃ raws, output.Ok bytesOf blobOf tools blobs raws := by
  rw [buildIntoCas, hwalk] at h
  obtain ⟨_, hpair, hbuild⟩ := bind_eq_ok.mp h
  obtain rfl := Except.ok.inj hpair
  dsimp only at hbuild
  split at hbuild
  · have hnone : ∀ index : BaseIndex, none = some index → index.Ok bytesOf tools [] := by simp
    obtain ⟨raws, hok, _⟩ := buildStreamed_ok htools hnone hmirror hbuild
    exact ⟨raws, hok⟩
  · next index hindex =>
      obtain ⟨archive, rfl, hnew⟩ := Option.bind_eq_some_iff.mp hindex
      obtain ⟨hholds, horder⟩ := hbase archive rfl
      have hnew := toOption_eq_some.mp hnew
      obtain ⟨raws, hok, _⟩ := buildOnBase_ok htools hmirror hholds hnew
        (fun planned hplanned => horder index planned hnew hplanned) hbuild
      exact ⟨raws, hok⟩

/-- A cold build makes an archive of the worktree. -/
theorem buildIntoCas_none {commit : String}
    (hwalk : collectBlobs builder.mirror commit = .ok (blobs, gitlinks))
    (h : builder.buildIntoCas tools cas commit none bundleSize = .ok output) :
    ∃ raws, output.Ok bytesOf blobOf tools blobs raws := by
  have hnone : ∀ archive : ArchiveBase, none = some archive → archive.Holds bytesOf tools [] ∧
      ∀ index planned, BaseIndex.new archive = .ok index →
        planIncremental builder.mirror index builder.cdc blobs = .ok (some planned) →
        archive.StreamOrder blobOf [] := by
    intro archive h
    cases h
  exact buildIntoCas_ok htools hmirror hnone hwalk h

end Incremental

/-- The stream an archive's frames decompress to. -/
def archiveStream (bytesOf : String → Bytes) (tools : Tools) (output : ArchiveBuildOutput) :
    Except String Bytes :=
  (archiveRaws bytesOf tools output.downloadBundleHashes output.metadata.frames).map List.flatten

theorem ArchiveBuildOutput.Ok.archiveStream {bytesOf : String → Bytes} {blobOf : Bytes → Bytes}
    {tools : Tools} {blobs : List Blob} {output : ArchiveBuildOutput} {raws : List Bytes}
    (h : output.Ok bytesOf blobOf tools blobs raws) :
    archiveStream bytesOf tools output = .ok (Archive.stream blobOf blobs) := by
  rw [Archive.archiveStream, h.frames.archiveRaws, ← h.stream]
  rfl

/-- The archive as the base of a later build. -/
def ArchiveBuildOutput.base (output : ArchiveBuildOutput) : ArchiveBase :=
  ⟨output.archiveFrames, output.metadata, output.downloadBundleHashes⟩

/-- Fragments are as long as what they make up. -/
theorem sum_rawLen_eq {raws : List Bytes} {fragments : List Fragment} {bytes : Bytes}
    (h : fragmentsBytes raws fragments = some bytes) :
    (fragments.map Fragment.rawLen).sum = bytes.length := by
  induction fragments generalizing bytes with
  | nil =>
      obtain rfl := Option.some.inj h
      rfl
  | cons fragment fragments ih =>
      rw [fragmentsBytes, List.mapM_cons] at h
      obtain ⟨parts, hparts, rfl⟩ := Option.map_eq_some_iff.mp h
      obtain ⟨first, hfirst, hparts⟩ := Option.bind_eq_some_iff.mp hparts
      obtain ⟨rest, hrest, hparts⟩ := Option.bind_eq_some_iff.mp hparts
      obtain rfl := Option.some.inj hparts
      have hlen : fragment.rawLen = first.length := by
        obtain ⟨raw, _, hraw⟩ := Option.bind_eq_some_iff.mp hfirst
        split at hraw
        · next hroom =>
            obtain rfl := Option.some.inj hraw
            rw [length_slice hroom]
            omega
        · cases hraw
      have hsum := ih (Option.map_eq_some_iff.mpr ⟨rest, hrest, rfl⟩)
      rw [List.map_cons, List.sum_cons, hsum, hlen, List.flatten_cons, List.length_append]

theorem ArchiveBuildOutput.Ok.exact {bytesOf : String → Bytes} {blobOf : Bytes → Bytes}
    {tools : Tools} {blobs : List Blob} {output : ArchiveBuildOutput} {raws : List Bytes}
    (h : output.Ok bytesOf blobOf tools blobs raws) :
    ∀ file ∈ output.metadata.files, Exact blobOf raws file := by
  intro file hfile
  obtain ⟨blob, _, hentry⟩ := forall₂_mem h.files.flip hfile
  exact hentry.2

/-- Every archive has its files in stream order. -/
theorem ArchiveBuildOutput.Ok.streamOrder {bytesOf : String → Bytes} {blobOf : Bytes → Bytes}
    {tools : Tools} {blobs : List Blob} {output : ArchiveBuildOutput} {raws : List Bytes}
    (h : output.Ok bytesOf blobOf tools blobs raws) : output.base.StreamOrder blobOf raws := by
  have hfiles : (output.metadata.files.map fun file => blobOf file.blobSha1) =
      contents blobOf blobs ∧ ∀ file ∈ output.metadata.files, Exact blobOf raws file :=
    forall₂_map_eq h.files fun blob _ entry hentry => ⟨by rw [hentry.1.blobSha1], hentry.2⟩
  refine ⟨fun file hfile => sum_rawLen_eq (hfiles.2 file hfile), ?_⟩
  rw [h.stream]
  exact congrArg List.flatten hfiles.1

/-- On a base whose files are in stream order, a plan's kept frames and gaps tile the new stream, no
gap is shorter than a frame or longer than a batch and all of them are at most half of the stream; the
tiling check passes; and the frames of the build decompress to the worktree's stream, as those of a
cold build do. -/
theorem incremental_build_streams {bytesOf : String → Bytes} {blobOf : Bytes → Bytes}
    {tools : Tools} {builder : ArchiveBuilder} {base : ArchiveBase} {baseRaws : List Bytes}
    {commit : String} {blobs : List Blob} {gitlinks : List Bytes} {index : BaseIndex} {plan : Plan}
    {sizes : List Nat} (htools : tools.Ok bytesOf) (hmirror : builder.mirror.Ok blobOf)
    (hbase : base.Holds bytesOf tools baseRaws) (horder : base.StreamOrder blobOf baseRaws)
    (hwalk : collectBlobs builder.mirror commit = .ok (blobs, gitlinks))
    (hindex : BaseIndex.new base = .ok index)
    (hplan : planIncremental builder.mirror index builder.cdc blobs = .ok (some (plan, sizes))) :
    (∃ spans, spans.Perm (plan.reused.map keptSpan ++ plan.gaps) ∧
      Tiles 0 (stream blobOf blobs).length spans) ∧
    (∀ gap ∈ plan.gaps, builder.cdc.min ≤ gapLen gap ∧ gapLen gap ≤ maxGapBytes) ∧
    (plan.gaps.map gapLen).sum ≤ (stream blobOf blobs).length / 2 ∧
    ∀ cas bundleSize,
      (∀ layout state, Layout.new blobs gitlinks sizes = .ok layout →
        builder.emitAll tools cas layout plan index (Bundler.new bundleSize) = .ok state →
        builder.buildGaps tools cas layout plan index (Bundler.new bundleSize) =
          .ok (state.bounds, state.bundler)) ∧
      (∀ output, builder.buildIntoCas tools cas commit (some base) bundleSize = .ok output →
        output.incremental = true ∧
          archiveStream bytesOf tools output = .ok (stream blobOf blobs)) ∧
      ∀ cold, builder.buildIntoCas tools cas commit none bundleSize = .ok cold →
        archiveStream bytesOf tools cold = .ok (stream blobOf blobs) := by
  have hindexOk := BaseIndex.new_ok hbase hindex
  obtain ⟨hplanOk, hsizes⟩ :=
    planIncremental_ok hmirror hindexOk (BaseIndex.new_inOrder horder hindex) hplan
  refine ⟨hplanOk.weaves.tiles, fun gap hgap => (hplanOk.gaps gap hgap).2, hplanOk.half, ?_⟩
  intro cas bundleSize
  refine ⟨fun layout state hlayout hstate => ?_, fun output houtput => ?_, fun cold hcold => ?_⟩
  · obtain ⟨hok, rfl, _⟩ := Layout.new_ok hsizes hlayout
    obtain ⟨raws, _, hbounds, hstream⟩ := emitAll_ok htools hmirror hok hindexOk hplanOk hstate
    have hne : raws ≠ [] := by
      rintro rfl
      have hpos := hplanOk.pos
      rw [← hstream] at hpos
      cases hpos
    -- The spans that were emitted follow one another from the start to the end of the stream.
    have htiled : tiled layout.total state.bounds = true := by
      rw [hbounds, hok.total, ← hstream]
      exact tiled_spansFrom hne
    rw [buildGaps, hstate]
    show (if tiled layout.total state.bounds = true then _ else _) = _
    rw [if_pos htiled]
    rfl
  · rw [buildIntoCas, hwalk] at houtput
    obtain ⟨_, hpair, hbuild⟩ := bind_eq_ok.mp houtput
    obtain rfl := Except.ok.inj hpair
    simp only [Option.bind_some, hindex, Except.toOption] at hbuild
    obtain ⟨raws, hok, planned, hplanned, hpath⟩ :=
      buildOnBase_ok htools hmirror hbase hindex (fun _ _ => horder) hbuild
    obtain rfl := Except.ok.inj (hplan.symm.trans hplanned)
    exact ⟨hpath, hok.archiveStream⟩
  · obtain ⟨raws, hok⟩ := buildIntoCas_none htools hmirror hwalk hcold
    exact hok.archiveStream

/-! ### Two files, one of them changed -/

def sampleId (n : UInt8) : Bytes := List.replicate 20 n

def sampleBlob (oid : Bytes) : Bytes :=
  if oid = sampleId 1 then [1, 2, 3, 4] else if oid = sampleId 2 then [5, 6, 7, 8]
  else if oid = sampleId 3 then [9, 8, 7, 6] else []

/-- The second commit changes the second file. -/
def sampleMirror : Mirror where
  walk commit := return [⟨[0x61], sampleId 1, 0o100644⟩,
    ⟨[0x62], if commit = "first" then sampleId 2 else sampleId 3, 0o100644⟩]
  blobSize oid := return (sampleBlob oid).length
  findBlob oid := return sampleBlob oid

def sampleCas : Cas where
  getRange bundle offset len := return slice (bytesNamed bundle) offset (offset + len)
  storage := none
  write _ := return ()

def sampleBuilder : ArchiveBuilder := ⟨sampleMirror, ⟨2, 3, 4⟩⟩

theorem sampleMirror_ok : sampleMirror.Ok sampleBlob where
  blobSize := fun h => (pure_eq_ok.mp h).symm
  findBlob := fun h => (pure_eq_ok.mp h).symm

def sampleBuild (commit : String) (base : Option ArchiveBase) : Except String ArchiveBuildOutput :=
  sampleBuilder.buildIntoCas plainTools sampleCas commit base 8

/-- The plan of the second commit on a base. -/
def samplePlan (base : ArchiveBase) : Option (BaseIndex × Plan × List Nat) := do
  let index ← (BaseIndex.new base).toOption
  let (blobs, _) ← (collectBlobs sampleMirror "second").toOption
  let plan ← (← (planIncremental sampleMirror index sampleBuilder.cdc blobs).toOption)
  return (index, plan)

/-- The first commit's archive is a base for the second one's, which keeps the first file. -/
def sampleRuns (output : ArchiveBuildOutput) : Bool :=
  decide (output.metadata.validateGeometry = .ok ()) &&
    ((samplePlan output.base).any fun planned => decide (planned.2.1.gaps = [(4, 8)])) &&
    (sampleBuild "second" (some output.base)).isOk

theorem sample_build_streams : ∃ base output, sampleBuild "second" (some base) = .ok output ∧
    output.incremental = true ∧
    archiveStream bytesNamed plainTools output = .ok [1, 2, 3, 4, 9, 8, 7, 6] := by
  have hruns : (sampleBuild "first" none).toOption.any sampleRuns = true := by with_unfolding_all decide
  obtain ⟨first, hfirst, hruns⟩ := (Option.any_eq_true _ _).mp hruns
  simp only [sampleRuns, Bool.and_eq_true, decide_eq_true_eq] at hruns
  obtain ⟨⟨hgeometry, hplanned⟩, hsecond⟩ := hruns
  obtain ⟨raws, hok⟩ := buildIntoCas_none plainTools_ok sampleMirror_ok rfl
    (toOption_eq_some.mp hfirst)
  obtain ⟨⟨index, plan, sizes⟩, hplan, _⟩ := (Option.any_eq_true _ _).mp hplanned
  obtain ⟨index', hindex, hplan⟩ := Option.bind_eq_some_iff.mp hplan
  obtain ⟨⟨blobs, gitlinks⟩, hwalk, hplan⟩ := Option.bind_eq_some_iff.mp hplan
  obtain ⟨found, hfound, hplan⟩ := Option.bind_eq_some_iff.mp hplan
  obtain ⟨plan', rfl, hplan⟩ := Option.bind_eq_some_iff.mp hplan
  have hmirror : sampleBuilder.mirror.Ok sampleBlob := sampleMirror_ok
  obtain ⟨_, _, _, hbuilds⟩ := incremental_build_streams plainTools_ok hmirror ⟨hok.frames, hgeometry⟩ hok.streamOrder
    (toOption_eq_some.mp hwalk) (toOption_eq_some.mp hindex) (toOption_eq_some.mp hfound)
  cases houtput : sampleBuild "second" (some first.base) with
  | error e =>
      rw [houtput] at hsecond
      cases hsecond
  | ok output =>
      obtain ⟨hpath, hstream⟩ := (hbuilds sampleCas 8).2.1 output houtput
      obtain ⟨rfl, rfl⟩ := Prod.mk.inj (Except.ok.inj (toOption_eq_some.mp hwalk))
      exact ⟨first.base, output, houtput, hpath, hstream⟩

end Ripclone.Archive
