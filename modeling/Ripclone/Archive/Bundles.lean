import Mathlib.Data.List.Forall2
import Ripclone.Archive.Frames
import Ripclone.Library.Wire
import Ripclone.Manifest.Geometry

/-!
# What bundles hold

`FramesHold bundles infos frames raws` says that the frames, at their places in the bundles,
decompress to `raws`, and that their hashes are those of the raw and of the compressed bytes. A
bundler keeps it for the raw bytes of every frame pushed so far (`Bundler.Holds`), whether it writes
a bundle or takes one of the base's.

A base's bundle is found by the hashes of its frames alone. That it holds them from its first byte on
is what the geometry of the base's table says, and `BaseIndex.Ok` is what is left of it.
-/

namespace Ripclone.Archive

open Ripclone.Library

/-- What is relied on: names are collision-free and, being of one length, can be told apart one after
the other; decompression undoes compression, and the chunkers tile their input, with no piece but the
last shorter than the minimum. `bytesOf` is what a name stands for. -/
structure Tools.Ok (bytesOf : String → Bytes) (tools : Tools) : Prop where
  hash : ∀ bytes, bytesOf (tools.hash bytes) = bytes
  hash_delimited : Wire.Delimited fun bytes => (tools.hash bytes).toList
  decompress : ∀ {raw compressed}, tools.compress raw = .ok compressed →
    tools.decompress compressed = .ok raw
  fastCdc : ∀ bounds buffer, Tiles 0 buffer.length
    ((tools.fastCdc bounds buffer).map fun piece => (piece.1, piece.1 + piece.2))
  streamCdc : ∀ {bounds stream pieces}, tools.streamCdc bounds stream = .ok pieces →
    Tiles 0 stream.length (pieces.map fun piece => (piece.1, piece.1 + piece.2.length)) ∧
      (pieces.map Prod.snd).flatten = stream
  streamCdc_min : ∀ {bounds stream pieces}, tools.streamCdc bounds stream = .ok pieces →
    ∀ piece ∈ pieces.dropLast, bounds.min ≤ piece.2.length

/-- A frame's raw bytes. A frame of nothing has no zstd frame. -/
def unzipFrame (tools : Tools) (compressed : Bytes) (rawLen : Nat) : Except String Bytes :=
  if compressed = [] ∧ rawLen = 0 then return [] else tools.decompress compressed

variable {bytesOf : String → Bytes} {tools : Tools} {cas : Cas} {base : Option BaseIndex}

theorem Tools.Ok.hash_injective (h : tools.Ok bytesOf) : Function.Injective tools.hash := by
  intro a b hab
  rw [← h.hash a, hab, h.hash b]

/-- A list of names, put together, says which bytes are named. -/
theorem Tools.Ok.join_injective (h : tools.Ok bytesOf) :
    Function.Injective fun parts : List Bytes => String.join (parts.map tools.hash) := by
  intro a b hab
  have hlist := congrArg String.toList hab
  simp only [String.toList_join, List.flatMap_map] at hlist
  have : Nontrivial Bytes := ⟨[], [0], by simp⟩
  exact Wire.flatMap_injective h.hash_delimited h.hash_delimited.ne_nil hlist

/-! ## Frames -/

/-- The frame's hashes and lengths are those of `raw`, compressed as `comp`. -/
structure Describes (tools : Tools) (frame : ArchiveFrame) (comp raw : Bytes) : Prop where
  rawHash : frame.rawHash = tools.hash raw
  chunkHash : frame.chunkHash = tools.hash comp
  compressedLen : frame.compressedLen = comp.length
  rawLen : frame.rawLen = raw.length
  unzips : unzipFrame tools comp raw.length = .ok raw

/-- The frame is at its place in the bundles. -/
def Placed (bytesOf : String → Bytes) (tools : Tools) (bundles : List String) (info : FrameInfo)
    (frame : ArchiveFrame) (raw : Bytes) : Prop :=
  ∃ bundle, bundles[info.chunkIndex]? = some bundle ∧
    info.chunkOffset + info.compressedLen ≤ (bytesOf bundle).length ∧
    info.compressedLen = frame.compressedLen ∧ info.rawLen = frame.rawLen ∧
    Describes tools frame
      (slice (bytesOf bundle) info.chunkOffset (info.chunkOffset + info.compressedLen)) raw

/-- The frames hold `raws`, in order. -/
def FramesHold (bytesOf : String → Bytes) (tools : Tools) (bundles : List String)
    (infos : List FrameInfo) (frames : List ArchiveFrame) (raws : List Bytes) : Prop :=
  infos.length = frames.length ∧
    List.Forall₂ (fun placed raw => Placed bytesOf tools bundles placed.2 placed.1 raw)
      (frames.zip infos) raws

theorem Placed.mono {bundles more : List String} {info : FrameInfo} {frame : ArchiveFrame}
    {raw : Bytes} (h : Placed bytesOf tools bundles info frame raw) :
    Placed bytesOf tools (bundles ++ more) info frame raw := by
  obtain ⟨bundle, hbundle, hrest⟩ := h
  refine ⟨bundle, ?_, hrest⟩
  rw [List.getElem?_append_left (List.getElem?_eq_some_iff.mp hbundle).1, hbundle]

theorem FramesHold.mono {bundles more : List String} {infos : List FrameInfo}
    {frames : List ArchiveFrame} {raws : List Bytes}
    (h : FramesHold bytesOf tools bundles infos frames raws) :
    FramesHold bytesOf tools (bundles ++ more) infos frames raws :=
  ⟨h.1, h.2.imp fun _ _ => Placed.mono⟩

theorem FramesHold.append {bundles : List String} {infos infos' : List FrameInfo}
    {frames frames' : List ArchiveFrame} {raws raws' : List Bytes}
    (h : FramesHold bytesOf tools bundles infos frames raws)
    (h' : FramesHold bytesOf tools bundles infos' frames' raws') :
    FramesHold bytesOf tools bundles (infos ++ infos') (frames ++ frames') (raws ++ raws') := by
  refine ⟨by rw [List.length_append, List.length_append, h.1, h'.1], ?_⟩
  rw [List.zip_append h.1.symm]
  exact List.rel_append h.2 h'.2

/-- The raw bytes of a frame, read at its place in the bundles. -/
def frameRaw (bytesOf : String → Bytes) (tools : Tools) (bundles : List String) (info : FrameInfo) :
    Except String Bytes :=
  match bundles[info.chunkIndex]? with
  | none => throw "frame names a missing bundle"
  | some bundle =>
    if (bytesOf bundle).length < info.chunkOffset + info.compressedLen then
      throw "frame extends past its bundle"
    else unzipFrame tools
      (slice (bytesOf bundle) info.chunkOffset (info.chunkOffset + info.compressedLen)) info.rawLen

/-- The raw bytes of the frames of a table, in order. -/
def archiveRaws (bytesOf : String → Bytes) (tools : Tools) (bundles : List String)
    (infos : List FrameInfo) : Except String (List Bytes) :=
  infos.mapM (frameRaw bytesOf tools bundles)

theorem Placed.frameRaw {bundles : List String} {info : FrameInfo} {frame : ArchiveFrame}
    {raw : Bytes} (h : Placed bytesOf tools bundles info frame raw) :
    frameRaw bytesOf tools bundles info = .ok raw := by
  obtain ⟨bundle, hbundle, hroom, _, hrawLen, hdescribes⟩ := h
  simp only [Archive.frameRaw, hbundle]
  rw [if_neg (Nat.not_lt.mpr hroom), hrawLen, hdescribes.rawLen, hdescribes.unzips]

/-- Frames that hold `raws` decompress to them. -/
theorem FramesHold.archiveRaws {bundles : List String} {infos : List FrameInfo}
    {frames : List ArchiveFrame} {raws : List Bytes}
    (h : FramesHold bytesOf tools bundles infos frames raws) :
    archiveRaws bytesOf tools bundles infos = .ok raws := by
  obtain ⟨hlen, hplaced⟩ := h
  have hinfos : (frames.zip infos).map Prod.snd = infos := List.map_snd_zip (Nat.le_of_eq hlen)
  rw [Archive.archiveRaws, mapM_eq_ok, ← hinfos]
  exact List.forall₂_map_left_iff.mpr (hplaced.imp fun _ _ => Placed.frameRaw)

theorem compressFrame_unzips (htools : tools.Ok bytesOf) {raw comp : Bytes}
    (h : compressFrame tools raw = .ok comp) : unzipFrame tools comp raw.length = .ok raw := by
  unfold compressFrame at h
  split at h
  · next hempty =>
      obtain rfl := pure_eq_ok.mp h
      rw [List.isEmpty_iff.mp hempty]
      rfl
  · next hne =>
      rw [unzipFrame, if_neg]
      · exact htools.decompress h
      · rintro ⟨_, hlen⟩
        exact hne (List.isEmpty_iff.mpr (List.length_eq_zero_iff.mp hlen))

/-! ## Frames of a base

What an index says about its base. The base's bundles are named by the hashes of their frames, which
a bundle holds from its first byte on. -/

structure BaseIndex.Ok (bytesOf : String → Bytes) (tools : Tools) (index : BaseIndex)
    (raws : List Bytes) : Prop where
  frames : ∀ {k : Nat} {frame}, index.frames[k]? = some frame →
    ∃ comp raw, raws[k]? = some raw ∧ Describes tools frame comp raw
  byRaw : ∀ {hash : String} {k : Nat}, (hash, k) ∈ index.byRaw →
    ∃ frame, index.frames[k]? = some frame ∧ frame.rawHash = hash
  bundles : ∀ {key bundle : String}, (key, bundle) ∈ index.bundles →
    ∃ comps : List Bytes, key = String.join (comps.map tools.hash) ∧ comps.flatten <+: bytesOf bundle
  spans : index.starts.zip index.starts.tail = spansFrom 0 raws

/-- The frame is `raw`, compressed as `comp`, and so is the base frame it stands for. -/
structure BuiltFrame.Holds (tools : Tools) (base : Option BaseIndex) (built : BuiltFrame)
    (comp raw : Bytes) : Prop where
  describes : Describes tools built.archiveFrame comp raw
  bytes : ∀ bytes, built.bytes = some bytes → bytes = comp
  baseFrame : ∀ index k frame, base = some index → built.baseFrame = some k →
    index.frames[k]? = some frame → frame.chunkHash = built.chunkHash

theorem lastOf_mem {α β : Type} [BEq α] [LawfulBEq α] {pairs : List (α × β)} {key : α} {value : β}
    (h : lastOf pairs key = some value) : (key, value) ∈ pairs := by
  obtain ⟨l₁, l₂, hsplit, _⟩ := List.lookup_eq_some_iff.mp h
  rw [← List.mem_reverse, hsplit]
  simp

theorem prefix_append_slice {xs before : Bytes} {a b : Nat} (h : before <+: xs)
    (ha : before.length = a) : before ++ slice xs a b <+: xs := by
  obtain ⟨after, rfl⟩ := h
  rw [slice_append_right (Nat.le_of_eq ha), ha, Nat.sub_self, slice, List.drop_zero]
  exact List.prefix_append_right_inj before |>.mpr (List.take_prefix _ _)

/-- Each frame goes on where the one before it ends, or starts a bundle. -/
theorem checkFrames_cons {frameIdx : Nat} {previous : Option (Nat × Nat)} {info : FrameInfo}
    {rest : List FrameInfo} (h : checkFrames frameIdx previous (info :: rest) = .ok ()) :
    checkFrames (frameIdx + 1)
        (some (info.chunkIndex, info.chunkOffset + info.compressedLen)) rest = .ok () ∧
      ∀ next, rest.head? = some next → next.chunkOffset =
        if next.chunkIndex = info.chunkIndex then info.chunkOffset + info.compressedLen else 0 := by
  obtain ⟨_, h⟩ := ite_throw_eq_ok.mp h
  obtain ⟨_, hrest⟩ := bind_unit_eq_ok.mp h
  refine ⟨hrest, fun next hnext => ?_⟩
  cases rest with
  | nil => cases hnext
  | cons next' rest =>
      obtain rfl := Option.some.inj hnext
      obtain ⟨_, h⟩ := ite_throw_eq_ok.mp hrest
      obtain ⟨hplace, _⟩ := bind_unit_eq_ok.mp h
      simp only [checkFrame, ite_throw_eq_ok] at hplace
      obtain ⟨_, hplace⟩ := hplace
      split at hplace
      · next hsame =>
          rw [if_pos hsame]
          exact not_not.mp (ite_throw_eq_ok.mp hplace).1
      · next hother =>
          rw [if_neg hother]
          exact not_not.mp (not_or.mp (ite_throw_eq_ok.mp hplace).1).2

theorem checkFrames_head {frameIdx : Nat} {info : FrameInfo} {infos : List FrameInfo}
    (h : checkFrames frameIdx none infos = .ok ()) (hinfo : infos.head? = some info) :
    info.chunkOffset = 0 := by
  cases infos with
  | nil => cases hinfo
  | cons info' rest =>
      obtain rfl := Option.some.inj hinfo
      obtain ⟨_, h⟩ := ite_throw_eq_ok.mp h
      obtain ⟨hplace, _⟩ := bind_unit_eq_ok.mp h
      exact not_not.mp (not_or.mp (ite_throw_eq_ok.mp hplace).1).2

/-- Where the frames of a bundle before the next one are, when that one goes on in it. -/
def Started (bytesOf : String → Bytes) (bundles : List String) (comps : List Bytes)
    (next : Option FrameInfo) : Prop :=
  ∀ info bundle, next = some info → bundles[info.chunkIndex]? = some bundle →
    comps.flatten.length = info.chunkOffset ∧ comps.flatten <+: bytesOf bundle

/-- The bundle's last frame in the table ends at `stop`. -/
def LastEnd (bundles : List String) (infos : List FrameInfo) (bundle : String) (stop : Nat) : Prop :=
  ∃ (k : Nat) (info : FrameInfo), infos[k]? = some info ∧ bundles[info.chunkIndex]? = some bundle ∧
    info.chunkOffset + info.compressedLen = stop ∧
    ∀ next, infos[k + 1]? = some next → next.chunkIndex ≠ info.chunkIndex

theorem LastEnd.cons {bundles : List String} {infos : List FrameInfo} {bundle : String} {stop : Nat}
    (h : LastEnd bundles infos bundle stop) (info : FrameInfo) :
    LastEnd bundles (info :: infos) bundle stop := by
  obtain ⟨k, last, hlast, hrest⟩ := h
  exact ⟨k + 1, last, hlast, hrest⟩

/-- What the frames from `k` on give the index. -/
theorem indexFrames_holds {bundles : List String} {k pos frameIdx : Nat}
    {pairs : List (ArchiveFrame × FrameInfo)} {raws : List Bytes} {previous : Option (Nat × Nat)}
    (comps : List Bytes) {starts : List Nat} {places byRaw : List (String × Nat)}
    {keys : List (String × String)}
    (h : indexFrames bundles k pos (String.join (comps.map tools.hash)) pairs =
      .ok (starts, places, byRaw, keys))
    (hpairs : List.Forall₂ (fun placed raw => Placed bytesOf tools bundles placed.2 placed.1 raw)
      pairs raws)
    (hgeometry : checkFrames frameIdx previous (pairs.map Prod.snd) = .ok ())
    (hstarted : Started bytesOf bundles comps (pairs.head?.map Prod.snd)) :
    starts = pos :: (spansFrom pos raws).map Prod.snd ∧
    (∀ hash j, (hash, j) ∈ byRaw → ∃ i frame, j = k + i ∧
      (pairs.map Prod.fst)[i]? = some frame ∧ frame.rawHash = hash) ∧
    ∀ key bundle, (key, bundle) ∈ keys → ∃ comps : List Bytes,
      key = String.join (comps.map tools.hash) ∧ comps.flatten <+: bytesOf bundle ∧
        LastEnd bundles (pairs.map Prod.snd) bundle comps.flatten.length := by
  induction hpairs generalizing k pos frameIdx previous comps starts places byRaw keys with
  | nil =>
      obtain ⟨rfl, _, rfl, rfl⟩ : [pos] = starts ∧ [] = places ∧ [] = byRaw ∧ [] = keys := by
        simpa [indexFrames] using h
      exact ⟨rfl, by simp, by simp⟩
  | @cons placed raw pairs raws hplaced _ ih =>
      obtain ⟨frame, info⟩ := placed
      obtain ⟨bundle, hbundle, hroom, hcomp, hraw, hdescribes⟩ := hplaced
      dsimp only at hbundle hroom hcomp hraw hdescribes
      simp only [indexFrames, ite_throw_eq_ok, hbundle] at h
      obtain ⟨next, hnext, h⟩ := bind_eq_ok.mp h.2
      obtain ⟨⟨starts', places', byRaw', keys'⟩, hrest, h⟩ := bind_eq_ok.mp h
      have hnext : pos + raw.length = next := hdescribes.rawLen ▸ checkedAdd_eq_ok hnext
      obtain ⟨hgeometry, hplace⟩ := checkFrames_cons hgeometry
      -- the frames of the bundle up to this one
      let comps' := comps ++ [slice (bytesOf bundle) info.chunkOffset
        (info.chunkOffset + info.compressedLen)]
      obtain ⟨hoffset, hpre⟩ := hstarted info bundle rfl hbundle
      have hpre' : comps'.flatten <+: bytesOf bundle := by
        rw [List.flatten_append, List.flatten_singleton]
        exact prefix_append_slice hpre hoffset
      have hlen : comps'.flatten.length = info.chunkOffset + info.compressedLen := by
        rw [List.flatten_append, List.flatten_singleton, List.length_append, hoffset,
          length_slice hroom]
        omega
      have hkey : String.join (comps.map tools.hash) ++ frame.chunkHash =
          String.join (comps'.map tools.hash) := by
        rw [hdescribes.chunkHash, List.map_append, ← String.toList_inj, String.toList_append,
          String.toList_join, String.toList_join, List.flatMap_append]
        simp
      rw [hkey] at hrest h
      obtain ⟨rfl, rfl, rfl, rfl⟩ : pos :: starts' = starts ∧ _ = places ∧ _ = byRaw ∧ _ = keys := by
        simpa using h
      -- the next frame goes on after this one, or its bundle starts with it
      obtain ⟨open', hopen, hstarted'⟩ : ∃ open', (if (pairs.head?.all fun next =>
          decide (next.2.chunkIndex ≠ info.chunkIndex)) = true then "" else
            String.join (comps'.map tools.hash)) = String.join (open'.map tools.hash) ∧
          Started bytesOf bundles open' (pairs.head?.map Prod.snd) := by
        split
        · next hlast =>
            refine ⟨[], rfl, fun info' bundle' hinfo' _ => ?_⟩
            obtain ⟨placed, hplaced, rfl⟩ := Option.map_eq_some_iff.mp hinfo'
            rw [hplaced, Option.all_some, decide_eq_true_eq] at hlast
            rw [hplace placed.2 (by rw [List.head?_map, hplaced]; rfl), if_neg hlast]
            exact ⟨rfl, List.nil_prefix⟩
        · next hmore =>
            refine ⟨comps', rfl, fun info' bundle' hinfo' hbundle' => ?_⟩
            obtain ⟨placed, hplaced, rfl⟩ := Option.map_eq_some_iff.mp hinfo'
            rw [hplaced, Option.all_some, decide_eq_true_eq, not_not] at hmore
            rw [hplace placed.2 (by rw [List.head?_map, hplaced]; rfl), if_pos hmore]
            rw [hmore, hbundle] at hbundle'
            obtain rfl := Option.some.inj hbundle'
            exact ⟨hlen, hpre'⟩
      rw [hopen] at hrest
      obtain ⟨rfl, hbyRaw, hkeys⟩ := ih open' hrest hgeometry hstarted'
      refine ⟨by rw [spansFrom, ← hnext]; rfl, fun hash j hmem => ?_, fun key bundle' hmem => ?_⟩
      · rcases List.mem_cons.mp hmem with hmem | hmem
        · obtain ⟨rfl, rfl⟩ := Prod.mk.inj hmem
          exact ⟨0, frame, rfl, rfl, rfl⟩
        · obtain ⟨i, frame', rfl, hframe, hhash⟩ := hbyRaw hash j hmem
          exact ⟨i + 1, frame', by omega, hframe, hhash⟩
      · have hlater : (key, bundle') ∈ keys' → ∃ comps : List Bytes,
            key = String.join (comps.map tools.hash) ∧ comps.flatten <+: bytesOf bundle' ∧
              LastEnd bundles (info :: pairs.map Prod.snd) bundle' comps.flatten.length := by
          intro hmem
          obtain ⟨later, hkey', hbytes, hlast⟩ := hkeys key bundle' hmem
          exact ⟨later, hkey', hbytes, hlast.cons info⟩
        split at hmem
        · next hlast =>
            rcases List.mem_cons.mp hmem with hmem | hmem
            · obtain ⟨rfl, rfl⟩ := Prod.mk.inj hmem
              refine ⟨comps', rfl, hpre', 0, info, rfl, hbundle, hlen.symm, ?_⟩
              intro next hnext
              have hhead : (pairs.map Prod.snd).head? = some next := by
                rw [List.head?_eq_getElem?]
                exact hnext
              rw [List.head?_map] at hhead
              obtain ⟨placed, hplaced, rfl⟩ := Option.map_eq_some_iff.mp hhead
              simpa [hplaced] using hlast
            · exact hlater hmem
        · exact hlater hmem

/-- The raw bytes of the frames of a base. -/
structure ArchiveBase.Holds (bytesOf : String → Bytes) (tools : Tools) (base : ArchiveBase)
    (raws : List Bytes) : Prop where
  frames : FramesHold bytesOf tools base.bundles base.metadata.frames base.frames raws
  /-- The base's table was validated. -/
  geometry : base.metadata.validateGeometry = .ok ()

theorem zip_starts {parts : List Bytes} {pos : Nat} :
    (pos :: (spansFrom pos parts).map Prod.snd).zip ((spansFrom pos parts).map Prod.snd) =
      spansFrom pos parts := by
  induction parts generalizing pos with
  | nil => rfl
  | cons part rest ih => exact congrArg _ ih

/-- What the frames of a base give its index, and which of its bundles the keys stand for. -/
theorem BaseIndex.new_indexed {base : ArchiveBase} {index : BaseIndex} {raws : List Bytes}
    (hbase : base.Holds bytesOf tools raws) (h : BaseIndex.new base = .ok index) :
    index.frames = base.frames ∧ base.metadata.frames.length = base.frames.length ∧
    index.starts = 0 :: (spansFrom 0 raws).map Prod.snd ∧
    (∀ hash k, (hash, k) ∈ index.byRaw →
      ∃ frame, base.frames[k]? = some frame ∧ frame.rawHash = hash) ∧
    ∀ key bundle, (key, bundle) ∈ index.bundles → ∃ comps : List Bytes,
      key = String.join (comps.map tools.hash) ∧ comps.flatten <+: bytesOf bundle ∧
        LastEnd base.bundles base.metadata.frames bundle comps.flatten.length := by
  obtain ⟨hlen, h⟩ := ite_throw_eq_ok.mp h
  obtain ⟨⟨starts, places, byRaw, keys⟩, hframes, h⟩ := bind_eq_ok.mp h
  obtain ⟨⟨files, filePos⟩, _, h⟩ := bind_eq_ok.mp h
  obtain ⟨_, h⟩ := ite_throw_eq_ok.mp h
  obtain rfl := pure_eq_ok.mp h
  have hlen := not_not.mp hlen
  have hinfos : (base.frames.zip base.metadata.frames).map Prod.snd = base.metadata.frames :=
    List.map_snd_zip (Nat.le_of_eq hlen)
  have hfst : (base.frames.zip base.metadata.frames).map Prod.fst = base.frames :=
    List.map_fst_zip (Nat.le_of_eq hlen.symm)
  have hfirst : Started bytesOf base.bundles []
      ((base.frames.zip base.metadata.frames).head?.map Prod.snd) := by
    intro info bundle hinfo _
    rw [← List.head?_map, hinfos] at hinfo
    exact ⟨(checkFrames_head (validateGeometry_ok.mp hbase.geometry).frames hinfo).symm,
      List.nil_prefix⟩
  obtain ⟨hstarts, hbyRaw, hkeys⟩ := indexFrames_holds [] hframes hbase.frames.2
    (hinfos ▸ (validateGeometry_ok.mp hbase.geometry).frames) hfirst
  rw [hinfos] at hkeys
  refine ⟨rfl, hlen, hstarts, fun hash k hmem => ?_, hkeys⟩
  obtain ⟨i, frame, rfl, hframe, hhash⟩ := hbyRaw hash k hmem
  exact ⟨frame, by rwa [Nat.zero_add, ← hfst], hhash⟩

theorem BaseIndex.new_ok {base : ArchiveBase} {index : BaseIndex} {raws : List Bytes}
    (hbase : base.Holds bytesOf tools raws) (h : BaseIndex.new base = .ok index) :
    index.Ok bytesOf tools raws := by
  obtain ⟨hframes, hlen, hstarts, hbyRaw, hkeys⟩ := BaseIndex.new_indexed hbase h
  refine ⟨?_, ?_, ?_, ?_⟩
  · intro k frame hframe
    rw [hframes] at hframe
    have hk : k < base.metadata.frames.length := hlen ▸ (List.getElem?_eq_some_iff.mp hframe).1
    have hzip : (base.frames.zip base.metadata.frames)[k]? =
        some (frame, base.metadata.frames[k]) :=
      List.getElem?_zip_eq_some.mpr ⟨hframe, List.getElem?_eq_getElem hk⟩
    obtain ⟨raw, hraw, _, _, _, _, _, hdescribes⟩ := forall₂_getElem? hbase.frames.2 hzip
    exact ⟨_, raw, hraw, hdescribes⟩
  · intro hash k hmem
    rw [hframes]
    exact hbyRaw hash k hmem
  · intro key bundle hmem
    obtain ⟨comps, hkey, hbytes, _⟩ := hkeys key bundle hmem
    exact ⟨comps, hkey, hbytes⟩
  · rw [hstarts]
    exact zip_starts

section Base

variable {raws : List Bytes} {raw comp : Bytes} {built : BuiltFrame} {index : BaseIndex} {k : Nat}

theorem readFrame_hash {frame : ArchiveFrame} {data : Bytes} (hframe : index.frames[k]? = some frame)
    (h : index.readFrame tools cas k = .ok data) : tools.hash data = frame.chunkHash := by
  have hstorage : ∀ {bundle offset}, readFrameFromStorage tools cas frame bundle offset = .ok data →
      tools.hash data = frame.chunkHash := by
    intro bundle offset hread
    unfold readFrameFromStorage at hread
    split at hread
    · cases hread
    · obtain ⟨data', _, hread⟩ := bind_eq_ok.mp hread
      split at hread
      · next hmatch =>
          obtain rfl := pure_eq_ok.mp hread
          exact (of_decide_eq_true hmatch).2
      · cases hread
  unfold BaseIndex.readFrame at h
  rw [hframe] at h
  split at h
  · next frame' bundle offset hframe' _ =>
      obtain rfl := Option.some.inj hframe'
      split at h
      · split at h
        · next hmatch =>
            obtain rfl := pure_eq_ok.mp h
            exact (of_decide_eq_true hmatch).2
        · exact hstorage h
      · exact hstorage h
  · cases h

variable (htools : tools.Ok bytesOf)

include htools

/-- The compressed bytes of two frames of one hash are the same. -/
theorem Describes.comp_eq {frame : ArchiveFrame} {bytes : Bytes}
    (h : Describes tools frame comp raw) (hbytes : tools.hash bytes = frame.chunkHash) :
    bytes = comp :=
  htools.hash_injective (hbytes.trans h.chunkHash)

theorem buildFrame_holds (hbase : ∀ index, base = some index → index.Ok bytesOf tools raws)
    (h : buildFrame tools base raw = .ok built) : ∃ comp, built.Holds tools base comp raw := by
  unfold buildFrame at h
  split at h
  · next k frame hfound =>
      obtain ⟨index, rfl, hindex⟩ := Option.bind_eq_some_iff.mp hfound
      obtain ⟨k', hk', hpair⟩ := Option.bind_eq_some_iff.mp hindex
      obtain ⟨frame', hframe, hpair⟩ := Option.map_eq_some_iff.mp hpair
      obtain ⟨rfl, rfl⟩ := Prod.mk.inj hpair
      obtain ⟨frame, hframe', hhash⟩ := (hbase index rfl).byRaw (lastOf_mem hk')
      obtain rfl : frame' = frame := Option.some.inj (hframe.symm.trans hframe')
      obtain ⟨comp, raw', _, hdescribes⟩ := (hbase index rfl).frames hframe
      -- the base frame was found by the hash of the raw bytes
      obtain rfl : raw = raw' := htools.hash_injective (hhash.symm.trans hdescribes.rawHash)
      obtain rfl := pure_eq_ok.mp h
      refine ⟨comp, ⟨rfl, hdescribes.chunkHash, hdescribes.compressedLen, rfl, hdescribes.unzips⟩,
        by simp, ?_⟩
      intro index' k frame hindex' hk hframe''
      obtain rfl := Option.some.inj hindex'
      obtain rfl := Option.some.inj hk
      obtain rfl := Option.some.inj (hframe.symm.trans hframe'')
      rfl
  · obtain ⟨bytes, hbytes, h⟩ := bind_eq_ok.mp h
    obtain rfl := pure_eq_ok.mp h
    exact ⟨bytes, ⟨rfl, rfl, rfl, rfl, compressFrame_unzips htools hbytes⟩, by simp, by simp⟩

theorem frameBytes_eq {bytes : Bytes} (hbuilt : built.Holds tools base comp raw)
    (h : frameBytes tools cas base built = .ok bytes) : bytes = comp := by
  unfold frameBytes at h
  split at h
  · next hbytes =>
      obtain rfl := pure_eq_ok.mp h
      exact hbuilt.bytes _ hbytes
  · next k index hbytes hk =>
      cases hframe : index.frames[k]? with
      | none => simp [BaseIndex.readFrame, hframe] at h
      | some frame =>
          have hhash := readFrame_hash hframe h
          rw [hbuilt.baseFrame index k frame rfl hk hframe] at hhash
          exact hbuilt.describes.comp_eq htools hhash
  · cases h

/-! ## Bundles -/

variable {group : List BuiltFrame} {pieces : List (Bytes × Bytes)}
  (hgroup : List.Forall₂ (fun built piece => BuiltFrame.Holds tools base built piece.1 piece.2)
    group pieces)

include hgroup

theorem groupBytes_eq {parts : List Bytes}
    (h : group.mapM (frameBytes tools cas base) = .ok parts) : parts = pieces.map Prod.fst := by
  induction hgroup generalizing parts with
  | nil => exact List.forall₂_nil_left_iff.mp (mapM_eq_ok.mp h)
  | cons hbuilt _ ih =>
      obtain ⟨bytes, rest, hbytes, hrest, rfl⟩ := List.forall₂_cons_left_iff.mp (mapM_eq_ok.mp h)
      rw [List.map_cons, frameBytes_eq htools hbuilt hbytes, ih (mapM_eq_ok.mpr hrest)]

theorem writeGroup_eq {groupLen : Nat} {hash : String}
    (h : writeGroup tools cas base group groupLen = .ok hash) :
    hash = tools.hash (pieces.map Prod.fst).flatten := by
  obtain ⟨parts, hparts, h⟩ := bind_eq_ok.mp h
  obtain ⟨_, _, h⟩ := bind_eq_ok.mp h
  obtain ⟨_, h⟩ := ite_throw_eq_ok.mp h
  rw [← pure_eq_ok.mp h, groupBytes_eq htools hgroup hparts]

/-- The bundle of a group holds its frames one after the other, from its first byte on. -/
theorem bundleGroup_holds {groupLen : Nat} {hash : String} {new : Option String}
    (hbase : ∀ index, base = some index → index.Ok bytesOf tools raws)
    (h : bundleGroup tools cas base group groupLen = .ok (hash, new)) :
    (pieces.map Prod.fst).flatten <+: bytesOf hash := by
  have hkey : group.map BuiltFrame.chunkHash = (pieces.map Prod.fst).map tools.hash := by
    rw [List.map_map]
    refine List.forall₂_eq_eq_eq ▸ (List.forall₂_map_left_iff.mpr (List.forall₂_map_right_iff.mpr ?_))
    exact hgroup.imp fun built piece hbuilt => hbuilt.describes.chunkHash
  unfold bundleGroup at h
  split at h
  · next found hfound =>
      obtain ⟨index, rfl, hindex⟩ := Option.bind_eq_some_iff.mp hfound
      obtain ⟨comps, hcomps, hpre⟩ := (hbase index rfl).bundles (lastOf_mem hindex)
      obtain ⟨rfl, rfl⟩ := Prod.mk.inj (pure_eq_ok.mp h)
      rw [hkey] at hcomps
      rwa [htools.join_injective hcomps]
  · obtain ⟨found, hwrite, h⟩ := bind_eq_ok.mp h
    obtain ⟨rfl, rfl⟩ := Prod.mk.inj (pure_eq_ok.mp h)
    simp only [writeGroup_eq htools hgroup hwrite, htools.hash, List.prefix_rfl]

omit htools in
theorem placeFrames_holds {bundles : List String} {bundle : String} {infos : List FrameInfo}
    (before : Bytes) (h : placeFrames bundles.length before.length group = .ok infos)
    (hbundle : before ++ (pieces.map Prod.fst).flatten <+: bytesOf bundle) :
    FramesHold bytesOf tools (bundles ++ [bundle]) infos (group.map BuiltFrame.archiveFrame)
      (pieces.map Prod.snd) := by
  induction hgroup generalizing before infos with
  | nil =>
      obtain rfl := pure_eq_ok.mp h
      exact ⟨rfl, .nil⟩
  | @cons built piece group pieces hbuilt _ ih =>
      simp only [placeFrames, ite_throw_eq_ok] at h
      obtain ⟨_, _, h⟩ := h
      obtain ⟨rest, hrest, h⟩ := bind_eq_ok.mp h
      obtain rfl := pure_eq_ok.mp h
      have hlen : built.compressedLen = piece.1.length := hbuilt.describes.compressedLen
      rw [hlen, ← List.length_append] at hrest
      rw [List.map_cons, List.flatten_cons, ← List.append_assoc] at hbundle
      have htail := ih _ hrest hbundle
      refine ⟨by simpa using htail.1, .cons ⟨bundle, ?_, ?_, rfl, rfl, ?_⟩ htail.2⟩
      · simp
      · obtain ⟨after, hafter⟩ := hbundle
        simp only [← hafter, hlen, List.length_append]
        omega
      · obtain ⟨after, hafter⟩ := hbundle
        have hslice : slice (bytesOf bundle) before.length (before.length + piece.1.length) =
            piece.1 := by
          rw [← hafter, List.append_assoc, List.append_assoc]
          exact slice_middle
        dsimp only
        rw [hlen, hslice]
        exact hbuilt.describes

end Base

namespace Bundler

/-- The raw bytes of the frames pushed so far, closed in bundles and in the open one. -/
def Holds (bytesOf : String → Bytes) (tools : Tools) (base : Option BaseIndex) (bundler : Bundler)
    (raws : List Bytes) : Prop :=
  ∃ done pieces, raws = done ++ pieces.map Prod.snd ∧ bundler.bundles.length ≤ done.length ∧
    FramesHold bytesOf tools bundler.bundles bundler.infos bundler.frames done ∧
    List.Forall₂ (fun built piece => BuiltFrame.Holds tools base built piece.1 piece.2)
      bundler.group pieces

theorem new_holds (target : Nat) : (Bundler.new target).Holds bytesOf tools base [] :=
  ⟨[], [], rfl, Nat.le_refl _, ⟨rfl, .nil⟩, .nil⟩

section Push

variable {bundler next : Bundler} {raws baseRaws : List Bytes} (htools : tools.Ok bytesOf)
  (hbase : ∀ index, base = some index → index.Ok bytesOf tools baseRaws)
  (hholds : bundler.Holds bytesOf tools base raws)

include htools hbase hholds

theorem close_holds (h : bundler.close tools cas base = .ok next) :
    FramesHold bytesOf tools next.bundles next.infos next.frames raws ∧ next.group = [] ∧
      next.bundles.length ≤ raws.length := by
  obtain ⟨done, pieces, rfl, hcount, hdone, hgroup⟩ := hholds
  unfold close at h
  split at h
  · next hempty =>
      obtain rfl := pure_eq_ok.mp h
      have hnil := List.isEmpty_iff.mp hempty
      rw [hnil] at hgroup
      obtain rfl := List.forall₂_nil_left_iff.mp hgroup
      exact ⟨by simpa using hdone, hnil, by simpa using hcount⟩
  · next hsome =>
    obtain ⟨_, h⟩ := ite_throw_eq_ok.mp h
    obtain ⟨⟨hash, new⟩, hbundle, h⟩ := bind_eq_ok.mp h
    obtain ⟨infos, hinfos, h⟩ := bind_eq_ok.mp h
    obtain rfl := pure_eq_ok.mp h
    have hpre := bundleGroup_holds htools hgroup hbase hbundle
    have hplaced := placeFrames_holds hgroup [] hinfos hpre
    have hpos : 0 < pieces.length := by
      rw [← hgroup.length_eq]
      exact List.length_pos_iff.mpr fun hnil => hsome (List.isEmpty_iff.mpr hnil)
    refine ⟨hdone.mono.append hplaced, rfl, ?_⟩
    simp only [List.length_append, List.length_map, List.length_singleton]
    omega

theorem makeRoom_holds {built : BuiltFrame} (h : bundler.makeRoom tools cas base built = .ok next) :
    next.Holds bytesOf tools base raws := by
  unfold makeRoom at h
  split at h
  · obtain ⟨hframes, hgroup, hcount⟩ := close_holds htools hbase hholds h
    exact ⟨raws, [], by simp, hcount, hframes, hgroup ▸ .nil⟩
  · obtain rfl := pure_eq_ok.mp h
    exact hholds

theorem push_holds {built : BuiltFrame} {comp raw : Bytes}
    (hbuilt : built.Holds tools base comp raw) (h : bundler.push tools cas base built = .ok next) :
    next.Holds bytesOf tools base (raws ++ [raw]) := by
  obtain ⟨bundler', hroom, h⟩ := bind_eq_ok.mp h
  obtain ⟨done, pieces, hraws, hcount, hdone, hgroup⟩ := makeRoom_holds htools hbase hholds hroom
  have hadded : Holds bytesOf tools base { bundler' with
      group := bundler'.group ++ [built]
      groupLen := bundler'.groupLen + built.compressedLen } (raws ++ [raw]) := by
    refine ⟨done, pieces ++ [(comp, raw)], ?_, hcount, hdone, ?_⟩
    · rw [hraws, List.map_append, List.append_assoc]
      rfl
    · exact List.rel_append hgroup (.cons hbuilt .nil)
  dsimp only at h
  split at h
  · obtain ⟨hframes, hgroup', hcount'⟩ := close_holds htools hbase hadded h
    exact ⟨_, [], by simp, hcount', hframes, hgroup' ▸ .nil⟩
  · obtain rfl := pure_eq_ok.mp h
    exact hadded

end Push

end Bundler

end Ripclone.Archive
