import Ripclone.Archive.Rebuild

/-!
# The groups a bundler makes

A bundler cuts the frames pushed to it into groups, one bundle each (`Bundler.Groups`). The table
places the frames of a group one after the other from the start of its bundle, which is what the
geometry check asks for, and a group that is more than one frame is at most twice the target.
-/

namespace Ripclone.Archive

open Ripclone.Library

/-- The bytes the frames of a group have together. -/
def groupSize (group : List BuiltFrame) : Nat := (group.map BuiltFrame.compressedLen).sum

/-- The places of frames one after the other in bundle `index`, from `offset` on. -/
def placesFrom (index : Nat) : Nat → List BuiltFrame → List FrameInfo
  | _, [] => []
  | offset, frame :: rest =>
    ⟨index, offset, frame.compressedLen, frame.rawLen⟩ ::
      placesFrom index (offset + frame.compressedLen) rest

/-- The places of the frames of groups, each group in a bundle of its own from `index` on. -/
def placesOf : Nat → List (List BuiltFrame) → List FrameInfo
  | _, [] => []
  | index, group :: rest => placesFrom index 0 group ++ placesOf (index + 1) rest

/-- The group's bundle is not larger than `max`, unless it is one frame. -/
def Sized (max : Nat) (group : List BuiltFrame) : Prop := groupSize group ≤ max ∨ group.length = 1

theorem placeFrames_eq {index offset : Nat} {group : List BuiltFrame} {infos : List FrameInfo}
    (h : placeFrames index offset group = .ok infos) :
    infos = placesFrom index offset group ∧
      ∀ frame ∈ group, frame.compressedLen < 2 ^ 32 ∧ frame.rawLen < 2 ^ 32 := by
  induction group generalizing offset infos with
  | nil =>
      obtain rfl := pure_eq_ok.mp h
      exact ⟨rfl, by simp⟩
  | cons frame group ih =>
      simp only [placeFrames, ite_throw_eq_ok] at h
      obtain ⟨hcompressed, hraw, h⟩ := h
      obtain ⟨rest, hrest, h⟩ := bind_eq_ok.mp h
      obtain rfl := pure_eq_ok.mp h
      obtain ⟨rfl, hsmall⟩ := ih hrest
      exact ⟨rfl, List.forall_mem_cons.mpr
        ⟨⟨Nat.not_le.mp hcompressed, Nat.not_le.mp hraw⟩, hsmall⟩⟩

theorem placesOf_concat (index : Nat) (groups : List (List BuiltFrame)) (group : List BuiltFrame) :
    placesOf index (groups ++ [group]) =
      placesOf index groups ++ placesFrom (index + groups.length) 0 group := by
  induction groups generalizing index with
  | nil => simp [placesOf]
  | cons first groups ih =>
      rw [List.cons_append, placesOf, placesOf, ih, List.append_assoc, List.length_cons,
        Nat.add_assoc, Nat.add_comm 1]

/-! ## Geometry -/

/-- The frames of a group pass the check, in the bundle the check has come to. -/
theorem checkFrames_placesFrom {frameIdx index offset : Nat} {group : List BuiltFrame}
    {more : List FrameInfo} (hsize : offset + groupSize group < 2 ^ 64)
    (hmore : ∀ frameIdx, checkFrames frameIdx (some (index, offset + groupSize group)) more =
      .ok ()) :
    checkFrames frameIdx (some (index, offset)) (placesFrom index offset group ++ more) = .ok () := by
  induction group generalizing frameIdx offset with
  | nil => exact hmore frameIdx
  | cons frame group ih =>
      rw [groupSize, List.map_cons, List.sum_cons, ← Nat.add_assoc] at hsize hmore
      have hrest := @ih (frameIdx + 1) _ hsize hmore
      rw [placesFrom, List.cons_append, checkFrames, if_neg (by dsimp only; omega), bind_unit_eq_ok]
      refine ⟨?_, hrest⟩
      simp [checkFrame]

/-- Where a check that has come to the end of a bundle goes on: in the next one. -/
def NextBundle (previous : Option (Nat × Nat)) (index : Nat) : Prop :=
  match previous with
  | none => index = 0
  | some (chunk, _) => index = chunk + 1

theorem checkFrame_next {frameIdx index : Nat} {previous : Option (Nat × Nat)} {frame : FrameInfo}
    (hnext : NextBundle previous index) (hindex : index < 2 ^ 32)
    (hchunk : frame.chunkIndex = index) (hoffset : frame.chunkOffset = 0) :
    checkFrame frameIdx previous frame = .ok () := by
  cases previous with
  | none =>
      have hzero : index = 0 := hnext
      simp [checkFrame, hchunk, hoffset, hzero]
  | some last =>
      obtain ⟨chunk, stop⟩ := last
      have hsucc : index = chunk + 1 := hnext
      have hmin : min (chunk + 1) (2 ^ 32 - 1) = chunk + 1 := by omega
      simp only [checkFrame, hchunk, hsucc, hoffset]
      rw [if_neg (by omega), if_neg (by omega), if_neg (by omega)]
      rfl

/-- Groups, each in a bundle of its own, pass the check. -/
theorem checkFrames_placesOf {frameIdx index : Nat} {previous : Option (Nat × Nat)}
    {groups : List (List BuiltFrame)} (hnext : NextBundle previous index)
    (hcount : index + groups.length ≤ 2 ^ 32) (hsome : ∀ group ∈ groups, group ≠ [])
    (hsize : ∀ group ∈ groups, groupSize group < 2 ^ 64) :
    checkFrames frameIdx previous (placesOf index groups) = .ok () := by
  induction groups generalizing frameIdx index previous with
  | nil => rfl
  | cons group groups ih =>
      rw [List.length_cons] at hcount
      have hgroup := hsize group List.mem_cons_self
      have hrest : ∀ frameIdx, checkFrames frameIdx (some (index, groupSize group))
          (placesOf (index + 1) groups) = .ok () := fun frameIdx => ih rfl (by omega)
        (fun group hgroup => hsome group (List.mem_cons_of_mem _ hgroup))
        (fun group hgroup => hsize group (List.mem_cons_of_mem _ hgroup))
      cases group with
      | nil => exact absurd rfl (hsome [] List.mem_cons_self)
      | cons frame rest =>
          have hsum : groupSize (frame :: rest) = 0 + frame.compressedLen + groupSize rest := by
            rw [groupSize, List.map_cons, List.sum_cons, Nat.zero_add, groupSize]
          rw [hsum] at hgroup hrest
          rw [placesOf, placesFrom, List.cons_append, checkFrames, if_neg (by dsimp only; omega),
            bind_unit_eq_ok]
          exact ⟨checkFrame_next hnext (by omega) rfl rfl, checkFrames_placesFrom hgroup hrest⟩

/-! ## Groups -/

namespace Bundler

/-- The frames pushed so far are those of the groups closed, each with a bundle it stands in relation
`holds` to, and of the open group. -/
structure Groups (holds : List BuiltFrame → String → Prop) (bundler : Bundler)
    (frames : List BuiltFrame) (groups : List (List BuiltFrame)) : Prop where
  pushed : frames = groups.flatten ++ bundler.group
  group_len : bundler.groupLen = groupSize bundler.group
  bundles : List.Forall₂ holds groups bundler.bundles
  count : groups.length ≤ 2 ^ 32
  infos : bundler.infos = placesOf 0 groups
  placed : bundler.frames = groups.flatten.map BuiltFrame.archiveFrame
  nonempty : ∀ group ∈ groups, group ≠ []
  sized : ∀ group ∈ groups, Sized bundler.max group
  small : ∀ group ∈ groups, ∀ frame ∈ group, frame.compressedLen < 2 ^ 32 ∧ frame.rawLen < 2 ^ 32

theorem new_groups (holds : List BuiltFrame → String → Prop) (target : Nat) :
    (Bundler.new target).Groups holds [] [] where
  pushed := rfl
  group_len := rfl
  bundles := .nil
  count := Nat.zero_le _
  infos := rfl
  placed := rfl
  nonempty := by simp
  sized := by simp
  small := by simp

/-- A group's bundle has fewer than `2 ^ 64` bytes, as one frame has fewer than `2 ^ 32`. -/
theorem Groups.size_lt {holds : List BuiltFrame → String → Prop} {bundler : Bundler}
    {frames : List BuiltFrame} {groups : List (List BuiltFrame)}
    (h : bundler.Groups holds frames groups) (hmax : bundler.max < 2 ^ 64)
    {group : List BuiltFrame} (hgroup : group ∈ groups) : groupSize group < 2 ^ 64 := by
  rcases h.sized group hgroup with hle | hsingle
  · omega
  · obtain ⟨frame, rfl⟩ := List.length_eq_one_iff.mp hsingle
    have := (h.small _ hgroup frame List.mem_cons_self).1
    simp only [groupSize, List.map_singleton, List.sum_singleton]
    omega

theorem new_max (target : Nat) :
    0 < (Bundler.new target).max ∧ (Bundler.new target).max ≤ 2 * Nat.max target 2 ∧
      (Bundler.new target).max < 2 ^ 64 := by
  have htwo : 2 ≤ Nat.max target 2 := Nat.le_max_right _ _
  have hmax : (Bundler.new target).max =
      Min.min (Nat.max target 2 * 2) (2 ^ 64 - 1) := rfl
  omega

section Push

variable {holds : List BuiltFrame → String → Prop} {tools : Tools} {cas : Cas}
  {base : Option BaseIndex} {bundler next : Bundler} {frames : List BuiltFrame}
  {groups : List (List BuiltFrame)}
  (hholds : ∀ {group : List BuiltFrame} {groupLen : Nat} {hash : String} {new : Option String},
    bundleGroup tools cas base group groupLen = .ok (hash, new) → holds group hash)

include hholds

/-- Closing makes the open group the last of the groups. -/
theorem close_groups (hgroups : bundler.Groups holds frames groups)
    (hopen : Sized bundler.max bundler.group) (h : bundler.close tools cas base = .ok next) :
    (∃ groups', next.Groups holds frames groups') ∧ next.group = [] ∧
      next.max = bundler.max := by
  unfold close at h
  split at h
  · next hempty =>
      obtain rfl := pure_eq_ok.mp h
      exact ⟨⟨groups, hgroups⟩, List.isEmpty_iff.mp hempty, rfl⟩
  · next hsome =>
      obtain ⟨hcount, h⟩ := ite_throw_eq_ok.mp h
      obtain ⟨⟨hash, new⟩, hbundle, h⟩ := bind_eq_ok.mp h
      obtain ⟨infos, hinfos, h⟩ := bind_eq_ok.mp h
      obtain rfl := pure_eq_ok.mp h
      obtain ⟨rfl, hsmall⟩ := placeFrames_eq hinfos
      have hlength := hgroups.bundles.length_eq
      have hflatten : (groups ++ [bundler.group]).flatten = groups.flatten ++ bundler.group := by
        rw [List.flatten_append, List.flatten_singleton]
      refine ⟨⟨groups ++ [bundler.group], ?_⟩, rfl, rfl⟩
      constructor
      case pushed => rw [hflatten, List.append_nil, hgroups.pushed]
      case group_len => rfl
      case bundles => exact List.rel_append hgroups.bundles (.cons (hholds hbundle) .nil)
      case count =>
        rw [List.length_append, List.length_singleton]
        omega
      case infos =>
        show bundler.infos ++ _ = _
        rw [hgroups.infos, placesOf_concat, Nat.zero_add, hlength]
      case placed =>
        show bundler.frames ++ _ = _
        rw [hgroups.placed, hflatten, List.map_append]
      case nonempty =>
        rw [List.forall_mem_append, List.forall_mem_singleton]
        exact ⟨hgroups.nonempty, fun hnil => hsome (List.isEmpty_iff.mpr hnil)⟩
      case sized =>
        rw [List.forall_mem_append, List.forall_mem_singleton]
        exact ⟨hgroups.sized, hopen⟩
      case small =>
        rw [List.forall_mem_append, List.forall_mem_singleton]
        exact ⟨hgroups.small, hsmall⟩

/-- The open group stays below the limit: a frame that would take it over closes it first. -/
theorem push_groups {frame : BuiltFrame} (hgroups : bundler.Groups holds frames groups)
    (hroom : bundler.groupLen < bundler.max) (h : bundler.push tools cas base frame = .ok next) :
    (∃ groups', next.Groups holds (frames ++ [frame]) groups') ∧ next.groupLen < next.max ∧
      next.max = bundler.max := by
  obtain ⟨room, hmake, h⟩ := bind_eq_ok.mp h
  -- before the frame is added
  obtain ⟨⟨groups', hroomGroups⟩, hroomMax, hfits⟩ :
      (∃ groups', room.Groups holds frames groups') ∧ room.max = bundler.max ∧
        (room.group = [] ∨ room.groupLen + frame.compressedLen ≤ room.max) := by
    unfold makeRoom at hmake
    split at hmake
    · have hopen : Sized bundler.max bundler.group := .inl (hgroups.group_len ▸ Nat.le_of_lt hroom)
      obtain ⟨hclosed, hgroup, hmax⟩ := close_groups hholds hgroups hopen hmake
      exact ⟨hclosed, hmax, .inl hgroup⟩
    · next hkeep =>
        obtain rfl := pure_eq_ok.mp hmake
        refine ⟨⟨groups, hgroups⟩, rfl, ?_⟩
        simpa [Classical.or_iff_not_imp_left] using hkeep
  have hadded : Groups holds { room with
      group := room.group ++ [frame]
      groupLen := room.groupLen + frame.compressedLen } (frames ++ [frame]) groups' := by
    refine { hroomGroups with pushed := ?_, group_len := ?_ }
    · rw [hroomGroups.pushed, List.append_assoc]
    · show room.groupLen + frame.compressedLen = _
      rw [hroomGroups.group_len, groupSize, groupSize, List.map_append, List.sum_append,
        List.map_singleton, List.sum_singleton]
  dsimp only at h
  split at h
  · have hopen : Sized room.max (room.group ++ [frame]) := by
      rcases hfits with hnil | hle
      · exact .inr (by rw [hnil]; rfl)
      · exact .inl (hadded.group_len ▸ hle)
    obtain ⟨hclosed, hgroup, hmax⟩ := close_groups hholds hadded hopen h
    obtain ⟨closed, hclosed⟩ := hclosed
    have hzero : next.groupLen = 0 := by rw [hclosed.group_len, hgroup]; rfl
    refine ⟨⟨closed, hclosed⟩, ?_, hmax.trans hroomMax⟩
    rw [hzero, hmax]
    show 0 < room.max
    omega
  · next hopen =>
      obtain rfl := pure_eq_ok.mp h
      exact ⟨⟨groups', hadded⟩, Nat.not_le.mp fun hle => hopen (.inl hle), hroomMax⟩

theorem pushAll_groups {more : List BuiltFrame} (hgroups : bundler.Groups holds frames groups)
    (hroom : bundler.groupLen < bundler.max)
    (h : ArchiveBuilder.pushAll tools cas base bundler more = .ok next) :
    (∃ groups', next.Groups holds (frames ++ more) groups') ∧ next.groupLen < next.max ∧
      next.max = bundler.max := by
  induction more generalizing bundler frames groups with
  | nil =>
      obtain rfl := pure_eq_ok.mp h
      exact ⟨⟨groups, by rwa [List.append_nil]⟩, hroom, rfl⟩
  | cons frame more ih =>
      rw [ArchiveBuilder.pushAll, List.foldlM_cons] at h
      obtain ⟨middle, hpush, h⟩ := bind_eq_ok.mp h
      obtain ⟨⟨groups', hmiddle⟩, hroom', hmax⟩ := push_groups hholds hgroups hroom hpush
      obtain ⟨hnext, hlt, hmax'⟩ := ih hmiddle hroom' h
      rw [List.append_assoc] at hnext
      exact ⟨hnext, hlt, hmax'.trans hmax⟩

end Push

end Bundler

/-! ## Bundles -/

/-- The base's bundles hold its frames and nothing else: each ends with its last frame. -/
def ArchiveBase.Filled (bytesOf : String → Bytes) (base : ArchiveBase) : Prop :=
  ∀ bundle stop, LastEnd base.bundles base.metadata.frames bundle stop →
    (bytesOf bundle).length = stop

section Bundles

variable {bytesOf : String → Bytes} {tools : Tools} {cas : Cas} {archive : Option ArchiveBase}
  {base : Option BaseIndex} (htools : tools.Ok bytesOf)
  (hbase : base = archive.bind fun archive => (BaseIndex.new archive).toOption)
  (harchive : ∀ base ∈ archive, ∃ raws, base.Holds bytesOf tools raws)

include htools hbase harchive

/-- A group's bundle is its frames, when the base's bundles are theirs. -/
theorem bundleGroup_length {group : List BuiltFrame} {groupLen : Nat} {hash : String}
    {new : Option String} {pieces : List (Bytes × Bytes)}
    (hgroup : List.Forall₂ (fun built piece => BuiltFrame.Holds tools base built piece.1 piece.2)
      group pieces) (hfilled : ∀ base ∈ archive, base.Filled bytesOf)
    (h : bundleGroup tools cas base group groupLen = .ok (hash, new)) :
    (bytesOf hash).length = groupSize group := by
  have hkey : group.map BuiltFrame.chunkHash = (pieces.map Prod.fst).map tools.hash := by
    rw [List.map_map]
    refine List.forall₂_eq_eq_eq ▸ (List.forall₂_map_left_iff.mpr (List.forall₂_map_right_iff.mpr ?_))
    exact hgroup.imp fun built piece hbuilt => hbuilt.describes.chunkHash
  have hsize : (pieces.map Prod.fst).flatten.length = groupSize group := by
    rw [List.length_flatten, List.map_map, groupSize]
    refine congrArg List.sum (List.forall₂_eq_eq_eq ▸ List.forall₂_map_left_iff.mpr
      (List.forall₂_map_right_iff.mpr ?_))
    exact hgroup.flip.imp fun piece built hbuilt => hbuilt.describes.compressedLen.symm
  unfold bundleGroup at h
  split at h
  · next found hfound =>
      obtain ⟨index, hindex, hlookup⟩ := Option.bind_eq_some_iff.mp hfound
      rw [hbase] at hindex
      obtain ⟨base', hbase', hnew⟩ := Option.bind_eq_some_iff.mp hindex
      obtain ⟨raws, hraws⟩ := harchive base' hbase'
      obtain ⟨_, _, _, _, hkeys⟩ := BaseIndex.new_indexed hraws (toOption_eq_some.mp hnew)
      obtain ⟨comps, hcomps, _, hlast⟩ := hkeys _ _ (lastOf_mem hlookup)
      obtain ⟨rfl, rfl⟩ := Prod.mk.inj (pure_eq_ok.mp h)
      rw [hkey] at hcomps
      rw [hfilled base' hbase' _ _ hlast, ← htools.join_injective hcomps, hsize]
  · obtain ⟨found, hwrite, h⟩ := bind_eq_ok.mp h
    obtain ⟨rfl, rfl⟩ := Prod.mk.inj (pure_eq_ok.mp h)
    rw [writeGroup_eq htools hgroup hwrite, htools.hash, hsize]

omit htools in
/-- The raw bytes of the base, if there is one. -/
theorem exists_baseRaws : ∃ raws, ∀ index, base = some index → index.Ok bytesOf tools raws := by
  cases hindex : base with
  | none => exact ⟨[], by simp⟩
  | some index =>
      rw [hbase] at hindex
      obtain ⟨base', hbase', hnew⟩ := Option.bind_eq_some_iff.mp hindex
      obtain ⟨raws, hraws⟩ := harchive base' hbase'
      refine ⟨raws, fun index' hindex' => ?_⟩
      obtain rfl := Option.some.inj hindex'
      exact BaseIndex.new_ok hraws (toOption_eq_some.mp hnew)

omit hbase harchive in
/-- Frames at their places have their compressed bytes there. -/
theorem placed_comps {bundles : List String} {frames : List BuiltFrame}
    {pieces : List (Bytes × Bytes)} {infos : List FrameInfo}
    (hframes : List.Forall₂ (fun built piece => BuiltFrame.Holds tools base built piece.1 piece.2)
      frames pieces) (hlen : infos.length = frames.length)
    (hplaced : List.Forall₂ (fun placed raw => Placed bytesOf tools bundles placed.2 placed.1 raw)
      ((frames.map BuiltFrame.archiveFrame).zip infos) (pieces.map Prod.snd)) :
    List.Forall₂ (fun info piece => ∃ bundle, bundles[info.chunkIndex]? = some bundle ∧
      slice (bytesOf bundle) info.chunkOffset (info.chunkOffset + info.compressedLen) = piece.1)
      infos pieces := by
  induction hframes generalizing infos with
  | nil => exact List.length_eq_zero_iff.mp hlen ▸ .nil
  | @cons built piece frames pieces hbuilt _ ih =>
      cases infos with
      | nil => cases hlen
      | cons info infos =>
          rw [List.map_cons, List.map_cons, List.zip_cons_cons] at hplaced
          obtain ⟨⟨bundle, hbundle, _, _, _, hdescribes⟩, hrest⟩ :=
            List.forall₂_cons.mp hplaced
          refine .cons ⟨bundle, hbundle, ?_⟩ (ih (Nat.succ.inj hlen) hrest)
          exact hbuilt.describes.comp_eq htools hdescribes.chunkHash.symm

/-- The bundles published for the frames pushed hold each of them once and in order. The table places
the frames bundle by bundle, as the geometry check asks for; a frame's compressed bytes are at its
place, in a bundle that was written as in one of the base's; each bundle has a frame, and is its
frames; and together they are at most twice the target, which is at least 2, unless the bundle is one
frame. -/
theorem bundles_hold_frames {target : Nat} {frames : List BuiltFrame}
    {pieces : List (Bytes × Bytes)} {pushed bundler : Bundler}
    (hframes : List.Forall₂ (fun built piece => BuiltFrame.Holds tools base built piece.1 piece.2)
      frames pieces)
    (hpush : ArchiveBuilder.pushAll tools cas base (Bundler.new target) frames = .ok pushed)
    (hclose : pushed.close tools cas base = .ok bundler) :
    bundler.frames = frames.map BuiltFrame.archiveFrame ∧
    (⟨bundler.infos, [], []⟩ : MetadataChunk).validateGeometry = .ok () ∧
    List.Forall₂ (fun info piece => ∃ bundle, bundler.bundles[info.chunkIndex]? = some bundle ∧
      slice (bytesOf bundle) info.chunkOffset (info.chunkOffset + info.compressedLen) = piece.1)
      bundler.infos pieces ∧
    ∃ groups : List (List BuiltFrame), groups.flatten = frames ∧
      bundler.infos = placesOf 0 groups ∧
      List.Forall₂ (fun group bundle => group ≠ [] ∧
        Sized (2 * Nat.max target 2) group ∧
        ((∀ base ∈ archive, base.Filled bytesOf) → (bytesOf bundle).length = groupSize group))
        groups bundler.bundles := by
  obtain ⟨baseRaws, hbaseOk⟩ := exists_baseRaws hbase harchive
  -- the bytes
  have hraws : List.Forall₂ (fun frame raw => ∃ comp, BuiltFrame.Holds tools base frame comp raw)
      frames (pieces.map Prod.snd) :=
    List.forall₂_map_right_iff.mpr (hframes.imp fun built piece hbuilt => ⟨piece.1, hbuilt⟩)
  have hheld := pushAll_holds htools hbaseOk (Bundler.new_holds target) hraws hpush
  rw [List.nil_append] at hheld
  obtain ⟨⟨hlen, hplaced⟩, _⟩ := Bundler.close_holds htools hbaseOk hheld hclose
  -- the groups
  let holds (group : List BuiltFrame) (bundle : String) : Prop :=
    (∀ built ∈ group, ∃ piece : Bytes × Bytes, BuiltFrame.Holds tools base built piece.1 piece.2) →
      (∀ base ∈ archive, base.Filled bytesOf) → (bytesOf bundle).length = groupSize group
  have hholds : ∀ {group : List BuiltFrame} {groupLen : Nat} {hash : String} {new : Option String},
      bundleGroup tools cas base group groupLen = .ok (hash, new) → holds group hash := by
    intro group groupLen hash new hbundle hgroup hfilled
    obtain ⟨pieces, hpieces⟩ := exists_forall₂ hgroup
    exact bundleGroup_length htools hbase harchive hpieces hfilled hbundle
  obtain ⟨hpos, hmax, hlt⟩ := Bundler.new_max target
  obtain ⟨⟨groups₀, hpushed⟩, hroom, hpushedMax⟩ :=
    Bundler.pushAll_groups hholds (Bundler.new_groups holds target) hpos hpush
  rw [List.nil_append] at hpushed
  obtain ⟨⟨groups, hgroups⟩, hempty, hclosedMax⟩ := Bundler.close_groups hholds hpushed
    (.inl (hpushed.group_len ▸ Nat.le_of_lt hroom)) hclose
  have hall : groups.flatten = frames := by
    rw [hgroups.pushed, hempty, List.append_nil]
  have hlimit : bundler.max = (Bundler.new target).max := hclosedMax.trans hpushedMax
  have hbuilt : bundler.frames = frames.map BuiltFrame.archiveFrame := hall ▸ hgroups.placed
  refine ⟨hbuilt, ?_, ?_, groups, hall, hgroups.infos, ?_⟩
  · have hsize : ∀ group ∈ groups, groupSize group < 2 ^ 64 :=
      fun group hgroup => hgroups.size_lt (by omega) hgroup
    refine validateGeometry_ok.mpr ⟨by simp, by simp, by simp, ?_⟩
    show checkFrames 0 none bundler.infos = .ok ()
    rw [hgroups.infos]
    exact checkFrames_placesOf rfl (by have := hgroups.count; omega) hgroups.nonempty hsize
  · rw [hbuilt] at hlen hplaced
    exact placed_comps htools hframes (by rwa [List.length_map] at hlen) hplaced
  · have hpieces : ∀ built ∈ frames,
        ∃ piece : Bytes × Bytes, BuiltFrame.Holds tools base built piece.1 piece.2 := by
      intro built hmem
      obtain ⟨piece, _, hpiece⟩ := forall₂_mem hframes hmem
      exact ⟨piece, hpiece⟩
    have hmem : List.Forall₂ (fun group bundle => group ∈ groups ∧ holds group bundle)
        groups bundler.bundles :=
      (List.forall₂_and_left groups bundler.bundles).mpr ⟨fun group hgroup => hgroup, hgroups.bundles⟩
    refine hmem.imp fun group bundle ⟨hgroup, hbundle⟩ => ?_
    refine ⟨hgroups.nonempty group hgroup, ?_, hbundle fun built hmem => hpieces built ?_⟩
    · exact (hgroups.sized group hgroup).imp_left fun hle => by omega
    · rw [← hall]
      exact List.mem_flatten.mpr ⟨group, hgroup, hmem⟩

end Bundles

/-- A frame of one byte. No bundle is cut after it. -/
def sampleFrame : BuiltFrame :=
  ⟨plainTools.hash [1], 1, plainTools.hash [0, 1], 2, some [0, 1], none⟩

theorem sampleFrame_holds : sampleFrame.Holds plainTools none [0, 1] [1] where
  describes := ⟨rfl, rfl, rfl, rfl, rfl⟩
  bytes := fun bytes hbytes => (Option.some.inj hbytes).symm
  baseFrame := fun index k frame hbase => by cases hbase

/-- The bundler after frames are pushed to it and its last bundle is closed. -/
def sampleBundles (target : Nat) (frames : List BuiltFrame) : Except String (Bundler × Bundler) := do
  let pushed ← ArchiveBuilder.pushAll plainTools sampleCas none (Bundler.new target) frames
  let bundler ← pushed.close plainTools sampleCas none
  return (pushed, bundler)

theorem two_frames_bundled : ∃ pushed bundler,
    sampleBundles 2 [sampleFrame, sampleFrame] = .ok (pushed, bundler) ∧
    (⟨bundler.infos, [], []⟩ : MetadataChunk).validateGeometry = .ok () ∧
    ∃ groups : List (List BuiltFrame), groups.flatten = [sampleFrame, sampleFrame] ∧
      ∀ group ∈ groups, Sized 4 group := by
  have hruns : (sampleBundles 2 [sampleFrame, sampleFrame]).isOk = true := by with_unfolding_all decide
  cases hrun : sampleBundles 2 [sampleFrame, sampleFrame] with
  | error error =>
      rw [hrun] at hruns
      cases hruns
  | ok run =>
      obtain ⟨pushed, hpush, h⟩ := bind_eq_ok.mp hrun
      obtain ⟨bundler, hclose, h⟩ := bind_eq_ok.mp h
      obtain rfl := pure_eq_ok.mp h
      have hnone : (none : Option BaseIndex) =
          (none : Option ArchiveBase).bind fun archive => (BaseIndex.new archive).toOption := rfl
      have hframes : List.Forall₂
          (fun built (piece : Bytes × Bytes) => BuiltFrame.Holds plainTools none built piece.1 piece.2)
          [sampleFrame, sampleFrame] [([0, 1], [1]), ([0, 1], [1])] :=
        .cons sampleFrame_holds (.cons sampleFrame_holds .nil)
      obtain ⟨_, hgeometry, _, groups, hall, _, hsized⟩ := bundles_hold_frames plainTools_ok hnone
        (by simp) hframes hpush hclose
      refine ⟨pushed, bundler, rfl, hgeometry, groups, hall, fun group hgroup => ?_⟩
      obtain ⟨_, _, _, hsize, _⟩ := forall₂_mem hsized hgroup
      exact hsize

/-- Below a target of 2 bundles are cut as for 2. -/
theorem small_target_bundle : ∃ pushed bundler,
    sampleBundles 1 [sampleFrame, sampleFrame] = .ok (pushed, bundler) ∧ bundler.infos.length = 2 ∧
      bundler.bundles.length = 1 ∧ ∀ bundle ∈ bundler.bundles, 2 * 1 < (bytesNamed bundle).length := by
  have hruns : (sampleBundles 1 [sampleFrame, sampleFrame]).toOption.any (fun run =>
      decide (run.2.infos.length = 2) && decide (run.2.bundles.length = 1) &&
        run.2.bundles.all fun bundle => decide (2 * 1 < (bytesNamed bundle).length)) = true := by
    with_unfolding_all decide
  obtain ⟨⟨pushed, bundler⟩, hrun, hruns⟩ := (Option.any_eq_true _ _).mp hruns
  simp only [Bool.and_eq_true, decide_eq_true_eq, List.all_eq_true] at hruns
  exact ⟨pushed, bundler, toOption_eq_some.mp hrun, hruns.1.1, hruns.1.2, hruns.2⟩

end Ripclone.Archive
