import Mathlib.Data.List.Flatten
import Mathlib.Data.List.Zip
import Ripclone.Archive.Tail

/-!
# Tails are exact

Whatever order its base's files are in, a tail has the files of its commit with fragments that make
up their blobs, as long as its frames can be numbered: `buildTailIntoCas_ok`.
-/

namespace Ripclone.Archive

open Ripclone.Library ArchiveBuilder

/-! ## Numbers -/

theorem checkFrame_chunkIndex_le {frameIdx chunk stop : Nat} {info : FrameInfo}
    (h : checkFrame frameIdx (some (chunk, stop)) info = .ok ()) : info.chunkIndex ≤ chunk + 1 := by
  simp only [checkFrame, ite_throw_eq_ok] at h
  obtain ⟨_, h⟩ := h
  split at h
  · omega
  · have := not_not.mp (not_or.mp (ite_throw_eq_ok.mp h).1).1
    omega

/-- Bundles are numbered without gaps, so no frame's bundle has a larger number than the frame. -/
theorem checkFrames_chunkIndex_le {frameIdx i : Nat} {infos : List FrameInfo} {info : FrameInfo}
    (h : checkFrames frameIdx none infos = .ok ()) (hinfo : infos[i]? = some info) :
    info.chunkIndex ≤ i := by
  have hgeneral : ∀ {infos : List FrameInfo} {frameIdx chunk stop i : Nat},
      checkFrames frameIdx (some (chunk, stop)) infos = .ok () → infos[i]? = some info →
        info.chunkIndex ≤ chunk + 1 + i := by
    intro infos
    induction infos with
    | nil => simp
    | cons first rest ih =>
        intro frameIdx chunk stop i h hinfo
        obtain ⟨_, h⟩ := ite_throw_eq_ok.mp h
        obtain ⟨hfirst, hrest⟩ := bind_unit_eq_ok.mp h
        have hle := checkFrame_chunkIndex_le hfirst
        cases i with
        | zero =>
            obtain rfl := Option.some.inj hinfo
            exact hle
        | succ i =>
            have := ih hrest hinfo
            omega
  cases infos with
  | nil => simp at hinfo
  | cons first rest =>
      obtain ⟨_, h⟩ := ite_throw_eq_ok.mp h
      obtain ⟨hfirst, hrest⟩ := bind_unit_eq_ok.mp h
      have hzero := not_not.mp (not_or.mp (ite_throw_eq_ok.mp hfirst).1).1
      cases i with
      | zero =>
          obtain rfl := Option.some.inj hinfo
          exact Nat.le_of_eq hzero
      | succ i =>
          have := hgeneral hrest hinfo
          omega

/-- The new number of each bundle: its place among the live ones. -/
theorem liveBundles_index {live : List Nat} {k next : Nat} {bundles found : List String}
    {indexes : List Nat} (h : liveBundles live k next bundles = .ok (indexes, found))
    (hnext : next ≤ k) {i j : Nat} (hj : indexes[i]? = some j) :
    if k + i ∈ live then next ≤ j ∧ j ≤ k + i ∧ found[j - next]? = bundles[i]? else j = unused := by
  induction bundles generalizing k next indexes found i with
  | nil =>
      obtain ⟨rfl, rfl⟩ := Prod.mk.inj (pure_eq_ok.mp h)
      simp at hj
  | cons hash rest ih =>
      rw [liveBundles] at h
      split at h
      · next hlive =>
          obtain ⟨index, hindex, h⟩ := bind_eq_ok.mp h
          obtain ⟨⟨indexes', found'⟩, hrest, h⟩ := bind_eq_ok.mp h
          obtain ⟨rfl, rfl⟩ := Prod.mk.inj (pure_eq_ok.mp h)
          obtain rfl := toU32_eq hindex
          cases i with
          | zero =>
              obtain rfl := Option.some.inj hj
              rw [Nat.add_zero, if_pos hlive]
              exact ⟨Nat.le_refl _, hnext, by simp⟩
          | succ i =>
              have htail := ih hrest (Nat.succ_le_succ hnext) hj
              rw [show k + (i + 1) = k + 1 + i by omega]
              split at htail
              · next hmem =>
                  obtain ⟨hle, hbound, hfound⟩ := htail
                  rw [if_pos hmem]
                  refine ⟨by omega, hbound, ?_⟩
                  rw [show j - next = j - (next + 1) + 1 by omega]
                  exact hfound
              · next hmem => rwa [if_neg hmem]
      · next hdead =>
          obtain ⟨⟨indexes', found'⟩, hrest, h⟩ := bind_eq_ok.mp h
          obtain ⟨rfl, rfl⟩ := Prod.mk.inj (pure_eq_ok.mp h)
          cases i with
          | zero =>
              obtain rfl := Option.some.inj hj
              rw [Nat.add_zero, if_neg hdead]
          | succ i =>
              have htail := ih hrest (Nat.le_succ_of_le hnext) hj
              rw [show k + (i + 1) = k + 1 + i by omega]
              exact htail

theorem length_liveBundles {live : List Nat} {k next n : Nat} {bundles found : List String}
    {indexes : List Nat} (h : liveBundles live k next bundles = .ok (indexes, found))
    (hlive : ∀ l ∈ live, l < n) : found.length ≤ n - k := by
  induction bundles generalizing k next indexes found with
  | nil =>
      obtain ⟨rfl, rfl⟩ := Prod.mk.inj (pure_eq_ok.mp h)
      exact Nat.zero_le _
  | cons hash rest ih =>
      rw [liveBundles] at h
      split at h
      · next hk =>
          obtain ⟨index, _, h⟩ := bind_eq_ok.mp h
          obtain ⟨⟨indexes', found'⟩, hrest, h⟩ := bind_eq_ok.mp h
          obtain ⟨rfl, rfl⟩ := Prod.mk.inj (pure_eq_ok.mp h)
          have := ih hrest
          have := hlive k hk
          rw [List.length_cons]
          omega
      · obtain ⟨⟨indexes', found'⟩, hrest, h⟩ := bind_eq_ok.mp h
        obtain ⟨rfl, rfl⟩ := Prod.mk.inj (pure_eq_ok.mp h)
        have := ih hrest
        omega

/-! ## Frames -/

section Frames

variable {bytesOf : String → Bytes} {blobOf : Bytes → Bytes} {tools : Tools}
  {bundles newBundles : List String} {raws : List Bytes}

theorem Placed.move {info : FrameInfo} {frame : ArchiveFrame} {raw : Bytes} {index : Nat}
    (h : Placed bytesOf tools bundles info frame raw)
    (hmoved : ∀ bundle, bundles[info.chunkIndex]? = some bundle →
      newBundles[index]? = some bundle) :
    Placed bytesOf tools newBundles { info with chunkIndex := index } frame raw := by
  obtain ⟨bundle, hbundle, hrest⟩ := h
  exact ⟨bundle, hmoved bundle hbundle, hrest⟩

theorem FramesHold.nil : FramesHold bytesOf tools bundles [] [] [] := ⟨rfl, .nil⟩

theorem FramesHold.cons {info : FrameInfo} {infos : List FrameInfo} {frame : ArchiveFrame}
    {frames : List ArchiveFrame} {raw : Bytes}
    (hfirst : Placed bytesOf tools bundles info frame raw)
    (h : FramesHold bytesOf tools bundles infos frames raws) :
    FramesHold bytesOf tools bundles (info :: infos) (frame :: frames) (raw :: raws) :=
  ⟨congrArg Nat.succ h.1, .cons hfirst h.2⟩

/-- The frames of the live bundles are the base's. Frame `i` of the base is frame `indexes[i]` of
them, unless its bundle is not live. -/
theorem liveFrames_hold {bundleIndex indexes : List Nat} {next : Nat}
    {pairs : List (FrameInfo × ArchiveFrame)} {placed : PlacedFrames}
    (hpairs : List.Forall₂ (fun pair raw => Placed bytesOf tools bundles pair.1 pair.2 raw)
      pairs raws)
    (hmoved : ∀ (c j : Nat) (bundle : String), bundleIndex[c]? = some j → j ≠ unused →
      bundles[c]? = some bundle → newBundles[j]? = some bundle)
    (h : liveFrames bundleIndex next pairs = .ok (indexes, placed)) :
    ∃ kept, FramesHold bytesOf tools newBundles placed.infos placed.frames kept ∧
      kept.length ≤ pairs.length ∧
      ∀ (i j : Nat) (pair : FrameInfo × ArchiveFrame) (raw : Bytes), indexes[i]? = some j →
        pairs[i]? = some pair → raws[i]? = some raw →
        bundleIndex[pair.1.chunkIndex]? ≠ some unused → next ≤ j ∧ kept[j - next]? = some raw := by
  -- On the base's frames; a dead one takes no number, a live one the next.
  induction hpairs generalizing next indexes placed with
  | nil =>
      obtain ⟨rfl, rfl⟩ := Prod.mk.inj (pure_eq_ok.mp h)
      exact ⟨[], .nil, Nat.le_refl _, by simp⟩
  | @cons pair raw pairs raws hpair _ ih =>
      obtain ⟨info, frame⟩ := pair
      rw [liveFrames] at h
      split at h
      · cases h
      · next chunkIndex hchunk =>
          split at h
          · next hdead =>
              obtain ⟨⟨indexes', placed'⟩, hrest, h⟩ := bind_eq_ok.mp h
              obtain ⟨rfl, rfl⟩ := Prod.mk.inj (pure_eq_ok.mp h)
              obtain ⟨kept, hkept, hlen, hindex⟩ := ih hrest
              refine ⟨kept, hkept, Nat.le_succ_of_le hlen, ?_⟩
              intro i j pair' raw' hj hpair' hraw' hlive
              cases i with
              | zero =>
                  obtain rfl := Option.some.inj hpair'
                  exact absurd (hdead ▸ hchunk) hlive
              | succ i => exact hindex i j pair' raw' hj hpair' hraw' hlive
          · next hlive =>
              obtain ⟨index, hnext, h⟩ := bind_eq_ok.mp h
              obtain ⟨⟨indexes', placed'⟩, hrest, h⟩ := bind_eq_ok.mp h
              obtain ⟨rfl, rfl⟩ := Prod.mk.inj (pure_eq_ok.mp h)
              obtain rfl := toU32_eq hnext
              obtain ⟨kept, hkept, hlen, hindex⟩ := ih hrest
              have hfirst := hpair.move fun bundle => hmoved _ _ bundle hchunk hlive
              refine ⟨raw :: kept, hkept.cons hfirst, Nat.succ_le_succ hlen, ?_⟩
              intro i j pair' raw' hj hpair' hraw' hlive'
              cases i with
              | zero =>
                  obtain rfl := Option.some.inj hj
                  exact ⟨Nat.le_refl _, by simpa using hraw'⟩
              | succ i =>
                  obtain ⟨hle, hfound⟩ := hindex i j pair' raw' hj hpair' hraw' hlive'
                  refine ⟨by omega, ?_⟩
                  rw [show j - next = j - (next + 1) + 1 by omega]
                  exact hfound

/-- Bundles in front, with the numbers of the frames' bundles moved up. -/
theorem FramesHold.shift {infos : List FrameInfo} {frames : List ArchiveFrame}
    (h : FramesHold bytesOf tools bundles infos frames raws) (front : List String)
    (hcount : bundles.length + front.length ≤ 2 ^ 32) :
    FramesHold bytesOf tools (front ++ bundles)
      (infos.map fun info => { info with chunkIndex := (info.chunkIndex + front.length) % 2 ^ 32 })
      frames raws := by
  obtain ⟨hlen, hplaced⟩ := h
  refine ⟨by rw [List.length_map, hlen], ?_⟩
  have hzip : frames.zip (infos.map fun info =>
      { info with chunkIndex := (info.chunkIndex + front.length) % 2 ^ 32 }) =
      (frames.zip infos).map fun pair =>
        (pair.1, { pair.2 with chunkIndex := (pair.2.chunkIndex + front.length) % 2 ^ 32 }) := by
    rw [List.zip_map_right]
    rfl
  rw [hzip, List.forall₂_map_left_iff]
  refine hplaced.imp fun pair raw hpair => hpair.move fun bundle hbundle => ?_
  obtain ⟨hlt, _⟩ := List.getElem?_eq_some_iff.mp hbundle
  rw [Nat.mod_eq_of_lt (by omega), List.getElem?_append_right (Nat.le_add_left _ _),
    Nat.add_sub_cancel, hbundle]

/-! ## Fragments -/

theorem fragmentsBytes_moved {raws' : List Bytes} {fragments fragments' : List Fragment}
    {bytes : Bytes} (hmoved : List.Forall₂ (fun fragment fragment' => ∀ bytes,
      fragmentBytes raws fragment = some bytes → fragmentBytes raws' fragment' = some bytes)
      fragments fragments')
    (h : fragmentsBytes raws fragments = some bytes) :
    fragmentsBytes raws' fragments' = some bytes := by
  induction hmoved generalizing bytes with
  | nil => exact h
  | @cons fragment fragment' fragments fragments' hfirst _ ih =>
      obtain ⟨parts, hparts, rfl⟩ := Option.map_eq_some_iff.mp h
      rw [List.mapM_cons] at hparts
      obtain ⟨first, hbytes, hparts⟩ := Option.bind_eq_some_iff.mp hparts
      obtain ⟨rest, hrest, hparts⟩ := Option.bind_eq_some_iff.mp hparts
      obtain rfl := Option.some.inj hparts
      exact fragmentsBytes_cons (hfirst _ hbytes) (ih (Option.map_eq_some_iff.mpr ⟨rest, hrest, rfl⟩))

/-- A fragment has the same bytes in a frame of the same bytes. -/
theorem fragmentBytes_moved {raws' : List Bytes} {fragment : Fragment} {index : Nat} {bytes : Bytes}
    (hraw : ∀ raw, raws[fragment.frameIndex]? = some raw → raws'[index]? = some raw)
    (h : fragmentBytes raws fragment = some bytes) :
    fragmentBytes raws' { fragment with frameIndex := index } = some bytes := by
  obtain ⟨raw, hfound, hbytes⟩ := Option.bind_eq_some_iff.mp h
  exact Option.bind_eq_some_iff.mpr ⟨raw, hraw raw hfound, hbytes⟩

/-- Frames in front, with the numbers of the fragments' frames moved up. -/
theorem fragmentsBytes_shift {fragments : List Fragment} {bytes : Bytes} (front : List Bytes)
    (hcount : raws.length + front.length ≤ 2 ^ 32)
    (h : fragmentsBytes raws fragments = some bytes) :
    fragmentsBytes (front ++ raws) (fragments.map fun fragment =>
      { fragment with frameIndex := (fragment.frameIndex + front.length) % 2 ^ 32 }) =
        some bytes := by
  refine fragmentsBytes_moved (List.forall₂_map_right_iff.mpr (List.forall₂_same.mpr ?_)) h
  intro fragment _ part hpart
  refine fragmentBytes_moved (fun raw hraw => ?_) hpart
  obtain ⟨hlt, _⟩ := List.getElem?_eq_some_iff.mp hraw
  rw [Nat.mod_eq_of_lt (by omega), List.getElem?_append_right (Nat.le_add_left _ _),
    Nat.add_sub_cancel, hraw]

end Frames

/-! ## The tail -/

section Tail

variable {bytesOf : String → Bytes} {blobOf : Bytes → Bytes} {tools : Tools} {cas : Cas}
  {builder : ArchiveBuilder} {tail : TailFrames} {front : List String} {frontRaws : List Bytes}
  {bundleSize : Nat}

/-- The tail's frames hold `raws`, after the live ones, and its fragments make up their blobs. -/
structure ArchiveBuilder.TailFrames.Ok (bytesOf : String → Bytes) (blobOf : Bytes → Bytes)
    (tools : Tools) (front : List String) (frontRaws : List Bytes) (tail : TailFrames)
    (raws : List Bytes) : Prop where
  frames : FramesHold bytesOf tools (front ++ tail.bundles) tail.placed.infos tail.placed.frames raws
  fragments : ∀ oid fragments, (oid, fragments) ∈ tail.fragments →
    fragmentsBytes (frontRaws ++ raws) fragments = some (blobOf oid)

theorem stream_length_le (blobOf : Bytes → Bytes) {blobs blobs' : List Blob} (h : blobs.Sublist blobs') :
    (stream blobOf blobs).length ≤ (stream blobOf blobs').length :=
  (h.map _).flatten.length_le

theorem fragmentsBytes_empty {raws : List Bytes} (h : raws ≠ []) :
    fragmentsBytes raws [⟨0, 0, 0⟩] = some [] := by
  obtain ⟨raw, rest, rfl⟩ := List.exists_cons_of_ne_nil h
  have hfirst : fragmentBytes (raw :: rest) ⟨0, 0, 0⟩ = some [] := by
    rw [fragmentBytes, List.getElem?_cons_zero]
    rfl
  exact fragmentsBytes_cons hfirst rfl

/-- The blobs with their sizes. -/
def sized (blobOf : Bytes → Bytes) (blobs : List Blob) : List (Blob × Nat) :=
  blobs.map fun blob => (blob, (blobOf blob.oid).length)

/-- The blobs with a fragment of nothing. -/
def atFrameZero (blobs : List (Blob × Nat)) : List (Bytes × List Fragment) :=
  blobs.map fun blob => (blob.1.oid, [⟨0, 0, 0⟩])

variable (htools : tools.Ok bytesOf) (hmirror : builder.mirror.Ok blobOf)

include htools hmirror

theorem streamTail_ok {blobs : List (Blob × Nat)}
    (hsizes : ∀ blob ∈ blobs, blob.2 = (blobOf blob.1.oid).length)
    (hroom : ∀ n, (n - 1) * builder.cdc.min ≤ (stream blobOf (blobs.map Prod.fst)).length →
      n + frontRaws.length ≤ 2 ^ 32 ∧ n + front.length ≤ 2 ^ 32)
    (h : builder.streamTail tools cas blobs frontRaws.length front.length bundleSize = .ok tail) :
    ∃ raws, tail.Ok bytesOf blobOf tools front frontRaws raws ∧ (blobs ≠ [] → raws ≠ []) ∧
      tail.bundles.length + front.length ≤ 2 ^ 32 := by
  obtain ⟨layout, hlayout, h⟩ := bind_eq_ok.mp h
  obtain ⟨⟨bounds, frames⟩, hframes, h⟩ := bind_eq_ok.mp h
  obtain ⟨bundler, hpush, h⟩ := bind_eq_ok.mp h
  obtain ⟨closed, hclose, h⟩ := bind_eq_ok.mp h
  obtain ⟨frameBase, hframeBase, h⟩ := bind_eq_ok.mp h
  obtain ⟨bundleBase, hbundleBase, h⟩ := bind_eq_ok.mp h
  obtain ⟨table, htable, h⟩ := bind_eq_ok.mp h
  obtain rfl := toU32_eq hframeBase
  obtain rfl := toU32_eq hbundleBase
  obtain rfl := pure_eq_ok.mp h
  have hcontents : blobs.map Prod.snd = (contents blobOf (blobs.map Prod.fst)).map List.length := by
    rw [contents, List.map_map, List.map_map]
    exact List.map_congr_left hsizes
  obtain ⟨hok, hblobs, _⟩ := Layout.new_ok hcontents hlayout
  have hnone : ∀ index : BaseIndex, none = some index → index.Ok bytesOf tools [] := by simp
  obtain ⟨raws, rfl, hstream, hbuilt, hne, hcount⟩ :=
    streamFrames_ok htools hmirror hok hnone hframes
  have hbundler := pushAll_holds htools hnone (Bundler.new_holds bundleSize) hbuilt hpush
  obtain ⟨hheld, _, hbundles⟩ := Bundler.close_holds htools hnone hbundler hclose
  rw [List.nil_append] at hheld hbundles
  rw [hblobs] at hne hcount
  obtain ⟨hframeRoom, hbundleRoom⟩ := hroom _ hcount
  have hexact := filesTable_exact hok hstream htable
  refine ⟨raws, ⟨hheld.shift front (by omega), ?_⟩, fun hsome => hne (by simpa using hsome),
    (by dsimp only; omega)⟩
  intro oid fragments hmem
  obtain ⟨⟨blob, file⟩, hpair, hfragments⟩ := List.mem_map.mp hmem
  obtain ⟨rfl, rfl⟩ := Prod.mk.inj hfragments
  obtain ⟨hentry, hfile⟩ := (List.forall₂_iff_zip.mp hexact).2 hpair
  rw [← hentry.blobSha1]
  exact fragmentsBytes_shift frontRaws hframeRoom hfile

omit htools in
/-- The empty blobs of a tail are apart from those it streams only when there is a frame for them to
point at. -/
theorem tailFrames_cases {blobs : List Blob} {frameCount bundleCount : Nat}
    (h : builder.tailFrames tools cas blobs frameCount bundleCount bundleSize = .ok tail) :
    ∃ empty full : List (Blob × Nat), full.Sublist (sized blobOf blobs) ∧
      (∀ blob ∈ empty, blobOf blob.1.oid = []) ∧
      (empty = [] ∨ frameCount ≠ 0 ∨ full ≠ []) ∧
      (full = [] ∧ tail = ⟨atFrameZero empty, ⟨[], []⟩, [], []⟩ ∨
        ∃ streamed, builder.streamTail tools cas full frameCount bundleCount bundleSize =
            .ok streamed ∧
          tail = { streamed with fragments := atFrameZero empty ++ streamed.fragments }) := by
  obtain ⟨sizes, hsizes, h⟩ := bind_eq_ok.mp h
  have hsized : blobs.zip sizes = sized blobOf blobs := by
    rw [blobSizes_eq hmirror hsizes, List.map_map, sized, ← List.zip_map', List.map_id']
    rfl
  have hsome : (sizes.any fun size => decide (0 < size)) = true →
      (sized blobOf blobs).filter (fun blob => decide (blob.2 ≠ 0)) ≠ [] := by
    intro hany hnil
    obtain ⟨size, hmem, hpos⟩ := List.any_eq_true.mp hany
    rw [blobSizes_eq hmirror hsizes, List.map_map] at hmem
    obtain ⟨blob, hblob, rfl⟩ := List.mem_map.mp hmem
    have := List.filter_eq_nil_iff.mp hnil (blob, _) (List.mem_map.mpr ⟨blob, hblob, rfl⟩)
    simp_all
  dsimp only at h
  rw [hsized] at h
  -- apart or not, the rest of the build is the same
  have hrest : ∀ {empty full : List (Blob × Nat)}, (if full.isEmpty = true then
      pure ⟨atFrameZero empty, ⟨[], []⟩, [], []⟩ else do
        let streamed ← builder.streamTail tools cas full frameCount bundleCount bundleSize
        pure { streamed with fragments := atFrameZero empty ++ streamed.fragments }) =
          Except.ok tail →
      full = [] ∧ tail = ⟨atFrameZero empty, ⟨[], []⟩, [], []⟩ ∨
        ∃ streamed, builder.streamTail tools cas full frameCount bundleCount bundleSize =
            .ok streamed ∧
          tail = { streamed with fragments := atFrameZero empty ++ streamed.fragments } := by
    intro empty full hbuild
    split at hbuild
    · next hnil => exact .inl ⟨List.isEmpty_iff.mp hnil, (pure_eq_ok.mp hbuild).symm⟩
    · obtain ⟨streamed, hstreamed, hbuild⟩ := bind_eq_ok.mp hbuild
      exact .inr ⟨streamed, hstreamed, (pure_eq_ok.mp hbuild).symm⟩
  by_cases hapart : (decide (frameCount ≠ 0) || sizes.any fun size => decide (0 < size)) = true
  · simp only [if_pos hapart] at h
    refine ⟨_, _, List.filter_sublist, ?_, ?_, hrest h⟩
    · intro blob hblob
      obtain ⟨hmem, hzero⟩ := List.mem_filter.mp hblob
      obtain ⟨found, _, rfl⟩ := List.mem_map.mp hmem
      exact List.length_eq_zero_iff.mp (of_decide_eq_true hzero)
    · obtain hcount | hany := Bool.or_eq_true_iff.mp hapart
      · exact .inr (.inl (of_decide_eq_true hcount))
      · exact .inr (.inr (hsome hany))
  · simp only [if_neg hapart] at h
    exact ⟨[], _, List.Sublist.refl _, by simp, .inl rfl, hrest h⟩

theorem tailFrames_ok {blobs : List Blob}
    (hroom : ∀ n, (n - 1) * builder.cdc.min ≤ (stream blobOf blobs).length →
      n + frontRaws.length ≤ 2 ^ 32 ∧ n + front.length ≤ 2 ^ 32)
    (h : builder.tailFrames tools cas blobs frontRaws.length front.length bundleSize = .ok tail) :
    ∃ raws, tail.Ok bytesOf blobOf tools front frontRaws raws ∧
      tail.bundles.length + front.length ≤ 2 ^ 32 := by
  obtain ⟨empty, full, hfull, hzero, hframe, hcases⟩ := tailFrames_cases hmirror h
  have hempty : ∀ raws, frontRaws ++ raws ≠ [] ∨ empty = [] → ∀ oid fragments,
      (oid, fragments) ∈ atFrameZero empty →
        fragmentsBytes (frontRaws ++ raws) fragments = some (blobOf oid) := by
    intro raws hraws oid fragments hmem
    obtain ⟨blob, hblob, hpair⟩ := List.mem_map.mp hmem
    obtain ⟨rfl, rfl⟩ := Prod.mk.inj hpair
    obtain hne | rfl := hraws
    · rw [fragmentsBytes_empty hne, hzero blob hblob]
    · cases hblob
  obtain ⟨rfl, rfl⟩ | ⟨streamed, hstreamed, rfl⟩ := hcases
  · refine ⟨[], ⟨FramesHold.nil, hempty [] ?_⟩, (hroom 0 (by simp)).2⟩
    obtain hnone | hcount | hne := hframe
    · exact .inr hnone
    · exact .inl fun hnil => hcount (by simpa using hnil)
    · exact absurd rfl hne
  · have hsize : ∀ blob ∈ full, blob.2 = (blobOf blob.1.oid).length := by
      intro blob hblob
      obtain ⟨_, _, rfl⟩ := List.mem_map.mp (hfull.mem hblob)
      rfl
    have hsub : (full.map Prod.fst).Sublist blobs := by
      have hfst : (sized blobOf blobs).map Prod.fst = blobs := by simp [sized, Function.comp_def]
      exact hfst ▸ hfull.map Prod.fst
    obtain ⟨raws, hok, hne, hbundles⟩ := streamTail_ok htools hmirror hsize
      (fun n hn => hroom n (Nat.le_trans hn (stream_length_le blobOf hsub))) hstreamed
    refine ⟨raws, ⟨hok.frames, fun oid fragments hmem => ?_⟩, hbundles⟩
    obtain hstart | hlater := List.mem_append.mp hmem
    · refine hempty raws ?_ oid fragments hstart
      obtain hnone | hcount | hsome := hframe
      · exact .inr hnone
      · exact .inl fun hnil => hcount (by simp_all)
      · exact .inl fun hnil => hne hsome (List.append_eq_nil_iff.mp hnil).2
    · exact hok.fragments oid fragments hlater

end Tail

/-! ## The archive -/

theorem FramesHold.length_eq {bytesOf : String → Bytes} {tools : Tools} {bundles : List String}
    {infos : List FrameInfo} {frames : List ArchiveFrame} {raws : List Bytes}
    (h : FramesHold bytesOf tools bundles infos frames raws) : frames.length = raws.length := by
  rw [← h.2.length_eq, List.length_zip, h.1, Nat.min_self]

/-- The base's fragments of a blob are those of one of its files. -/
theorem baseFragments_file {base : ArchiveBase} {oid : Bytes} {fragments : List Fragment}
    (h : baseFragments base oid = some fragments) :
    ∃ file ∈ base.metadata.files, file.blobSha1 = oid ∧ file.fragments = fragments := by
  obtain ⟨file, hfile, hpair⟩ := List.mem_map.mp (lastOf_mem h)
  obtain ⟨rfl, rfl⟩ := Prod.mk.inj hpair
  exact ⟨file, (List.mem_filter.mp hfile).1, rfl, rfl⟩

theorem fragmentBundle_eq {base : ArchiveBase} {fragment : Fragment} {bundle : Nat}
    (h : fragmentBundle base fragment = .ok bundle) :
    ∃ info, base.metadata.frames[fragment.frameIndex]? = some info ∧ info.chunkIndex = bundle := by
  unfold fragmentBundle at h
  split at h
  · cases h
  · next info hinfo =>
      split at h
      · exact ⟨info, hinfo, pure_eq_ok.mp h⟩
      · cases h

section Archive

variable {bytesOf : String → Bytes} {blobOf : Bytes → Bytes} {tools : Tools} {cas : Cas}
  {builder : ArchiveBuilder} {base : ArchiveBase} {baseRaws : List Bytes}

/-- A live bundle has a number, and it is not the one that stands for none. -/
theorem liveBundles_ne_unused {live bundleIndex : List Nat} {bundles found : List String}
    (h : liveBundles live 0 0 bundles = .ok (bundleIndex, found))
    (hlive : ∀ c ∈ live, c < unused) {c : Nat} (hc : c ∈ live) : bundleIndex[c]? ≠ some unused := by
  intro hunused
  have hindex := liveBundles_index h (Nat.le_refl 0) hunused
  rw [Nat.zero_add, if_pos hc] at hindex
  have := hlive c hc
  omega

/-- The frames of the live bundles hold what they held in the base, and so do the fragments in use. -/
theorem live_ok (hbase : base.Holds bytesOf tools baseRaws)
    (hcount : base.metadata.frames.length < 2 ^ 32) {used : List Fragment} {live : List Nat}
    (hlive : used.mapM (fragmentBundle base) = .ok live) {bundleIndex : List Nat}
    {bundles : List String} (hbundles : liveBundles live 0 0 base.bundles = .ok (bundleIndex, bundles))
    {frameIndex : List Nat} {placed : PlacedFrames}
    (hframes : liveFrames bundleIndex 0 (base.metadata.frames.zip base.frames) =
      .ok (frameIndex, placed)) :
    ∃ raws, FramesHold bytesOf tools bundles placed.infos placed.frames raws ∧
      raws.length ≤ base.metadata.frames.length ∧ bundles.length ≤ base.metadata.frames.length ∧
      ∀ fragment ∈ used, ∀ index, frameIndex[fragment.frameIndex]? = some index →
        ∀ raw, baseRaws[fragment.frameIndex]? = some raw → raws[index]? = some raw := by
  have hused := mapM_eq_ok.mp hlive
  have hlt : ∀ c ∈ live, c < base.metadata.frames.length := by
    intro c hc
    obtain ⟨fragment, _, hfragment⟩ := forall₂_mem hused.flip hc
    obtain ⟨info, hinfo, rfl⟩ := fragmentBundle_eq hfragment
    have hle := checkFrames_chunkIndex_le (validateGeometry_ok.mp hbase.geometry).frames hinfo
    exact Nat.lt_of_le_of_lt hle (List.getElem?_eq_some_iff.mp hinfo).1
  have hpairs : List.Forall₂ (fun pair raw => Placed bytesOf tools base.bundles pair.1 pair.2 raw)
      (base.metadata.frames.zip base.frames) baseRaws := by
    rw [← List.zip_swap]
    exact List.forall₂_map_left_iff.mpr hbase.frames.2
  have hmoved : ∀ (c j : Nat) (bundle : String), bundleIndex[c]? = some j → j ≠ unused →
      base.bundles[c]? = some bundle → bundles[j]? = some bundle := by
    intro c j bundle hj hused hbundle
    have hindex := liveBundles_index hbundles (Nat.le_refl 0) hj
    split at hindex
    · exact hindex.2.2.trans hbundle
    · exact absurd hindex hused
  obtain ⟨raws, hraws, hlength, hindex⟩ := liveFrames_hold hpairs hmoved hframes
  rw [List.length_zip, hbase.frames.1, Nat.min_self] at hlength
  refine ⟨raws, hraws, hbase.frames.1 ▸ hlength, length_liveBundles hbundles hlt, ?_⟩
  intro fragment hfragment index hmove raw hraw
  obtain ⟨c, hc, hbundle⟩ := forall₂_mem hused hfragment
  obtain ⟨info, hinfo, rfl⟩ := fragmentBundle_eq hbundle
  have hpair : ∃ frame, (base.metadata.frames.zip base.frames)[fragment.frameIndex]? =
      some (info, frame) := by
    have hbound := (List.getElem?_eq_some_iff.mp hinfo).1
    rw [hbase.frames.1] at hbound
    exact ⟨_, List.getElem?_zip_eq_some.mpr ⟨hinfo, List.getElem?_eq_getElem hbound⟩⟩
  obtain ⟨frame, hpair⟩ := hpair
  have hused : bundleIndex[info.chunkIndex]? ≠ some unused :=
    liveBundles_ne_unused hbundles (fun c hc => Nat.lt_of_lt_of_le (hlt c hc) (by unfold unused; omega)) hc
  exact (hindex _ _ _ raw hmove hpair hraw hused).2

theorem moveFragment_bytes {frameIndex : List Nat} {raws tailRaws : List Bytes}
    {fragment fragment' : Fragment} {bytes : Bytes}
    (hmoved : ∀ index, frameIndex[fragment.frameIndex]? = some index →
      ∀ raw, baseRaws[fragment.frameIndex]? = some raw → raws[index]? = some raw)
    (h : moveFragment frameIndex fragment = .ok fragment')
    (hbytes : fragmentBytes baseRaws fragment = some bytes) :
    fragmentBytes (raws ++ tailRaws) fragment' = some bytes := by
  unfold moveFragment at h
  split at h
  · cases h
  · next index hindex =>
      obtain rfl := pure_eq_ok.mp h
      refine fragmentBytes_moved (fun raw hraw => ?_) hbytes
      have hfound := hmoved index hindex raw hraw
      rw [List.getElem?_append_left (List.getElem?_eq_some_iff.mp hfound).1, hfound]

theorem tailEntry_ok {used : List Fragment} {frameIndex : List Nat} {tail : TailFrames}
    {front : List String} {raws tailRaws : List Bytes} {blob : Blob} {entry : FileEntry}
    (hexact : ∀ file ∈ base.metadata.files, Exact blobOf baseRaws file)
    (hused : ∀ fragments, baseFragments base blob.oid = some fragments →
      ∀ fragment ∈ fragments, fragment ∈ used)
    (hmoved : ∀ fragment ∈ used, ∀ index, frameIndex[fragment.frameIndex]? = some index →
      ∀ raw, baseRaws[fragment.frameIndex]? = some raw → raws[index]? = some raw)
    (htail : tail.Ok bytesOf blobOf tools front raws tailRaws)
    (h : tailEntry base frameIndex tail blob = .ok entry) :
    EntryOf blob entry ∧ Exact blobOf (raws ++ tailRaws) entry := by
  unfold tailEntry at h
  split at h
  · next fragments hfound =>
      obtain ⟨moved, hmove, h⟩ := bind_eq_ok.mp h
      obtain rfl := pure_eq_ok.mp h
      obtain ⟨file, hfile, hblob, rfl⟩ := baseFragments_file hfound
      refine ⟨⟨rfl, rfl, rfl⟩, ?_⟩
      show fragmentsBytes _ _ = some (blobOf blob.oid)
      rw [← hblob]
      refine fragmentsBytes_moved ?_ (hexact file hfile)
      have hboth := (List.forall₂_and_left _ _).mpr ⟨hused _ hfound, mapM_eq_ok.mp hmove⟩
      refine hboth.imp fun fragment fragment' hfragment bytes hbytes => ?_
      exact moveFragment_bytes (hmoved fragment hfragment.1) hfragment.2 hbytes
  · split at h
    · cases h
    · next fragments hfound =>
        obtain rfl := pure_eq_ok.mp h
        exact ⟨⟨rfl, rfl, rfl⟩, htail.fragments _ _ (lastOf_mem hfound)⟩

/-- The base's fragments that files of the tree use. -/
def usedFragments (base : ArchiveBase) (blobs : List Blob) : List Fragment :=
  (blobs.filterMap fun blob => baseFragments base blob.oid).flatten

/-- What a tail is made of. -/
theorem buildTailIntoCas_parts {commit : String} {blobs : List Blob} {gitlinks : List Bytes}
    {bundleSize : Nat} {output : ArchiveBuildOutput}
    (hwalk : collectBlobs builder.mirror commit = .ok (blobs, gitlinks))
    (h : builder.buildTailIntoCas tools cas commit base bundleSize = .ok output) :
    ∃ live bundleIndex bundles frameIndex placed tail files,
      (usedFragments base blobs).mapM (fragmentBundle base) = .ok live ∧
      liveBundles live 0 0 base.bundles = .ok (bundleIndex, bundles) ∧
      liveFrames bundleIndex 0 (base.metadata.frames.zip base.frames) = .ok (frameIndex, placed) ∧
      builder.tailFrames tools cas (tailBlobs base [] blobs) placed.frames.length bundles.length
        bundleSize = .ok tail ∧
      blobs.mapM (tailEntry base frameIndex tail) = .ok files ∧
      output = {
        downloadBundleHashes := bundles ++ tail.bundles
        newBundleHashes := tail.newBundles
        metadata := ⟨placed.infos ++ tail.placed.infos, files, gitlinks⟩
        archiveFrames := placed.frames ++ tail.placed.frames
        incremental := true
        tail := true } := by
  rw [buildTailIntoCas, hwalk] at h
  obtain ⟨_, hpair, h⟩ := bind_eq_ok.mp h
  obtain rfl := Except.ok.inj hpair
  obtain ⟨_, h⟩ := ite_throw_eq_ok.mp h
  obtain ⟨live, hlive, h⟩ := bind_eq_ok.mp h
  obtain ⟨⟨bundleIndex, bundles⟩, hbundles, h⟩ := bind_eq_ok.mp h
  obtain ⟨⟨frameIndex, placed⟩, hframes, h⟩ := bind_eq_ok.mp h
  obtain ⟨tail, htail, h⟩ := bind_eq_ok.mp h
  obtain ⟨files, hfiles, h⟩ := bind_eq_ok.mp h
  exact ⟨live, bundleIndex, bundles, frameIndex, placed, tail, files, hlive, hbundles, hframes, htail,
    hfiles, (pure_eq_ok.mp h).symm⟩

theorem mem_usedFragments {blobs : List Blob} {blob : Blob} {fragments : List Fragment}
    {fragment : Fragment} (hblob : blob ∈ blobs)
    (hfound : baseFragments base blob.oid = some fragments) (hfragment : fragment ∈ fragments) :
    fragment ∈ usedFragments base blobs :=
  List.mem_flatten.mpr ⟨fragments, List.mem_filterMap.mpr ⟨blob, hblob, hfound⟩, hfragment⟩

/-- A tail makes an archive of the worktree from any base with exact files, in any order, when the
base's frames and its own can all be numbered. -/
theorem buildTailIntoCas_ok {commit : String} {blobs : List Blob} {gitlinks : List Bytes}
    {bundleSize : Nat} {output : ArchiveBuildOutput} (htools : tools.Ok bytesOf)
    (hmirror : builder.mirror.Ok blobOf) (hbase : base.Holds bytesOf tools baseRaws)
    (hexact : ∀ file ∈ base.metadata.files, Exact blobOf baseRaws file)
    (hwalk : collectBlobs builder.mirror commit = .ok (blobs, gitlinks))
    (hroom : ∀ n, (n - 1) * builder.cdc.min ≤ (stream blobOf (tailBlobs base [] blobs)).length →
      n + base.metadata.frames.length ≤ 2 ^ 32)
    (h : builder.buildTailIntoCas tools cas commit base bundleSize = .ok output) :
    ∃ raws, FramesHold bytesOf tools output.downloadBundleHashes output.metadata.frames
        output.archiveFrames raws ∧
      List.Forall₂ (fun blob entry => EntryOf blob entry ∧ Exact blobOf raws entry) blobs
        output.metadata.files := by
  obtain ⟨live, bundleIndex, bundles, frameIndex, placed, tail, files, hlive, hbundles, hframes,
    htail, hfiles, rfl⟩ := buildTailIntoCas_parts hwalk h
  have hcount : base.metadata.frames.length < 2 ^ 32 := by
    have := hroom 1 (by simp)
    omega
  obtain ⟨raws, hraws, hlength, hbundleCount, hmoved⟩ := live_ok hbase hcount hlive hbundles hframes
  rw [hraws.length_eq] at htail
  obtain ⟨tailRaws, htailOk, _⟩ := tailFrames_ok htools hmirror (fun n hn => by
    have := hroom n hn
    omega) htail
  refine ⟨raws ++ tailRaws, hraws.mono.append htailOk.frames, ?_⟩
  have hboth := (List.forall₂_and_left _ _).mpr ⟨fun blob hblob => hblob, mapM_eq_ok.mp hfiles⟩
  refine hboth.imp fun blob entry hentry => ?_
  exact tailEntry_ok hexact (fun fragments hfound fragment => mem_usedFragments hentry.1 hfound)
    hmoved htailOk hentry.2

end Archive

end Ripclone.Archive
