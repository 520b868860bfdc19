import Ripclone.Archive.Coverage
import Ripclone.Archive.Groups
import Ripclone.Archive.TailExact

/-!
# The table of a tail

A tail keeps the bundles of its base that hold a frame in use, each with all its frames, and numbers
them anew. The frames of kept bundles still follow one another as the geometry check asks for, and the
tail's own bundles come after them, so the table is accepted when the tree's paths and modes are:
`tail_table_ok`.
-/

namespace Ripclone.Archive

open Ripclone.Library ArchiveBuilder

/-- The number of kept bundles before bundle `c`. -/
def rank (kept : List Nat) (c : Nat) : Nat := ((List.range c).filter fun b => decide (b ∈ kept)).length

theorem rank_succ (kept : List Nat) (c : Nat) :
    rank kept (c + 1) = rank kept c + if c ∈ kept then 1 else 0 := by
  rw [rank, List.range_succ, List.filter_append, List.length_append, rank]
  split
  · next hc => simp [hc]
  · next hc => simp [hc]

theorem rank_le (kept : List Nat) (c : Nat) : rank kept c ≤ c := by
  have := List.length_filter_le (fun b => decide (b ∈ kept)) (List.range c)
  rwa [List.length_range] at this

/-- The kept bundles. -/
def keptBundles (kept : List Nat) (bundles : List String) : List String :=
  (bundles.zipIdx.filter fun bundle => decide (bundle.2 ∈ kept)).map Prod.fst

/-- The places of the frames of kept bundles, in the bundles as they are numbered then. -/
def keptInfos (kept : List Nat) (infos : List FrameInfo) : List FrameInfo :=
  (infos.filter fun info => decide (info.chunkIndex ∈ kept)).map fun info =>
    { info with chunkIndex := rank kept info.chunkIndex }

/-- The frames of kept bundles. -/
def keptFrames (kept : List Nat) (infos : List FrameInfo) (frames : List ArchiveFrame) :
    List ArchiveFrame :=
  ((infos.zip frames).filter fun pair => decide (pair.1.chunkIndex ∈ kept)).map Prod.snd

section Kept

variable {kept : List Nat}

theorem liveBundles_eq {k next : Nat} {bundles found : List String} {indexes : List Nat}
    (hnext : next = rank kept k) (h : liveBundles kept k next bundles = .ok (indexes, found)) :
    indexes = (List.range' k bundles.length).map (fun c => if c ∈ kept then rank kept c else unused) ∧
      found = ((bundles.zipIdx k).filter fun bundle => decide (bundle.2 ∈ kept)).map Prod.fst := by
  induction bundles generalizing k next indexes found with
  | nil =>
      obtain ⟨rfl, rfl⟩ := Prod.mk.inj (pure_eq_ok.mp h)
      exact ⟨rfl, rfl⟩
  | cons hash rest ih =>
      subst hnext
      have hsucc := rank_succ kept k
      rw [liveBundles] at h
      rw [List.zipIdx_cons, List.filter_cons, List.length_cons, List.range'_succ, List.map_cons]
      split at h
      · next hlive =>
          obtain ⟨index, hindex, h⟩ := bind_eq_ok.mp h
          obtain ⟨⟨indexes', found'⟩, hrest, h⟩ := bind_eq_ok.mp h
          obtain ⟨rfl, rfl⟩ := Prod.mk.inj (pure_eq_ok.mp h)
          obtain rfl := toU32_eq hindex
          rw [if_pos hlive] at hsucc
          obtain ⟨rfl, rfl⟩ := ih hsucc.symm hrest
          simp [hlive]
      · next hdead =>
          obtain ⟨⟨indexes', found'⟩, hrest, h⟩ := bind_eq_ok.mp h
          obtain ⟨rfl, rfl⟩ := Prod.mk.inj (pure_eq_ok.mp h)
          rw [if_neg hdead, Nat.add_zero] at hsucc
          obtain ⟨rfl, rfl⟩ := ih hsucc.symm hrest
          simp [hdead]

/-- The number of each bundle: how many are kept before it. -/
theorem liveBundles_rank {bundles found : List String} {indexes : List Nat}
    (h : liveBundles kept 0 0 bundles = .ok (indexes, found)) {c j : Nat}
    (hj : indexes[c]? = some j) : j = if c ∈ kept then rank kept c else unused := by
  obtain ⟨rfl, _⟩ := liveBundles_eq rfl h
  rw [List.getElem?_map, Option.map_eq_some_iff] at hj
  obtain ⟨c', hc', rfl⟩ := hj
  rw [← List.range_eq_range', List.getElem?_range (by
    have := (List.getElem?_eq_some_iff.mp hc').1
    simpa using this)] at hc'
  obtain rfl := Option.some.inj hc'
  rfl

/-- The frames of the live bundles are those of the base in them. -/
theorem liveFrames_eq {bundleIndex indexes : List Nat} {next : Nat}
    {pairs : List (FrameInfo × ArchiveFrame)} {placed : PlacedFrames}
    (hindex : ∀ (c j : Nat), bundleIndex[c]? = some j → j = if c ∈ kept then rank kept c else unused)
    (hkept : ∀ c ∈ kept, c < unused)
    (h : liveFrames bundleIndex next pairs = .ok (indexes, placed)) :
    placed.infos = keptInfos kept (pairs.map Prod.fst) ∧
      placed.frames = (pairs.filter fun pair => decide (pair.1.chunkIndex ∈ kept)).map Prod.snd := by
  induction pairs generalizing next indexes placed with
  | nil =>
      obtain ⟨rfl, rfl⟩ := Prod.mk.inj (pure_eq_ok.mp h)
      exact ⟨rfl, rfl⟩
  | cons pair pairs ih =>
      obtain ⟨info, frame⟩ := pair
      rw [liveFrames] at h
      split at h
      · cases h
      · next chunkIndex hchunk =>
          have hnumber := hindex _ _ hchunk
          have hlt : info.chunkIndex ∈ kept → rank kept info.chunkIndex < unused := fun hc =>
            Nat.lt_of_le_of_lt (rank_le kept info.chunkIndex) (hkept _ hc)
          split at h
          · next hdead =>
              obtain ⟨⟨indexes', placed'⟩, hrest, h⟩ := bind_eq_ok.mp h
              obtain ⟨rfl, rfl⟩ := Prod.mk.inj (pure_eq_ok.mp h)
              have hnot : info.chunkIndex ∉ kept := by
                intro hc
                have := hlt hc
                rw [if_pos hc] at hnumber
                omega
              obtain ⟨hinfos, hframes⟩ := ih hrest
              rw [hinfos, hframes]
              simp [keptInfos, hnot]
          · next hlive =>
              obtain ⟨index, _, h⟩ := bind_eq_ok.mp h
              obtain ⟨⟨indexes', placed'⟩, hrest, h⟩ := bind_eq_ok.mp h
              obtain ⟨rfl, rfl⟩ := Prod.mk.inj (pure_eq_ok.mp h)
              have hc : info.chunkIndex ∈ kept := by
                refine Classical.byContradiction fun hnot => hlive ?_
                rw [hnumber, if_neg hnot]
              rw [if_pos hc] at hnumber
              obtain ⟨hinfos, hframes⟩ := ih hrest
              rw [hinfos, hframes, hnumber]
              simp [keptInfos, hc]

/-! ## Geometry -/

/-- Where a frame may be after `previous`. -/
def StepsTo (previous : Option (Nat × Nat)) (info : FrameInfo) : Prop :=
  match previous with
  | none => info.chunkIndex = 0 ∧ info.chunkOffset = 0
  | some (chunk, stop) =>
    info.chunkIndex = chunk ∧ info.chunkOffset = stop ∨
      info.chunkIndex = chunk + 1 ∧ info.chunkOffset = 0

theorem checkFrame_ok {frameIdx : Nat} {previous : Option (Nat × Nat)} {info : FrameInfo}
    (hindex : info.chunkIndex < 2 ^ 32) :
    checkFrame frameIdx previous info = .ok () ↔ StepsTo previous info := by
  cases previous with
  | none =>
      simp only [checkFrame, StepsTo, ite_throw_eq_ok, pure_eq_ok, and_true]
      omega
  | some last =>
      obtain ⟨chunk, stop⟩ := last
      simp only [checkFrame, StepsTo, ite_throw_eq_ok]
      split
      · simp only [ite_throw_eq_ok, pure_eq_ok, and_true]
        omega
      · simp only [ite_throw_eq_ok, pure_eq_ok, and_true]
        omega

theorem checkFrame_chunkIndex_lt {frameIdx chunk stop : Nat} {info : FrameInfo}
    (hchunk : chunk < 2 ^ 32) (h : checkFrame frameIdx (some (chunk, stop)) info = .ok ()) :
    info.chunkIndex < 2 ^ 32 := by
  simp only [checkFrame, ite_throw_eq_ok] at h
  obtain ⟨_, h⟩ := h
  split at h
  · omega
  · have := not_not.mp (not_or.mp (ite_throw_eq_ok.mp h).1).1
    omega

/-- Where the check of frames has come to. -/
def checkedTo (previous : Option (Nat × Nat)) (infos : List FrameInfo) : Option (Nat × Nat) :=
  infos.foldl (fun _ info => some (info.chunkIndex, info.chunkOffset + info.compressedLen)) previous

/-- Where the check of the kept frames is when that of all frames is at `previous`. -/
def KeptAt (kept : List Nat) (previous : Option (Nat × Nat)) : Option (Nat × Nat) → Prop
  | none => match previous with
    | none => True
    | some (chunk, _) => rank kept (chunk + 1) = 0
  | some (chunk', stop') => match previous with
    | none => False
    | some (chunk, stop) => rank kept (chunk + 1) = chunk' + 1 ∧ (chunk ∈ kept → stop' = stop)

/-- A frame of a bundle that is not kept does not move the check. -/
theorem KeptAt.skip {previous previous' : Option (Nat × Nat)} {info : FrameInfo}
    (h : KeptAt kept previous previous') (hstep : StepsTo previous info)
    (hdead : info.chunkIndex ∉ kept) (stop : Nat) :
    KeptAt kept (some (info.chunkIndex, stop)) previous' := by
  have hsucc : rank kept (info.chunkIndex + 1) = rank kept info.chunkIndex := by
    rw [rank_succ, if_neg hdead]
    rfl
  cases previous with
  | none =>
      cases previous' with
      | none =>
          show rank kept (info.chunkIndex + 1) = 0
          rw [hsucc, hstep.1]
          rfl
      | some last' => exact h.elim
  | some last =>
      have hrank : rank kept (info.chunkIndex + 1) = rank kept (last.1 + 1) := by
        rcases hstep with ⟨hsame, _⟩ | ⟨hnext, _⟩
        · rw [hsame]
        · rw [hsucc, hnext]
      cases previous' with
      | none => exact hrank.trans h
      | some last' => exact ⟨hrank.trans h.1, fun hkept => absurd hkept hdead⟩

/-- A kept frame is where the check of the kept frames wants it. -/
theorem KeptAt.step {previous previous' : Option (Nat × Nat)} {info : FrameInfo}
    (h : KeptAt kept previous previous') (hstep : StepsTo previous info)
    (hkept : info.chunkIndex ∈ kept) :
    StepsTo previous' { info with chunkIndex := rank kept info.chunkIndex } := by
  have hsucc := rank_succ kept info.chunkIndex
  rw [if_pos hkept] at hsucc
  cases previous with
  | none =>
      cases previous' with
      | none =>
          refine ⟨?_, hstep.2⟩
          show rank kept info.chunkIndex = 0
          rw [hstep.1]
          rfl
      | some last' => exact h.elim
  | some last =>
      obtain ⟨chunk, stop⟩ := last
      rcases hstep with ⟨hsame, hoffset⟩ | ⟨hnext, hoffset⟩
      · -- it goes on in a bundle that is kept
        cases previous' with
        | none =>
            have hzero : rank kept (chunk + 1) = 0 := h
            rw [hsame] at hsucc
            omega
        | some last' =>
            obtain ⟨hrank, hstop⟩ := h
            refine .inl ⟨?_, ?_⟩
            · show rank kept info.chunkIndex = last'.1
              rw [hsame] at hsucc ⊢
              omega
            · show info.chunkOffset = last'.2
              rw [hoffset, hstop (hsame ▸ hkept)]
      · cases previous' with
        | none =>
            refine ⟨?_, hoffset⟩
            show rank kept info.chunkIndex = 0
            rw [hnext]
            exact h
        | some last' =>
            refine .inr ⟨?_, hoffset⟩
            show rank kept info.chunkIndex = last'.1 + 1
            rw [hnext]
            exact h.1

/-- The frames of kept bundles pass the check as all of them do. -/
theorem checkFrames_kept {infos more : List FrameInfo} {frameIdx frameIdx' : Nat}
    {previous previous' : Option (Nat × Nat)} (hat : KeptAt kept previous previous')
    (hindex : ∀ info ∈ infos, info.chunkIndex < 2 ^ 32)
    (h : checkFrames frameIdx previous infos = .ok ())
    (hmore : ∀ frameIdx last, KeptAt kept (checkedTo previous infos) last →
      checkFrames frameIdx last more = .ok ()) :
    checkFrames frameIdx' previous' (keptInfos kept infos ++ more) = .ok () := by
  induction infos generalizing frameIdx frameIdx' previous previous' with
  | nil => exact hmore frameIdx' previous' hat
  | cons info rest ih =>
      obtain ⟨hfirst, hrest⟩ := List.forall_mem_cons.mp hindex
      obtain ⟨hoverflow, h⟩ := ite_throw_eq_ok.mp h
      obtain ⟨hcheck, hnext⟩ := bind_unit_eq_ok.mp h
      have hstep := (checkFrame_ok hfirst).mp hcheck
      by_cases hkept : info.chunkIndex ∈ kept
      · have hsucc := rank_succ kept info.chunkIndex
        rw [if_pos hkept] at hsucc
        have hrank : rank kept info.chunkIndex < 2 ^ 32 :=
          Nat.lt_of_le_of_lt (rank_le kept info.chunkIndex) hfirst
        have hinfos : keptInfos kept (info :: rest) =
            { info with chunkIndex := rank kept info.chunkIndex } :: keptInfos kept rest := by
          simp [keptInfos, hkept]
        rw [hinfos, List.cons_append, checkFrames, if_neg hoverflow, bind_unit_eq_ok]
        refine ⟨(checkFrame_ok hrank).mpr (hat.step hstep hkept), ?_⟩
        have hat' : KeptAt kept (some (info.chunkIndex, info.chunkOffset + info.compressedLen))
            (some (rank kept info.chunkIndex, info.chunkOffset + info.compressedLen)) :=
          ⟨hsucc, fun _ => rfl⟩
        exact ih hat' hrest hnext hmore
      · have hinfos : keptInfos kept (info :: rest) = keptInfos kept rest := by
          simp [keptInfos, hkept]
        rw [hinfos]
        exact ih (hat.skip hstep hkept _) hrest hnext hmore

/-! ## The last kept bundle -/

theorem length_keptBundles (kept : List Nat) (bundles : List String) :
    (keptBundles kept bundles).length = rank kept bundles.length := by
  have hmap : (bundles.zipIdx.map Prod.snd) = List.range bundles.length := by
    rw [List.zipIdx_map_snd, List.range_eq_range']
  rw [rank, ← hmap, List.filter_map, List.length_map, keptBundles, List.length_map]
  rfl

/-- Past the last kept bundle nothing is added. -/
theorem rank_eq_of_lt {m n : Nat} (hm : ∀ c ∈ kept, c < m) (hn : ∀ c ∈ kept, c < n) :
    rank kept m = rank kept n := by
  have hpast : ∀ d m, (∀ c ∈ kept, c < m) → rank kept (m + d) = rank kept m := by
    intro d m hm
    induction d with
    | zero => rfl
    | succ d ih =>
        have hnot : m + d ∉ kept := fun hmem => by have := hm _ hmem; omega
        rw [← Nat.add_assoc, rank_succ, if_neg hnot, Nat.add_zero, ih]
  rcases Nat.le_total m n with hle | hle
  · rw [← Nat.add_sub_cancel' hle, hpast _ m hm]
  · rw [← Nat.add_sub_cancel' hle, hpast _ n hn]

/-- Bundles only go up. -/
theorem le_checkedTo {infos : List FrameInfo} {frameIdx chunk stop : Nat}
    (hindex : ∀ info ∈ infos, info.chunkIndex < 2 ^ 32)
    (h : checkFrames frameIdx (some (chunk, stop)) infos = .ok ()) :
    ∃ last, checkedTo (some (chunk, stop)) infos = some last ∧ chunk ≤ last.1 ∧
      ∀ info ∈ infos, info.chunkIndex ≤ last.1 := by
  induction infos generalizing frameIdx chunk stop with
  | nil => exact ⟨_, rfl, Nat.le_refl _, by simp⟩
  | cons info rest ih =>
      obtain ⟨hfirst, hrest⟩ := List.forall_mem_cons.mp hindex
      obtain ⟨_, h⟩ := ite_throw_eq_ok.mp h
      obtain ⟨hcheck, hnext⟩ := bind_unit_eq_ok.mp h
      have hstep : info.chunkIndex = chunk ∧ info.chunkOffset = stop ∨
          info.chunkIndex = chunk + 1 ∧ info.chunkOffset = 0 := (checkFrame_ok hfirst).mp hcheck
      obtain ⟨last, hlast, hle, hall⟩ := ih hrest hnext
      exact ⟨last, hlast, by omega, List.forall_mem_cons.mpr ⟨hle, hall⟩⟩

/-- After the kept frames the check goes on in the bundle after the kept ones. -/
theorem nextBundle_kept {infos : List FrameInfo} {bundles : List String} {frameIdx : Nat}
    {last : Option (Nat × Nat)} (hindex : ∀ info ∈ infos, info.chunkIndex < 2 ^ 32)
    (h : checkFrames frameIdx none infos = .ok ())
    (hused : ∀ c ∈ kept, ∃ info ∈ infos, info.chunkIndex = c)
    (hbundles : ∀ c ∈ kept, c < bundles.length) (hat : KeptAt kept (checkedTo none infos) last) :
    NextBundle last (keptBundles kept bundles).length := by
  rw [length_keptBundles]
  cases infos with
  | nil =>
      have hnone : ∀ c ∈ kept, c < 0 := by
        intro c hc
        obtain ⟨info, hinfo, _⟩ := hused c hc
        cases hinfo
      cases last with
      | none => exact rank_eq_of_lt hbundles hnone
      | some last => exact hat.elim
  | cons info rest =>
      obtain ⟨_, hrest⟩ := List.forall_mem_cons.mp hindex
      obtain ⟨_, h⟩ := ite_throw_eq_ok.mp h
      obtain ⟨_, hnext⟩ := bind_unit_eq_ok.mp h
      obtain ⟨⟨chunk, stop⟩, hlast, hle, hall⟩ := le_checkedTo hrest hnext
      have hto : checkedTo none (info :: rest) = some (chunk, stop) := hlast
      have hevery : ∀ info' ∈ info :: rest, info'.chunkIndex ≤ chunk :=
        List.forall_mem_cons.mpr ⟨hle, hall⟩
      have hlt : ∀ c ∈ kept, c < chunk + 1 := by
        intro c hc
        obtain ⟨info', hinfo, rfl⟩ := hused c hc
        exact Nat.lt_succ_of_le (hevery info' hinfo)
      rw [rank_eq_of_lt hbundles hlt]
      rw [hto] at hat
      cases last with
      | none => exact hat
      | some last => exact hat.1

end Kept

/-! ## The tail's part -/

/-- The fragments are some, and their ends can be told in 32 bits. -/
def Stated (fragments : List Fragment) : Prop :=
  fragments ≠ [] ∧ ∀ fragment ∈ fragments, fragment.frameOffset + fragment.rawLen < 2 ^ 32

theorem placesOf_rawLen {groups : List (List BuiltFrame)} {index : Nat} {info : FrameInfo}
    (hsmall : ∀ group ∈ groups, ∀ frame ∈ group,
      frame.compressedLen < 2 ^ 32 ∧ frame.rawLen < 2 ^ 32)
    (h : info ∈ placesOf index groups) : info.rawLen < 2 ^ 32 := by
  have hgroup : ∀ (group : List BuiltFrame) (index offset : Nat), info ∈ placesFrom index offset group →
      ∃ frame ∈ group, info.rawLen = frame.rawLen := by
    intro group index offset hmem
    induction group generalizing offset with
    | nil => cases hmem
    | cons frame group ih =>
        rcases List.mem_cons.mp hmem with rfl | hmem
        · exact ⟨frame, List.mem_cons_self, rfl⟩
        · obtain ⟨frame', hframe, hlen⟩ := ih _ hmem
          exact ⟨frame', List.mem_cons_of_mem _ hframe, hlen⟩
  induction groups generalizing index with
  | nil => cases h
  | cons group groups ih =>
      obtain ⟨hfirst, hrest⟩ := List.forall_mem_cons.mp hsmall
      rcases List.mem_append.mp h with hmem | hmem
      · obtain ⟨frame, hframe, hlen⟩ := hgroup group index 0 hmem
        exact hlen ▸ (hfirst frame hframe).2
      · exact ih hrest hmem

/-- Groups in bundles further on. -/
theorem placesOf_shift {groups : List (List BuiltFrame)} {index d : Nat}
    (hcount : index + groups.length + d ≤ 2 ^ 32) :
    ((placesOf index groups).map fun info =>
      { info with chunkIndex := (info.chunkIndex + d) % 2 ^ 32 }) = placesOf (index + d) groups := by
  have hgroup : ∀ (group : List BuiltFrame) (index offset : Nat), index + d < 2 ^ 32 →
      ((placesFrom index offset group).map fun info =>
        { info with chunkIndex := (info.chunkIndex + d) % 2 ^ 32 }) =
          placesFrom (index + d) offset group := by
    intro group index offset hindex
    induction group generalizing offset with
    | nil => rfl
    | cons frame group ih =>
        rw [placesFrom, placesFrom, List.map_cons, ih, Nat.mod_eq_of_lt hindex]
  induction groups generalizing index with
  | nil => rfl
  | cons group groups ih =>
      rw [List.length_cons] at hcount
      rw [placesOf, placesOf, List.map_append, hgroup group index 0 (by omega), ih (by omega),
        Nat.add_right_comm]

/-- A file of the table with nothing in it has a fragment. -/
theorem tableFrom_ne_nil {blobOf : Bytes → Bytes} {bounds : List (Nat × Nat)} {pos hint : Nat}
    {blobs : List Blob} {files : List FileEntry}
    (h : Layout.tableFrom bounds hint (entriesFrom blobOf pos blobs) = .ok files) :
    List.Forall₂ (fun blob entry => blobOf blob.oid = [] → entry.fragments ≠ []) blobs files := by
  induction blobs generalizing pos hint files with
  | nil =>
      obtain rfl := pure_eq_ok.mp h
      exact .nil
  | cons blob blobs ih =>
      obtain ⟨⟨fragments, next⟩, hfragments, h⟩ := bind_eq_ok.mp h
      obtain ⟨rest, hrest, h⟩ := bind_eq_ok.mp h
      obtain rfl := pure_eq_ok.mp h
      refine .cons (fun hempty => ?_) (ih hrest)
      obtain ⟨_, hcases⟩ := ite_throw_eq_ok.mp hfragments
      rw [if_pos (List.length_eq_zero_iff.mpr hempty)] at hcases
      split at hcases
      · cases hcases
      · obtain ⟨k, _, hcases⟩ := bind_eq_ok.mp hcases
        obtain ⟨offset, _, hcases⟩ := bind_eq_ok.mp hcases
        obtain ⟨rfl, rfl⟩ := Prod.mk.inj (pure_eq_ok.mp hcases)
        exact List.cons_ne_nil _ _

/-- What the tail gives the table, after `front` bundles. -/
structure ArchiveBuilder.TailFrames.Tabled (front : Nat) (tail : TailFrames) : Prop where
  infos : ∃ groups : List (List BuiltFrame), tail.placed.infos = placesOf front groups ∧
    groups.length = tail.bundles.length ∧ (∀ group ∈ groups, group ≠ []) ∧
    ∀ group ∈ groups, groupSize group < 2 ^ 64
  fragments : ∀ oid fragments, (oid, fragments) ∈ tail.fragments → Stated fragments

section Tail

variable {bytesOf : String → Bytes} {blobOf : Bytes → Bytes} {tools : Tools} {cas : Cas}
  {builder : ArchiveBuilder} {tail : TailFrames} {frameCount bundleCount bundleSize : Nat}
  (htools : tools.Ok bytesOf) (hmirror : builder.mirror.Ok blobOf)

/-- A frame of the table is as long as it says. -/
theorem FramesHold.rawLen {bundles : List String} {infos : List FrameInfo}
    {frames : List ArchiveFrame} {raws : List Bytes} {k : Nat} {raw : Bytes}
    (h : FramesHold bytesOf tools bundles infos frames raws) (hraw : raws[k]? = some raw) :
    ∃ info, infos[k]? = some info ∧ info.rawLen = raw.length := by
  obtain ⟨⟨frame, info⟩, hpair, hplaced⟩ := forall₂_getElem? h.2.flip hraw
  obtain ⟨_, hinfo⟩ := List.getElem?_zip_eq_some.mp hpair
  obtain ⟨bundle, _, _, _, hlen, hdescribes⟩ := hplaced
  exact ⟨info, hinfo, hlen.trans hdescribes.rawLen⟩

include htools hmirror

theorem streamTail_tabled {blobs : List (Blob × Nat)}
    (hsizes : ∀ blob ∈ blobs, blob.2 = (blobOf blob.1.oid).length)
    (h : builder.streamTail tools cas blobs frameCount bundleCount bundleSize = .ok tail)
    (hcount : tail.bundles.length + bundleCount ≤ 2 ^ 32) : tail.Tabled bundleCount := by
  obtain ⟨layout, hlayout, h⟩ := bind_eq_ok.mp h
  obtain ⟨⟨bounds, frames⟩, hframes, h⟩ := bind_eq_ok.mp h
  obtain ⟨bundler, hpush, h⟩ := bind_eq_ok.mp h
  obtain ⟨closed, hclose, h⟩ := bind_eq_ok.mp h
  obtain ⟨frameBase, hframeBase, h⟩ := bind_eq_ok.mp h
  obtain ⟨bundleBase, hbundleBase, h⟩ := bind_eq_ok.mp h
  obtain ⟨table, htable, h⟩ := bind_eq_ok.mp h
  obtain rfl := toU32_eq hbundleBase
  obtain rfl := pure_eq_ok.mp h
  -- the groups
  obtain ⟨hpos, _, hlt⟩ := Bundler.new_max bundleSize
  have hholds : ∀ {group : List BuiltFrame} {groupLen : Nat} {hash : String} {new : Option String},
      bundleGroup tools cas none group groupLen = .ok (hash, new) → True := fun _ => trivial
  obtain ⟨⟨groups₀, hpushed⟩, hroom, hmax⟩ :=
    Bundler.pushAll_groups hholds (Bundler.new_groups (fun _ _ => True) bundleSize) hpos hpush
  obtain ⟨⟨groups, hgroups⟩, _, hclosedMax⟩ := Bundler.close_groups hholds hpushed
    (.inl (hpushed.group_len ▸ Nat.le_of_lt hroom)) hclose
  have hlength := hgroups.bundles.length_eq
  refine ⟨⟨groups, ?_, hlength, hgroups.nonempty, fun group hgroup =>
    hgroups.size_lt (by omega) hgroup⟩, ?_⟩
  · dsimp only at hcount ⊢
    rw [hgroups.infos, placesOf_shift (by omega), Nat.zero_add]
  · -- the fragments
    have hcontents : blobs.map Prod.snd =
        (contents blobOf (blobs.map Prod.fst)).map List.length := by
      rw [contents, List.map_map, List.map_map]
      exact List.map_congr_left hsizes
    obtain ⟨hok, hblobs, _⟩ := Layout.new_ok hcontents hlayout
    have hnone : ∀ index : BaseIndex, none = some index → index.Ok bytesOf tools [] := by simp
    obtain ⟨raws, rfl, hstream, hbuilt, _, _⟩ := streamFrames_ok htools hmirror hok hnone hframes
    have hbundler := pushAll_holds htools hnone (Bundler.new_holds bundleSize) hbuilt hpush
    obtain ⟨hheld, _, _⟩ := Bundler.close_holds htools hnone hbundler hclose
    rw [List.nil_append] at hheld
    have hexact := filesTable_exact hok hstream htable
    obtain ⟨files, hfiles, htable⟩ := bind_eq_ok.mp htable
    obtain rfl := pure_eq_ok.mp htable
    rw [hok.entries] at hfiles
    have hsome := tableFrom_ne_nil hfiles
    intro oid fragments hmem
    obtain ⟨⟨blob, file⟩, hpair, hfragments⟩ := List.mem_map.mp hmem
    obtain ⟨rfl, rfl⟩ := Prod.mk.inj hfragments
    obtain ⟨hentry, hfile⟩ := (List.forall₂_iff_zip.mp hexact).2 hpair
    refine ⟨?_, ?_⟩
    · intro hnil
      rw [List.map_eq_nil_iff] at hnil
      rw [Exact, hnil, hentry.blobSha1] at hfile
      have hempty : blobOf blob.oid = [] := (Option.some.inj hfile).symm
      exact (List.forall₂_iff_zip.mp hsome).2 hpair hempty hnil
    · intro fragment hfragment
      obtain ⟨fragment, hmem, rfl⟩ := List.mem_map.mp hfragment
      obtain ⟨raw, hraw, hinside⟩ := fragmentsBytes_inside hfile hmem
      obtain ⟨info, hinfo, hrawLen⟩ := hheld.rawLen hraw
      have hsmall : info.rawLen < 2 ^ 32 := by
        have := List.mem_of_getElem? hinfo
        rw [hgroups.infos] at this
        exact placesOf_rawLen hgroups.small this
      show fragment.frameOffset + fragment.rawLen < 2 ^ 32
      omega

theorem tailFrames_tabled {blobs : List Blob}
    (h : builder.tailFrames tools cas blobs frameCount bundleCount bundleSize = .ok tail)
    (hcount : tail.bundles.length + bundleCount ≤ 2 ^ 32) : tail.Tabled bundleCount := by
  obtain ⟨empty, full, hfull, _, _, hcases⟩ := tailFrames_cases hmirror h
  have hempty : ∀ oid fragments, (oid, fragments) ∈ atFrameZero empty → Stated fragments := by
    intro oid fragments hmem
    obtain ⟨blob, _, hpair⟩ := List.mem_map.mp hmem
    obtain ⟨rfl, rfl⟩ := Prod.mk.inj hpair
    exact ⟨by simp, by simp⟩
  obtain ⟨rfl, rfl⟩ | ⟨streamed, hstreamed, rfl⟩ := hcases
  · exact ⟨⟨[], rfl, rfl, by simp, by simp⟩, hempty⟩
  · have hsize : ∀ blob ∈ full, blob.2 = (blobOf blob.1.oid).length := by
      intro blob hblob
      obtain ⟨_, _, rfl⟩ := List.mem_map.mp (hfull.mem hblob)
      rfl
    obtain ⟨hinfos, hfragments⟩ := streamTail_tabled htools hmirror hsize hstreamed hcount
    refine ⟨hinfos, fun oid fragments hmem => ?_⟩
    rcases List.mem_append.mp hmem with hstart | hlater
    · exact hempty oid fragments hstart
    · exact hfragments oid fragments hlater

end Tail

theorem tailBlobs_sublist {base : ArchiveBase} {seen : List Bytes} {blobs : List Blob} :
    (tailBlobs base seen blobs).Sublist blobs := by
  induction blobs generalizing seen with
  | nil => exact .slnil
  | cons blob blobs ih =>
      rw [tailBlobs]
      split
      · exact ih.cons_cons blob
      · exact ih.cons blob

/-! ## The table -/

/-- The entries of a tree that a table may list. -/
structure TreeOk (blobs : List Blob) (gitlinks : List Bytes) : Prop where
  files : ∀ blob ∈ blobs, blob.mode ∈ allowedModes ∧ blob.path ≠ [] ∧
    validateRelativePath blob.path = .ok () ∧ blob.oid.length = 20
  links : ∀ path ∈ gitlinks, GitlinkOk path
  paths : (blobs.map Blob.path ++ gitlinks).Nodup

/-- A file of the tree uses a frame of bundle `c` of the base. -/
def Uses (base : ArchiveBase) (blobs : List Blob) (c : Nat) : Prop :=
  ∃ blob ∈ blobs, ∃ fragments, baseFragments base blob.oid = some fragments ∧
    ∃ fragment ∈ fragments, ∃ info, base.metadata.frames[fragment.frameIndex]? = some info ∧
      info.chunkIndex = c

section Table

variable {bytesOf : String → Bytes} {blobOf : Bytes → Bytes} {tools : Tools} {cas : Cas}
  {builder : ArchiveBuilder} {base : ArchiveBase} {baseRaws : List Bytes}

/-- The fragments of a tail's files are stated. -/
theorem tailEntry_stated {frameIndex : List Nat} {tail : TailFrames} {front : Nat} {blob : Blob}
    {entry : FileEntry} (hbase : base.metadata.Valid) (htail : tail.Tabled front)
    (h : tailEntry base frameIndex tail blob = .ok entry) : Stated entry.fragments := by
  unfold tailEntry at h
  split at h
  · next fragments hfound =>
      obtain ⟨moved, hmove, h⟩ := bind_eq_ok.mp h
      obtain rfl := pure_eq_ok.mp h
      have hmoved := mapM_eq_ok.mp hmove
      obtain ⟨file, hmem, hpair⟩ := List.mem_map.mp (lastOf_mem hfound)
      obtain ⟨_, rfl⟩ := Prod.mk.inj hpair
      obtain ⟨hfile, hsome⟩ := List.mem_filter.mp hmem
      refine ⟨?_, fun fragment' hfragment' => ?_⟩
      · rintro rfl
        rw [List.forall₂_nil_right_iff.mp hmoved] at hsome
        cases hsome
      · obtain ⟨fragment, hfragment, hmove⟩ := forall₂_mem hmoved.flip hfragment'
        obtain ⟨_, _, hlt, _⟩ := (hbase.files file hfile).fragments fragment hfragment
        unfold moveFragment at hmove
        split at hmove
        · cases hmove
        · obtain rfl := pure_eq_ok.mp hmove
          exact hlt
  · split at h
    · cases h
    · next fragments hfound =>
        obtain rfl := pure_eq_ok.mp h
        exact htail.fragments _ _ (lastOf_mem hfound)

theorem fragmentBundle_lt {fragment : Fragment} {bundle : Nat}
    (h : fragmentBundle base fragment = .ok bundle) : bundle < base.bundles.length := by
  unfold fragmentBundle at h
  split at h
  · cases h
  · split at h
    · next hlt => exact pure_eq_ok.mp h ▸ hlt
    · cases h

/-- Which bundles are live: those of the frames in use. -/
theorem live_iff {blobs : List Blob} {live : List Nat}
    (h : (usedFragments base blobs).mapM (fragmentBundle base) = .ok live) (c : Nat) :
    c ∈ live ↔ Uses base blobs c := by
  have hused := mapM_eq_ok.mp h
  constructor
  · intro hc
    obtain ⟨fragment, hfragment, hbundle⟩ := forall₂_mem hused.flip hc
    obtain ⟨fragments, hfragments, hmem⟩ := List.mem_flatten.mp hfragment
    obtain ⟨blob, hblob, hfound⟩ := List.mem_filterMap.mp hfragments
    exact ⟨blob, hblob, fragments, hfound, fragment, hmem, fragmentBundle_eq hbundle⟩
  · rintro ⟨blob, hblob, fragments, hfound, fragment, hmem, info, hinfo, rfl⟩
    obtain ⟨c, hc, hbundle⟩ := forall₂_mem hused (mem_usedFragments hblob hfound hmem)
    obtain ⟨info', hinfo', rfl⟩ := fragmentBundle_eq hbundle
    obtain rfl := Option.some.inj (hinfo.symm.trans hinfo')
    exact hc

/-- Over exact files with stated fragments, a table of the tree's entries is accepted when the tree's
entries and the frames are. -/
theorem validateGeometry_iff_tree {infos : List FrameInfo} {frames : List ArchiveFrame}
    {bundles : List String} {raws : List Bytes} {blobs : List Blob} {files : List FileEntry}
    {gitlinks : List Bytes} (hheld : FramesHold bytesOf tools bundles infos frames raws)
    (hfiles : List.Forall₂ (fun blob entry => EntryOf blob entry ∧ Exact blobOf raws entry)
      blobs files)
    (hstated : ∀ entry ∈ files, Stated entry.fragments)
    (hframes : checkFrames 0 none infos = .ok ()) :
    (⟨infos, files, gitlinks⟩ : MetadataChunk).validateGeometry = .ok () ↔ TreeOk blobs gitlinks := by
  have hpaths : files.map FileEntry.path = blobs.map Blob.path :=
    (forall₂_map_eq (P := fun _ => True) hfiles
      fun blob _ entry hentry => ⟨hentry.1.path, trivial⟩).1
  rw [validateGeometry_ok]
  constructor
  · intro hvalid
    refine ⟨fun blob hblob => ?_, hvalid.gitlinks, hpaths ▸ hvalid.paths⟩
    obtain ⟨entry, hmem, hentry, _⟩ := forall₂_mem hfiles hblob
    have hok := hvalid.files entry hmem
    exact ⟨hentry.mode ▸ hok.mode, hentry.path ▸ hok.path_ne, hentry.path ▸ hok.path,
      hentry.blobSha1 ▸ hok.blob⟩
  · intro htree
    refine ⟨fun entry hmem => ?_, htree.links, hpaths ▸ htree.paths, hframes⟩
    obtain ⟨blob, hblob, hentry, hexact⟩ := forall₂_mem hfiles.flip hmem
    obtain ⟨hmode, hne, hpath, hid⟩ := htree.files blob hblob
    obtain ⟨hsome, hsmall⟩ := hstated entry hmem
    refine ⟨hentry.mode ▸ hmode, hentry.path ▸ hne, hentry.path ▸ hpath, hentry.blobSha1 ▸ hid,
      fun hnil => absurd hnil hsome, fun fragment hfragment => ?_⟩
    obtain ⟨raw, hraw, hinside⟩ := fragmentsBytes_inside hexact hfragment
    obtain ⟨info, hinfo, hrawLen⟩ := hheld.rawLen hraw
    exact ⟨info, hinfo, hsmall fragment hfragment, hrawLen ▸ hinside⟩

/-- A tail on any base with exact files, in any order. Its table is accepted when the entries of the
tree may stand in one; each of its files is exact and each of its frames is in a bundle it lists; and
the base's bundles it keeps are those with a frame in use, with all their frames in order. -/
theorem tail_table_ok {commit : String} {blobs : List Blob} {gitlinks : List Bytes}
    {bundleSize : Nat} {output : ArchiveBuildOutput} (htools : tools.Ok bytesOf)
    (hmirror : builder.mirror.Ok blobOf) (hbase : base.Holds bytesOf tools baseRaws)
    (hexact : ∀ file ∈ base.metadata.files, Exact blobOf baseRaws file)
    (hwalk : collectBlobs builder.mirror commit = .ok (blobs, gitlinks))
    (hroom : ∀ n, (n - 1) * builder.cdc.min ≤ (stream blobOf (tailBlobs base [] blobs)).length →
      n + base.metadata.frames.length ≤ 2 ^ 32)
    (h : builder.buildTailIntoCas tools cas commit base bundleSize = .ok output) :
    (output.metadata.validateGeometry = .ok () ↔ TreeOk blobs gitlinks) ∧
    (∃ raws, FramesHold bytesOf tools output.downloadBundleHashes output.metadata.frames
        output.archiveFrames raws ∧
      List.Forall₂ (fun blob entry => EntryOf blob entry ∧ Exact blobOf raws entry) blobs
        output.metadata.files) ∧
    ∃ kept bundles infos frames, (∀ c, c ∈ kept ↔ Uses base blobs c) ∧
      output.downloadBundleHashes = keptBundles kept base.bundles ++ bundles ∧
      output.metadata.frames = keptInfos kept base.metadata.frames ++ infos ∧
      output.archiveFrames = keptFrames kept base.metadata.frames base.frames ++ frames := by
  obtain ⟨raws, hheld, hfiles⟩ := buildTailIntoCas_ok htools hmirror hbase hexact hwalk hroom h
  obtain ⟨live, bundleIndex, bundles, frameIndex, placed, tail, files, hlive, hbundles, hframes,
    htail, htailFiles, rfl⟩ := buildTailIntoCas_parts hwalk h
  have hvalid := validateGeometry_ok.mp hbase.geometry
  have hcount : base.metadata.frames.length < 2 ^ 32 := by
    have := hroom 1 (by simp)
    omega
  -- how many bundles there are
  obtain ⟨liveRaws, hliveRaws, hlength, hbundleCount, _⟩ :=
    live_ok hbase hcount hlive hbundles hframes
  have htail' := htail
  rw [hliveRaws.length_eq] at htail'
  obtain ⟨_, _, htailCount⟩ := tailFrames_ok htools hmirror (fun n hn => by
    have := hroom n hn
    omega) htail'
  have htabled := tailFrames_tabled htools hmirror htail htailCount
  -- the live bundles are those of frames
  have hchunks : ∀ info ∈ base.metadata.frames, info.chunkIndex < base.metadata.frames.length := by
    intro info hinfo
    obtain ⟨i, hi⟩ := List.mem_iff_getElem?.mp hinfo
    exact Nat.lt_of_le_of_lt (checkFrames_chunkIndex_le hvalid.frames hi)
      (List.getElem?_eq_some_iff.mp hi).1
  have hused : ∀ c ∈ live, ∃ info ∈ base.metadata.frames, info.chunkIndex = c := by
    intro c hc
    obtain ⟨_, _, _, _, fragment, _, info, hinfo, hindex⟩ := (live_iff hlive c).mp hc
    exact ⟨info, List.mem_of_getElem? hinfo, hindex⟩
  have hlt : ∀ c ∈ live, c < unused := by
    intro c hc
    obtain ⟨info, hinfo, rfl⟩ := hused c hc
    have := hchunks info hinfo
    unfold unused
    omega
  have hlisted : ∀ c ∈ live, c < base.bundles.length := by
    intro c hc
    obtain ⟨fragment, _, hbundle⟩ := forall₂_mem (mapM_eq_ok.mp hlive).flip hc
    exact fragmentBundle_lt hbundle
  obtain ⟨_, hkept⟩ := liveBundles_eq rfl hbundles
  have hkept : bundles = keptBundles live base.bundles := hkept
  obtain ⟨hinfos, hplaced⟩ :=
    liveFrames_eq (fun c j hj => liveBundles_rank hbundles hj) hlt hframes
  rw [List.map_fst_zip (Nat.le_of_eq hbase.frames.1)] at hinfos
  obtain ⟨groups, htailInfos, hgroups, hsome, hsize⟩ := htabled.infos
  have hchecked : checkFrames 0 none (placed.infos ++ tail.placed.infos) = .ok () := by
    rw [hinfos, htailInfos]
    have hstart : KeptAt live none none := trivial
    refine checkFrames_kept hstart (fun info hinfo => Nat.lt_trans (hchunks info hinfo) hcount)
      hvalid.frames fun frameIdx last hat => ?_
    refine checkFrames_placesOf ?_ (by omega) hsome hsize
    rw [hkept]
    exact nextBundle_kept (fun info hinfo => Nat.lt_trans (hchunks info hinfo) hcount)
      hvalid.frames hused hlisted hat
  have hstated : ∀ entry ∈ files, Stated entry.fragments := by
    intro entry hentry
    obtain ⟨blob, _, hbuilt⟩ := forall₂_mem (mapM_eq_ok.mp htailFiles).flip hentry
    exact tailEntry_stated hvalid htabled hbuilt
  refine ⟨validateGeometry_iff_tree hheld hfiles hstated hchecked, ⟨raws, hheld, hfiles⟩, ?_⟩
  exact ⟨live, tail.bundles, tail.placed.infos, tail.placed.frames, live_iff hlive,
    congrArg (· ++ tail.bundles) hkept, congrArg (· ++ tail.placed.infos) hinfos,
    congrArg (· ++ tail.placed.frames) hplaced⟩

end Table

/-- A tail of the second sample commit on the first one's archive. -/
def sampleTail (first : ArchiveBuildOutput) : Except String ArchiveBuildOutput :=
  sampleBuilder.buildTailIntoCas plainTools sampleCas "second" first.base 8

theorem sample_tail_table : ∃ first output, sampleBuild "first" none = .ok first ∧
    sampleTail first = .ok output ∧ output.metadata.validateGeometry = .ok () := by
  have hruns : (sampleBuild "first" none).toOption.any (fun first =>
      decide (first.metadata.validateGeometry = .ok ()) &&
        decide (first.metadata.frames.length ≤ 8) && (sampleTail first).isOk) = true := by
    with_unfolding_all decide
  obtain ⟨first, hfirst, hruns⟩ := (Option.any_eq_true _ _).mp hruns
  simp only [Bool.and_eq_true, decide_eq_true_eq] at hruns
  obtain ⟨⟨hgeometry, hfew⟩, htail⟩ := hruns
  obtain ⟨raws, hok⟩ := buildIntoCas_none plainTools_ok sampleMirror_ok rfl
    (toOption_eq_some.mp hfirst)
  have hexact : ∀ file ∈ first.base.metadata.files, Exact sampleBlob raws file := by
    intro file hfile
    obtain ⟨_, _, _, hexact⟩ := forall₂_mem hok.files.flip hfile
    exact hexact
  cases houtput : sampleTail first with
  | error error =>
      rw [houtput] at htail
      cases htail
  | ok output =>
      have hmirror : sampleBuilder.mirror.Ok sampleBlob := sampleMirror_ok
      have hwalk : collectBlobs sampleBuilder.mirror "second" =
          .ok ([⟨[0x61], sampleId 1, 0o100644⟩, ⟨[0x62], sampleId 3, 0o100644⟩], []) := by decide
      have hroom : ∀ n, (n - 1) * sampleBuilder.cdc.min ≤ (stream sampleBlob (tailBlobs first.base []
          [⟨[0x61], sampleId 1, 0o100644⟩, ⟨[0x62], sampleId 3, 0o100644⟩])).length →
          n + first.base.metadata.frames.length ≤ 2 ^ 32 := by
        intro n hn
        have hle : (stream sampleBlob (tailBlobs first.base []
            [⟨[0x61], sampleId 1, 0o100644⟩, ⟨[0x62], sampleId 3, 0o100644⟩])).length ≤ 8 :=
          stream_length_le sampleBlob tailBlobs_sublist
        have hmin : sampleBuilder.cdc.min = 2 := rfl
        have hframes : first.base.metadata.frames.length ≤ 8 := hfew
        rw [hmin] at hn
        omega
      have htable := tail_table_ok plainTools_ok hmirror ⟨hok.frames, hgeometry⟩ hexact hwalk hroom
        houtput
      refine ⟨first, output, toOption_eq_some.mp hfirst, houtput, htable.1.mpr ⟨?_, ?_, ?_⟩⟩
      · decide
      · simp
      · decide

/-- A tree with a file that its group may write. -/
def legacyMirror : Mirror := { sampleMirror with
  walk := fun _ => return [⟨[0x61], sampleId 1, 0o100664⟩] }

/-- The archive of an empty tree. -/
def emptyBase : ArchiveBase := ⟨[], ⟨[], [], []⟩, []⟩

/-- A tail is built with the modes of the tree, and the table refuses some. -/
theorem legacy_mode_refused : ∃ output,
    ArchiveBuilder.buildTailIntoCas ⟨legacyMirror, ⟨2, 3, 4⟩⟩ plainTools sampleCas "first" emptyBase 8 =
      .ok output ∧
    output.metadata.validateGeometry = .error (.illegalMode [0x61] 0o100664) := by
  have hruns : (ArchiveBuilder.buildTailIntoCas ⟨legacyMirror, ⟨2, 3, 4⟩⟩ plainTools sampleCas "first"
      emptyBase 8).toOption.any (fun output => decide
        (output.metadata.validateGeometry = .error (.illegalMode [0x61] 0o100664))) = true := by
    with_unfolding_all decide
  obtain ⟨output, houtput, hrefused⟩ := (Option.any_eq_true _ _).mp hruns
  exact ⟨output, toOption_eq_some.mp houtput, of_decide_eq_true hrefused⟩

end Ripclone.Archive
