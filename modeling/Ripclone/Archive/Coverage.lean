import Ripclone.Archive.Fragments

/-!
# Fragments over any tiling of the stream

A files table maps files onto frames by the frames' bounds alone. For every layout and every list of
bounds that tiles the stream, the fragments of a file follow one another over the frames and make up
its range of the stream (`filesTable_covers`), and the frames the hint has passed hold nothing of the
files to come (`hints_passed`).
-/

namespace Ripclone.Archive

open Ripclone.Library

/-- Bounds of frames that tile the stream. No frame is empty, but an empty stream has one that is. -/
structure Framed (total : Nat) (bounds : List (Nat × Nat)) : Prop where
  tiles : Tiles 0 total bounds
  nonempty : bounds = [(0, 0)] ∨ bounds ≠ [] ∧ ∀ frame ∈ bounds, frame.1 < frame.2

/-- `next` goes on in the following frame, where `fragment` has reached the end of its own. -/
def Follows (bounds : List (Nat × Nat)) (fragment next : Fragment) : Prop :=
  next.frameIndex = fragment.frameIndex + 1 ∧ next.frameOffset = 0 ∧
    ∃ frame, bounds[fragment.frameIndex]? = some frame ∧
      fragment.frameOffset + fragment.rawLen = frame.2 - frame.1

/-- The frames' parts of a stream. -/
def frameParts (bounds : List (Nat × Nat)) (data : Bytes) : List Bytes :=
  bounds.map fun frame => slice data frame.1 frame.2

/-- The fragments are the range from `start` to `stop` of a stream of `total` bytes. -/
structure Covers (total : Nat) (bounds : List (Nat × Nat)) (start stop : Nat)
    (fragments : List Fragment) : Prop where
  ne_nil : fragments ≠ []
  inside : ∀ fragment ∈ fragments, ∃ frame, bounds[fragment.frameIndex]? = some frame ∧
    fragment.frameOffset + fragment.rawLen ≤ frame.2 - frame.1
  follows : fragments.IsChain (Follows bounds)
  bytes : ∀ data : Bytes, data.length = total →
    fragmentsBytes (frameParts bounds data) fragments = some (slice data start stop)

/-- The hint each file is looked up from, and the one after the last file. -/
def Layout.hintsFrom (bounds : List (Nat × Nat)) :
    Nat → List (Blob × Nat × Nat) → Except String (List Nat)
  | hint, [] => return [hint]
  | hint, (_, start, size) :: rest => do
    let (_, next) ← fragmentsFor bounds start size hint
    let hints ← hintsFrom bounds next rest
    return hint :: hints

/-- The hints of a files table. -/
def Layout.hints (layout : Layout) (bounds : List (Nat × Nat)) : Except String (List Nat) :=
  hintsFrom bounds 0 layout.entries

section Parts

variable {total start stop : Nat} {bounds : List (Nat × Nat)} {data : Bytes}

theorem Framed.ne_nil (h : Framed total bounds) : bounds ≠ [] := by
  rcases h.nonempty with rfl | ⟨hne, _⟩
  · exact List.cons_ne_nil _ _
  · exact hne

theorem Framed.spansFrom_parts (h : Framed total bounds) (hdata : data.length = total) :
    spansFrom 0 (frameParts bounds data) = bounds :=
  h.tiles.spansFrom_slices (Nat.le_of_eq hdata.symm)

theorem Framed.flatten_parts (h : Framed total bounds) (hdata : data.length = total) :
    (frameParts bounds data).flatten = data := by
  rw [frameParts, ← List.flatMap_def, h.tiles.flatMap_slice, slice_all hdata.symm]

/-- Fragments that have bytes are inside their frames. -/
theorem fragmentsBytes_inside {raws : List Bytes} {fragments : List Fragment} {bytes : Bytes}
    (h : fragmentsBytes raws fragments = some bytes) {fragment : Fragment}
    (hfragment : fragment ∈ fragments) : ∃ raw, raws[fragment.frameIndex]? = some raw ∧
      fragment.frameOffset + fragment.rawLen ≤ raw.length := by
  obtain ⟨parts, hparts, _⟩ := Option.map_eq_some_iff.mp h
  obtain ⟨part, hpart⟩ : ∃ part, fragmentBytes raws fragment = some part := by
    induction fragments generalizing parts bytes with
    | nil => cases hfragment
    | cons first rest ih =>
        rw [List.mapM_cons] at hparts
        obtain ⟨part, hpart, hparts⟩ := Option.bind_eq_some_iff.mp hparts
        obtain ⟨parts', hparts', _⟩ := Option.bind_eq_some_iff.mp hparts
        rcases List.mem_cons.mp hfragment with rfl | hmem
        · exact ⟨part, hpart⟩
        · exact ih (by rw [fragmentsBytes, hparts', Option.map_some]) hmem parts' hparts' rfl
  obtain ⟨raw, hraw, hroom⟩ := Option.bind_eq_some_iff.mp hpart
  refine ⟨raw, hraw, ?_⟩
  split at hroom
  · assumption
  · cases hroom

/-- Fragments that make up the range over one stream are inside the frames. -/
theorem Framed.inside (h : Framed total bounds) (hdata : data.length = total)
    {fragments : List Fragment} {bytes : Bytes}
    (hbytes : fragmentsBytes (frameParts bounds data) fragments = some bytes)
    {fragment : Fragment} (hfragment : fragment ∈ fragments) :
    ∃ frame, bounds[fragment.frameIndex]? = some frame ∧
      fragment.frameOffset + fragment.rawLen ≤ frame.2 - frame.1 := by
  obtain ⟨raw, hraw, hroom⟩ := fragmentsBytes_inside hbytes hfragment
  rw [frameParts, List.getElem?_map] at hraw
  obtain ⟨frame, hframe, rfl⟩ := Option.map_eq_some_iff.mp hraw
  refine ⟨frame, hframe, ?_⟩
  have hend := (h.tiles.mem (List.mem_of_getElem? hframe)).2.2
  rwa [length_slice (by omega)] at hroom

end Parts

section Overlaps

variable {total start stop lo k : Nat} {bounds rest : List (Nat × Nat)}

theorem toU32_ok {n : Nat} {error : String} (h : n < 2 ^ 32) : toU32 n error = .ok n :=
  if_pos h

theorem overlaps_ok (htiles : Tiles lo total rest) (hcount : k + rest.length ≤ 2 ^ 32)
    (hfits : ∀ frame ∈ rest, frame.2 - frame.1 < 2 ^ 32) :
    ∃ fragments, overlaps start stop k rest = .ok fragments := by
  induction rest generalizing lo k with
  | nil => exact ⟨[], rfl⟩
  | cons frame rest ih =>
      obtain ⟨hfirst, hle, hrest⟩ := htiles
      have hfit := hfits frame List.mem_cons_self
      rw [List.length_cons] at hcount
      obtain ⟨more, hmore⟩ := ih hrest (show k + 1 + rest.length ≤ 2 ^ 32 by omega)
        fun frame hframe => hfits frame (List.mem_cons_of_mem _ hframe)
      unfold overlaps
      split
      · split
        · next hoverlap =>
            rw [toU32_ok (by omega), toU32_ok (by omega), toU32_ok (by omega), hmore]
            exact ⟨_, rfl⟩
        · exact ⟨more, hmore⟩
      · exact ⟨[], rfl⟩

/-- The fragments over frames whose first one has the range's first byte. -/
theorem overlaps_follows (hrest : bounds.drop k = rest) (htiles : Tiles lo total rest)
    (hsome : ∀ frame ∈ rest, frame.1 < frame.2) (hlo : lo < stop) (hstart : start < stop)
    (hstop : stop ≤ total) (hhead : ∀ frame, rest.head? = some frame → start < frame.2)
    {fragments : List Fragment} (h : overlaps start stop k rest = .ok fragments) :
    fragments.IsChain (Follows bounds) ∧ ∃ first, fragments.head? = some first ∧
      first.frameIndex = k ∧ first.frameOffset = max start lo - lo := by
  -- the frames after the first one have the rest of the range, from their first byte on
  induction rest generalizing k lo fragments with
  | nil =>
      have : lo = total := htiles
      omega
  | cons frame rest ih =>
      obtain ⟨frs, fre⟩ := frame
      obtain ⟨rfl, hle, hnext⟩ := htiles
      dsimp only at hle hnext hlo
      have hbefore := hhead _ rfl
      have hlt := hsome _ List.mem_cons_self
      have hframe : bounds[k]? = some (frs, fre) := by
        rw [← Nat.add_zero k, ← List.getElem?_drop, hrest]
        rfl
      have hdrop : bounds.drop (k + 1) = rest := by
        rw [← List.drop_drop, hrest, List.drop_succ_cons, List.drop_zero]
      dsimp only at hbefore hlt
      rw [overlaps, if_pos hlo, if_pos (by omega)] at h
      obtain ⟨k', hk', h⟩ := bind_eq_ok.mp h
      obtain ⟨offset, hoffset, h⟩ := bind_eq_ok.mp h
      obtain ⟨len, hlen, h⟩ := bind_eq_ok.mp h
      obtain ⟨more, hmore, h⟩ := bind_eq_ok.mp h
      obtain rfl := pure_eq_ok.mp h
      obtain rfl := toU32_eq hk'
      obtain rfl := toU32_eq hoffset
      obtain rfl := toU32_eq hlen
      refine ⟨?_, _, rfl, rfl, rfl⟩
      by_cases hend : stop ≤ fre
      · -- the range ends in this frame
        obtain rfl : more = [] := by
          cases rest with
          | nil => exact (pure_eq_ok.mp hmore).symm
          | cons next rest =>
              have : ¬ next.1 < stop := by rw [hnext.1]; omega
              rw [overlaps, if_neg this] at hmore
              exact (pure_eq_ok.mp hmore).symm
        exact List.IsChain.singleton _
      · obtain ⟨hchain, first, hfirst, hindex, hzero⟩ := ih hdrop hnext
          (fun frame hframe => hsome frame (List.mem_cons_of_mem _ hframe)) (by omega)
          (fun next hhead' => by
            have := hsome next (List.mem_cons_of_mem _ (List.mem_of_head? hhead'))
            cases rest with
            | nil => cases hhead'
            | cons next' rest =>
                obtain rfl := Option.some.inj hhead'
                have := hnext.1
                omega) hmore
        obtain ⟨more', rfl⟩ : ∃ more', more = first :: more' := by
          cases more with
          | nil => cases hfirst
          | cons first' more' => exact ⟨more', by rw [Option.some.inj hfirst]⟩
        refine List.isChain_cons_cons.mpr ⟨⟨hindex, ?_, (frs, fre), hframe, ?_⟩, hchain⟩
        · rw [hzero]
          omega
        · show max start frs - frs + (min stop fre - max start frs) = fre - frs
          omega

end Overlaps

/-! ## Hints -/

/-- The frames before the hint end at or before `start`. -/
def Passed (bounds : List (Nat × Nat)) (start hint : Nat) : Prop :=
  hint ≤ bounds.length ∧
    ∀ k < hint, ∀ frame, bounds[k]? = some frame → frame.2 ≤ start

section Files

variable {total start len hint : Nat} {bounds : List (Nat × Nat)} {data : Bytes}

theorem Passed.mono {start' : Nat} (h : Passed bounds start hint) (hle : start ≤ start') :
    Passed bounds start' hint :=
  ⟨h.1, fun k hk frame hframe => Nat.le_trans (h.2 k hk frame hframe) hle⟩

/-- The frames counted are passed too. -/
theorem Passed.advance (h : Passed bounds start hint) :
    Passed bounds start (hint + countPast start (bounds.drop hint)) := by
  have hcount : countPast start (bounds.drop hint) ≤ (bounds.drop hint).length :=
    (List.takeWhile_sublist _).length_le
  rw [List.length_drop] at hcount
  refine ⟨by have := h.1; omega, fun k hk frame hframe => ?_⟩
  by_cases hbefore : k < hint
  · exact h.2 k hbefore frame hframe
  · have hk' : k - hint < countPast start (bounds.drop hint) := by omega
    have hget : (bounds.drop hint)[k - hint]? = some frame := by
      rw [List.getElem?_drop, Nat.add_sub_cancel' (Nat.not_lt.mp hbefore), hframe]
    have hmem : frame ∈ (bounds.drop hint).takeWhile fun frame => decide (frame.2 ≤ start) := by
      rw [List.prefix_iff_eq_take.mp (List.takeWhile_prefix _), List.mem_iff_getElem?]
      rw [countPast] at hk'
      exact ⟨k - hint, by rwa [List.getElem?_take_of_lt hk']⟩
    exact of_decide_eq_true (List.all_eq_true.mp List.all_takeWhile frame hmem)

/-- The frame after those counted ends after `start`. -/
theorem head_drop_countPast {frame : Nat × Nat}
    (h : (bounds.drop (countPast start bounds)).head? = some frame) : start < frame.2 := by
  induction bounds with
  | nil => cases h
  | cons first rest ih =>
      rw [countPast, List.takeWhile_cons] at h
      split at h
      · exact ih h
      · next hnot =>
          obtain rfl := Option.some.inj h
          exact Nat.not_le.mp fun hle => hnot (decide_eq_true hle)

variable (hframed : Framed total bounds)

include hframed

/-- In the terms of the frames' parts of a stream. -/
theorem Passed.hintOk (h : Passed bounds start hint) (hdata : data.length = total) :
    HintOk (frameParts bounds data) start hint := by
  refine ⟨by simpa [frameParts] using h.1, ?_⟩
  cases hint with
  | zero => exact Nat.zero_le _
  | succ k =>
      have hk : k < bounds.length := h.1
      have hspans : bounds.take (k + 1) = spansFrom 0 ((frameParts bounds data).take (k + 1)) := by
        rw [take_spansFrom, hframed.spansFrom_parts hdata]
      have hlast : (bounds.take (k + 1)).getLast? = some bounds[k] := by
        rw [List.take_succ_eq_append_getElem hk, List.getLast?_concat]
      rw [hspans] at hlast
      have hend := getLast?_spansFrom hlast
      have := h.2 k (Nat.lt_succ_self k) _ (List.getElem?_eq_getElem hk)
      omega

/-- The frame of an empty file. -/
theorem emptyFrame_some (start hint : Nat) : ∃ frame, bounds[emptyFrame bounds start hint]? = some frame := by
  have hne : bounds.drop (min hint (bounds.length - 1)) ≠ [] := by
    have := List.length_pos_iff.mpr hframed.ne_nil
    rw [← List.length_pos_iff, List.length_drop]
    omega
  obtain ⟨frame, hframe, _⟩ := getElem?_takeWhile_dropLast
    (fun frame : Nat × Nat => decide (frame.2 ≤ start)) hne
  rw [List.getElem?_drop] at hframe
  exact ⟨frame, hframe⟩

variable (hpassed : Passed bounds start hint)

include hpassed

/-- The frames from the hint on, after it is advanced. -/
theorem tiles_from_hint : ∃ lo, lo ≤ start ∧
    Tiles lo total (bounds.drop (hint + countPast start (bounds.drop hint))) := by
  let data : Bytes := List.replicate total 0
  have hdata : data.length = total := List.length_replicate
  have hok := hpassed.advance.hintOk hframed hdata
  generalize hint + countPast start (bounds.drop hint) = k at hok
  refine ⟨_, hok.2, ?_⟩
  have hdrop := drop_spansFrom 0 k (frameParts bounds data)
  rw [hframed.spansFrom_parts hdata, Nat.zero_add] at hdrop
  have htiles := tiles_spansFrom ((frameParts bounds data).take k).flatten.length
    ((frameParts bounds data).drop k)
  rwa [← hdrop, ← List.length_append, ← List.flatten_append, List.take_append_drop,
    hframed.flatten_parts hdata, hdata] at htiles

variable (hstop : start + len ≤ total)

include hstop

/-- The file's fragments are what they should be over every stream, and the hint is still good. -/
theorem fragmentsFor_bytes {fragments : List Fragment} {next : Nat} (hdata : data.length = total)
    (h : fragmentsFor bounds start len hint = .ok (fragments, next)) :
    fragmentsBytes (frameParts bounds data) fragments = some (slice data start (start + len)) := by
  rw [← hframed.spansFrom_parts hdata] at h
  have hflatten := hframed.flatten_parts hdata
  obtain ⟨hbytes, _⟩ := fragmentsFor_exact (hpassed.hintOk hframed hdata)
    (by rwa [hflatten, hdata]) h
  rwa [hflatten] at hbytes

omit hpassed in
/-- Where there is a file that is not empty, no frame is. -/
theorem Framed.some_of_lt (hlen : len ≠ 0) : ∀ frame ∈ bounds, frame.1 < frame.2 := by
  rcases hframed.nonempty with rfl | ⟨_, hsome⟩
  · have : (0 : Nat) = total := hframed.tiles.2.2
    omega
  · exact hsome

theorem fragmentsFor_covers {fragments : List Fragment} {next : Nat}
    (h : fragmentsFor bounds start len hint = .ok (fragments, next)) :
    Covers total bounds start (start + len) fragments ∧ Passed bounds (start + len) next := by
  have hbytes : ∀ data : Bytes, data.length = total →
      fragmentsBytes (frameParts bounds data) fragments = some (slice data start (start + len)) :=
    fun data hdata => fragmentsFor_bytes hframed hpassed hstop hdata h
  have hinside : ∀ fragment ∈ fragments, ∃ frame, bounds[fragment.frameIndex]? = some frame ∧
      fragment.frameOffset + fragment.rawLen ≤ frame.2 - frame.1 := by
    intro fragment hfragment
    have hdata : (List.replicate total (0 : UInt8)).length = total := List.length_replicate
    exact hframed.inside hdata (hbytes _ hdata) hfragment
  obtain ⟨_, hcases⟩ := ite_throw_eq_ok.mp h
  split at hcases
  · split at hcases
    · cases hcases
    · obtain ⟨k, _, hcases⟩ := bind_eq_ok.mp hcases
      obtain ⟨offset, _, hcases⟩ := bind_eq_ok.mp hcases
      obtain ⟨rfl, rfl⟩ := Prod.mk.inj (pure_eq_ok.mp hcases)
      exact ⟨⟨List.cons_ne_nil _ _, hinside, .singleton _, hbytes⟩,
        hpassed.mono (Nat.le_add_right _ _)⟩
  · next hlen =>
      obtain ⟨stop, hadd, hcases⟩ := bind_eq_ok.mp hcases
      obtain ⟨frags, hfrags, hcases⟩ := bind_eq_ok.mp hcases
      obtain ⟨rfl, rfl⟩ := Prod.mk.inj (pure_eq_ok.mp hcases)
      obtain rfl := checkedAdd_eq_ok hadd
      obtain ⟨lo, hlo, htiles⟩ := tiles_from_hint hframed hpassed
      have hsome := hframed.some_of_lt hstop hlen
      obtain ⟨hchain, first, hfirst, _⟩ := overlaps_follows rfl htiles
        (fun frame hframe => hsome frame (List.mem_of_mem_drop hframe)) (by omega) (by omega) hstop
        (fun frame hframe => head_drop_countPast (by rwa [List.drop_drop])) hfrags
      refine ⟨⟨?_, hinside, hchain, hbytes⟩, hpassed.advance.mono (Nat.le_add_right _ _)⟩
      rintro rfl
      cases hfirst

/-- The lookup fails only where a number is too large for the table. -/
theorem fragmentsFor_ok (htotal : total < 2 ^ 64) (hcount : bounds.length ≤ 2 ^ 32)
    (hfits : ∀ frame ∈ bounds, frame.2 - frame.1 < 2 ^ 32) :
    ∃ fragments next, fragmentsFor bounds start len hint = .ok (fragments, next) := by
  rw [fragmentsFor, if_neg (by simpa using hframed.ne_nil)]
  split
  · next hlen =>
      subst hlen
      obtain ⟨frame, hframe⟩ := emptyFrame_some hframed start hint
      let data : Bytes := List.replicate total 0
      have hdata : data.length = total := List.length_replicate
      have hraws : frameParts bounds data ≠ [] := by simpa [frameParts] using hframed.ne_nil
      have hstart : start ≤ (frameParts bounds data).flatten.length := by
        rwa [hframed.flatten_parts hdata, hdata]
      rw [← hframed.spansFrom_parts hdata] at hframe
      have hplace := emptyFrame_exact hraws hstart hframe
      rw [hframed.spansFrom_parts hdata] at hframe hplace
      have hnone : fragmentsBytes (frameParts bounds data) [] = some [] := rfl
      obtain ⟨frame', hframe', hroom⟩ := hframed.inside hdata (fragmentsBytes_cons hplace hnone)
        List.mem_cons_self
      obtain rfl := Option.some.inj (hframe.symm.trans hframe')
      dsimp only at hroom
      have hindex := (List.getElem?_eq_some_iff.mp hframe).1
      have hfit := hfits frame (List.mem_of_getElem? hframe)
      simp only [hframe]
      rw [toU32_ok (by omega), toU32_ok (by omega)]
      exact ⟨_, _, rfl⟩
  · next hlen =>
      obtain ⟨lo, _, htiles⟩ := tiles_from_hint hframed hpassed
      obtain ⟨frags, hfrags⟩ : ∃ frags, overlaps start (start + len)
          (hint + countPast start (bounds.drop hint))
          (bounds.drop (hint + countPast start (bounds.drop hint))) = .ok frags := by
        apply overlaps_ok htiles
        · have := hpassed.advance.1
          rw [List.length_drop]
          omega
        · exact fun frame hframe => hfits frame (List.mem_of_mem_drop hframe)
      have hadd : checkedAdd start len "file range end overflow" = .ok (start + len) :=
        if_pos (by omega)
      rw [hadd]
      refine ⟨frags, hint + countPast start (bounds.drop hint), ?_⟩
      simp only [bind, Except.bind, hfrags]
      rfl

end Files

/-! ## Tables -/

section Tables

variable {total pos hint : Nat} {bounds : List (Nat × Nat)} {entries : List (Blob × Nat × Nat)}

/-- A file's range of the stream. -/
def entrySpan (entry : Blob × Nat × Nat) : Nat × Nat := (entry.2.1, entry.2.1 + entry.2.2)

theorem layoutStarts_tiles {blobs : List Blob} {sizes starts : List Nat}
    (hsizes : sizes.length = blobs.length) (hpos : pos < 2 ^ 64)
    (h : layoutStarts pos sizes = .ok (starts, total)) :
    (blobs.zip (starts.zip sizes)).map Prod.fst = blobs ∧
      Tiles pos total ((blobs.zip (starts.zip sizes)).map entrySpan) ∧ total < 2 ^ 64 := by
  induction sizes generalizing pos blobs starts with
  | nil =>
      obtain ⟨rfl, rfl⟩ := Prod.mk.inj (pure_eq_ok.mp h)
      obtain rfl := List.length_eq_zero_iff.mp hsizes.symm
      exact ⟨rfl, rfl, hpos⟩
  | cons size sizes ih =>
      obtain ⟨next, hnext, h⟩ := bind_eq_ok.mp h
      obtain ⟨⟨starts', total'⟩, hrest, h⟩ := bind_eq_ok.mp h
      obtain ⟨rfl, rfl⟩ := Prod.mk.inj (pure_eq_ok.mp h)
      cases blobs with
      | nil => cases hsizes
      | cons blob blobs =>
          obtain ⟨hfst, htiles, hlt⟩ := ih (Nat.succ.inj hsizes) (checkedAdd_lt hnext) hrest
          obtain rfl := checkedAdd_eq_ok hnext
          exact ⟨congrArg (blob :: ·) hfst, ⟨rfl, Nat.le_add_right _ _, htiles⟩, hlt⟩

/-- Each file's fragments are its range, and the hints pass no frame a later file needs. -/
theorem tableFrom_covers (hframed : Framed total bounds)
    (htiles : Tiles pos total (entries.map entrySpan)) (hpassed : Passed bounds pos hint)
    {files : List FileEntry} (h : Layout.tableFrom bounds hint entries = .ok files) :
    List.Forall₂ (fun entry file => EntryOf entry.1 file ∧
      Covers total bounds (entrySpan entry).1 (entrySpan entry).2 file.fragments) entries files ∧
    ∃ hints, Layout.hintsFrom bounds hint entries = .ok hints ∧
      ∀ (i : Nat) hint, hints[i]? = some hint →
        ∀ entry ∈ entries.drop i, Passed bounds (entrySpan entry).1 hint := by
  induction entries generalizing pos hint files with
  | nil =>
      obtain rfl := pure_eq_ok.mp h
      exact ⟨.nil, [hint], rfl, by simp⟩
  | cons entry entries ih =>
      obtain ⟨blob, start, size⟩ := entry
      obtain ⟨hstart, _, hrest⟩ := htiles
      obtain rfl : start = pos := hstart
      obtain ⟨⟨fragments, next⟩, hfragments, h⟩ := bind_eq_ok.mp h
      obtain ⟨files', hfiles, h⟩ := bind_eq_ok.mp h
      obtain rfl := pure_eq_ok.mp h
      obtain ⟨hcovers, hnext⟩ := fragmentsFor_covers hframed hpassed hrest.le hfragments
      obtain ⟨hforall, hints, hhints, hlater⟩ := ih hrest hnext hfiles
      refine ⟨.cons ⟨⟨rfl, rfl, rfl⟩, hcovers⟩ hforall, hint :: hints, ?_, ?_⟩
      · rw [Layout.hintsFrom, hfragments]
        simp only [bind, Except.bind, hhints]
        rfl
      · intro i hint' hget entry hentry
        cases i with
        | succ i => exact hlater i hint' hget entry hentry
        | zero =>
            -- the first hint is good for every file, as none starts before the first
            obtain rfl := Option.some.inj hget
            rcases List.mem_cons.mp hentry with rfl | hentry
            · exact hpassed
            · have hmem := hrest.mem (List.mem_map_of_mem hentry)
              exact hpassed.mono (Nat.le_trans (Nat.le_add_right _ _) hmem.1)

theorem tableFrom_ok (hframed : Framed total bounds) (htotal : total < 2 ^ 64)
    (hcount : bounds.length ≤ 2 ^ 32) (hfits : ∀ frame ∈ bounds, frame.2 - frame.1 < 2 ^ 32)
    (htiles : Tiles pos total (entries.map entrySpan)) (hpassed : Passed bounds pos hint) :
    ∃ files, Layout.tableFrom bounds hint entries = .ok files := by
  induction entries generalizing pos hint with
  | nil => exact ⟨[], rfl⟩
  | cons entry entries ih =>
      obtain ⟨blob, start, size⟩ := entry
      obtain ⟨hstart, _, hrest⟩ := htiles
      obtain rfl : start = pos := hstart
      obtain ⟨fragments, next, hfragments⟩ :=
        fragmentsFor_ok hframed hpassed hrest.le htotal hcount hfits
      obtain ⟨_, hnext⟩ := fragmentsFor_covers hframed hpassed hrest.le hfragments
      obtain ⟨files, hfiles⟩ := ih hrest hnext
      exact ⟨_, bind_eq_ok.mpr ⟨_, hfragments, bind_eq_ok.mpr ⟨files, hfiles, rfl⟩⟩⟩

/-- Over any bounds that tile the layout's stream, each file of the table has at least one fragment,
its fragments lie in their frames, follow one another and make up the file's range, and no frame a
hint has passed holds anything of its file or of a later one. The table is there unless a frame's
number or a place in a frame takes more than 32 bits. -/
theorem filesTable_covers {blobs : List Blob} {gitlinks : List Bytes} {sizes : List Nat}
    {layout : Layout} (hsizes : sizes.length = blobs.length)
    (hlayout : Layout.new blobs gitlinks sizes = .ok layout)
    (hframed : Framed layout.total bounds) :
    layout.entries.map Prod.fst = blobs ∧
    (bounds.length ≤ 2 ^ 32 → (∀ frame ∈ bounds, frame.2 - frame.1 < 2 ^ 32) →
      ∃ table, layout.filesTable bounds = .ok table) ∧
    ∀ table, layout.filesTable bounds = .ok table →
      List.Forall₂ (fun entry file => EntryOf entry.1 file ∧
        Covers layout.total bounds (entrySpan entry).1 (entrySpan entry).2 file.fragments)
        layout.entries table.files ∧
      ∃ hints, layout.hints bounds = .ok hints ∧
        ∀ (i : Nat) hint, hints[i]? = some hint →
          ∀ entry ∈ layout.entries.drop i, Passed bounds (entrySpan entry).1 hint := by
  obtain ⟨⟨starts, total⟩, hstarts, h⟩ := bind_eq_ok.mp hlayout
  obtain rfl := pure_eq_ok.mp h
  obtain ⟨hfst, htiles, htotal⟩ := layoutStarts_tiles hsizes (Nat.two_pow_pos 64) hstarts
  have hpassed : Passed bounds 0 0 := ⟨Nat.zero_le _, by omega⟩
  refine ⟨hfst, ?_, ?_⟩
  · intro hcount hfits
    obtain ⟨files, hfiles⟩ := tableFrom_ok hframed htotal hcount hfits htiles hpassed
    exact ⟨_, bind_eq_ok.mpr ⟨files, hfiles, rfl⟩⟩
  · intro table htable
    obtain ⟨files, hfiles, h⟩ := bind_eq_ok.mp htable
    obtain rfl := pure_eq_ok.mp h
    exact tableFrom_covers hframed htiles hpassed hfiles

/-- A file over three frames, between two empty ones. -/
theorem filesTable_covers_three_frames : ∃ layout table,
    Layout.new [⟨[97], [1], 0o100644⟩, ⟨[98], [2], 0o100644⟩, ⟨[99], [3], 0o100644⟩] [] [0, 5, 0] =
      .ok layout ∧
    layout.filesTable [(0, 2), (2, 3), (3, 5)] = .ok table ∧
    List.Forall₂ (fun entry file => EntryOf entry.1 file ∧ Covers layout.total
      [(0, 2), (2, 3), (3, 5)] (entrySpan entry).1 (entrySpan entry).2 file.fragments)
      layout.entries table.files := by
  have hframed : Framed 5 [(0, 2), (2, 3), (3, 5)] :=
    ⟨by simp [Tiles], .inr ⟨by decide, by decide⟩⟩
  have hlayout : Layout.new [⟨[97], [1], 0o100644⟩, ⟨[98], [2], 0o100644⟩, ⟨[99], [3], 0o100644⟩]
      [] [0, 5, 0] = .ok _ := rfl
  obtain ⟨_, hok, hcovers⟩ := filesTable_covers rfl hlayout hframed
  obtain ⟨table, htable⟩ := hok (by decide) (by decide)
  exact ⟨_, table, rfl, htable, (hcovers table htable).1⟩

/-- A frame of 4 GiB has no fragment that is all of it. -/
theorem filesTable_large_frame : ∃ layout,
    Layout.new [⟨[97], [1], 0o100644⟩] [] [2 ^ 32] = .ok layout ∧
    Framed layout.total [(0, 2 ^ 32)] ∧
    layout.filesTable [(0, 2 ^ 32)] = .error "file fragment length is too large" :=
  ⟨_, rfl, ⟨⟨rfl, by decide, rfl⟩, .inr ⟨by decide, by decide⟩⟩, rfl⟩

end Tables

end Ripclone.Archive
