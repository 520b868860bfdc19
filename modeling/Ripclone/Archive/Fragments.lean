import Ripclone.Archive.Bundles
import Ripclone.Archive.Layout

/-!
# Fragments are exact

When frames are the consecutive pieces of the worktree's stream, the fragments a files table gives a
file make up its blob: `filesTable_exact`. The hint that is handed from file to file is always a frame
that starts at or before the next file.
-/

namespace Ripclone.Archive

open Ripclone.Library

/-- What a mirror returns of a blob is the blob. -/
structure Mirror.Ok (blobOf : Bytes → Bytes) (mirror : Mirror) : Prop where
  blobSize : ∀ {oid size}, mirror.blobSize oid = .ok size → size = (blobOf oid).length
  findBlob : ∀ {oid data}, mirror.findBlob oid = .ok data → data = blobOf oid

/-- The contents of the files, in order. -/
def contents (blobOf : Bytes → Bytes) (blobs : List Blob) : List Bytes :=
  blobs.map fun blob => blobOf blob.oid

/-- The worktree's stream. -/
def stream (blobOf : Bytes → Bytes) (blobs : List Blob) : Bytes := (contents blobOf blobs).flatten

/-- The file's fragments, over the raw bytes of the frames, make up its blob. -/
def Exact (blobOf : Bytes → Bytes) (raws : List Bytes) (entry : FileEntry) : Prop :=
  fragmentsBytes raws entry.fragments = some (blobOf entry.blobSha1)

theorem fragmentsBytes_cons {raws : List Bytes} {fragment : Fragment} {fragments : List Fragment}
    {bytes rest : Bytes} (hfirst : fragmentBytes raws fragment = some bytes)
    (hrest : fragmentsBytes raws fragments = some rest) :
    fragmentsBytes raws (fragment :: fragments) = some (bytes ++ rest) := by
  obtain ⟨parts, hparts, rfl⟩ := Option.map_eq_some_iff.mp hrest
  simp [fragmentsBytes, hfirst, hparts]

theorem toU32_eq {n m : Nat} {error : String} (h : toU32 n error = .ok m) : n = m := by
  unfold toU32 at h
  split at h
  · exact pure_eq_ok.mp h
  · cases h

section Overlaps

variable {raws : List Bytes} {start stop : Nat}

/-- A fragment of the frame after `before` is the part of the stream it covers. -/
theorem fragmentBytes_eq {before rest : List Bytes} {raw : Bytes} {lo hi : Nat}
    (hlo : before.flatten.length ≤ lo) (hle : lo ≤ hi)
    (hhi : hi ≤ before.flatten.length + raw.length) :
    fragmentBytes (before ++ raw :: rest) ⟨before.length, lo - before.flatten.length, hi - lo⟩ =
      some (slice (before ++ raw :: rest).flatten lo hi) := by
  have hraw : slice (before ++ raw :: rest).flatten before.flatten.length
      (before.flatten.length + raw.length) = raw := by
    rw [List.flatten_append, List.flatten_cons, slice_middle]
  have hsum : lo - before.flatten.length + (hi - lo) = hi - before.flatten.length := by omega
  have hslice : slice raw (lo - before.flatten.length) (hi - before.flatten.length) =
      slice (before ++ raw :: rest).flatten lo hi := by
    nth_rewrite 1 [← hraw]
    rw [slice_slice (by omega), Nat.add_sub_cancel' hlo, Nat.add_sub_cancel' (by omega)]
  rw [fragmentBytes, List.getElem?_append_right (Nat.le_refl _), Nat.sub_self]
  simp only [List.getElem?_cons_zero, Option.bind_some, hsum]
  rw [if_pos (by omega), hslice]

/-- The fragments over the frames after `before` are what those frames have of the range. -/
theorem overlaps_exact {before rest : List Bytes} {fragments : List Fragment}
    (h : overlaps start stop before.length (spansFrom before.flatten.length rest) =
      .ok fragments) :
    fragmentsBytes (before ++ rest) fragments = some
      (slice (before ++ rest).flatten (max start before.flatten.length)
        (min stop (before ++ rest).flatten.length)) := by
  -- On the spans not yet seen; what was seen is carried in `before`, so the positions stay those of the whole.
  induction rest generalizing before fragments with
  | nil =>
      obtain rfl := pure_eq_ok.mp h
      rw [List.append_nil, slice_eq_nil (by omega)]
      rfl
  | cons raw rest ih =>
      rw [spansFrom] at h
      have hsplit : before ++ raw :: rest = (before ++ [raw]) ++ rest := by simp
      have hnext : (before ++ [raw]).flatten.length = before.flatten.length + raw.length := by simp
      have htotal : before.flatten.length + raw.length ≤ (before ++ raw :: rest).flatten.length := by
        simp
      -- The first span's part of the range and the rest's make up the range.
      have hclip := slice_clip (before ++ raw :: rest).flatten (i := start) (j := stop)
        (Nat.le_add_right before.flatten.length raw.length) htotal
      have hstep : ∀ {more}, overlaps start stop (before.length + 1)
          (spansFrom (before.flatten.length + raw.length) rest) = .ok more →
          fragmentsBytes (before ++ raw :: rest) more = some
            (slice (before ++ raw :: rest).flatten
              (max start (before.flatten.length + raw.length))
              (min stop (before ++ raw :: rest).flatten.length)) := by
        intro more hmore
        have hmore' : overlaps start stop (before ++ [raw]).length
            (spansFrom (before ++ [raw]).flatten.length rest) = .ok more := by
          rw [hnext, List.length_append]
          exact hmore
        have := ih hmore'
        rwa [hnext, ← hsplit] at this
      unfold overlaps at h
      split at h
      · split at h
        · next hoverlap =>
            obtain ⟨k, hk, h⟩ := bind_eq_ok.mp h
            obtain ⟨offset, hoffset, h⟩ := bind_eq_ok.mp h
            obtain ⟨len, hlen, h⟩ := bind_eq_ok.mp h
            obtain ⟨more, hmore, h⟩ := bind_eq_ok.mp h
            obtain rfl := pure_eq_ok.mp h
            obtain rfl := toU32_eq hk
            obtain rfl := toU32_eq hoffset
            obtain rfl := toU32_eq hlen
            rw [← hclip]
            exact fragmentsBytes_cons (fragmentBytes_eq (Nat.le_max_right _ _)
              (Nat.le_of_lt hoverlap) (Nat.min_le_right _ _)) (hstep hmore)
        · next hempty =>
            rw [← hclip, slice_eq_nil (Nat.not_lt.mp hempty), List.nil_append]
            exact hstep h
      · next hpast =>
          obtain rfl := pure_eq_ok.mp h
          rw [slice_eq_nil (by omega)]
          rfl

/-- The frames that end at or before `start` do so together. -/
theorem flatten_countPast_le {pos : Nat} {parts : List Bytes} (hpos : pos ≤ start) :
    pos + (parts.take (countPast start (spansFrom pos parts))).flatten.length ≤ start := by
  induction parts generalizing pos with
  | nil => simpa using hpos
  | cons part rest ih =>
      rw [spansFrom, countPast, List.takeWhile_cons]
      split
      · next hpast =>
          have := ih (of_decide_eq_true hpast)
          rw [List.length_cons, List.take_succ_cons, List.flatten_cons, List.length_append]
          rw [countPast] at this
          dsimp only at this ⊢
          omega
      · simpa using hpos

/-- A frame at which files may go on: it starts at or before `start`. -/
def HintOk (raws : List Bytes) (start hint : Nat) : Prop :=
  hint ≤ raws.length ∧ (raws.take hint).flatten.length ≤ start

theorem HintOk.mono {start' hint : Nat} (h : HintOk raws start hint) (hle : start ≤ start') :
    HintOk raws start' hint := ⟨h.1, Nat.le_trans h.2 hle⟩

theorem HintOk.advance {hint : Nat} (h : HintOk raws start hint) :
    HintOk raws start (hint + countPast start ((spansFrom 0 raws).drop hint)) := by
  constructor
  · have hcount : countPast start ((spansFrom 0 raws).drop hint) ≤
        ((spansFrom 0 raws).drop hint).length := (List.takeWhile_sublist _).length_le
    have hhint := h.1
    rw [List.length_drop, length_spansFrom] at hcount
    omega
  · rw [List.take_add, List.flatten_append, List.length_append, drop_spansFrom, Nat.zero_add]
    exact flatten_countPast_le h.2

/-- Where `takeWhile` on all but the last element ends. -/
theorem getElem?_takeWhile_dropLast {α : Type} (p : α → Bool) {xs : List α} (hne : xs ≠ []) :
    ∃ x, xs[(xs.dropLast.takeWhile p).length]? = some x ∧
      (p x = false ∨ xs.getLast? = some x) := by
  induction xs with
  | nil => exact absurd rfl hne
  | cons x xs ih =>
      cases xs with
      | nil => exact ⟨x, rfl, .inr rfl⟩
      | cons y xs =>
          rw [List.dropLast_cons_cons, List.takeWhile_cons]
          split
          · obtain ⟨z, hz, hor⟩ := ih (List.cons_ne_nil y xs)
            exact ⟨z, hz, by rwa [List.getLast?_cons_cons]⟩
          · next hx => exact ⟨x, rfl, .inl (by simpa using hx)⟩

/-- An empty file's place is in its frame. -/
theorem emptyFrame_exact {hint : Nat} {frame : Nat × Nat} (hraws : raws ≠ [])
    (hstart : start ≤ raws.flatten.length)
    (hframe : (spansFrom 0 raws)[emptyFrame (spansFrom 0 raws) start hint]? = some frame) :
    fragmentBytes raws ⟨emptyFrame (spansFrom 0 raws) start hint, start - frame.1, 0⟩ = some [] := by
  obtain ⟨raw, hraw, hslice⟩ := forall₂_getElem? (slice_spansFrom raws) hframe
  obtain ⟨_, hle, hend⟩ := (tiles_spansFrom 0 raws).mem (List.mem_of_getElem? hframe)
  have hlen : raw.length = frame.2 - frame.1 := by
    rw [← hslice, length_slice (by omega)]
  have hstart' : start ≤ frame.2 := by
    let idx := min hint ((spansFrom 0 raws).length - 1)
    have hpos := List.length_pos_iff.mpr hraws
    have hne : (spansFrom 0 raws).drop idx ≠ [] := by
      rw [← List.length_pos_iff, List.length_drop, length_spansFrom]
      have : idx ≤ raws.length - 1 := length_spansFrom 0 raws ▸ Nat.min_le_right _ _
      omega
    obtain ⟨found, hfound, hor⟩ := getElem?_takeWhile_dropLast
      (fun frame : Nat × Nat => decide (frame.2 ≤ start)) hne
    rw [List.getElem?_drop] at hfound
    obtain rfl : frame = found := Option.some.inj (hframe.symm.trans hfound)
    rcases hor with hpast | hlast
    · have := of_decide_eq_false hpast
      omega
    · rw [drop_spansFrom] at hlast
      have hall := getLast?_spansFrom hlast
      have hsplit := congrArg List.length (congrArg List.flatten (List.take_append_drop idx raws))
      rw [List.flatten_append, List.length_append] at hsplit
      omega
  rw [fragmentBytes, hraw]
  simp only [Option.bind_some]
  rw [if_pos (by omega), Nat.add_zero, slice_self]

/-- The fragments of a file in the stream make up its part of the stream. -/
theorem fragmentsFor_exact {len hint next : Nat} {fragments : List Fragment}
    (hhint : HintOk raws start hint) (hstop : start + len ≤ raws.flatten.length)
    (h : fragmentsFor (spansFrom 0 raws) start len hint = .ok (fragments, next)) :
    fragmentsBytes raws fragments = some (slice raws.flatten start (start + len)) ∧
      HintOk raws (start + len) next := by
  obtain ⟨hne, hcases⟩ := ite_throw_eq_ok.mp h
  clear h
  split at hcases
  · next hlen =>
      subst hlen
      split at hcases
      · cases hcases
      · next frs fre hframe =>
          obtain ⟨k, hk, h⟩ := bind_eq_ok.mp hcases
          obtain ⟨offset, hoffset, h⟩ := bind_eq_ok.mp h
          obtain rfl := toU32_eq hk
          obtain rfl := toU32_eq hoffset
          obtain ⟨rfl, rfl⟩ := Prod.mk.inj (pure_eq_ok.mp h)
          have hraws : raws ≠ [] := by
            rintro rfl
            exact hne rfl
          refine ⟨?_, hhint⟩
          rw [Nat.add_zero, slice_self]
          exact fragmentsBytes_cons (emptyFrame_exact hraws hstop hframe) rfl
  · obtain ⟨stop, hadd, h⟩ := bind_eq_ok.mp hcases
    obtain ⟨frags, hfrags, h⟩ := bind_eq_ok.mp h
    obtain ⟨rfl, rfl⟩ := Prod.mk.inj (pure_eq_ok.mp h)
    obtain rfl := checkedAdd_eq_ok hadd
    have hnext := hhint.advance
    generalize hint + countPast start ((spansFrom 0 raws).drop hint) = k at hfrags hnext
    refine ⟨?_, hnext.mono (Nat.le_add_right _ _)⟩
    -- the frames from the hint on have all of the file
    have hfrom : overlaps start (start + len) (raws.take k).length
        (spansFrom (raws.take k).flatten.length (raws.drop k)) = .ok frags := by
      rwa [List.length_take_of_le hnext.1, ← Nat.zero_add (raws.take k).flatten.length,
        ← drop_spansFrom]
    have hexact := overlaps_exact hfrom
    rwa [List.take_append_drop, Nat.max_eq_left hnext.2, Nat.min_eq_left hstop] at hexact

end Overlaps

/-! ## Tables -/

/-- The layout is that of the files' contents. -/
structure Layout.Ok (blobOf : Bytes → Bytes) (layout : Layout) : Prop where
  sizes : layout.sizes = (contents blobOf layout.blobs).map List.length
  starts : layout.starts = (spansFrom 0 (contents blobOf layout.blobs)).map Prod.fst
  total : layout.total = (stream blobOf layout.blobs).length
  total_lt : layout.total < 2 ^ 64

/-- The entry is the blob's. -/
structure EntryOf (blob : Blob) (entry : FileEntry) : Prop where
  path : entry.path = blob.path
  mode : entry.mode = blob.mode
  blobSha1 : entry.blobSha1 = blob.oid

/-- The blobs with their starts and sizes, the first one at `pos`. -/
def entriesFrom (blobOf : Bytes → Bytes) : Nat → List Blob → List (Blob × Nat × Nat)
  | _, [] => []
  | pos, blob :: rest =>
    (blob, pos, (blobOf blob.oid).length) :: entriesFrom blobOf (pos + (blobOf blob.oid).length) rest

section Tables

variable {blobOf : Bytes → Bytes} {raws : List Bytes} {layout : Layout}

theorem layoutStarts_eq {pos total : Nat} {parts : List Bytes} {starts : List Nat}
    (hpos : pos < 2 ^ 64) (h : layoutStarts pos (parts.map List.length) = .ok (starts, total)) :
    starts = (spansFrom pos parts).map Prod.fst ∧ total = pos + parts.flatten.length ∧
      total < 2 ^ 64 := by
  induction parts generalizing pos starts total with
  | nil =>
      obtain ⟨rfl, rfl⟩ := Prod.mk.inj (pure_eq_ok.mp h)
      exact ⟨rfl, rfl, hpos⟩
  | cons part rest ih =>
      obtain ⟨next, hnext, h⟩ := bind_eq_ok.mp h
      obtain ⟨⟨starts', total'⟩, hrest, h⟩ := bind_eq_ok.mp h
      obtain ⟨rfl, rfl⟩ := Prod.mk.inj (pure_eq_ok.mp h)
      obtain ⟨rfl, rfl, hlt⟩ := ih (checkedAdd_lt hnext) hrest
      obtain rfl := checkedAdd_eq_ok hnext
      refine ⟨rfl, ?_, hlt⟩
      rw [List.flatten_cons, List.length_append, Nat.add_assoc]

theorem Layout.new_ok {blobs : List Blob} {gitlinks : List Bytes} {sizes : List Nat}
    (hsizes : sizes = (contents blobOf blobs).map List.length)
    (h : Layout.new blobs gitlinks sizes = .ok layout) :
    layout.Ok blobOf ∧ layout.blobs = blobs ∧ layout.gitlinks = gitlinks := by
  obtain ⟨⟨starts, total⟩, hstarts, h⟩ := bind_eq_ok.mp h
  obtain rfl := pure_eq_ok.mp h
  rw [hsizes] at hstarts
  obtain ⟨rfl, rfl, hlt⟩ := layoutStarts_eq (Nat.two_pow_pos 64) hstarts
  exact ⟨⟨hsizes, rfl, Nat.zero_add _, hlt⟩, rfl, rfl⟩

theorem entriesFrom_eq (pos : Nat) (blobs : List Blob) :
    blobs.zip (((spansFrom pos (contents blobOf blobs)).map Prod.fst).zip
      ((contents blobOf blobs).map List.length)) = entriesFrom blobOf pos blobs := by
  induction blobs generalizing pos with
  | nil => rfl
  | cons blob blobs ih => exact congrArg _ (ih _)

theorem Layout.Ok.entries (h : layout.Ok blobOf) :
    layout.entries = entriesFrom blobOf 0 layout.blobs := by
  rw [Layout.entries, h.starts, h.sizes, entriesFrom_eq]

theorem blobSizes_eq {mirror : Mirror} (hmirror : mirror.Ok blobOf) {oids : List Bytes}
    {sizes : List Nat} (h : blobSizes mirror oids = .ok sizes) :
    sizes = oids.map fun oid => (blobOf oid).length := by
  induction oids generalizing sizes with
  | nil => exact List.forall₂_nil_left_iff.mp (mapM_eq_ok.mp h)
  | cons oid oids ih =>
      obtain ⟨size, rest, hsize, hrest, rfl⟩ := List.forall₂_cons_left_iff.mp (mapM_eq_ok.mp h)
      rw [List.map_cons, hmirror.blobSize hsize, ih (mapM_eq_ok.mpr hrest)]

/-- The entries from a hint on, for the blobs after `before`. -/
theorem tableFrom_exact (before : Bytes) {blobs : List Blob} {hint : Nat} {files : List FileEntry}
    (hstream : raws.flatten = before ++ stream blobOf blobs)
    (hhint : HintOk raws before.length hint)
    (h : Layout.tableFrom (spansFrom 0 raws) hint (entriesFrom blobOf before.length blobs) =
      .ok files) :
    List.Forall₂ (fun blob entry => EntryOf blob entry ∧ Exact blobOf raws entry) blobs files := by
  induction blobs generalizing before hint files with
  | nil =>
      obtain rfl := pure_eq_ok.mp h
      exact .nil
  | cons blob blobs ih =>
      obtain ⟨⟨fragments, next⟩, hfragments, h⟩ := bind_eq_ok.mp h
      obtain ⟨rest, hrest, h⟩ := bind_eq_ok.mp h
      obtain rfl := pure_eq_ok.mp h
      have hsplit : raws.flatten = before ++ (blobOf blob.oid ++ stream blobOf blobs) := hstream
      have hstop : before.length + (blobOf blob.oid).length ≤ raws.flatten.length := by
        rw [hsplit, List.length_append, List.length_append]
        omega
      obtain ⟨hexact, hnext⟩ := fragmentsFor_exact hhint hstop hfragments
      rw [hsplit, slice_middle] at hexact
      have hafter : (before ++ blobOf blob.oid).length = before.length + (blobOf blob.oid).length :=
        List.length_append
      refine .cons ⟨⟨rfl, rfl, rfl⟩, hexact⟩ (ih (before ++ blobOf blob.oid) ?_ (hafter ▸ hnext) ?_)
      · rw [hsplit, List.append_assoc]
      · rw [hafter]
        exact hrest

/-- Over frames that make up the worktree's stream, the table has each of its files, with fragments
that make up its blob. -/
theorem filesTable_exact {table : MetadataChunk} (hlayout : layout.Ok blobOf)
    (hstream : raws.flatten = stream blobOf layout.blobs)
    (h : layout.filesTable (spansFrom 0 raws) = .ok table) :
    List.Forall₂ (fun blob entry => EntryOf blob entry ∧ Exact blobOf raws entry)
      layout.blobs table.files := by
  obtain ⟨files, hfiles, h⟩ := bind_eq_ok.mp h
  obtain rfl := pure_eq_ok.mp h
  rw [hlayout.entries] at hfiles
  exact tableFrom_exact [] hstream ⟨Nat.zero_le _, Nat.le_refl _⟩ hfiles

end Tables

end Ripclone.Archive
