import Ripclone.Library.Machine
import Ripclone.Library.Slices
import Ripclone.Server.HeadPacks

/-!
# The idx bundle of a Head

The idx files of a Head's base packs are stored in one object, one after the other, and each entry of the
manifest says where its own starts. How long it is the entry says as well, from when the pack was
installed. The reader takes that many bytes from there and checks them against the idx's name.
-/

namespace Ripclone

open Ripclone.Library Ripclone.Pack

inductive IdxBundleError where
  /-- "pack …'s idx is not in the idx bundle" -/
  | notInBundle (index : Nat)
  /-- "idx bundle offset overflow" -/
  | offsetOverflow
  /-- "idx … slice out of bundle range" -/
  | outOfRange (index : Nat)
  /-- "idx … bundle slice hash mismatch: expected …, got …" -/
  | hashMismatch (index : Nat) (want got : String)
  deriving DecidableEq, Repr

/-- One pack's idx from the bundle. `hash` is SHA-256 in hex. -/
def manifestPackIdxBytes (hash : Bytes → String) (entry : PackEntry) (index : Nat)
    (idxBundle : Bytes) : Except IdxBundleError Bytes :=
  match entry.idxBundleOffset with
  | none => .error (.notInBundle index)
  | some off =>
    let stop := off + entry.idx.len
    if 2 ^ 64 ≤ stop then .error .offsetOverflow
    else
      match getSlice idxBundle off stop with
      | none => .error (.outOfRange index)
      | some slice =>
        let want := entry.idx.hash
        let got := hash slice
        if got ≠ want then .error (.hashMismatch index want got) else .ok slice

/-! ## Reading -/

section Reading

variable {hash : Bytes → String} {entry : PackEntry} {index : Nat} {before idx after : Bytes}

/-- What installing an idx file gave: its hash for a name, and its length. -/
structure Recorded (hash : Bytes → String) (pack : SizedPack) (idx : Bytes) : Prop where
  idx_eq : pack.idx = hash idx
  idxLen_eq : pack.idxLen = idx.length

theorem getSlice_middle {α : Type} (before part after : List α) :
    getSlice (before ++ (part ++ after)) before.length (before.length + part.length) =
      some part := by
  rw [getSlice, if_pos (by simp), List.take_length_add_append, List.take_left',
    List.drop_left']
  all_goals rfl

theorem length_of_getSlice {α : Type} {xs part : List α} {start stop : Nat}
    (h : getSlice xs start stop = some part) : part.length = stop - start := by
  rw [getSlice] at h
  split at h
  · next hbounds =>
      obtain rfl := Option.some.inj h
      rw [List.length_drop, List.length_take]
      omega
  · cases h

/-- An idx is read back exactly when the entry has its name and its length. -/
theorem manifestPackIdxBytes_eq_ok_iff (hoffset : entry.idxBundleOffset = some before.length)
    (hfits : (before ++ (idx ++ after)).length < 2 ^ 64) :
    manifestPackIdxBytes hash entry index (before ++ (idx ++ after)) = .ok idx ↔
      Recorded hash entry.sized idx := by
  have hlength : (before ++ (idx ++ after)).length = before.length + (idx.length + after.length) := by
    rw [List.length_append, List.length_append]
  unfold manifestPackIdxBytes
  rw [hoffset]
  dsimp only
  constructor
  · intro h
    split at h
    · cases h
    split at h
    · cases h
    next slice hslice =>
      split at h
      · cases h
      next hname =>
        obtain rfl := Except.ok.inj h
        have hlen := length_of_getSlice hslice
        refine ⟨(not_not.mp hname).symm, ?_⟩
        show entry.idx.len = slice.length
        omega
  · rintro ⟨hname, hlen⟩
    have hlen : entry.idx.len = idx.length := hlen
    have hname : entry.idx.hash = hash idx := hname
    rw [if_neg (by omega), hlen, getSlice_middle]
    exact if_neg (not_not.mpr hname.symm)

theorem manifestPackIdxBytes_none (hoffset : entry.idxBundleOffset = none) (bundle : Bytes) :
    manifestPackIdxBytes hash entry index bundle = .error (.notInBundle index) := by
  rw [manifestPackIdxBytes, hoffset]

end Reading

end Ripclone

namespace Ripclone.Server

open Ripclone.Library Ripclone.Pack

/-! ## Writing -/

section Writing

variable {storage : Storage} {packs : List SizedPack}

theorem bundledEntries_snd (offset : Nat) (packs : List (SizedPack × Bytes)) :
    (bundledEntries offset packs).2 = (packs.map Prod.snd).flatten := by
  induction packs generalizing offset with
  | nil => rfl
  | cons pack rest ih =>
      rw [List.map_cons, List.flatten_cons, ← ih (offset + pack.2.length)]
      rfl

/-- An entry's idx starts after those of the entries before it. -/
theorem bundledEntries_getElem? (offset : Nat) (packs : List (SizedPack × Bytes)) (i : Nat) :
    (bundledEntries offset packs).1[i]? = packs[i]?.map fun pack =>
      packEntry pack.1 false (some (offset + ((packs.take i).map Prod.snd).flatten.length)) := by
  induction packs generalizing offset i with
  | nil => rfl
  | cons pack rest ih =>
      cases i with
      | zero => rfl
      | succ i =>
          rw [List.getElem?_cons_succ, List.take_succ_cons, List.map_cons, List.flatten_cons,
            List.length_append, ← Nat.add_assoc, ← ih (offset + pack.2.length) i]
          rfl

/-- The levels' entries have no place in a bundle. -/
theorem offset_of_levelEntry {packs : List SizedPack} {entry : PackEntry}
    (h : entry ∈ packs.map fun pack => packEntry pack false none) :
    entry.idxBundleOffset = none := by
  obtain ⟨pack, -, rfl⟩ := List.mem_map.mp h
  rfl

theorem getAllCached_getElem? {hashes : List String} {idxs : List Bytes} {i : Nat} {name : String}
    (h : getAllCached storage hashes = .ok idxs) (hi : hashes[i]? = some name) :
    ∃ idx, idxs[i]? = some idx ∧ storage.get name = .ok idx := by
  have hforall := mapM_eq_ok.mp h
  obtain ⟨hlt, rfl⟩ := List.getElem?_eq_some_iff.mp hi
  have hlt' : i < idxs.length := hforall.length_eq ▸ hlt
  exact ⟨idxs[i], List.getElem?_eq_getElem hlt', hforall.get hlt hlt'⟩

/-- Entry `i` of the bundled packs: where its idx starts and ends, and when it is read back. -/
structure BundledEntry (sha256 : Bytes → String) (storage : Storage) (bundle : Bytes)
    (offset : Nat → Nat) (i : Nat) (entry : PackEntry) (idx : Bytes) : Prop where
  get : storage.get entry.idx.hash = .ok idx
  start : entry.idxBundleOffset = some (offset i)
  next : offset (i + 1) = offset i + idx.length
  read : bundle.length < 2 ^ 64 →
    (manifestPackIdxBytes sha256 entry i bundle = .ok idx ↔ Recorded sha256 entry.sized idx)

theorem bundledEntry (sha256 : Bytes → String) {base : List SizedPack} {idxs : List Bytes}
    {i : Nat} (h : getAllCached storage (base.map SizedPack.idx) = .ok idxs) (hi : i < base.length) :
    ∃ entry idx, (bundledEntries 0 (base.zip idxs)).1[i]? = some entry ∧
      BundledEntry sha256 storage idxs.flatten (fun i => (idxs.take i).flatten.length) i entry idx := by
  have hlen : base.length = idxs.length := by
    simpa using (mapM_eq_ok.mp h).length_eq
  obtain ⟨idx, hidx, hget⟩ := getAllCached_getElem? (i := i) h
    (by rw [List.getElem?_map, List.getElem?_eq_getElem hi, Option.map_some])
  obtain ⟨hi', rfl⟩ := List.getElem?_eq_some_iff.mp hidx
  have hzip : (base.zip idxs)[i]? = some (base[i], idxs[i]) := by
    rw [List.getElem?_eq_getElem (by rw [List.length_zip]; omega), List.getElem_zip]
  have htake : ((base.zip idxs).take i).map Prod.snd = idxs.take i := by
    rw [List.map_take, List.map_snd_zip (by omega)]
  refine ⟨packEntry base[i] false (some (idxs.take i).flatten.length), idxs[i], ?_, hget, rfl, ?_, ?_⟩
  · rw [bundledEntries_getElem?, hzip, Option.map_some, htake, Nat.zero_add]
  · show (idxs.take (i + 1)).flatten.length = _
    rw [← List.take_concat_get' _ _ hi', List.flatten_append, List.length_append,
      List.flatten_singleton]
  · intro hfits
    have hsplit : idxs.flatten =
        (idxs.take i).flatten ++ (idxs[i] ++ (idxs.drop (i + 1)).flatten) := by
      rw [← List.flatten_cons, ← List.drop_eq_getElem_cons hi', ← List.flatten_append,
        List.take_append_drop]
    rw [hsplit] at hfits ⊢
    exact manifestPackIdxBytes_eq_ok_iff rfl hfits

end Writing

/-! ## The packs of a Head -/

/-- The entries are of the packs, in order. Those of the bundled packs lie in the bundle from its start to
its end without a gap, each is read back from there as it was fetched if its pack was recorded with
that idx's name and length, and the others have no offset and cannot be read from a bundle. -/
theorem assembleHeadPacks_idx {sha256 : Bytes → String} {storage : Storage} {packs : List SizedPack}
    {bundled : Nat} {entries : List PackEntry} {bundleRef : Option ChunkRef} {name : String}
    (h : assembleHeadPacks storage packs bundled = .ok (entries, bundleRef, name)) :
    let count := min bundled packs.length
    entries.map PackEntry.sized = packs ∧
    (∀ entry ∈ entries.drop count, entry.idxBundleOffset = none ∧
      ∀ i bundle, manifestPackIdxBytes sha256 entry i bundle = .error (.notInBundle i)) ∧
    (count = 0 → bundleRef = none ∧ name = "") ∧
    (0 < count → ∃ (bundle : Bytes) (offset : Nat → Nat),
      storage.put bundle = .ok name ∧ bundleRef = some ⟨name, bundle.length⟩ ∧
      offset 0 = 0 ∧ offset count = bundle.length ∧
      (∀ i < count, ∃ entry idx, entries[i]? = some entry ∧
        BundledEntry sha256 storage bundle offset i entry idx) ∧
      (bundle.length < 2 ^ 64 →
        (∀ pack ∈ packs.take bundled, ∀ idx, storage.get pack.idx = .ok idx →
          Recorded sha256 pack idx) →
        ∀ i < count, ∃ entry idx, entries[i]? = some entry ∧
          storage.get entry.idx.hash = .ok idx ∧ idx.length = entry.idx.len ∧
          manifestPackIdxBytes sha256 entry i bundle = .ok idx)) := by
  intro count
  have hsized := (assembleHeadPacks_ok h).1
  simp only [assembleHeadPacks] at h
  have hcount : (packs.take bundled).length = count := List.length_take
  split at h
  · next hempty =>
      obtain ⟨rfl, hrest⟩ := Prod.mk.inj (pure_eq_ok.mp h)
      obtain ⟨rfl, rfl⟩ := Prod.mk.inj hrest
      have hzero : count = 0 := by
        rw [← hcount, List.isEmpty_iff.mp hempty, List.length_nil]
      refine ⟨hsized, ?_, fun _ => ⟨rfl, rfl⟩, fun hpos => absurd hzero (by omega)⟩
      intro entry hentry
      have hnone := offset_of_levelEntry (List.mem_of_mem_drop hentry)
      exact ⟨hnone, fun i bundle => manifestPackIdxBytes_none hnone bundle⟩
  next hnonempty =>
    obtain ⟨idxs, hidxs, h⟩ := bind_eq_ok.mp h
    obtain ⟨stored, hput, h⟩ := bind_eq_ok.mp h
    obtain ⟨rfl, hrest⟩ := Prod.mk.inj (pure_eq_ok.mp h)
    obtain ⟨rfl, rfl⟩ := Prod.mk.inj hrest
    -- The bundle is the idxs one after another, so the entry of each starts where those before it end.
    have hlen : (packs.take bundled).length = idxs.length := by
      simpa using (mapM_eq_ok.mp hidxs).length_eq
    have hbundle : (bundledEntries 0 ((packs.take bundled).zip idxs)).2 = idxs.flatten := by
      rw [bundledEntries_snd, List.map_snd_zip (by omega)]
    have hentries : (bundledEntries 0 ((packs.take bundled).zip idxs)).1.length = count := by
      rw [← List.length_map (f := PackEntry.sized), (bundledEntries_ok _ _).1, List.length_map,
        List.length_zip]
      omega
    have hentry : ∀ i < count, ∃ entry idx,
        ((bundledEntries 0 ((packs.take bundled).zip idxs)).1 ++
          (packs.drop bundled).map fun pack => packEntry pack false none)[i]? = some entry ∧
        BundledEntry sha256 storage idxs.flatten (fun i => (idxs.take i).flatten.length) i entry
          idx := by
      intro i hi
      obtain ⟨entry, idx, hentry, hbundled⟩ := bundledEntry sha256 hidxs (hcount ▸ hi)
      exact ⟨entry, idx, by rw [List.getElem?_append_left (by omega), hentry], hbundled⟩
    rw [hbundle] at hput ⊢
    refine ⟨hsized, ?_, ?_, fun _ => ⟨idxs.flatten, fun i => (idxs.take i).flatten.length, hput, rfl,
      rfl, ?_, hentry, ?_⟩⟩
    · intro entry hdrop
      rw [List.drop_left' hentries] at hdrop
      have hnone := offset_of_levelEntry hdrop
      exact ⟨hnone, fun i bundle => manifestPackIdxBytes_none hnone bundle⟩
    · intro hzero
      rw [← hcount, List.length_eq_zero_iff] at hzero
      exact absurd (List.isEmpty_iff.mpr hzero) hnonempty
    · show (idxs.take count).flatten.length = idxs.flatten.length
      rw [List.take_of_length_le (by omega)]
    · intro hfits hrecorded i hi
      obtain ⟨entry, idx, hget, hbundled⟩ := hentry i hi
      -- The entry is that of a bundled pack, which was recorded with its idx.
      have hpack : entry.sized ∈ packs.take bundled := by
        rw [List.mem_take_iff_getElem]
        have hat : packs[i]? = some entry.sized := by
          rw [← hsized, List.getElem?_map, hget, Option.map_some]
        obtain ⟨hlt, heq⟩ := List.getElem?_eq_some_iff.mp hat
        exact ⟨i, hi, heq⟩
      have hrecord := hrecorded entry.sized hpack idx hbundled.get
      exact ⟨entry, idx, hget, hbundled.get, hrecord.idxLen_eq.symm, (hbundled.read hfits).mpr hrecord⟩

section TwoBasePacks

/-- SHA-256 of two idx files and of their bundle, which is all there is to hash here. -/
def twoIdxSha256 (bytes : Bytes) : String :=
  if bytes = [1, 2] then "a12871fee210fb8619291eaea194581cbd2531e4b23759d225f6806923f63222"
  else if bytes = [3] then "084fed08b978af4d7d196a7446a86b58009e636b611db16211b65a9aadff29c5"
  else "039058c6f2c0cb492c533b0a4d14ef77cc0f78abccced5287d84a1a2011cfb81"

def twoIdxStorage : Storage where
  get name := if name = twoIdxSha256 [1, 2] then .ok [1, 2]
    else if name = twoIdxSha256 [3] then .ok [3] else .error "not found"
  put bytes := if bytes = [1, 2, 3] then .ok (twoIdxSha256 bytes) else .error "disk full"
  getManifest _ := .error "not found"
  putManifest _ := .error "disk full"

/-- Two base packs and a level. -/
def twoIdxPacks : List SizedPack :=
  [⟨"first.pack", 200, twoIdxSha256 [1, 2], 2⟩, ⟨"second.pack", 300, twoIdxSha256 [3], 1⟩,
    ⟨"level.pack", 44, "level.idx", 1100⟩]

def secondIdxEntry : PackEntry :=
  packEntry ⟨"second.pack", 300, twoIdxSha256 [3], 1⟩ false (some 2)

theorem twoIdxPacks_recorded : ∀ pack ∈ twoIdxPacks.take 2, ∀ idx,
    twoIdxStorage.get pack.idx = .ok idx → Recorded twoIdxSha256 pack idx := by
  intro pack hpack idx hget
  rw [show twoIdxPacks.take 2 = [⟨"first.pack", 200, twoIdxSha256 [1, 2], 2⟩,
    ⟨"second.pack", 300, twoIdxSha256 [3], 1⟩] from rfl] at hpack
  simp only [List.mem_cons, List.not_mem_nil, or_false] at hpack
  rcases hpack with rfl | rfl
  · obtain rfl : [1, 2] = idx := Except.ok.inj hget
    exact ⟨rfl, rfl⟩
  · obtain rfl : [3] = idx := Except.ok.inj hget
    exact ⟨rfl, rfl⟩

theorem second_idx_read :
    manifestPackIdxBytes twoIdxSha256 secondIdxEntry 1 [1, 2, 3] = .ok [3] := by
  have h := @assembleHeadPacks_idx twoIdxSha256 twoIdxStorage twoIdxPacks 2 _ _ _ rfl
  obtain ⟨bundle, offset, hput, -, -, -, -, hread⟩ := h.2.2.2 (by decide)
  obtain rfl : bundle = [1, 2, 3] := by
    by_contra hne
    simp [twoIdxStorage, hne] at hput
  obtain ⟨entry, idx, hentry, hget, -, hidx⟩ := hread (by decide) twoIdxPacks_recorded 1 (by decide)
  obtain rfl : secondIdxEntry = entry := Option.some.inj hentry
  obtain rfl : [3] = idx := Except.ok.inj hget
  exact hidx

end TwoBasePacks

end Ripclone.Server
