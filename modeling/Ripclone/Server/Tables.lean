import Ripclone.Manifest.Stored
import Ripclone.Server.Storage

/-!
# Storing and loading files tables

A build stores its table as a delta on the base table of the previous result while that is small,
and whole otherwise. The delta's frame map is composed along the results in between: from the base
to the previous table, which that result's own delta has, and from there to the new table, by the
places of the frames in the bundles.

No part of the result depends on what the map says. A map that loses a frame or sends it to the
wrong place only makes the delta larger, so a table loads again whatever the previous results were.
-/

namespace Ripclone.Server

open Ripclone.Library Ripclone.Pack

section Tables

variable (codec : Codec) (storage : Storage)

def loadArtifact (hash : String) : Option Bytes := (storage.get hash).toOption

/-- A prior build's files table: its metadata chunk, with its delta applied when it has one. -/
def loadMetadata (artifacts : ClonepackArtifacts) : Option MetadataChunk := do
  let bytes ← loadArtifact storage artifacts.metadataChunk
  let base ← (codec.decodeAndValidate bytes).toOption
  if artifacts.metadataDelta = "" then return base
  else
    let bytes ← loadArtifact storage artifacts.metadataDelta
    let delta ← (codec.decodeStored bytes).toOption
    (delta.apply base).toOption

/-- The map that keeps every frame where it is. -/
def identityMap (frames : List FrameInfo) : List Nat :=
  (List.range frames.length).map fun slot => (slot + 1) % 2 ^ 32

/-- Where the base's frames are in the previous table, and that table's frames. -/
def toPrevious (previous : ClonepackArtifacts) (base : MetadataChunk) :
    Option (List Nat × List FrameInfo) :=
  if previous.metadataDelta = "" then return (identityMap base.frames, base.frames)
  else do
    let bytes ← loadArtifact storage previous.metadataDelta
    let delta ← (codec.decodeStored bytes).toOption
    return (delta.baseFrames, delta.frames)

/-- The table as a delta on the previous result's base, with the base's name and length, when the
delta is at most a quarter of it. -/
def tableDelta (table : MetadataChunk) (bundles : List String) (previous : ClonepackArtifacts)
    (previousBundles : List String) : Option (String × Nat × Bytes) := do
  let baseBytes ← loadArtifact storage previous.metadataChunk
  let base ← (codec.decodeAndValidate baseBytes).toOption
  let (toPrevious, previousFrames) ← toPrevious codec storage previous base
  let toTable ← (frameMap previousFrames previousBundles table.frames bundles).toOption
  let map ← (composeFrameMaps toPrevious toTable).toOption
  let delta ← (MetadataDelta.between base map table).toOption
  let delta ← (codec.compress delta.encode).toOption
  if delta.length * 4 ≤ baseBytes.length then
    return (previous.metadataChunk, baseBytes.length, delta)
  else none

/-- Store `table`, whose frames name the bundles `bundles`. `previous` is the previous result of the
same kind, with the bundles its table's frames name. -/
def storeTable (table : MetadataChunk) (bundles : List String)
    (previous : Option (ClonepackArtifacts × List String)) : Except String StoredTable :=
  match previous.bind fun (previous, previousBundles) =>
    tableDelta codec storage table bundles previous previousBundles with
  | some (metadataChunk, baseLen, delta) => do
    let metadataDelta ← storage.put delta
    return { metadataChunk, metadataDelta, chunkRef := ⟨metadataChunk, baseLen⟩,
             deltaRef := some ⟨metadataDelta, delta.length⟩, len := delta.length }
  | none => do
    let bytes ← codec.compress table.encode
    let metadataChunk ← storage.put bytes
    return { metadataChunk, metadataDelta := "", chunkRef := ⟨metadataChunk, bytes.length⟩,
             deltaRef := none, len := bytes.length }

variable {codec storage} in
theorem storeTable_no_delta {table : MetadataChunk} {bundles previousBundles : List String}
    {previous : ClonepackArtifacts} (h : tableDelta codec storage table bundles previous previousBundles = none) :
    storeTable codec storage table bundles (some (previous, previousBundles)) = (do
      let bytes ← codec.compress table.encode
      let metadataChunk ← storage.put bytes
      return { metadataChunk, metadataDelta := "", chunkRef := ⟨metadataChunk, bytes.length⟩,
               deltaRef := none, len := bytes.length }) := by
  rw [storeTable, Option.bind_some]
  dsimp only
  rw [h]

end Tables

/-- The artifact the build stored: the delta, or the whole table. -/
def StoredTable.stored (table : StoredTable) : String :=
  if table.metadataDelta = "" then table.metadataChunk else table.metadataDelta

/-! ## A stored table loads -/

section Loads

variable {c : Contents} {codec : Codec} {storage later : Storage} {table : MetadataChunk}
  {bundles : List String} {previous : Option (ClonepackArtifacts × List String)}
  {stored : StoredTable} {artifacts : ClonepackArtifacts}

/-- The loaded table is the stored one, up to the order of its files. -/
structure SameTable (loaded table : MetadataChunk) : Prop where
  frames : loaded.frames = table.frames
  gitlinks : loaded.gitlinks = table.gitlinks
  files : loaded.files.Perm table.files

/-- A table with slots for its frames has fewer than `2 ^ 32` of them. -/
theorem length_of_frameSlots {bundles : List String} {index : Nat} {frames : List FrameInfo}
    {slots : List ((String × Nat) × Nat)} (hindex : index < 2 ^ 32)
    (h : frameSlots bundles index frames = .ok slots) : index + frames.length < 2 ^ 32 := by
  induction frames generalizing index slots with
  | nil => exact hindex
  | cons frame rest ih =>
      simp only [frameSlots, ite_throw_eq_ok, bind_eq_ok] at h
      obtain ⟨hlt, bundle, _, rest', hrest, _⟩ := h
      have := ih (by omega) hrest
      rw [List.length_cons]
      omega

/-- A frame map exists only to tables with fewer than `2 ^ 32` frames. -/
theorem length_of_frameMap {frames toFrames : List FrameInfo} {bundles toBundles : List String}
    {map : List Nat} (h : frameMap frames bundles toFrames toBundles = .ok map) :
    toFrames.length < 2 ^ 32 := by
  obtain ⟨slots, hslots, _⟩ := bind_eq_ok.mp h
  have := length_of_frameSlots (Nat.two_pow_pos 32) hslots
  omega

/-- What a delta that `tableDelta` offers is. -/
theorem tableDelta_some {previous : ClonepackArtifacts} {previousBundles : List String}
    {name : String} {len : Nat} {delta : Bytes} (hstorage : storage.Ok c)
    (h : tableDelta codec storage table bundles previous previousBundles =
      some (name, len, delta)) :
    ∃ base map, codec.decodeAndValidate (c.bytes name) = .ok base ∧
      map.length = base.frames.length ∧ table.frames.length < 2 ^ 32 ∧
      codec.compress (changes base map table).encode = .ok delta := by
  simp only [tableDelta, Option.bind_eq_bind, Option.bind_eq_some_iff, loadArtifact,
    toOption_eq_some] at h
  obtain ⟨baseBytes, hread, base, hbase, ⟨toPrevious, previousFrames⟩, _, toTable, htoTable, map,
    _, changed, hchanged, bytes, hbytes, hresult⟩ := h
  split at hresult
  · obtain ⟨rfl, _, rfl⟩ : previous.metadataChunk = name ∧ baseBytes.length = len ∧ bytes = delta := by
      simpa using hresult
    have hlen : map.length = base.frames.length := by
      by_contra hne
      rw [MetadataDelta.between, if_pos hne] at hchanged
      cases hchanged
    rw [between_ok hlen] at hchanged
    obtain rfl := Except.ok.inj hchanged
    exact ⟨base, map, hstorage.get hread ▸ hbase, hlen, length_of_frameMap htoTable, hbytes⟩
  · cases hresult

/-- A table that is stored whole is stored compressed. -/
theorem storeTable_whole (hstorage : storage.Ok c)
    (hstored : storeTable codec storage table bundles previous = .ok stored)
    (hwhole : stored.metadataDelta = "") :
    codec.compress table.encode = .ok (c.bytes stored.metadataChunk) := by
  simp only [storeTable] at hstored
  split at hstored
  · obtain ⟨hash, hput, hresult⟩ := bind_eq_ok.mp hstored
    obtain rfl := pure_eq_ok.mp hresult
    exact absurd hwhole (hstorage.put_ne hput)
  · obtain ⟨bytes, hbytes, hstored⟩ := bind_eq_ok.mp hstored
    obtain ⟨hash, hput, hresult⟩ := bind_eq_ok.mp hstored
    obtain rfl := pure_eq_ok.mp hresult
    rw [hbytes, ← hstorage.put hput]

theorem length_of_decompressLimited {bytes plain limited : Bytes}
    (h : codec.decompressLimited bytes = .ok limited) (hplain : codec.decompress bytes = .ok plain) :
    plain.length ≤ maxMetadataBytes := by
  rw [Codec.decompressLimited, hplain] at h
  obtain ⟨_, hfound, h⟩ := bind_eq_ok.mp h
  obtain rfl := Except.ok.inj hfound
  exact Nat.not_lt.mp (ite_throw_eq_ok.mp h).1

/-- What loads was read from storage and within the reader's limit. -/
theorem stored_readable {loaded : MetadataChunk} (hcodec : codec.Ok) (hstorage : storage.Ok c)
    (hlater : later.Ok c) (hstored : storeTable codec storage table bundles previous = .ok stored)
    (hchunk : artifacts.metadataChunk = stored.metadataChunk)
    (hdelta : artifacts.metadataDelta = stored.metadataDelta)
    (h : loadMetadata codec later artifacts = some loaded) :
    (∀ hash ∈ [stored.metadataChunk, stored.stored], later.get hash = .ok (c.bytes hash)) ∧
      ∀ plain, codec.decompress (c.bytes stored.stored) = .ok plain →
        plain.length ≤ maxMetadataBytes := by
  have hget : ∀ {hash bytes}, loadArtifact later hash = some bytes →
      later.get hash = .ok (c.bytes hash) ∧ bytes = c.bytes hash := by
    intro hash bytes hread
    have hread := toOption_eq_some.mp hread
    have hbytes := hlater.get hread
    exact ⟨hbytes ▸ hread, hbytes⟩
  rw [loadMetadata, hchunk, hdelta] at h
  obtain ⟨bytes, hread, h⟩ := Option.bind_eq_some_iff.mp h
  obtain ⟨base, hbase, h⟩ := Option.bind_eq_some_iff.mp h
  obtain ⟨hchunkRead, hbytes⟩ := hget hread
  rw [hbytes] at hbase
  by_cases hwhole : stored.metadataDelta = ""
  · have hname : stored.stored = stored.metadataChunk := if_pos hwhole
    refine ⟨by simpa [hname] using hchunkRead, fun plain hplain => ?_⟩
    have hmagic := hcodec.magic (storeTable_whole hstorage hstored hwhole)
    have hbase := toOption_eq_some.mp hbase
    rw [Codec.decodeAndValidate, if_pos hmagic] at hbase
    obtain ⟨limited, hlimited, _⟩ := bind_eq_ok.mp hbase
    exact length_of_decompressLimited hlimited (hname ▸ hplain)
  · have hname : stored.stored = stored.metadataDelta := if_neg hwhole
    rw [if_neg hwhole] at h
    obtain ⟨bytes, hread, h⟩ := Option.bind_eq_some_iff.mp h
    obtain ⟨delta, hdecoded, _⟩ := Option.bind_eq_some_iff.mp h
    obtain ⟨hdeltaRead, hbytes⟩ := hget hread
    rw [hbytes] at hdecoded
    refine ⟨by simpa [hname] using ⟨hchunkRead, hdeltaRead⟩, fun plain hplain => ?_⟩
    obtain ⟨limited, hlimited, _⟩ := bind_eq_ok.mp (toOption_eq_some.mp hdecoded)
    exact length_of_decompressLimited hlimited (hname ▸ hplain)

variable (hcodec : codec.Ok) (hstorage : storage.Ok c) (hvalid : table.Valid)

include hcodec hvalid

/-- A table stored whole loads as it is. -/
theorem load_whole (hdelta : artifacts.metadataDelta = "")
    (hread : later.get artifacts.metadataChunk = .ok (c.bytes artifacts.metadataChunk))
    (hbytes : codec.compress table.encode = .ok (c.bytes artifacts.metadataChunk))
    (hlen : table.encode.length ≤ maxMetadataBytes) :
    loadMetadata codec later artifacts = some table := by
  have hdecoded := Codec.decodeAndValidate_compress hcodec hvalid hbytes hlen
  simp [loadMetadata, loadArtifact, hread, hdecoded, hdelta, Except.toOption]

/-- A table stored as a delta loads with its files in the order the delta gives them. -/
theorem load_delta {base : MetadataChunk} {map : List Nat} (hdelta : artifacts.metadataDelta ≠ "")
    (hread : later.get artifacts.metadataChunk = .ok (c.bytes artifacts.metadataChunk))
    (hread' : later.get artifacts.metadataDelta = .ok (c.bytes artifacts.metadataDelta))
    (hbase : codec.decodeAndValidate (c.bytes artifacts.metadataChunk) = .ok base)
    (hmap : map.length = base.frames.length) (hframes : table.frames.length < 2 ^ 32)
    (hbytes : codec.compress (changes base map table).encode =
      .ok (c.bytes artifacts.metadataDelta))
    (hlen : (changes base map table).encode.length ≤ maxMetadataBytes) :
    loadMetadata codec later artifacts =
      some ⟨table.frames, rebuiltFiles base table, table.gitlinks⟩ := by
  have hdecoded := Codec.decodeStored_compress hcodec hbytes hlen
  have happly := apply_changes (Codec.decodeAndValidate_valid hbase).nodup_paths hvalid hframes hmap
  simp [loadMetadata, loadArtifact, hread, hread', hbase, hdecoded, hdelta, happly, Except.toOption]

include hstorage

/-- What `storeTable` stores loads as the table it was given, whatever the previous results were and
whether it was stored whole or as a delta, as long as it is within the reader's limit. -/
theorem load_storeTable (hstored : storeTable codec storage table bundles previous = .ok stored)
    (hchunk : artifacts.metadataChunk = stored.metadataChunk)
    (hdelta : artifacts.metadataDelta = stored.metadataDelta)
    (hread : ∀ hash ∈ [stored.metadataChunk, stored.stored],
      later.get hash = .ok (c.bytes hash))
    (hlimit : ∀ plain, codec.decompress (c.bytes stored.stored) = .ok plain →
      plain.length ≤ maxMetadataBytes) :
    ∃ loaded, loadMetadata codec later artifacts = some loaded ∧ SameTable loaded table := by
  simp only [storeTable] at hstored
  split at hstored
  · next name len delta hoffered =>
      obtain ⟨⟨previous, previousBundles⟩, _, hoffered⟩ := Option.bind_eq_some_iff.mp hoffered
      obtain ⟨base, map, hbase, hmap, hframes, hbytes⟩ := tableDelta_some hstorage hoffered
      obtain ⟨hash, hput, hresult⟩ := bind_eq_ok.mp hstored
      obtain rfl := pure_eq_ok.mp hresult
      have hne : hash ≠ "" := hstorage.put_ne hput
      have hname : StoredTable.stored ⟨name, hash, ⟨name, len⟩, some ⟨hash, delta.length⟩,
          delta.length⟩ = hash := if_neg hne
      rw [hname] at hread hlimit
      dsimp only at hchunk hdelta hread
      rw [← hchunk] at hbase
      have hdeltaBytes : c.bytes artifacts.metadataDelta = delta := by
        rw [hdelta]
        exact hstorage.put hput
      refine ⟨_, load_delta hcodec hvalid (hdelta ▸ hne) (hchunk ▸ hread name (by simp))
        (hdelta ▸ hread hash (by simp)) hbase hmap hframes (by rw [hdeltaBytes, hbytes]) ?_, ?_⟩
      · refine hlimit _ ?_
        rw [← hdelta, hdeltaBytes]
        exact hcodec.decompress hbytes
      · exact ⟨rfl, rfl, rebuiltFiles_perm (Codec.decodeAndValidate_valid hbase).nodup_paths
          hvalid.nodup_paths⟩
  · obtain ⟨bytes, hbytes, hstored⟩ := bind_eq_ok.mp hstored
    obtain ⟨hash, hput, hresult⟩ := bind_eq_ok.mp hstored
    obtain rfl := pure_eq_ok.mp hresult
    dsimp only [StoredTable.stored] at hchunk hdelta hread hlimit
    have hchunkBytes : c.bytes artifacts.metadataChunk = bytes := by
      rw [hchunk]
      exact hstorage.put hput
    refine ⟨table, load_whole hcodec hvalid hdelta (hchunk ▸ hread hash (by simp))
      (by rw [hchunkBytes, hbytes]) ?_, rfl, rfl, .refl _⟩
    refine hlimit _ ?_
    rw [if_pos rfl, ← hchunk, hchunkBytes]
    exact hcodec.decompress hbytes

/-- Whatever loads from what `storeTable` stored is the table it was given. -/
theorem sameTable_of_loaded {loaded : MetadataChunk} (hlater : later.Ok c)
    (hstored : storeTable codec storage table bundles previous = .ok stored)
    (hchunk : artifacts.metadataChunk = stored.metadataChunk)
    (hdelta : artifacts.metadataDelta = stored.metadataDelta)
    (h : loadMetadata codec later artifacts = some loaded) : SameTable loaded table := by
  obtain ⟨hread, hlimit⟩ := stored_readable hcodec hstorage hlater hstored hchunk hdelta h
  obtain ⟨loaded', hloaded, hsame⟩ :=
    load_storeTable hcodec hstorage hvalid hstored hchunk hdelta hread hlimit
  obtain rfl := Option.some.inj (hloaded.symm.trans h)
  exact hsame

end Loads

/-- Every table a reader accepts loads again from what `storeTable` stored for it, up to the order of
its files, for any previous result, as long as what was stored is within the reader's limit. And a
delta between two such tables makes the second out of the first, for any frame map, while the frames
of the second can be numbered. -/
theorem stored_tables_load {codec : Codec} (hcodec : codec.Ok) :
    (∀ {c : Contents} {storage later : Storage} {table : MetadataChunk} {bundles : List String}
        {previous : Option (ClonepackArtifacts × List String)} {stored : StoredTable}
        {artifacts : ClonepackArtifacts}, storage.Ok c → table.validateGeometry = .ok () →
      storeTable codec storage table bundles previous = .ok stored →
      artifacts.metadataChunk = stored.metadataChunk →
      artifacts.metadataDelta = stored.metadataDelta →
      (∀ hash ∈ [stored.metadataChunk, stored.stored], later.get hash = .ok (c.bytes hash)) →
      (∀ plain, codec.decompress (c.bytes stored.stored) = .ok plain →
        plain.length ≤ maxMetadataBytes) →
      ∃ loaded, loadMetadata codec later artifacts = some loaded ∧ SameTable loaded table) ∧
    ∀ {base table : MetadataChunk} {map : List Nat}, base.validateGeometry = .ok () →
      table.validateGeometry = .ok () → map.length = base.frames.length →
      table.frames.length < 2 ^ 32 →
      ∃ delta rebuilt, MetadataDelta.between base map table = .ok delta ∧
        delta.apply base = .ok rebuilt ∧ SameTable rebuilt table := by
  constructor
  · intro c storage later table bundles previous stored artifacts hstorage hvalid hstored hchunk
      hdelta hread hlimit
    exact load_storeTable hcodec hstorage (validateGeometry_ok.mp hvalid) hstored hchunk hdelta
      hread hlimit
  · intro base table map hbase htable hmap hframes
    have hnodup := (validateGeometry_ok.mp hbase).nodup_paths
    have hvalid := validateGeometry_ok.mp htable
    exact ⟨changes base map table, _, between_ok hmap, apply_changes hnodup hvalid hframes hmap,
      rfl, rfl, rebuiltFiles_perm hnodup hvalid.nodup_paths⟩

/-! ## Tables of empty frames

A table of any number of frames that hold nothing, and one empty file on the last of them. -/

section EmptyFrames

def emptyFrame : FrameInfo := ⟨0, 0, 0, 0⟩

/-- The file `a`, with its fragment on frame `last`. -/
def emptyFile (last : Nat) : FileEntry where
  path := [0x61]
  mode := 0o100644
  blobSha1 := List.replicate 20 0
  fragments := [⟨last, 0, 0⟩]

def emptyFrames (n : Nat) : MetadataChunk where
  frames := List.replicate (n + 1) emptyFrame
  files := [emptyFile n]
  gitlinks := []

theorem checkFrames_empty (frameIdx n : Nat) :
    checkFrames frameIdx (some (0, 0)) (List.replicate n emptyFrame) = .ok () := by
  induction n generalizing frameIdx with
  | zero => rfl
  | succ n ih => exact ih (frameIdx + 1)

theorem emptyFrames_valid (n : Nat) : (emptyFrames n).Valid where
  files := by
    intro entry hentry
    obtain rfl := List.mem_singleton.mp hentry
    have hfragment : FragmentOk (emptyFrames n).frames ⟨n, 0, 0⟩ := by
      refine ⟨emptyFrame, ?_, Nat.two_pow_pos 32, Nat.zero_le 0⟩
      show (List.replicate (n + 1) emptyFrame)[n]? = some emptyFrame
      simp
    exact ⟨by simp [emptyFile, allowedModes], by simp [emptyFile], by rfl, by rfl,
      by simp [emptyFile], by simpa [emptyFile] using hfragment⟩
  gitlinks := fun path hpath => nomatch hpath
  paths := by simp [emptyFrames]
  frames := checkFrames_empty 1 n

/-- A frame takes a tag byte and a length byte at least. -/
theorem length_encode_emptyFrames (n : Nat) : 2 * (n + 1) ≤ (emptyFrames n).encode.length := by
  have hframes : (List.replicate (n + 1) emptyFrame).length * (1 + 1) ≤
      (Library.Wire.repeated 0x22 (fun frame : FrameInfo => Library.Wire.sized frame.encode)
        (List.replicate (n + 1) emptyFrame)).length := by
    refine Library.Wire.length_repeated fun frame _ => ?_
    have := List.length_pos_of_ne_nil (Library.Wire.varint_ne_nil frame.encode.length)
    rw [Library.Wire.sized, List.length_append]
    omega
  rw [List.length_replicate] at hframes
  rw [MetadataChunk.encode, List.length_append]
  show _ ≤ (Library.Wire.repeated 0x22 (fun frame : FrameInfo => Library.Wire.sized frame.encode)
        (List.replicate (n + 1) emptyFrame)).length + _
  omega

/-- A codec that undoes the writing and nothing else. -/
noncomputable def exactCodec : Codec where
  decodeChunk bytes := by
    classical
    exact if h : ∃ table : MetadataChunk, table.encode = bytes then .ok h.choose
      else .error "decode metadata chunk"
  decodeDelta bytes := by
    classical
    exact if h : ∃ delta : MetadataDelta, delta.encode = bytes then .ok h.choose
      else .error "decode metadata delta"
  compress bytes := .ok (zstdMagic ++ bytes)
  decompress bytes := if zstdMagic.isPrefixOf bytes then .ok (bytes.drop 4)
    else .error "unknown frame descriptor"

theorem exactCodec_ok : exactCodec.Ok where
  chunk := by
    intro table
    have h : ∃ other : MetadataChunk, other.encode = table.encode := ⟨table, rfl⟩
    exact (dif_pos h).trans (congrArg _ (MetadataChunk.encode_injective h.choose_spec))
  delta := by
    intro delta
    have h : ∃ other : MetadataDelta, other.encode = delta.encode := ⟨delta, rfl⟩
    exact (dif_pos h).trans (congrArg _ (MetadataDelta.encode_injective h.choose_spec))
  magic := by
    intro bytes compressed h
    obtain rfl := Except.ok.inj h
    simp
  decompress := by
    intro bytes compressed h
    obtain rfl := Except.ok.inj h
    simp [exactCodec, zstdMagic]

/-- Storage that has room for one object. -/
def oneObject (bytes : Bytes) : Storage where
  get hash := if hash = "table" then .ok bytes else .error "not found"
  put stored := if stored = bytes then .ok "table" else .error "disk full"
  getManifest _ := .error "not found"
  putManifest _ := .error "disk full"

def oneContents (bytes : Bytes) : Contents where
  bytes _ := bytes
  objects _ := ∅
  manifest _ := ⟨"", none, ⟨"", 0⟩, none, [], [], none, none⟩

theorem oneObject_ok (bytes : Bytes) : (oneObject bytes).Ok (oneContents bytes) where
  get := by
    intro hash read h
    simp only [oneObject] at h
    split at h
    · exact (Except.ok.inj h).symm
    · cases h
  put := by
    intro stored hash h
    simp only [oneObject] at h
    split at h
    · next hstored => exact hstored.symm
    · cases h
  put_ne := by
    intro stored hash h
    simp only [oneObject] at h
    split at h
    · rw [← Except.ok.inj h]
      decide
    · cases h
  getManifest := by
    intro hash manifest h
    cases h
  putManifest := by
    intro manifest hash h
    cases h

/-- The bytes a table of empty frames is stored as. -/
def storedFrames (n : Nat) : Bytes := zstdMagic ++ (emptyFrames n).encode

def storedFramesTable (n : Nat) : StoredTable :=
  ⟨"table", "", ⟨"table", (storedFrames n).length⟩, none, (storedFrames n).length⟩

/-- The result a build publishes for it. -/
def framesArtifacts : ClonepackArtifacts := ⟨"manifest", "table", "", "", "", "commit"⟩

theorem emptyFrames_stored (n : Nat) :
    storeTable exactCodec (oneObject (storedFrames n)) (emptyFrames n) [] none =
      .ok (storedFramesTable n) := by
  have hput : (oneObject (storedFrames n)).put (storedFrames n) = .ok "table" := if_pos rfl
  show ((oneObject (storedFrames n)).put (storedFrames n) >>= fun _ => _) = _
  rw [hput]
  rfl

/-- The smallest such table is stored and loads again, and a delta from it to itself rebuilds it. -/
theorem emptyFrames_load :
    (∃ loaded, loadMetadata exactCodec (oneObject (storedFrames 0)) framesArtifacts = some loaded ∧
      SameTable loaded (emptyFrames 0)) ∧
    ∃ delta rebuilt, MetadataDelta.between (emptyFrames 0) [1] (emptyFrames 0) = .ok delta ∧
      delta.apply (emptyFrames 0) = .ok rebuilt ∧ SameTable rebuilt (emptyFrames 0) := by
  have hvalid : (emptyFrames 0).validateGeometry = .ok () :=
    validateGeometry_ok.mpr (emptyFrames_valid 0)
  obtain ⟨hload, hdelta⟩ := stored_tables_load exactCodec_ok
  refine ⟨hload (oneObject_ok (storedFrames 0)) hvalid (emptyFrames_stored 0) rfl rfl ?_ ?_,
    hdelta hvalid hvalid rfl (by simp [emptyFrames])⟩
  · intro hash hhash
    have hname : hash = "table" := by simpa [storedFramesTable, StoredTable.stored] using hhash
    exact if_pos hname
  · intro plain hplain
    have hplain : (emptyFrames 0).encode = plain :=
      Except.ok.inj ((exactCodec_ok.decompress rfl).symm.trans hplain)
    rw [← hplain]
    with_unfolding_all decide

/-- A table over the reader's limit does not load. -/
theorem emptyFrames_tooLarge {n : Nat} (h : maxMetadataBytes < 2 * (n + 1)) :
    loadMetadata exactCodec (oneObject (storedFrames n)) framesArtifacts = none := by
  have hdecompressed : exactCodec.decompress (storedFrames n) = .ok (emptyFrames n).encode :=
    exactCodec_ok.decompress rfl
  have hlimit : exactCodec.decompressLimited (storedFrames n) = .error .tooLarge := by
    have hlen := length_encode_emptyFrames n
    rw [Codec.decompressLimited, hdecompressed]
    exact if_pos (by omega)
  have hmagic : zstdMagic.isPrefixOf (storedFrames n) = true := exactCodec_ok.magic rfl
  have hdecoded : exactCodec.decodeAndValidate (storedFrames n) = .error .tooLarge := by
    rw [Codec.decodeAndValidate, if_pos hmagic, hlimit]
    rfl
  have hread : (oneObject (storedFrames n)).get "table" = .ok (storedFrames n) := by
    simp [oneObject]
  simp [loadMetadata, loadArtifact, framesArtifacts, hread, hdecoded, Except.toOption]

/-- A map that drops the base's frame, and a table whose last frame's index plus one wraps to 0: the
entry counts as kept, and is refused for a dropped frame. -/
theorem emptyFrames_wraps {n : Nat} (h : (n + 1) % 2 ^ 32 = 0) :
    (changes (emptyFrames 0) [0] (emptyFrames n)).apply (emptyFrames 0) =
      .error (.droppedFrame [0x61]) := by
  have hkept : keptEntry (emptyFrames 0) [0] (emptyFile n) = true := by
    have hfragment : keptFragment [0] ⟨0, 0, 0⟩ ⟨n, 0, 0⟩ = true :=
      decide_eq_true ⟨congrArg some h.symm, rfl, rfl⟩
    simp [keptEntry, entryAt, emptyFrames, emptyFile, hfragment]
  have hnone : (changes (emptyFrames 0) [0] (emptyFrames n)).files = [] := by
    show [emptyFile n].filter (fun f => !keptEntry (emptyFrames 0) [0] f) = []
    simp [hkept]
  have hkeep : (emptyFile 0).path ∉ (changes (emptyFrames 0) [0] (emptyFrames n)).removed := by
    rw [mem_removed (List.mem_singleton.mpr rfl), not_not]
    exact List.mem_singleton.mpr rfl
  have hentry : (changes (emptyFrames 0) [0] (emptyFrames n)).applyEntry (emptyFile 0) =
      .error (.droppedFrame [0x61]) := by
    rw [MetadataDelta.applyEntry, if_neg hkeep, hnone]
    rfl
  have hentries : (emptyFrames 0).files.mapM
      (changes (emptyFrames 0) [0] (emptyFrames n)).applyEntry =
      .error (.droppedFrame [0x61]) := by
    show [emptyFile 0].mapM _ = _
    rw [List.mapM_cons, hentry]
    rfl
  rw [MetadataDelta.apply, hentries]
  rfl

/-- With `2 ^ 32` frames the table is stored and does not load, since it is larger than a reader
accepts; and the frame map that drops the base's one frame makes a delta that does not apply, since
the last frame's index plus one is no 32-bit number. -/
theorem large_table_not_loaded :
    (emptyFrames (2 ^ 32 - 1)).validateGeometry = .ok () ∧
    (emptyFrames 0).validateGeometry = .ok () ∧
    storeTable exactCodec (oneObject (storedFrames (2 ^ 32 - 1))) (emptyFrames (2 ^ 32 - 1)) [] none
      = .ok (storedFramesTable (2 ^ 32 - 1)) ∧
    loadMetadata exactCodec (oneObject (storedFrames (2 ^ 32 - 1))) framesArtifacts = none ∧
    ∃ delta, MetadataDelta.between (emptyFrames 0) [0] (emptyFrames (2 ^ 32 - 1)) = .ok delta ∧
      delta.apply (emptyFrames 0) = .error (.droppedFrame [0x61]) :=
  ⟨validateGeometry_ok.mpr (emptyFrames_valid _), validateGeometry_ok.mpr (emptyFrames_valid _),
    emptyFrames_stored _, emptyFrames_tooLarge (by decide), _, between_ok rfl,
    emptyFrames_wraps (by decide)⟩

end EmptyFrames

end Ripclone.Server
