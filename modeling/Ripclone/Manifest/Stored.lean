import Ripclone.Library.Wire
import Ripclone.Manifest.Delta

/-!
# Tables as stored bytes

A table or a delta is stored as its protobuf, compressed. The protobuf is spelled out, and no two
tables have the same one; reading it back and zstd are a `Codec`, which is relied on to undo the
writing (`Codec.Ok`). A reader accepts no more than `maxMetadataBytes` decompressed.
-/

namespace Ripclone

open Ripclone.Library Ripclone.Library.Wire

/-! ## The protobuf -/

def FrameInfo.encode (frame : FrameInfo) : Bytes :=
  repeated 0x08 varint (present 0 frame.chunkIndex) ++
    (repeated 0x10 varint (present 0 frame.chunkOffset) ++
      (repeated 0x18 varint (present 0 frame.compressedLen) ++
        repeated 0x20 varint (present 0 frame.rawLen)))

def Fragment.encode (fragment : Fragment) : Bytes :=
  repeated 0x08 varint (present 0 fragment.frameIndex) ++
    (repeated 0x10 varint (present 0 fragment.frameOffset) ++
      repeated 0x18 varint (present 0 fragment.rawLen))

def FileEntry.encode (entry : FileEntry) : Bytes :=
  repeated 0x0a sized (present [] entry.path) ++
    (repeated 0x10 varint (present 0 entry.mode) ++
      (repeated 0x1a sized (present [] entry.blobSha1) ++
        repeated 0x22 (fun fragment => sized fragment.encode) entry.fragments))

def MetadataChunk.encode (table : MetadataChunk) : Bytes :=
  repeated 0x22 (fun frame => sized frame.encode) table.frames ++
    (repeated 0x2a (fun entry => sized entry.encode) table.files ++
      repeated 0x32 sized table.gitlinks)

/-- Numbers of a repeated field stand packed in one value. -/
def packed (numbers : List Nat) : Bytes := numbers.flatMap varint

def MetadataDelta.encode (delta : MetadataDelta) : Bytes :=
  repeated 0x0a (fun frame => sized frame.encode) delta.frames ++
    (repeated 0x12 (fun numbers => sized (packed numbers)) (present [] delta.baseFrames) ++
      (repeated 0x1a (fun entry => sized entry.encode) delta.files ++
        (repeated 0x22 sized delta.removed ++ repeated 0x2a sized delta.gitlinks)))

theorem sized_id_delimited : Delimited sized := sized_delimited Function.injective_id

theorem FrameInfo.encode_injective : Function.Injective FrameInfo.encode := by
  intro a b h
  have hrest : ∀ frame : FrameInfo, (repeated 0x10 varint (present 0 frame.chunkOffset) ++
      (repeated 0x18 varint (present 0 frame.compressedLen) ++
        repeated 0x20 varint (present 0 frame.rawLen))).head? ≠ some 0x08 := fun frame =>
    head?_repeated_append (by decide) (head?_repeated_append (by decide) (head?_repeated (by decide)))
  obtain ⟨hindex, h⟩ := repeated_inj varint_delimited (hrest a) (hrest b) h
  have hrest : ∀ frame : FrameInfo, (repeated 0x18 varint (present 0 frame.compressedLen) ++
      repeated 0x20 varint (present 0 frame.rawLen)).head? ≠ some 0x10 := fun frame =>
    head?_repeated_append (by decide) (head?_repeated (by decide))
  obtain ⟨hoffset, h⟩ := repeated_inj varint_delimited (hrest a) (hrest b) h
  obtain ⟨hlen, h⟩ := repeated_inj varint_delimited (head?_repeated (by decide))
    (head?_repeated (by decide)) h
  have hraw := repeated_inj_last varint_delimited h
  cases a
  cases b
  simp only [FrameInfo.mk.injEq]
  exact ⟨present_injective hindex, present_injective hoffset, present_injective hlen,
    present_injective hraw⟩

theorem Fragment.encode_injective : Function.Injective Fragment.encode := by
  intro a b h
  have hrest : ∀ fragment : Fragment, (repeated 0x10 varint (present 0 fragment.frameOffset) ++
      repeated 0x18 varint (present 0 fragment.rawLen)).head? ≠ some 0x08 := fun fragment =>
    head?_repeated_append (by decide) (head?_repeated (by decide))
  obtain ⟨hindex, h⟩ := repeated_inj varint_delimited (hrest a) (hrest b) h
  obtain ⟨hoffset, h⟩ := repeated_inj varint_delimited (head?_repeated (by decide))
    (head?_repeated (by decide)) h
  have hraw := repeated_inj_last varint_delimited h
  cases a
  cases b
  simp only [Fragment.mk.injEq]
  exact ⟨present_injective hindex, present_injective hoffset, present_injective hraw⟩

theorem FileEntry.encode_injective : Function.Injective FileEntry.encode := by
  intro a b h
  have hrest : ∀ entry : FileEntry, (repeated 0x10 varint (present 0 entry.mode) ++
      (repeated 0x1a sized (present [] entry.blobSha1) ++
        repeated 0x22 (fun fragment => sized fragment.encode) entry.fragments)).head? ≠
      some 0x0a := fun entry =>
    head?_repeated_append (by decide) (head?_repeated_append (by decide) (head?_repeated (by decide)))
  obtain ⟨hpath, h⟩ := repeated_inj sized_id_delimited (hrest a) (hrest b) h
  have hrest : ∀ entry : FileEntry, (repeated 0x1a sized (present [] entry.blobSha1) ++
      repeated 0x22 (fun fragment => sized fragment.encode) entry.fragments).head? ≠
      some 0x10 := fun entry =>
    head?_repeated_append (by decide) (head?_repeated (by decide))
  obtain ⟨hmode, h⟩ := repeated_inj varint_delimited (hrest a) (hrest b) h
  obtain ⟨hblob, h⟩ := repeated_inj sized_id_delimited (head?_repeated (by decide))
    (head?_repeated (by decide)) h
  have hfragments := repeated_inj_last (sized_delimited Fragment.encode_injective) h
  cases a
  cases b
  simp only [FileEntry.mk.injEq]
  exact ⟨present_injective hpath, present_injective hmode, present_injective hblob, hfragments⟩

/-- No two tables have the same protobuf. -/
theorem MetadataChunk.encode_injective : Function.Injective MetadataChunk.encode := by
  intro a b h
  have hrest : ∀ table : MetadataChunk, (repeated 0x2a (fun entry => sized entry.encode)
      table.files ++ repeated 0x32 sized table.gitlinks).head? ≠ some 0x22 := fun table =>
    head?_repeated_append (by decide) (head?_repeated (by decide))
  obtain ⟨hframes, h⟩ :=
    repeated_inj (sized_delimited FrameInfo.encode_injective) (hrest a) (hrest b) h
  obtain ⟨hfiles, h⟩ := repeated_inj (sized_delimited FileEntry.encode_injective)
    (head?_repeated (by decide)) (head?_repeated (by decide)) h
  have hgitlinks := repeated_inj_last sized_id_delimited h
  cases a
  cases b
  simp only [MetadataChunk.mk.injEq]
  exact ⟨hframes, hfiles, hgitlinks⟩

theorem packed_injective : Function.Injective packed :=
  flatMap_injective varint_delimited varint_ne_nil

theorem MetadataDelta.encode_injective : Function.Injective MetadataDelta.encode := by
  intro a b h
  have hrest : ∀ delta : MetadataDelta, (repeated 0x12 (fun numbers => sized (packed numbers))
      (present [] delta.baseFrames) ++ (repeated 0x1a (fun entry => sized entry.encode) delta.files ++
        (repeated 0x22 sized delta.removed ++ repeated 0x2a sized delta.gitlinks))).head? ≠
      some 0x0a := fun delta =>
    head?_repeated_append (by decide) (head?_repeated_append (by decide)
      (head?_repeated_append (by decide) (head?_repeated (by decide))))
  obtain ⟨hframes, h⟩ :=
    repeated_inj (sized_delimited FrameInfo.encode_injective) (hrest a) (hrest b) h
  have hrest : ∀ delta : MetadataDelta, (repeated 0x1a (fun entry => sized entry.encode)
      delta.files ++ (repeated 0x22 sized delta.removed ++
        repeated 0x2a sized delta.gitlinks)).head? ≠ some 0x12 := fun delta =>
    head?_repeated_append (by decide) (head?_repeated_append (by decide) (head?_repeated (by decide)))
  obtain ⟨hmap, h⟩ := repeated_inj (sized_delimited packed_injective) (hrest a) (hrest b) h
  have hrest : ∀ delta : MetadataDelta, (repeated 0x22 sized delta.removed ++
      repeated 0x2a sized delta.gitlinks).head? ≠ some 0x1a := fun delta =>
    head?_repeated_append (by decide) (head?_repeated (by decide))
  obtain ⟨hfiles, h⟩ :=
    repeated_inj (sized_delimited FileEntry.encode_injective) (hrest a) (hrest b) h
  obtain ⟨hremoved, h⟩ := repeated_inj sized_id_delimited (head?_repeated (by decide))
    (head?_repeated (by decide)) h
  have hgitlinks := repeated_inj_last sized_id_delimited h
  cases a
  cases b
  simp only [MetadataDelta.mk.injEq]
  exact ⟨hframes, present_injective hmap, hfiles, hremoved, hgitlinks⟩

/-! ## Reading and writing -/

/-- Reading protobuf back, and zstd. -/
structure Codec where
  decodeChunk (bytes : Bytes) : Except String MetadataChunk
  decodeDelta (bytes : Bytes) : Except String MetadataDelta
  compress (bytes : Bytes) : Except String Bytes
  decompress (bytes : Bytes) : Except String Bytes

def zstdMagic : Bytes := [0x28, 0xb5, 0x2f, 0xfd]

/-- Largest decompressed metadata chunk or delta a reader accepts. -/
def maxMetadataBytes : Nat := 2 ^ 30

/-- What is written reads back. -/
structure Codec.Ok (codec : Codec) : Prop where
  chunk : ∀ table : MetadataChunk, codec.decodeChunk table.encode = .ok table
  delta : ∀ delta : MetadataDelta, codec.decodeDelta delta.encode = .ok delta
  magic : ∀ {bytes compressed}, codec.compress bytes = .ok compressed →
    zstdMagic.isPrefixOf compressed = true
  decompress : ∀ {bytes compressed}, codec.compress bytes = .ok compressed →
    codec.decompress compressed = .ok bytes

inductive DecodeError where
  /-- "open …", "decompress …" or "decode …" of a metadata chunk or delta. -/
  | codec (error : String)
  /-- "metadata chunk is larger than … bytes", or "metadata delta …". -/
  | tooLarge
  | geometry (error : GeometryError)
  deriving DecidableEq, Repr

namespace Codec

variable (codec : Codec)

def decompressLimited (bytes : Bytes) : Except DecodeError Bytes := do
  let plain ← (codec.decompress bytes).mapError .codec
  if maxMetadataBytes < plain.length then throw .tooLarge else return plain

def decodeValid (plain : Bytes) : Except DecodeError MetadataChunk := do
  let table ← (codec.decodeChunk plain).mapError .codec
  table.validateGeometry.mapError .geometry
  return table

/-- A metadata chunk, stored compressed or as plain protobuf. -/
def decodeAndValidate (bytes : Bytes) : Except DecodeError MetadataChunk :=
  if zstdMagic.isPrefixOf bytes then do
    let plain ← codec.decompressLimited bytes
    codec.decodeValid plain
  else codec.decodeValid bytes

/-- A stored delta. -/
def decodeStored (bytes : Bytes) : Except DecodeError MetadataDelta := do
  let plain ← codec.decompressLimited bytes
  (codec.decodeDelta plain).mapError .codec

variable {codec}

theorem decompressLimited_compress (hok : codec.Ok) {plain bytes : Bytes}
    (h : codec.compress plain = .ok bytes) (hlen : plain.length ≤ maxMetadataBytes) :
    codec.decompressLimited bytes = .ok plain := by
  rw [decompressLimited, hok.decompress h]
  show (if maxMetadataBytes < plain.length then _ else _) = _
  rw [if_neg (Nat.not_lt.mpr hlen)]
  rfl

/-- A valid table within the limit reads back. -/
theorem decodeAndValidate_compress (hok : codec.Ok) {table : MetadataChunk} {bytes : Bytes}
    (hvalid : table.Valid) (h : codec.compress table.encode = .ok bytes)
    (hlen : table.encode.length ≤ maxMetadataBytes) :
    codec.decodeAndValidate bytes = .ok table := by
  rw [decodeAndValidate, if_pos (hok.magic h)]
  refine bind_eq_ok.mpr ⟨table.encode, decompressLimited_compress hok h hlen, ?_⟩
  refine bind_eq_ok.mpr ⟨table, mapError_eq_ok.mpr (hok.chunk table), ?_⟩
  exact bind_unit_eq_ok.mpr ⟨mapError_eq_ok.mpr (validateGeometry_ok.mpr hvalid), rfl⟩

theorem decodeStored_compress (hok : codec.Ok) {delta : MetadataDelta} {bytes : Bytes}
    (h : codec.compress delta.encode = .ok bytes)
    (hlen : delta.encode.length ≤ maxMetadataBytes) : codec.decodeStored bytes = .ok delta := by
  rw [decodeStored, decompressLimited_compress hok h hlen]
  show (codec.decodeDelta delta.encode).mapError _ = _
  rw [hok.delta]
  rfl

/-- What a reader returns is valid. -/
theorem decodeAndValidate_valid {bytes : Bytes} {table : MetadataChunk}
    (h : codec.decodeAndValidate bytes = .ok table) : table.Valid := by
  have hvalid : ∀ {plain}, codec.decodeValid plain = .ok table → table.Valid := by
    intro plain h
    obtain ⟨decoded, _, h⟩ := bind_eq_ok.mp h
    obtain ⟨hgeometry, h⟩ := bind_unit_eq_ok.mp h
    obtain rfl := pure_eq_ok.mp h
    exact validateGeometry_ok.mp (mapError_eq_ok.mp hgeometry)
  rw [decodeAndValidate] at h
  split at h
  · obtain ⟨plain, _, h⟩ := bind_eq_ok.mp h
    exact hvalid h
  · exact hvalid h

end Codec

end Ripclone
