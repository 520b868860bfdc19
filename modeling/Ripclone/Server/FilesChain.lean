import Ripclone.Library.Run
import Ripclone.Server.FilesBuild

/-!
# Chains of Files builds

What every chain keeps: the frames of a published archive hold raw bytes over which each file of its
table is exact, and whatever a later build reads back for the table is that table, with its files in
another order perhaps. A tail finds a file's fragments by its blob, so the order is nothing to it. A
compaction that makes a plan takes each file to start where the one before it in the list ends.
-/

namespace Ripclone.Server

open Ripclone.Library Ripclone.Pack Ripclone.Archive

section Chain

variable (c : Contents) (codec : Codec) (tools : Tools) (blobOf : Bytes → Bytes)

/-- The fragments of every file of the table, over the decompressed frames of the published bundles,
make up its blob. -/
def TableExact (files : FilesResult) (table : MetadataChunk) : Prop :=
  ∃ raws, archiveRaws c.bytes tools files.archiveChunks table.frames = .ok raws ∧
    ∀ file ∈ table.files, Exact blobOf raws file

/-- The table lists its files in the order of the archive's stream. -/
def InStreamOrder (base : ArchiveBase) : Prop :=
  (archiveRaws c.bytes tools base.bundles base.metadata.frames).map List.flatten =
    .ok (base.metadata.files.map fun file => blobOf file.blobSha1).flatten

/-- The files of the archive's table are exact over its frames. -/
def OutputExact (output : ArchiveBuildOutput) : Prop :=
  ∃ raws, FramesHold c.bytes tools output.downloadBundleHashes output.metadata.frames
      output.archiveFrames raws ∧ ∀ file ∈ output.metadata.files, Exact blobOf raws file

/-- A compaction that makes a plan has a base in stream order, and a tail's frames can be numbered
together with its base's. -/
structure FilesBuild.Fine (build : FilesBuild) : Prop where
  compaction : ∀ {base index blobs gitlinks planned}, build.base codec = some base →
    build.previous.any addsTail = false →
    collectBlobs build.mirror build.commit = .ok (blobs, gitlinks) →
    BaseIndex.new base = .ok index →
    planIncremental build.mirror index Archive.cdc blobs = .ok (some planned) →
    InStreamOrder c tools blobOf base
  tail : ∀ {base blobs gitlinks}, build.base codec = some base →
    build.previous.any addsTail = true →
    collectBlobs build.mirror build.commit = .ok (blobs, gitlinks) →
    (stream blobOf (ArchiveBuilder.tailBlobs base [] blobs)).length / Archive.cdc.min + 1 +
      base.metadata.frames.length ≤ 2 ^ 32

/-- What a published result keeps. -/
structure PublishedFiles.Ok (published : PublishedFiles) : Prop where
  frames : ∃ raws, FramesHold c.bytes tools published.files.archiveChunks published.table.frames
    published.files.archiveFrames raws ∧ ∀ file ∈ published.table.files, Exact blobOf raws file
  valid : published.table.Valid
  loads : ∀ {storage loaded}, Storage.Ok c storage →
    loadMetadata codec storage published.files.clonepack = some loaded →
    SameTable loaded published.table

/-- Every result is in order, and so is the compact archive it names. -/
structure ChainOk (s : List PublishedFiles) : Prop where
  published : ∀ published ∈ s, published.Ok c codec tools blobOf
  compact : ∀ published ∈ s, ∀ compact ∈ published.files.compact,
    ∃ earlier ∈ s, earlier.files = compact

variable {c codec tools blobOf}

theorem PublishedFiles.Ok.tableExact {published : PublishedFiles} (h : published.Ok c codec tools blobOf) :
    TableExact c tools blobOf published.files published.table := by
  obtain ⟨raws, hframes, hfiles⟩ := h.frames
  exact ⟨raws, hframes.archiveRaws, hfiles⟩

/-- What loads for a published table is exact too. -/
theorem TableExact.of_sameTable {files : FilesResult} {table loaded : MetadataChunk}
    (h : TableExact c tools blobOf files table) (hsame : SameTable loaded table) :
    TableExact c tools blobOf files loaded := by
  obtain ⟨raws, hraws, hfiles⟩ := h
  refine ⟨raws, hsame.frames ▸ hraws, fun file hfile => ?_⟩
  exact hfiles file (hsame.files.mem_iff.mp hfile)

/-- A published result, read back, is a base whose files are exact. -/
theorem PublishedFiles.Ok.base {published : PublishedFiles} {loaded : MetadataChunk}
    (h : published.Ok c codec tools blobOf) (hsame : SameTable loaded published.table) :
    ∃ raws, ArchiveBase.Holds c.bytes tools
        ⟨published.files.archiveFrames, loaded, published.files.archiveChunks⟩ raws ∧
      ∀ file ∈ loaded.files, Exact blobOf raws file := by
  obtain ⟨raws, hframes, hfiles⟩ := h.frames
  have hvalid : loaded.Valid := h.valid.perm hsame.frames hsame.gitlinks hsame.files
  refine ⟨raws, ⟨?_, validateGeometry_ok.mpr hvalid⟩, fun file hfile => ?_⟩
  · show FramesHold c.bytes tools published.files.archiveChunks loaded.frames _ raws
    rw [hsame.frames]
    exact hframes
  · exact hfiles file (hsame.files.mem_iff.mp hfile)

section Builds

variable {s : List PublishedFiles} {build : FilesBuild} {output : ArchiveBuildOutput}

/-- The compact archive of a published result is published. -/
theorem ChainOk.compactOf {previous : FilesResult} (h : ChainOk c codec tools blobOf s)
    (hprevious : ∀ previous ∈ build.previous, ∃ published ∈ s, published.files = previous)
    (hsome : previous ∈ build.previous) :
    ∃ earlier ∈ s, earlier.files = compactOf previous := by
  obtain ⟨published, hpublished, rfl⟩ := hprevious previous hsome
  unfold Server.compactOf
  cases hcompact : published.files.compact with
  | none => exact ⟨published, hpublished, rfl⟩
  | some compact => exact h.compact published hpublished compact hcompact

theorem ChainOk.baseFiles {previous : FilesResult} (h : ChainOk c codec tools blobOf s)
    (hprevious : ∀ previous ∈ build.previous, ∃ published ∈ s, published.files = previous)
    (hsome : previous ∈ build.previous) :
    ∃ earlier ∈ s, earlier.files = baseFiles previous := by
  unfold Server.baseFiles
  split
  · exact hprevious previous hsome
  · exact h.compactOf hprevious hsome

variable  (htools : tools.Ok c.bytes) (hstorage : build.storage.Ok c)

include hstorage in
/-- The base of a build on a published result holds frames over which its files are exact. -/
theorem ChainOk.base {base : ArchiveBase} (h : ChainOk c codec tools blobOf s)
    (hprevious : ∀ previous ∈ build.previous, ∃ published ∈ s, published.files = previous)
    (hbase : build.base codec = some base) :
    ∃ raws, base.Holds c.bytes tools raws ∧
      ∀ file ∈ base.metadata.files, Exact blobOf raws file := by
  obtain ⟨previous, hsome, hbase⟩ := Option.bind_eq_some_iff.mp hbase
  obtain ⟨loaded, hloaded, hbase⟩ := Option.bind_eq_some_iff.mp hbase
  obtain rfl := Option.some.inj hbase
  obtain ⟨earlier, hearlier, hfiles⟩ := h.baseFiles hprevious hsome
  rw [← hfiles] at hloaded ⊢
  have hok := h.published earlier hearlier
  exact hok.base (hok.loads hstorage hloaded)

/-- Frames that hold `raws`, with exact files in the stream's order. -/
theorem streamOrder_of_inStreamOrder {base : ArchiveBase} {raws : List Bytes}
    (hbase : base.Holds c.bytes tools raws)
    (hexact : ∀ file ∈ base.metadata.files, Exact blobOf raws file)
    (horder : InStreamOrder c tools blobOf base) : base.StreamOrder blobOf raws := by
  refine ⟨fun file hfile => sum_rawLen_eq (hexact file hfile), ?_⟩
  rw [InStreamOrder, hbase.frames.archiveRaws] at horder
  exact (Except.ok.inj horder).symm

/-- Frames of at least the least size over so many bytes can be numbered after the base's. -/
theorem numbered {n len count : Nat} (hn : (n - 1) * Archive.cdc.min ≤ len)
    (hroom : len / Archive.cdc.min + 1 + count ≤ 2 ^ 32) : n + count ≤ 2 ^ 32 := by
  have hmin : 0 < Archive.cdc.min := by decide
  have := (Nat.le_div_iff_mul_le hmin).mpr hn
  omega

include htools

theorem archive_cold (hmirror : build.mirror.Ok blobOf)
    (hbuilt : (ArchiveBuilder.new build.mirror).buildIntoCas tools build.cas build.commit none
      defaultArchiveChunkSize = .ok output) : OutputExact c tools blobOf output := by
  obtain ⟨⟨blobs, gitlinks⟩, hwalk, _⟩ := bind_eq_ok.mp hbuilt
  obtain ⟨raws, hok⟩ := buildIntoCas_none htools hmirror hwalk hbuilt
  exact ⟨raws, hok.frames, hok.exact⟩

include hstorage

/-- Whichever way the archive is built, its files are exact. -/
theorem archive_ok (h : ChainOk c codec tools blobOf s)
    (hmirror : build.mirror.Ok blobOf) (hfine : build.Fine c codec tools blobOf)
    (hprevious : ∀ previous ∈ build.previous, ∃ published ∈ s, published.files = previous)
    (houtput : build.archive codec tools = .ok output) :
    OutputExact c tools blobOf output := by
  unfold FilesBuild.archive at houtput
  split at houtput
  · exact archive_cold htools hmirror houtput
  · next base hbase =>
      obtain ⟨raws, hholds, hexact⟩ := h.base hstorage hprevious hbase
      dsimp only at houtput
      split at houtput
      · next htail =>
          split at houtput
          · next built hbuilt =>
              obtain rfl := pure_eq_ok.mp houtput
              obtain ⟨⟨blobs, gitlinks⟩, hwalk, _⟩ := bind_eq_ok.mp hbuilt
              obtain ⟨raws', hframes, hfiles⟩ := buildTailIntoCas_ok htools hmirror hholds hexact
                hwalk (fun n hn => numbered hn (hfine.tail hbase htail hwalk)) hbuilt
              refine ⟨raws', hframes, fun file hfile => ?_⟩
              obtain ⟨blob, _, hentry⟩ := forall₂_mem hfiles.flip hfile
              exact hentry.2
          · exact archive_cold htools hmirror houtput
      · next htail =>
          have htail : build.previous.any addsTail = false := by simpa using htail
          obtain ⟨⟨blobs, gitlinks⟩, hwalk, _⟩ := bind_eq_ok.mp houtput
          have hbaseOk : ∀ archive, some base = some archive →
              archive.Holds c.bytes tools raws ∧ ∀ index planned, BaseIndex.new archive = .ok index →
                planIncremental build.mirror index Archive.cdc blobs = .ok (some planned) →
                archive.StreamOrder blobOf raws := by
            rintro archive ⟨⟩
            refine ⟨hholds, fun index planned hindex hplanned => ?_⟩
            exact streamOrder_of_inStreamOrder hholds hexact
              (hfine.compaction hbase htail hwalk hindex hplanned)
          obtain ⟨raws', hok⟩ := buildIntoCas_ok htools hmirror hbaseOk hwalk houtput
          exact ⟨raws', hok.frames, hok.exact⟩

end Builds

/-- A chunk list is made for valid tables only. -/
theorem archiveChunkRefs_valid {hashes : List String} {table : MetadataChunk} {refs : List ChunkRef}
    (h : archiveChunkRefs hashes table = .ok refs) : table.Valid := by
  obtain ⟨lengths, hlengths, _⟩ := bind_eq_ok.mp h
  obtain ⟨hgeometry, _⟩ := bind_unit_eq_ok.mp hlengths
  exact validateGeometry_ok.mp (mapError_eq_ok.mp hgeometry)

/-- What a build publishes is in order when its archive is. -/
theorem publish_ok {build : FilesBuild} {output : ArchiveBuildOutput} {files : FilesResult}
    (hcodec : codec.Ok) (hstorage : build.storage.Ok c) (hexact : OutputExact c tools blobOf output)
    (h : build.publish codec output = .ok files) :
    PublishedFiles.Ok c codec tools blobOf ⟨files, output.metadata⟩ ∧
      ∀ compact ∈ files.compact, ∃ previous ∈ build.previous, compactOf previous = compact := by
  obtain ⟨table, htable, h⟩ := bind_eq_ok.mp h
  obtain ⟨refs, hrefs, h⟩ := bind_eq_ok.mp h
  obtain ⟨manifest, _, h⟩ := bind_eq_ok.mp h
  obtain rfl := pure_eq_ok.mp h
  have hvalid := archiveChunkRefs_valid hrefs
  refine ⟨⟨hexact, hvalid, fun hlater hloaded => ?_⟩, fun compact hcompact => ?_⟩
  · exact sameTable_of_loaded hcodec hstorage hvalid hlater (mapError_eq_ok.mp htable) rfl rfl
      hloaded
  · dsimp only at hcompact
    split at hcompact
    · exact Option.map_eq_some_iff.mp hcompact
    · cases hcompact

theorem ChainOk.step {s s' : List PublishedFiles} {build : FilesBuild} (htools : tools.Ok c.bytes)
    (hcodec : codec.Ok) (hstorage : build.storage.Ok c) (hmirror : build.mirror.Ok blobOf)
    (hfine : build.Fine c codec tools blobOf) (h : ChainOk c codec tools blobOf s)
    (hstep : FilesStep codec tools s build s') : ChainOk c codec tools blobOf s' := by
  cases hstep with
  | failed _ => exact h
  | @built output files hprevious harchive hpublish =>
      have hexact := archive_ok htools hstorage h hmirror hfine hprevious harchive
      obtain ⟨hok, hcompact⟩ := publish_ok hcodec hstorage hexact hpublish
      constructor
      · intro published hpublished
        rcases List.mem_append.mp hpublished with hearlier | hlast
        · exact h.published published hearlier
        · obtain rfl := List.mem_singleton.mp hlast
          exact hok
      · intro published hpublished compact hnamed
        rcases List.mem_append.mp hpublished with hearlier | hlast
        · obtain ⟨earlier, hmem, hfiles⟩ := h.compact published hearlier compact hnamed
          exact ⟨earlier, List.mem_append_left _ hmem, hfiles⟩
        · obtain rfl := List.mem_singleton.mp hlast
          obtain ⟨previous, hsome, rfl⟩ := hcompact compact hnamed
          obtain ⟨earlier, hmem, hfiles⟩ := h.compactOf hprevious hsome
          exact ⟨earlier, List.mem_append_left _ hmem, hfiles⟩

end Chain

/-- In every chain of builds whose compactions plan on bases in stream order and whose tails can be
numbered, every published table is exact, and so is every table a later build or a client reads back
for it. -/
theorem published_tables_exact {c : Contents} {codec : Codec} {tools : Tools}
    {blobOf : Bytes → Bytes} {builds : List FilesBuild} {s : List PublishedFiles}
    (htools : tools.Ok c.bytes) (hcodec : codec.Ok)
    (hcalls : ∀ build ∈ builds, build.storage.Ok c ∧ build.mirror.Ok blobOf)
    (hfine : ∀ build ∈ builds, build.Fine c codec tools blobOf)
    (hrun : Run (FilesStep codec tools) [] builds s) :
    ∀ published ∈ s, TableExact c tools blobOf published.files published.table ∧
      ∀ {storage loaded}, Storage.Ok c storage →
        loadMetadata codec storage published.files.clonepack = some loaded →
        TableExact c tools blobOf published.files loaded := by
  have hinit : ChainOk c codec tools blobOf [] := by
    constructor <;> intro published hpublished <;> cases hpublished
  have hchain : ChainOk c codec tools blobOf s := by
    have hall := fun build hbuild => And.intro (hcalls build hbuild) (hfine build hbuild)
    refine hrun.invariant hinit ?_ hall
    rintro build s s' ⟨⟨hstorage, hmirror⟩, hfine⟩ h hstep
    exact h.step htools hcodec hstorage hmirror hfine hstep
  intro published hpublished
  have hok := hchain.published published hpublished
  refine ⟨hok.tableExact, fun hstorage hloaded => ?_⟩
  exact hok.tableExact.of_sameTable (hok.loads hstorage hloaded)

/-! ### A cold build and a tail -/

/-- The table of the first commit. -/
def firstTable : MetadataChunk where
  frames := [⟨0, 0, 9, 8⟩]
  files := [⟨[0x61], 0o100644, sampleId 1, [⟨0, 0, 4⟩]⟩, ⟨[0x62], 0o100644, sampleId 2, [⟨0, 4, 4⟩]⟩]
  gitlinks := []

/-- The table of the second commit, whose second file is in the tail. -/
def secondTable : MetadataChunk where
  frames := [⟨0, 0, 9, 8⟩, ⟨1, 0, 5, 4⟩]
  files := [⟨[0x61], 0o100644, sampleId 1, [⟨0, 0, 4⟩]⟩, ⟨[0x62], 0o100644, sampleId 3, [⟨1, 0, 4⟩]⟩]
  gitlinks := []

/-- The first bundle and the tail's, with their lengths. -/
def firstBundle : ChunkRef := ⟨plainTools.hash [0, 1, 2, 3, 4, 5, 6, 7, 8], 9⟩
def tailBundle : ChunkRef := ⟨plainTools.hash [0, 9, 8, 7, 6], 5⟩

/-- What a stored table's chunk is called. -/
def tableRef (table : MetadataChunk) : ChunkRef :=
  ⟨plainTools.hash (zstdMagic ++ table.encode), (zstdMagic ++ table.encode).length⟩

def sampleManifest (commit : String) : ClonepackManifest :=
  if commit = "first" then makeManifest commit none [firstBundle] (tableRef firstTable) none [] none none
  else makeManifest commit (some "first") [firstBundle, tailBundle] (tableRef secondTable) none [] none none

/-- Storage that names bytes by themselves, and a manifest by its commit. -/
def namedStorage : Storage where
  get hash := return bytesNamed hash
  put bytes := return plainTools.hash bytes
  getManifest commit := return sampleManifest commit
  putManifest manifest :=
    if manifest = sampleManifest manifest.commit then return manifest.commit else throw "disk full"

def namedContents : Contents where
  bytes := bytesNamed
  objects _ := ∅
  manifest := sampleManifest

theorem namedStorage_ok : namedStorage.Ok namedContents where
  get := fun h => (pure_eq_ok.mp h).symm
  put := by
    intro bytes hash h
    obtain rfl := pure_eq_ok.mp h
    exact plainTools_ok.hash bytes
  put_ne := by
    intro bytes hash h hempty
    obtain rfl := pure_eq_ok.mp h
    have hnil := plainTools_ok.hash bytes
    rw [hempty] at hnil
    obtain rfl : [] = bytes := hnil
    exact absurd hempty (by with_unfolding_all decide)
  getManifest := fun h => (pure_eq_ok.mp h).symm
  putManifest := by
    intro manifest hash h
    simp only [namedStorage] at h
    split at h
    · next hnamed =>
        obtain rfl := pure_eq_ok.mp h
        exact hnamed.symm
    · cases h

def firstFrame : ArchiveFrame := ⟨plainTools.hash [1, 2, 3, 4, 5, 6, 7, 8], firstBundle.hash, 9, 8⟩

def firstOutput : ArchiveBuildOutput where
  downloadBundleHashes := [firstBundle.hash]
  newBundleHashes := [firstBundle.hash]
  metadata := firstTable
  archiveFrames := [firstFrame]
  incremental := false
  tail := false

def firstFiles : FilesResult where
  clonepack := ⟨"first", (tableRef firstTable).hash, "", "", "", "first"⟩
  archiveChunks := [firstBundle.hash]
  archiveFrames := [firstFrame]
  compact := none

def secondOutput : ArchiveBuildOutput where
  downloadBundleHashes := [firstBundle.hash, tailBundle.hash]
  newBundleHashes := [tailBundle.hash]
  metadata := secondTable
  archiveFrames := [firstFrame, ⟨plainTools.hash [9, 8, 7, 6], tailBundle.hash, 5, 4⟩]
  incremental := true
  tail := true

/-- The first commit, built on nothing, and the second one, built on it. -/
def firstBuild : FilesBuild := ⟨sampleMirror, sampleCas, namedStorage, "first", none, none⟩
def secondBuild : FilesBuild := ⟨sampleMirror, sampleCas, namedStorage, "second", some "first", some firstFiles⟩

/-- A table that is stored whole is published. -/
theorem publish_whole {codec : Codec} {build : FilesBuild} {output : ArchiveBuildOutput}
    (chunks : List ChunkRef) (ref : ChunkRef) (manifest : String)
    (hstored : storeTable codec build.storage output.metadata output.downloadBundleHashes
      (build.previous.map fun files => (files.clonepack, files.archiveChunks)) =
      .ok ⟨ref.hash, "", ref, none, ref.len⟩)
    (hchunks : archiveChunkRefs output.downloadBundleHashes output.metadata = .ok chunks)
    (hmanifest : build.storage.putManifest
      (makeManifest build.commit build.parent chunks ref none [] none none) = .ok manifest) :
    build.publish codec output = .ok {
      clonepack := ⟨manifest, ref.hash, "", "", "", build.commit⟩
      archiveChunks := output.downloadBundleHashes
      archiveFrames := output.archiveFrames
      compact := if output.tail then build.previous.map compactOf else none } := by
  rw [FilesBuild.publish, hstored]
  refine bind_eq_ok.mpr ⟨_, rfl, bind_eq_ok.mpr ⟨chunks, hchunks, ?_⟩⟩
  refine bind_eq_ok.mpr ⟨manifest, ?_, rfl⟩
  exact congrArg (Except.mapError FilesError.call) hmanifest

theorem first_archive : firstBuild.archive exactCodec plainTools = .ok firstOutput := by
  with_unfolding_all decide

theorem first_publish : firstBuild.publish exactCodec firstOutput = .ok firstFiles :=
  publish_whole [firstBundle] (tableRef firstTable) "first" (by with_unfolding_all decide)
    (by with_unfolding_all decide) (by with_unfolding_all decide)

theorem first_stored : firstTable.Valid ∧
    exactCodec.compress firstTable.encode = .ok (bytesNamed (tableRef firstTable).hash) ∧
    firstTable.encode.length ≤ maxMetadataBytes := by
  refine ⟨validateGeometry_ok.mp (by with_unfolding_all decide), ?_, by with_unfolding_all decide⟩
  rw [tableRef, plainTools_ok.hash]
  rfl

def firstBase : ArchiveBase := ⟨firstOutput.archiveFrames, firstTable, firstOutput.downloadBundleHashes⟩

theorem second_base : secondBuild.base exactCodec = some firstBase := by
  have hfiles : baseFiles firstFiles = firstFiles := if_pos (by with_unfolding_all decide)
  obtain ⟨hvalid, hbytes, hlen⟩ := first_stored
  have hload : loadMetadata exactCodec namedStorage firstFiles.clonepack = some firstTable :=
    @load_whole namedContents _ _ _ _ exactCodec_ok hvalid rfl rfl hbytes hlen
  show (do
    let metadata ← loadMetadata exactCodec namedStorage (baseFiles firstFiles).clonepack
    return (⟨(baseFiles firstFiles).archiveFrames, metadata, (baseFiles firstFiles).archiveChunks⟩ :
      ArchiveBase)) = _
  rw [hfiles, hload]
  rfl

theorem second_archive : secondBuild.archive exactCodec plainTools = .ok secondOutput := by
  have htail : secondBuild.previous.any addsTail = true := by with_unfolding_all decide
  have hbuilt : (ArchiveBuilder.new secondBuild.mirror).buildTailIntoCas plainTools secondBuild.cas
      secondBuild.commit firstBase defaultArchiveChunkSize = .ok secondOutput := by with_unfolding_all decide
  rw [FilesBuild.archive, second_base]
  dsimp only
  rw [if_pos htail, hbuilt]
  rfl

/-- The delta on the first table would not be small enough. -/
theorem second_whole : tableDelta exactCodec namedStorage secondTable secondOutput.downloadBundleHashes
    firstFiles.clonepack firstFiles.archiveChunks = none := by
  obtain ⟨hvalid, hbytes, hlen⟩ := first_stored
  have hread : loadArtifact namedStorage firstFiles.clonepack.metadataChunk =
      some (bytesNamed (tableRef firstTable).hash) := rfl
  have hdecoded := Codec.decodeAndValidate_compress exactCodec_ok hvalid hbytes hlen
  rw [tableDelta, hread, Option.bind_eq_bind, Option.bind_some, hdecoded]
  with_unfolding_all decide

theorem second_publish : ∃ files, secondBuild.publish exactCodec secondOutput = .ok files := by
  refine ⟨_, publish_whole [firstBundle, tailBundle] (tableRef secondTable) "second" ?_
    (by with_unfolding_all decide) (by with_unfolding_all decide)⟩
  refine Eq.trans (storeTable_no_delta second_whole) ?_
  with_unfolding_all decide

/-- A build on nothing has no base. -/
theorem first_fine : firstBuild.Fine namedContents exactCodec plainTools sampleBlob := by
  have hnone : firstBuild.base exactCodec = none := rfl
  constructor
  · intro base index blobs gitlinks planned hbase
    rw [hnone] at hbase
    cases hbase
  · intro base blobs gitlinks hbase
    rw [hnone] at hbase
    cases hbase

theorem second_fine : secondBuild.Fine namedContents exactCodec plainTools sampleBlob where
  compaction := by
    intro base index blobs gitlinks planned _ hcompacts
    have htail : secondBuild.previous.any addsTail = true := by with_unfolding_all decide
    rw [htail] at hcompacts
    cases hcompacts
  tail := by
    intro base blobs gitlinks hbase _ hwalk
    obtain rfl := Option.some.inj (second_base.symm.trans hbase)
    have hblobs : collectBlobs secondBuild.mirror secondBuild.commit =
        .ok ([⟨[0x61], sampleId 1, 0o100644⟩, ⟨[0x62], sampleId 3, 0o100644⟩], []) := by
      with_unfolding_all decide
    obtain ⟨rfl, rfl⟩ := Prod.mk.inj (Except.ok.inj (hblobs.symm.trans hwalk))
    with_unfolding_all decide

/-- The chain of both builds. -/
theorem two_tables_exact : ∃ files, Run (FilesStep exactCodec plainTools) [] [firstBuild, secondBuild]
      [⟨firstFiles, firstTable⟩, ⟨files, secondTable⟩] ∧
    ∀ published ∈ [(⟨firstFiles, firstTable⟩ : PublishedFiles), ⟨files, secondTable⟩],
      TableExact namedContents plainTools sampleBlob published.files published.table ∧
        ∀ {storage loaded}, Storage.Ok namedContents storage →
          loadMetadata exactCodec storage published.files.clonepack = some loaded →
          TableExact namedContents plainTools sampleBlob published.files loaded := by
  obtain ⟨files, hfiles⟩ := second_publish
  have hfirst : Run (FilesStep exactCodec plainTools) [] [firstBuild] [⟨firstFiles, firstTable⟩] :=
    .snoc .nil (.built (fun _ h => by cases h) first_archive first_publish)
  have hrun : Run (FilesStep exactCodec plainTools) [] [firstBuild, secondBuild]
      [⟨firstFiles, firstTable⟩, ⟨files, secondTable⟩] := by
    refine hfirst.snoc (.built ?_ second_archive hfiles)
    intro previous hprevious
    obtain rfl := Option.some.inj hprevious
    exact ⟨_, List.mem_singleton.mpr rfl, rfl⟩
  refine ⟨files, hrun, published_tables_exact plainTools_ok exactCodec_ok ?_ ?_ hrun⟩
  · intro build hbuild
    rcases List.mem_pair.mp hbuild with rfl | rfl
    · exact ⟨namedStorage_ok, sampleMirror_ok⟩
    · exact ⟨namedStorage_ok, sampleMirror_ok⟩
  · intro build hbuild
    rcases List.mem_pair.mp hbuild with rfl | rfl
    · exact first_fine
    · exact second_fine

end Ripclone.Server
