import Mathlib.Data.List.Dedup

/-!
# Published results

The outputs a build publishes for one commit, as the control store keeps them: what a Head, a Files
and a Full name in content-addressed storage. Ids are the lowercase hex texts the store holds, and
byte lengths are natural numbers.

`artifacts` collects the ids an output names. It is what the store records with a publish and what
keeps an object from being deleted.
-/

namespace Ripclone

abbrev Bytes := List UInt8

instance : LawfulBEq Bytes := inferInstanceAs (LawfulBEq (List UInt8))

inductive ExactResultKind where
  | head
  | files
  | full
  deriving DecidableEq, Repr

/-- One editable-clone pack and its idx, by content hash. -/
structure PackArtifact where
  pack : String
  idx : String
  deriving DecidableEq, Repr

/-- A pack and idx with their byte lengths. -/
structure SizedPack where
  pack : String
  packLen : Nat
  idx : String
  idxLen : Nat
  deriving DecidableEq, Repr

/-- One immutable history level: the packs of `(previous level's tip, tipCommit]`. -/
structure HistoryLevel where
  tipCommit : String
  packs : List SizedPack
  deriving DecidableEq, Repr

/-- One archive frame of a build: the hash of its raw bytes and that of its compressed bytes. -/
structure ArchiveFrame where
  rawHash : String
  chunkHash : String
  compressedLen : Nat
  rawLen : Nat
  deriving DecidableEq, Repr

structure ClonepackArtifacts where
  manifest : String
  /-- The files table, or with `metadataDelta` the base table it applies to. -/
  metadataChunk : String
  /-- Empty when `metadataChunk` is the whole table. -/
  metadataDelta : String
  midx : String
  idxBundle : String
  commit : String
  deriving DecidableEq, Repr

structure HeadResult where
  clonepack : ClonepackArtifacts
  parentCommit : Option String
  packs : List PackArtifact
  baseCommit : String
  basePacks : List SizedPack
  /-- The packs after the base, one level per Head since it. -/
  levels : List SizedPack
  deriving DecidableEq, Repr

/-- A Head pack set that later Heads add levels on. -/
structure HeadBase where
  commit : String
  packs : List SizedPack
  levels : List SizedPack
  deriving DecidableEq, Repr

/-- A commit's history beyond a refs base's. -/
structure OwnHistory where
  base : String
  packs : List SizedPack
  /-- The Full manifest's indices of the Head packs a clone installs as they are. -/
  headPacks : List Nat
  deriving DecidableEq, Repr

structure FullResult where
  clonepack : ClonepackArtifacts
  packs : List PackArtifact
  historyLevels : List HistoryLevel
  headBase : Option HeadBase
  ownHistory : Option OwnHistory
  deriving DecidableEq, Repr

structure FilesResult where
  clonepack : ClonepackArtifacts
  archiveChunks : List String
  archiveFrames : List ArchiveFrame
  /-- The packed archive this one is a tail on, when it is one. -/
  compact : Option FilesResult

/-! ## Published refs -/

structure PublishedTags where
  artifact : String
  len : Nat
  count : Nat
  /-- Hash of the `refs/tags/` listing it was built from. -/
  hash : String
  deriving DecidableEq, Repr

/-- A side pack layer and its idx. -/
structure SidePack where
  pack : String
  packLen : Nat
  idx : String
  idxLen : Nat
  deriving DecidableEq, Repr

/-- The branches a refresh published, for full clones. -/
structure RepoBranches where
  artifact : String
  len : Nat
  refsHash : String
  defaultBranch : Option String
  /-- The default branch's commit. -/
  base : Option String
  /-- The commit the newest side pack layer leaves out the history of. -/
  sideBase : Option String
  /-- Hash of the tips the side pack layers complete. -/
  sideTips : String
  /-- Oldest layer first. -/
  sidePacks : List SidePack
  tags : PublishedTags
  deriving DecidableEq, Repr

structure RepoRefs where
  tagsArtifact : String
  tagsLen : Nat
  tagsCount : Nat
  tagsHash : String
  branches : Option RepoBranches
  ready : Option RepoBranches
  deriving DecidableEq, Repr

/-! ## What an output names -/

/-- The non-empty ones of `hashes`, each once. The source keeps them in a sorted set; nothing
observes the order. -/
def named (hashes : List String) : List String :=
  (hashes.filter (· ≠ "")).dedup

def ClonepackArtifacts.artifacts (clonepack : ClonepackArtifacts) : List String :=
  [clonepack.manifest, clonepack.metadataChunk, clonepack.metadataDelta, clonepack.midx,
    clonepack.idxBundle]

def sizedArtifacts (packs : List SizedPack) : List String :=
  packs.flatMap fun p => [p.pack, p.idx]

def packArtifacts (packs : List PackArtifact) : List String :=
  packs.flatMap fun p => [p.pack, p.idx]

def HeadResult.artifacts (head : HeadResult) : List String :=
  named (head.clonepack.artifacts ++ packArtifacts head.packs ++ sizedArtifacts head.basePacks ++
    sizedArtifacts head.levels)

def FullResult.artifacts (full : FullResult) : List String :=
  named (full.clonepack.artifacts ++ packArtifacts full.packs ++
    full.historyLevels.flatMap (fun level => sizedArtifacts level.packs) ++
    full.headBase.toList.flatMap
      (fun base => sizedArtifacts base.packs ++ sizedArtifacts base.levels) ++
    full.ownHistory.toList.flatMap (fun own => sizedArtifacts own.packs))

def FilesResult.artifacts : FilesResult → List String
  | ⟨clonepack, archiveChunks, archiveFrames, compact⟩ =>
    let hashes := named (clonepack.artifacts ++ archiveChunks ++
      archiveFrames.map ArchiveFrame.chunkHash)
    match compact with
    | none => hashes
    | some compact => (hashes ++ compact.artifacts).dedup

def RepoRefs.artifacts (refs : RepoRefs) : List String :=
  named (refs.tagsArtifact :: (refs.branches.toList ++ refs.ready.toList).flatMap fun branches =>
    branches.artifact :: branches.tags.artifact ::
      branches.sidePacks.flatMap fun side => [side.pack, side.idx])

/-! ## Checks on ids -/

/-- `0`–`9` or `a`–`f`. -/
def lowercaseHex (c : Char) : Bool :=
  c.isDigit || (decide ('a' ≤ c) && decide (c ≤ 'f'))

/-- A 64-character lowercase hex SHA-256 artifact id. -/
def validateArtifactId (hash : String) : Bool :=
  hash.length == 64 && hash.toList.all lowercaseHex

/-- A 40-character (SHA-1) or 64-character (SHA-256) lowercase hex object id. -/
def validateObjectId (id : String) : Bool :=
  (id.length == 40 || id.length == 64) && id.toList.all lowercaseHex

/-- Whether a stored output is structurally usable for `commit`. -/
def exactOutputArtifactsReady (commit : String) (result : ExactResultKind)
    (artifacts : ClonepackArtifacts) : Bool :=
  if artifacts.commit != commit || !validateArtifactId artifacts.manifest ||
      !validateArtifactId artifacts.metadataChunk ||
      !(artifacts.metadataDelta.isEmpty || validateArtifactId artifacts.metadataDelta) then
    false
  else
    result != .head || validateArtifactId artifacts.idxBundle

end Ripclone
