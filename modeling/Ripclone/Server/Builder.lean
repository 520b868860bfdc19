import Ripclone.Server.Storage

/-!
# Building Head and Full

The two builds that publish packs. A Head is the base packs of an earlier Head plus one new level,
or a fresh base when there is none to read. A Full is the Head's packs, rebased when the levels have
grown too large, plus the history levels of an ancestor's Full with this commit's range sealed on
top.

The files table a Head stores and the multi-pack-index it ships are results of other parts of the
build and come in as arguments; both may have failed.
-/

namespace Ripclone.Server

open Ripclone.Library Ripclone.Pack

section

variable (git : Git) (storage : Storage)

def packArtifactsOf (packs : List SizedPack) : List PackArtifact :=
  packs.map fun pack => ⟨pack.pack, pack.idx⟩

def makeManifest (commit : String) (parent : Option String) (archiveChunks : List ChunkRef)
    (chunkRef : ChunkRef) (deltaRef : Option ChunkRef) (packs : List PackEntry)
    (midx idxBundle : Option ChunkRef) : ClonepackManifest where
  commit := commit
  parentCommit := parent
  metadataChunk := chunkRef
  metadataDelta := deltaRef
  archiveChunks := archiveChunks
  packs := packs
  midx := midx
  idxBundle := idxBundle

/-! ## Head -/

/-- Raw bytes a Head pack is cut at. -/
def headTarget : Nat := 4 * 1024 * 1024

structure HeadBuild where
  /-- Every current Head pack, base and levels, in manifest order. -/
  allPacks : List SizedPack
  /-- Only the packs built by this build. -/
  newBuilt : List SizedPack
  baseCommit : String
  basePacks : List SizedPack
  /-- The levels after the base, this build's last. -/
  levels : List SizedPack
  /-- Every pack was built by this build, so a multi-pack-index over them can be. -/
  allLocal : Bool

/-- The objects of the packs a level is built on, from their idx files. -/
def objectsOf (packs : List SizedPack) : Except String (List String) := do
  let idxs ← getAllCached storage (packs.map SizedPack.idx)
  let ids ← idxs.mapM idxObjectIds
  return ids.flatten

/-- The level of `commit` on a base. -/
def headLevel (commit : String) (base : HeadBase) : Except String (List SizedPack) := do
  let haveIds ← objectsOf storage (base.packs ++ base.levels)
  buildHeadLevel git commit haveIds headTarget

/-- The Head packs: a level on the base, or a full base when there is none or its packs cannot be
read. -/
def headBuild (commit : String) (base : Option HeadBase) : Except String HeadBuild :=
  let base := base.filter fun base => base.commit ≠ "" && !base.packs.isEmpty
  let leveled := base.bind fun base =>
    match headLevel git storage commit base with
    | .ok level => some (base, level)
    | .error _ => none
  match leveled with
  | some (base, level) =>
    return {
      allPacks := base.packs ++ (base.levels ++ level)
      newBuilt := level
      baseCommit := base.commit
      basePacks := base.packs
      levels := base.levels ++ level
      allLocal := false }
  | none => do
    let packs ← buildHeadPacks git commit headTarget
    return {
      allPacks := packs
      newBuilt := packs
      baseCommit := commit
      basePacks := packs
      levels := []
      allLocal := true }

/-- The entries of bundled packs, their idx files one after the other from `offset` on, and the
bytes of the bundle. -/
def bundledEntries (offset : Nat) : List (SizedPack × Bytes) → List PackEntry × Bytes
  | [] => ([], [])
  | (pack, idx) :: rest =>
    let (entries, bundle) := bundledEntries (offset + idx.length) rest
    (packEntry pack false (some offset) :: entries, idx ++ bundle)

/-- The entries of a Head's packs and the bundle of the idx files of its first `bundled` ones, the
base's. Each level's idx is fetched on its own. -/
def assembleHeadPacks (packs : List SizedPack) (bundled : Nat) :
    Except String (List PackEntry × Option ChunkRef × String) :=
  let base := packs.take bundled
  let levelEntries := (packs.drop bundled).map fun pack => packEntry pack false none
  if base.isEmpty then return (levelEntries, none, "")
  else do
    let idxs ← getAllCached storage (base.map SizedPack.idx)
    let (entries, bundle) := bundledEntries 0 (base.zip idxs)
    let hash ← storage.put bundle
    return (entries ++ levelEntries, some ⟨hash, bundle.length⟩, hash)

/-- A multi-pack-index is shipped only when every pack was built by this build. -/
def headMidx (built : HeadBuild)
    (midx : List SizedPack → Except String (Option ChunkRef × String)) :
    Except String (Option ChunkRef × String) :=
  if built.allLocal then midx built.allPacks else return (none, "")

/-- `table` is the stored files table, and `midx` the multi-pack-index over the packs. -/
def buildHeadResult (commit : String) (parent : Option String) (base : Option HeadBase)
    (table : Except String StoredTable)
    (midx : List SizedPack → Except String (Option ChunkRef × String)) :
    Except String HeadResult := do
  let built ← headBuild git storage commit base
  let table ← table
  let (entries, idxBundleRef, idxBundle) ←
    assembleHeadPacks storage built.allPacks built.basePacks.length
  let (midxRef, midx) ← headMidx built midx
  let manifest ← storage.putManifest
    (makeManifest commit parent [] table.chunkRef table.deltaRef entries midxRef idxBundleRef)
  return {
    clonepack := {
      manifest := manifest
      metadataChunk := table.metadataChunk
      metadataDelta := table.metadataDelta
      midx := midx
      idxBundle := idxBundle
      commit := commit }
    parentCommit := parent
    packs := packArtifactsOf built.allPacks
    baseCommit := built.baseCommit
    basePacks := built.basePacks
    levels := built.levels }

/-! ## Full -/

/-- Seal the tail into a new level when the commit is past the last sealed tip and the tail is not
empty, then compact the levels back under `maxLevels`. -/
def sealAndCompact (commit : String) (previousLevels : List HistoryLevel)
    (sealedTip : Option String) (tailPacks : List SizedPack) (maxLevels : Nat) :
    Except String (List HistoryLevel × List SizedPack) := do
  let advances := sealedTip ≠ some commit
  let levels :=
    if advances ∧ !tailPacks.isEmpty then previousLevels ++ [⟨commit, tailPacks⟩]
    else previousLevels
  if maxLevels < levels.length then do
    let (compacted, newPacks) ← compactLevels git levels maxLevels
    return (compacted, tailPacks ++ newPacks)
  else return (levels, tailPacks)

/-- The previous levels a Full builds on, and the packs of the range after them. A tail the mirror
cannot list from the sealed tip is built cold instead: no levels, and the whole history. -/
def historyTail (commit : String) (previousLevels : List HistoryLevel) :
    Except String (List HistoryLevel × List SizedPack) :=
  match (previousLevels.getLast?).map HistoryLevel.tipCommit with
  | none => do
    let tail ← buildHistoryRange git commit none
    return (previousLevels, tail)
  | some tip =>
    match buildHistoryRange git commit (some tip) with
    | .ok tail => return (previousLevels, tail)
    | .error _ => do
      let tail ← buildHistoryRange git commit none
      return ([], tail)

/-- The history levels of `commit` on those of an ancestor's Full, and the packs built for them. -/
def buildHistory (commit : String) (previousLevels : List HistoryLevel) (maxLevels : Nat) :
    Except String (List HistoryLevel × List SizedPack) := do
  let (levels, tail) ← historyTail git commit previousLevels
  sealAndCompact git commit levels ((levels.getLast?).map HistoryLevel.tipCommit) tail maxLevels

def maxHeadLevelPacks : Nat := 64

/-- The packs of a new Head base for `commit`: those of the base that are kept, and the rest of the
closure. Packs whose idx files cannot be read are packed again whole. -/
def rebase (commit : String) (base : List SizedPack) : Except String (List SizedPack × Nat) :=
  match getAllCached storage (base.map SizedPack.idx) with
  | .ok idxs => rebaseHeadPacks git commit (base.zip idxs) headTarget
  | .error _ => do
    let packs ← buildHeadPacks git commit headTarget
    return (packs, 0)

/-- Whether the Head levels have grown so large that Full packs a new base. -/
def rebases (rebaseBytes : Nat) (basePacks headLevels : List SizedPack) : Bool :=
  let baseBytes := (basePacks.map SizedPack.packLen).sum % 2 ^ 64
  let deltaBytes := (headLevels.map SizedPack.packLen).sum % 2 ^ 64
  decide (0 < headLevels.length) &&
    (decide (min rebaseBytes (baseBytes / 4) ≤ deltaBytes) ||
      decide (maxHeadLevelPacks < headLevels.length))

/-- The Head packs of a Full, and the new base when they were rebased. -/
def fullHeadPacks (commit : String) (head : HeadResult) (headPacks : List SizedPack)
    (rebaseBytes : Nat) : Except String (List SizedPack × Option HeadBase) :=
  let baseCount := min head.basePacks.length headPacks.length
  if rebases rebaseBytes head.basePacks (headPacks.drop baseCount) then do
    let (packs, _) ← rebase git storage commit (headPacks.take baseCount)
    return (packs, some ⟨commit, packs, []⟩)
  else return (headPacks, none)

/-- `commit`'s history beyond `base`'s: its packs, and whether a clone installs the Head `levels`
too, whose objects the packs then leave out. -/
def ownHistory (commit base : String) (levels : List SizedPack) :
    Except String (List SizedPack × Bool) := do
  let ancestor ← git.isAncestor commit base
  if ancestor then return ([], false)
  else do
    let haveIds ← objectsOf storage levels
    let packs ← buildOwnHistory git commit base haveIds
    return (packs, !levels.isEmpty)

/-- The own history a Full publishes. One that cannot be built is left out. -/
def fullOwnHistory (commit : String) (ownBase : Option String) (baseCount : Nat)
    (headPacks : List SizedPack) (headBase : Option HeadBase) : Option OwnHistory :=
  (ownBase.filter fun base => base ≠ commit).bind fun base =>
    let levels := if headBase.isSome then [] else headPacks.drop baseCount
    match ownHistory git storage commit base levels with
    | .ok (packs, installed) =>
      some ⟨base, packs, if installed then (List.range levels.length).map (baseCount + ·) else []⟩
    | .error _ => none

def buildFullResult (commit : String) (head : HeadResult) (previousLevels : List HistoryLevel)
    (ownBase : Option String) (maxLevels rebaseBytes : Nat) : Except String FullResult := do
  let headManifest ← storage.getManifest head.clonepack.manifest
  if headManifest.commit ≠ commit ∨ head.clonepack.commit ≠ commit then
    throw ("Head result identity mismatch for " ++ commit)
  else do
    let headPacks := headManifest.packTuples
    let (levels, _) ← buildHistory git commit previousLevels maxLevels
    let historyPacks := levels.flatMap HistoryLevel.packs
    let baseCount := min head.basePacks.length headPacks.length
    let (headPacks, headBase) ← fullHeadPacks git storage commit head headPacks rebaseBytes
    let own := fullOwnHistory git storage commit ownBase baseCount headPacks headBase
    let entries := headPacks.map (fun pack => packEntry pack false none) ++
      historyPacks.map fun pack => packEntry pack true none
    let manifest ← storage.putManifest
      (makeManifest commit head.parentCommit [] headManifest.metadataChunk
        headManifest.metadataDelta entries none none)
    return {
      clonepack := {
        manifest := manifest
        metadataChunk := head.clonepack.metadataChunk
        metadataDelta := head.clonepack.metadataDelta
        midx := ""
        idxBundle := ""
        commit := commit }
      packs := packArtifactsOf (headPacks ++ historyPacks)
      historyLevels := levels
      headBase := headBase
      ownHistory := own }

end

end Ripclone.Server
