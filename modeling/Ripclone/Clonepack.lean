import Ripclone.Results

/-!
# Clonepack manifests

The one object per commit a client fetches first: what else there is, by hash. Hashes are raw bytes
on the wire and hex texts here; the two conversions of the source are inverse on the hashes storage
hands out.
-/

namespace Ripclone

/-- A content-addressed reference and the length of what is stored. -/
structure ChunkRef where
  hash : String
  len : Nat
  deriving DecidableEq, Repr

structure PackEntry where
  pack : ChunkRef
  idx : ChunkRef
  /-- Installed for the object database, not parsed for the working tree. -/
  historyOnly : Bool
  /-- Where the pack's idx lies in the manifest's idx bundle, when it does. -/
  idxBundleOffset : Option Nat
  deriving DecidableEq, Repr

structure ClonepackManifest where
  commit : String
  parentCommit : Option String
  metadataChunk : ChunkRef
  metadataDelta : Option ChunkRef
  archiveChunks : List ChunkRef
  packs : List PackEntry
  midx : Option ChunkRef
  idxBundle : Option ChunkRef
  deriving DecidableEq, Repr

def packEntry (pack : SizedPack) (historyOnly : Bool) (idxBundleOffset : Option Nat) :
    PackEntry where
  pack := ⟨pack.pack, pack.packLen⟩
  idx := ⟨pack.idx, pack.idxLen⟩
  historyOnly := historyOnly
  idxBundleOffset := idxBundleOffset

/-- The pack an entry is of. -/
def PackEntry.sized (entry : PackEntry) : SizedPack where
  pack := entry.pack.hash
  packLen := entry.pack.len
  idx := entry.idx.hash
  idxLen := entry.idx.len

@[simp] theorem sized_packEntry (pack : SizedPack) (historyOnly : Bool) (offset : Option Nat) :
    (packEntry pack historyOnly offset).sized = pack := rfl

@[simp] theorem historyOnly_packEntry (pack : SizedPack) (historyOnly : Bool)
    (offset : Option Nat) : (packEntry pack historyOnly offset).historyOnly = historyOnly := rfl

/-- The packs a client parses for the working tree, in manifest order. -/
def ClonepackManifest.headPacks (manifest : ClonepackManifest) : List SizedPack :=
  (manifest.packs.filter fun entry => !entry.historyOnly).map PackEntry.sized

/-- `manifest_pack_tuples`: every pack, in manifest order. -/
def ClonepackManifest.packTuples (manifest : ClonepackManifest) : List SizedPack :=
  manifest.packs.map PackEntry.sized

end Ripclone
