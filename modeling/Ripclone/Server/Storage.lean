import Ripclone.Pack.Contents

/-!
# What a build reads and stores

A build reads an object from the local cache or else from object storage, and stores what it makes
under its hash. Any call may fail. What a read returns is what the name stands for, and what is
stored is what its new name stands for: `Storage.Ok`.
-/

namespace Ripclone.Server

open Ripclone.Library Ripclone.Pack

/-- The calls a build makes on its storage. Manifests are read decoded and stored encoded. -/
structure Storage where
  get (hash : String) : Except String Bytes
  put (bytes : Bytes) : Except String String
  getManifest (hash : String) : Except String ClonepackManifest
  putManifest (manifest : ClonepackManifest) : Except String String

/-- Storage is content-addressed. -/
structure Storage.Ok (c : Contents) (storage : Storage) : Prop where
  get : ∀ {hash bytes}, storage.get hash = .ok bytes → bytes = c.bytes hash
  put : ∀ {bytes hash}, storage.put bytes = .ok hash → c.bytes hash = bytes
  put_ne : ∀ {bytes hash}, storage.put bytes = .ok hash → hash ≠ ""
  getManifest : ∀ {hash manifest}, storage.getManifest hash = .ok manifest →
    manifest = c.manifest hash
  putManifest : ∀ {manifest hash}, storage.putManifest manifest = .ok hash →
    c.manifest hash = manifest

/-- The bytes of each of `hashes`, in order. Several are fetched at once; one failure fails all. -/
def getAllCached (storage : Storage) (hashes : List String) : Except String (List Bytes) :=
  hashes.mapM storage.get

theorem getAllCached_ok {c : Contents} {storage : Storage} (hstorage : storage.Ok c)
    {hashes : List String} {all : List Bytes} (h : getAllCached storage hashes = .ok all) :
    all = hashes.map c.bytes := by
  induction hashes generalizing all with
  | nil => simpa using (List.forall₂_nil_left_iff.mp (mapM_eq_ok.mp h))
  | cons hash hashes ih =>
      obtain ⟨bytes, rest, hbytes, hrest, rfl⟩ :=
        List.forall₂_cons_left_iff.mp (mapM_eq_ok.mp h)
      rw [List.map_cons, ← hstorage.get hbytes, ih (mapM_eq_ok.mpr hrest)]

/-- A files table as a build stores it: whole, or as a delta on an older table. -/
structure StoredTable where
  metadataChunk : String
  /-- Empty when the table is stored whole. -/
  metadataDelta : String
  chunkRef : ChunkRef
  deltaRef : Option ChunkRef
  /-- Bytes stored for this build: the delta, or the whole table. -/
  len : Nat
  deriving DecidableEq, Repr

end Ripclone.Server
