import Ripclone.Library.Concurrent
import Ripclone.Library.Disk
import Ripclone.Results
import Ripclone.Validation

/-!
# The content-addressed store

Objects are files named by the hash of their bytes, in directories named by the first two digits. Every
object is written to a temporary file and renamed into place. A durable store syncs the bytes before the
rename and the directory after it. The names of temporary files are not modelled.
-/

namespace Ripclone.Cas

open Ripclone.Library

/-- The hash functions, in lowercase hex. -/
structure Hashes where
  sha1 (data : Bytes) : String
  sha256 (data : Bytes) : String

inductive IoError where
  | notFound
  | crossesDevices
  | other
  deriving DecidableEq, Repr

inductive CasError where
  /-- "invalid object id: …" -/
  | invalidId (hash : String)
  /-- "hash mismatch: expected …, actual …" -/
  | mismatch (expected actual : String)
  /-- "CAS source file … hash mismatch: expected …, actual …" -/
  | sourceMismatch (expected actual : String)
  /-- "CAS object … is corrupt: hash mismatch (actual …)" -/
  | corrupt (hash actual : String)
  | io (context : String) (error : IoError)
  deriving DecidableEq, Repr

inductive Call where
  | createTemp
  | write (file : Nat) (data : Bytes)
  /-- Copy a file's bytes over another's. -/
  | copy (source file : Nat)
  | sync (file : Nat)
  /-- Read a whole file, which the caller has. -/
  | readFile (file : Nat)
  /-- Open an object and read it whole. -/
  | readObject (key : String × String)
  | objectExists (key : String × String)
  | isDir (dir : String)
  | makeDir (dir : String)
  | syncRoot
  | syncDir (dir : String)
  | rename (file : Nat) (key : String × String)
  | pin (hash : String)
  | onStore (hash : String)
  /-- Drop the build's pins. -/
  | release
  deriving DecidableEq, Repr

abbrev Reply : Call → Type
  | .createTemp => Except IoError Nat
  | .readFile _ => Except IoError Bytes
  | .readObject _ => Except IoError Bytes
  | .objectExists _ => Bool
  | .isDir _ => Bool
  | .pin _ => Unit
  | .onStore _ => Unit
  | .release => Unit
  | .write .. => Except IoError Unit
  | .copy .. => Except IoError Unit
  | .sync _ => Except IoError Unit
  | .makeDir _ => Except IoError Unit
  | .syncRoot => Except IoError Unit
  | .syncDir _ => Except IoError Unit
  | .rename .. => Except IoError Unit

abbrev CasM := ExceptT CasError (Prog Call Reply)

def orThrow {α : Type} (context : String) (result : Except IoError α) : CasM α :=
  MonadExcept.ofExcept (result.mapError (CasError.io context))

/-- The hash of these bytes, of the kind that an object id of this length is. -/
def Hashes.forObjectId (hashes : Hashes) (hash : String) (data : Bytes) : String :=
  if hash.length = 40 then hashes.sha1 data else hashes.sha256 data

def hashBytesForObjectId (hashes : Hashes) (hash : String) (data : Bytes) : Except CasError String :=
  if validateObjectId hash then return hashes.forObjectId hash data else throw (.invalidId hash)

/-- The directory of an object and its name there. -/
def objectKey (hash : String) : String × String := (String.ofList (hash.toList.take 2), hash)

def objectPath (hash : String) : Except CasError (String × String) :=
  if validateObjectId hash then return objectKey hash else throw (.invalidId hash)

section Store

variable (hashes : Hashes) (durable : Bool)

/-- Create the directory of an object. Its own entry is synced before any object is renamed into it. -/
def createObjectDir (key : String × String) : CasM Unit := do
  let found : Bool ← attempt (Call.isDir key.1)
  if found then return ()
  else do
    let made : Except IoError Unit ← attempt (Call.makeDir key.1)
    orThrow s!"create CAS directory {key.1}" made
    if durable then do
      let synced : Except IoError Unit ← attempt Call.syncRoot
      orThrow "fsync CAS directory" synced

/-- Sync a finished object's bytes before it is installed. -/
def syncFile (file : Nat) : CasM Unit := do
  if durable then do
    let synced : Except IoError Unit ← attempt (Call.sync file)
    orThrow "fsync CAS object" synced

def verifyObject (hash : String) : CasM Nat := do
  let key ← (MonadExcept.ofExcept (objectPath hash) : CasM (String × String))
  let read : Except IoError Bytes ← attempt (Call.readObject key)
  let data ← orThrow s!"open CAS object {hash}" read
  let actual := hashes.forObjectId hash data
  if actual ≠ hash then throw (.corrupt hash actual) else return data.length

/-- Whether the object is intact. -/
def verified (hash : String) : CasM Bool := do
  let result : Except CasError Nat ← ExceptT.lift (verifyObject hashes hash).run
  return result.isOk

/-- Rename `source` to the object's path, or copy it there from another device. -/
def moveInto (hash : String) (source : Nat) (key : String × String) : CasM Unit := do
  let renamed : Except IoError Unit ← attempt (Call.rename source key)
  match renamed with
  | .ok () => return ()
  | .error .crossesDevices => do
    let tmp : Except IoError Nat ← attempt Call.createTemp
    let tmp ← orThrow s!"create CAS object tmp {hash}" tmp
    let copied : Except IoError Unit ← attempt (Call.copy source tmp)
    orThrow "copy into the CAS" copied
    syncFile durable tmp
    let renamed : Except IoError Unit ← attempt (Call.rename tmp key)
    orThrow s!"rename CAS object {hash}" renamed
  | .error error => do
    -- a platform that cannot replace an open file keeps an intact copy
    let intact ← verified hashes hash
    if intact then return () else throw (.io s!"rename CAS object {hash}" error)

/-- Sync the name of an object. -/
def syncEntry (key : String × String) : CasM Unit := do
  if durable then do
    let synced : Except IoError Unit ← attempt (Call.syncDir key.1)
    orThrow "fsync CAS directory" synced

/-- Rename `source`, whose bytes are `hash`, to the object's path. An object already there is replaced. -/
def install (hash : String) (source : Nat) : CasM Unit := do
  let key ← (MonadExcept.ofExcept (objectPath hash) : CasM (String × String))
  let _ : Unit ← attempt (Call.pin hash)
  createObjectDir durable key
  moveInto hashes durable hash source key
  syncEntry durable key
  let _ : Unit ← attempt (Call.onStore hash)
  return ()

/-- A new object, hashed as it is written. -/
def writer : CasM Nat := do
  let tmp : Except IoError Nat ← attempt Call.createTemp
  orThrow "create CAS temp file" tmp

def writeAll (file : Nat) : List Bytes → CasM Unit
  | [] => return ()
  | data :: rest => do
    let written : Except IoError Unit ← attempt (Call.write file data)
    orThrow "write CAS object" written
    writeAll file rest

/-- Install the object. -/
def finish (file : Nat) (pieces : List Bytes) : CasM String := do
  syncFile durable file
  let hash := hashes.sha256 pieces.flatten
  install hashes durable hash file
  return hash

/-- Write an object piece by piece and install it. `put` writes one piece. -/
def put (pieces : List Bytes) : CasM String := do
  let file ← writer
  writeAll file pieces
  finish hashes durable file pieces

/-- Store bytes that came from elsewhere under `hash`, after checking that they match it. An intact object
already stored is kept, and nothing is synced for it: the build that renamed it there may not have come to
its own sync. -/
def putWithHash (hash : String) (data : Bytes) : CasM Unit := do
  let actual ← (MonadExcept.ofExcept (hashBytesForObjectId hashes hash data) : CasM String)
  if actual ≠ hash then throw (.mismatch hash actual)
  else do
    let key ← (MonadExcept.ofExcept (objectPath hash) : CasM (String × String))
    let _ : Unit ← attempt (Call.pin hash)
    let found : Bool ← attempt (Call.objectExists key)
    let intact ← if found then verified hashes hash else pure false
    if intact then return ()
    else do
      createObjectDir durable key
      let tmp : Except IoError Nat ← attempt Call.createTemp
      let tmp ← orThrow s!"create CAS object tmp {hash}" tmp
      let written : Except IoError Unit ← attempt (Call.write tmp data)
      orThrow s!"write CAS object tmp {hash}" written
      syncFile durable tmp
      install hashes durable hash tmp

/-- Copy a file from elsewhere, which is read in pieces, into the store under `hash`. -/
def putFileWithHash (hash : String) (pieces : List Bytes) : CasM Nat := do
  let key ← (MonadExcept.ofExcept (objectPath hash) : CasM (String × String))
  let file ← writer
  writeAll file pieces
  let actual := hashes.forObjectId hash pieces.flatten
  if actual ≠ hash then throw (.sourceMismatch hash actual)
  else do
    syncFile durable file
    createObjectDir durable key
    install hashes durable hash file
    return pieces.flatten.length

/-- Move a finished file into the store, reading it once to hash it. -/
def installFile (source : Nat) : CasM (String × Nat) := do
  let read : Except IoError Bytes ← attempt (Call.readFile source)
  let data ← orThrow "hash CAS source file" read
  let hash := hashes.sha256 data
  syncFile durable source
  install hashes durable hash source
  return (hash, data.length)

/-- What a build does in the store, until something fails. It drops its pins at its end. -/
inductive Operation where
  | put (pieces : List Bytes)
  | putWithHash (hash : String) (data : Bytes)
  | putFileWithHash (hash : String) (pieces : List Bytes)
  /-- Another program writes a file, which is then moved into the store. -/
  | installFile (pieces : List Bytes)

def Operation.exec : Operation → CasM Unit
  | .put pieces => do
    let _ ← Cas.put hashes durable pieces
    return ()
  | .putWithHash hash data => Cas.putWithHash hashes durable hash data
  | .putFileWithHash hash pieces => do
    let _ ← Cas.putFileWithHash hashes durable hash pieces
    return ()
  | .installFile pieces => do
    let file ← writer
    writeAll file pieces
    let _ ← Cas.installFile hashes durable file
    return ()

def runAll : List Operation → CasM Unit
  | [] => return ()
  | operation :: rest => do
    operation.exec hashes durable
    runAll rest

def build (operations : List Operation) : Prog Call Reply Unit := do
  let _ ← (runAll hashes durable operations).run
  Prog.perform Call.release

end Store

/-! ## What the calls do -/

/-- The store on its disk, the pins of each build, and what was reported. -/
structure Store where
  disk : Disk String String Bytes
  pins : List (Nat × String)
  /-- Objects whose `install` came to its end. -/
  stored : List String
  /-- Those of which it did so before the directory they are in was on disk. -/
  atRisk : List String
  /-- Whether a build has found a directory that was not on disk yet. -/
  raced : Bool

/-- What call `c` of build `t` may reply, and what it leaves. A call that fails may have done some of its
work. -/
def does (t : Nat) : (c : Call) → Store → Reply c → Store → Prop
  | .createTemp, s, .ok file, s' => file = s.disk.files.length ∧ s' = { s with disk := s.disk.create t [] }
  | .createTemp, s, .error _, s' => s' = s
  | .write file data, s, reply, s' =>
    ∃ data', (reply = .ok () → ∀ f, s.disk.files[file]? = some f → data' = f.data ++ data) ∧
      s' = { s with disk := s.disk.change file fun f => { f with data := data', synced := false } }
  | .copy source file, s, reply, s' =>
    ∃ data', (reply = .ok () → ∀ f, s.disk.files[source]? = some f → data' = f.data) ∧
      s' = { s with disk := s.disk.change file fun f => { f with data := data', synced := false } }
  | .sync file, s, reply, s' =>
    s' = { s with disk := s.disk.change file fun f => { f with synced := true } } ∨
      reply ≠ .ok () ∧ s' = s
  | .readFile file, s, reply, s' =>
    s' = s ∧ ∀ data, reply = .ok data → ∃ f, s.disk.files[file]? = some f ∧ data = f.data
  | .readObject key, s, reply, s' =>
    s' = s ∧ ∀ data, reply = .ok data →
      ∃ file f, s.disk.entries key = some file ∧ s.disk.files[file]? = some f ∧ data = f.data
  | .objectExists _, s, _, s' => s' = s
  | .isDir dir, s, found, s' =>
    (found = true → s.disk.dirs dir ≠ none) ∧
      s' = { s with raced := s.raced || (found && decide (s.disk.dirs dir = some false)) }
  | .makeDir dir, s, reply, s' =>
    s' = { s with disk := s.disk.makeDir dir } ∨ reply ≠ .ok () ∧ s' = s
  | .syncRoot, s, reply, s' => s' = { s with disk := s.disk.syncDirs } ∨ reply ≠ .ok () ∧ s' = s
  | .syncDir dir, s, reply, s' =>
    s' = { s with disk := s.disk.syncEntries dir } ∨ reply ≠ .ok () ∧ s' = s
  | .rename file key, s, .ok (), s' =>
    s.disk.dirs key.1 ≠ none ∧ s' = { s with disk := s.disk.setEntry key (some file) }
  | .rename _ _, s, .error _, s' => s' = s
  | .pin hash, s, _, s' => s' = { s with pins := (t, hash) :: s.pins }
  | .onStore hash, s, _, s' =>
    s' = if s.disk.dirs (objectKey hash).1 = some true then { s with stored := hash :: s.stored }
      else { s with atRisk := hash :: s.atRisk }
  | .release, s, _, s' => s' = { s with pins := s.pins.filter fun pin => pin.1 ≠ t }

/-- An object that no build pins is deleted. -/
def Deletes (s s' : Store) : Prop :=
  ∃ hash, (∀ t, (t, hash) ∉ s.pins) ∧
    s' = { s with
      disk := s.disk.setEntry (objectKey hash) none
      stored := s.stored.filter fun other => other ≠ hash
      atRisk := s.atRisk.filter fun other => other ≠ hash }

/-- The machine goes down. What was reported of directories that were not on disk is no longer held to. -/
def Crashes (s s' : Store) : Prop :=
  Disk.Crash s.disk s'.disk ∧ s'.pins = [] ∧ s'.stored = s.stored ∧ s'.atRisk = [] ∧ s'.raced = false

def effects : Effects Call Reply Store := ⟨does, Deletes, Crashes⟩

end Ripclone.Cas
