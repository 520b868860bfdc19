import Mathlib.Logic.Function.Basic
import Ripclone.Library.Zlib
import Ripclone.WorktreeWriter.Written

/-!
# Objects in a pack

A pack is a twelve byte header and its objects one after the other, each a header with its kind and
size and a zlib stream. A clone writes the worktree from packs without deltas: each blob is written to
every path the files table has for its id.
-/

namespace Ripclone

open Ripclone.Library

inductive PackObjError where
  /-- "truncated pack object header" -/
  | truncatedHeader
  /-- "pack object size varint overflows u64" -/
  | sizeOverflow
  /-- "truncated pack object size varint" -/
  | truncatedSize
  deriving DecidableEq, Repr

/-- The rest of a size, from `shift` on, with `used` header bytes read so far. -/
def packObjSize : Nat → Nat → Nat → Bytes → Except PackObjError (Nat × Nat)
  | _, shift, _, [] => if 64 ≤ shift then throw .sizeOverflow else throw .truncatedSize
  | size, shift, used, b :: rest =>
    if 64 ≤ shift then throw .sizeOverflow
    else
      let part := b.toNat % 128
      if 64 - shift < 7 ∧ 2 ^ (64 - shift) ≤ part then throw .sizeOverflow
      else
        -- the bits of `size` are all below `shift`
        let size := size + part * 2 ^ shift
        if 128 ≤ b.toNat then packObjSize size (shift + 7) (used + 1) rest
        else return (size, used + 1)

/-- The type of an object, its size, and the length of its header. -/
def parsePackObjHeader (buf : Bytes) : Except PackObjError (Nat × Nat × Nat) :=
  match buf with
  | [] => throw .truncatedHeader
  | b :: rest => do
    let objType := b.toNat / 16 % 8
    let size := b.toNat % 16
    if 128 ≤ b.toNat then do
      let (size, used) ← packObjSize size 4 1 rest
      return (objType, size, used)
    else return (objType, size, 1)

/-! ## Paths of blobs -/

/-- The paths and modes of the files that have a blob. -/
abbrev BlobPathMap := Bytes → List (Bytes × Nat)

def addBlobPath (map : BlobPathMap) (entry : FileEntry) : BlobPathMap :=
  if entry.blobSha1.length = 20 then
    Function.update map entry.blobSha1 (map entry.blobSha1 ++ [(entry.path, entry.mode)])
  else map

def buildBlobPathMap (files : List FileEntry) : BlobPathMap := files.foldl addBlobPath fun _ => []

theorem buildBlobPathMap_eq {files : List FileEntry} (h : ∀ entry ∈ files, entry.blobSha1.length = 20)
    (id : Bytes) : buildBlobPathMap files id =
      (files.filter fun entry => decide (entry.blobSha1 = id)).map fun entry =>
        (entry.path, entry.mode) := by
  have hfold : ∀ (files : List FileEntry) (map : BlobPathMap),
      (∀ entry ∈ files, entry.blobSha1.length = 20) → files.foldl addBlobPath map id = map id ++
        (files.filter fun entry => decide (entry.blobSha1 = id)).map fun entry =>
          (entry.path, entry.mode) := by
    intro files
    induction files with
    | nil => simp
    | cons entry rest ih =>
        intro map hfiles
        obtain ⟨hentry, hrest⟩ := List.forall_mem_cons.mp hfiles
        rw [List.foldl_cons, ih _ hrest, addBlobPath, if_pos hentry]
        by_cases hid : entry.blobSha1 = id
        · subst hid
          simp
        · rw [Function.update_of_ne (Ne.symm hid), List.filter_cons_of_neg (by simpa using hid)]
  rw [buildBlobPathMap, hfold files _ h, List.nil_append]

/-! ## Extraction -/

inductive PackError where
  /-- "invalid pack header" -/
  | invalidHeader
  /-- "pack object … starts past end of pack" -/
  | startsPastEnd (i : Nat)
  /-- "parse object … header" -/
  | header (i : Nat) (error : PackObjError)
  /-- "pack object data offset overflow" -/
  | dataOverflow
  /-- "unexpected delta object (type …) in undeltified pack" -/
  | delta (objType : Nat)
  /-- "pack object … data starts past end of pack" -/
  | dataPastEnd (i : Nat)
  /-- "inflate pack object …" -/
  | inflate (i : Nat)
  /-- "pack object … size mismatch: header=… actual=…" -/
  | sizeMismatch (i size actual : Nat)
  /-- "pack object end offset overflow" -/
  | endOverflow
  | write (error : WriteError)
  deriving DecidableEq, Repr

abbrev PackM := ExceptT PackError (Prog Call Reply)

def packBatchFiles : Nat := 512

def packMagic : Bytes := [0x50, 0x41, 0x43, 0x4b]

def objBlob : Nat := 3

structure PackObject where
  objType : Nat
  content : Bytes
  deriving DecidableEq, Repr

section Extract

-- what the zlib stream at the start of some bytes holds, and how long it is
variable (inflate : Bytes → Option (Bytes × Nat))

/-- The object at `off`, and where the next one starts. -/
def packObject (pack : Bytes) (i off : Nat) : Except PackError (PackObject × Nat) :=
  if pack.length ≤ off then throw (.startsPastEnd i)
  else do
    let (objType, size, hdrLen) ← (parsePackObjHeader (pack.drop off)).mapError (.header i)
    let dataStart ← checkedAdd off hdrLen .dataOverflow
    if objType = 6 ∨ objType = 7 then throw (.delta objType)
    else if pack.length < dataStart then throw (.dataPastEnd i)
    else
      match inflate (pack.drop dataStart) with
      | none => throw (.inflate i)
      | some (content, compressedLen) =>
        if content.length ≠ size then throw (.sizeMismatch i size content.length)
        else do
          let off ← checkedAdd dataStart compressedLen .endOverflow
          return (⟨objType, content⟩, off)

-- the git object id of a blob
variable (blobId : Bytes → Bytes) (blobPaths : BlobPathMap) (targetDir : Place)

/-- Write what is pending. -/
def flushWrites (written : Nat) (pending : List OwnedFileWrite) : PackM Nat := do
  let count ← (writeOwnedEntries targetDir pending freshIndexedCheckout).adapt .write
  return written + count

/-- A blob's writes become pending; full batches of them are written. -/
def pushWrites (content : Bytes) : List (Bytes × Nat) → Nat → List OwnedFileWrite →
    PackM (Nat × List OwnedFileWrite)
  | [], written, pending => return (written, pending)
  | (path, mode) :: rest, written, pending => do
    let pending := pending ++ [⟨⟨path, mode, [], []⟩, .owned content⟩]
    if packBatchFiles ≤ pending.length then do
      let written ← flushWrites targetDir written pending
      pushWrites content rest written []
    else pushWrites content rest written pending

/-- The objects from `off` on, `remaining` of them. -/
def extractObjects (pack : Bytes) : Nat → Nat → Nat → Nat → List OwnedFileWrite → PackM Nat
  | 0, _, _, written, pending => flushWrites targetDir written pending
  | remaining + 1, i, off, written, pending => do
    let (object, off) ← MonadExcept.ofExcept (packObject inflate pack i off)
    let paths := if object.objType = objBlob then blobPaths (blobId object.content) else []
    let (written, pending) ← pushWrites targetDir object.content paths written pending
    extractObjects pack remaining (i + 1) off written pending

def packCount (pack : Bytes) : Nat := ofBe ((pack.drop 8).take 4)

/-- Write the blobs of a pack to their paths and count the writes. -/
def extractBlobsFromPackBytes (pack : Bytes) : PackM Nat :=
  if pack.length < 12 ∨ pack.take 4 ≠ packMagic then throw .invalidHeader
  else extractObjects inflate blobId blobPaths targetDir pack (packCount pack) 0 12 0 []

/-! ## What an extraction writes -/

/-- The objects from `off` on. -/
def readObjects (pack : Bytes) : Nat → Nat → Nat → Except PackError (List PackObject)
  | 0, _, _ => return []
  | remaining + 1, i, off => do
    let (object, off) ← packObject inflate pack i off
    let later ← readObjects pack remaining (i + 1) off
    return object :: later

def readPack (pack : Bytes) : Except PackError (List PackObject) :=
  if pack.length < 12 ∨ pack.take 4 ≠ packMagic then throw .invalidHeader
  else readObjects inflate pack (packCount pack) 0 12

/-- The contents of the blobs among some objects. -/
def blobContents (objects : List PackObject) : List Bytes :=
  (objects.filter fun object => decide (object.objType = objBlob)).map PackObject.content

def pathWrite (content : Bytes) (path : Bytes × Nat) : OwnedFileWrite :=
  ⟨⟨path.1, path.2, [], []⟩, .owned content⟩

/-- A write for every path of a blob each time it is met. -/
def blobWrites (objects : List PackObject) : List OwnedFileWrite :=
  (blobContents objects).flatMap fun content =>
    (blobPaths (blobId content)).map (pathWrite content)

/-- The writes that `events` made, of whole contents. -/
def WrittenIn (events : List FileEvent) (write : OwnedFileWrite) : Prop :=
  ∀ content, write.content = .owned content →
    Written ⟨targetDir, write.entry.path⟩ write.entry.mode content events

section Spec

variable {inflate blobId blobPaths targetDir} {events : List FileEvent} {written count : Nat}
  {pending : List OwnedFileWrite}

theorem WrittenIn.mono {write : OwnedFileWrite} {all : List FileEvent}
    (h : WrittenIn targetDir events write) (hsub : events <:+: all) : WrittenIn targetDir all write :=
  fun content hcontent => (h content hcontent).mono hsub

theorem flushWrites_written (h : RunsTo (flushWrites targetDir written pending) events count) :
    count = written + pending.length ∧ ∀ write ∈ pending, WrittenIn targetDir events write := by
  obtain ⟨first, n, _, rfl, hbatch, hlast⟩ := runsTo_bind.mp h
  obtain ⟨rfl, rfl⟩ := runsTo_pure.mp hlast
  obtain ⟨rfl, hwritten⟩ := writeOwnedEntries_written (runsTo_adapt.mp hbatch)
  rw [List.append_nil]
  exact ⟨rfl, hwritten⟩

theorem pushWrites_written {content : Bytes} {paths : List (Bytes × Nat)} {written' : Nat}
    {pending' : List OwnedFileWrite}
    (h : RunsTo (pushWrites targetDir content paths written pending) events (written', pending')) :
    written' + pending'.length = written + pending.length + paths.length ∧
      ∀ write ∈ pending ++ paths.map (pathWrite content),
        write ∈ pending' ∨ WrittenIn targetDir events write := by
  induction paths generalizing written pending events with
  | nil =>
      obtain ⟨rfl, hresult⟩ := runsTo_pure.mp h
      obtain ⟨rfl, rfl⟩ := Prod.mk.inj hresult
      refine ⟨rfl, fun write hwrite => .inl ?_⟩
      rwa [List.map_nil, List.append_nil] at hwrite
  | cons path rest ih =>
      rw [pushWrites] at h
      rw [List.map_cons, List.append_cons]
      split at h
      · -- a full batch
        obtain ⟨first, n, later, rfl, hflush, hlater⟩ := runsTo_bind.mp h
        obtain ⟨rfl, hbatch⟩ := flushWrites_written hflush
        obtain ⟨hcount, hrest⟩ := ih hlater
        refine ⟨?_, fun write hwrite => ?_⟩
        · simp only [hcount, List.length_append, List.length_cons, List.length_nil]
          omega
        · rcases List.mem_append.mp hwrite with hnow | hlater
          · exact .inr ((hbatch write hnow).mono (List.prefix_append _ _).isInfix)
          · rcases hrest write (List.mem_append_right _ hlater) with hpending | hdone
            · exact .inl hpending
            · exact .inr (hdone.mono (List.suffix_append _ _).isInfix)
      · obtain ⟨hcount, hrest⟩ := ih h
        refine ⟨?_, hrest⟩
        simp only [hcount, List.length_append, List.length_cons, List.length_nil]
        omega

theorem blobWrites_cons (object : PackObject) (objects : List PackObject) :
    blobWrites blobId blobPaths (object :: objects) =
      (if object.objType = objBlob then blobPaths (blobId object.content) else []).map
        (pathWrite object.content) ++ blobWrites blobId blobPaths objects := by
  rw [blobWrites, blobContents, List.filter_cons]
  by_cases hblob : object.objType = objBlob
  · simp [hblob, blobWrites, blobContents]
  · simp [hblob, blobWrites, blobContents]

/-- An extraction that succeeds read every object, and counts and wrote every path of each blob. -/
theorem extractObjects_written {pack : Bytes} {remaining i off : Nat}
    (h : RunsTo (extractObjects inflate blobId blobPaths targetDir pack remaining i off written pending)
      events count) :
    ∃ objects, readObjects inflate pack remaining i off = .ok objects ∧
      count = written + pending.length + (blobWrites blobId blobPaths objects).length ∧
      ∀ write ∈ pending ++ blobWrites blobId blobPaths objects, WrittenIn targetDir events write := by
  induction remaining generalizing i off written pending events with
  | zero =>
      obtain ⟨rfl, hwritten⟩ := flushWrites_written h
      refine ⟨[], rfl, rfl, fun write hwrite => hwritten write ?_⟩
      rwa [blobWrites, blobContents, List.filter_nil, List.map_nil, List.flatMap_nil,
        List.append_nil] at hwrite
  | succ remaining ih =>
      obtain ⟨_, ⟨object, next⟩, later, rfl, hread, hlater⟩ := runsTo_bind.mp h
      obtain ⟨rfl, hobject⟩ := runsTo_ofExcept.mp hread
      obtain ⟨first, ⟨written', pending'⟩, rest, rfl, hpush, hrest⟩ := runsTo_bind.mp hlater
      obtain ⟨hcount, hpushed⟩ := pushWrites_written hpush
      obtain ⟨objects, hobjects, rfl, hwritten⟩ := ih hrest
      refine ⟨object :: objects, ?_, ?_, fun write hwrite => ?_⟩
      · rw [readObjects, hobject]
        show (do let later ← readObjects inflate pack remaining (i + 1) next
                 return object :: later) = _
        rw [hobjects]
        rfl
      · rw [blobWrites_cons, List.length_append, List.length_map]
        omega
      · rw [List.nil_append]
        rw [blobWrites_cons, ← List.append_assoc] at hwrite
        rcases List.mem_append.mp hwrite with hnow | hlater
        · rcases hpushed write hnow with hpending | hdone
          · exact (hwritten write (List.mem_append_left _ hpending)).mono
              (List.suffix_append _ _).isInfix
          · exact hdone.mono (List.prefix_append _ _).isInfix
        · exact (hwritten write (List.mem_append_right _ hlater)).mono
            (List.suffix_append _ _).isInfix

theorem extractBlobs_written {pack : Bytes}
    (h : RunsTo (extractBlobsFromPackBytes inflate blobId blobPaths targetDir pack) events count) :
    ∃ objects, readPack inflate pack = .ok objects ∧
      count = (blobWrites blobId blobPaths objects).length ∧
      ∀ write ∈ blobWrites blobId blobPaths objects, WrittenIn targetDir events write := by
  unfold extractBlobsFromPackBytes at h
  unfold readPack
  split at h
  · cases runsTo_throw.mp h
  · next hheader =>
      rw [if_neg hheader]
      obtain ⟨objects, hobjects, hcount, hwritten⟩ := extractObjects_written h
      exact ⟨objects, hobjects, by simpa using hcount, by simpa using hwritten⟩

/-! ## When nothing goes wrong -/

/-- The paths and modes of the writes are accepted. -/
def WritesAllowed (writes : List OwnedFileWrite) : Prop :=
  ∀ write ∈ writes, validateRelativePath write.entry.path = .ok () ∧ write.entry.mode ∈ allowedModes

theorem canReturn_flushWrites (h : WritesAllowed pending) :
    CanReturn (flushWrites targetDir written pending) (written + pending.length) := by
  obtain ⟨events, hevents⟩ := canReturn_writeOwnedEntries targetDir h
  exact .bind ⟨events, runsTo_adapt.mpr hevents⟩ (.pure _)

variable (targetDir) in
theorem canReturn_pushWrites {content : Bytes} {paths : List (Bytes × Nat)} (written : Nat)
    (h : WritesAllowed (pending ++ paths.map (pathWrite content))) :
    ∃ written' pending', WritesAllowed pending' ∧
      CanReturn (pushWrites targetDir content paths written pending) (written', pending') := by
  induction paths generalizing written pending with
  | nil => exact ⟨written, pending, by simpa using h, .pure _⟩
  | cons path rest ih =>
      rw [List.map_cons, List.append_cons] at h
      rw [pushWrites]
      split
      · have hbatch : WritesAllowed (pending ++ [pathWrite content path]) := fun write hwrite =>
          h write (List.mem_append_left _ hwrite)
        have hrest : WritesAllowed ([] ++ rest.map (pathWrite content)) := fun write hwrite =>
          h write (List.mem_append_right _ hwrite)
        obtain ⟨written', pending', hallowed, hreturn⟩ := ih _ hrest
        exact ⟨written', pending', hallowed, .bind (canReturn_flushWrites hbatch) hreturn⟩
      · exact ih written h

theorem canReturn_extractObjects {pack : Bytes} {remaining i off : Nat} {objects : List PackObject}
    (written : Nat) (hread : readObjects inflate pack remaining i off = .ok objects)
    (h : WritesAllowed (pending ++ blobWrites blobId blobPaths objects)) :
    CanReturn (extractObjects inflate blobId blobPaths targetDir pack remaining i off written pending)
      (written + pending.length + (blobWrites blobId blobPaths objects).length) := by
  induction remaining generalizing i off written pending objects with
  | zero =>
      obtain rfl := pure_eq_ok.mp hread
      exact canReturn_flushWrites (by simpa [blobWrites, blobContents] using h)
  | succ remaining ih =>
      obtain ⟨⟨object, next⟩, hobject, hread⟩ := bind_eq_ok.mp hread
      obtain ⟨later, hlater, hread⟩ := bind_eq_ok.mp hread
      obtain rfl := pure_eq_ok.mp hread
      rw [blobWrites_cons, ← List.append_assoc] at h
      have hnow : WritesAllowed (pending ++
          (if object.objType = objBlob then blobPaths (blobId object.content) else []).map
            (pathWrite object.content)) := fun write hwrite => h write (List.mem_append_left _ hwrite)
      obtain ⟨written', pending', hallowed, events, hpush⟩ :=
        canReturn_pushWrites targetDir written hnow
      have hcount := (pushWrites_written hpush).1
      have hboth : WritesAllowed (pending' ++ blobWrites blobId blobPaths later) := by
        intro write hwrite
        rcases List.mem_append.mp hwrite with hpending | hwrites
        · exact hallowed write hpending
        · exact h write (List.mem_append_right _ hwrites)
      have hrest := ih written' hlater hboth
      have htotal : written + pending.length + (blobWrites blobId blobPaths (object :: later)).length =
          written' + pending'.length + (blobWrites blobId blobPaths later).length := by
        rw [blobWrites_cons, List.length_append, List.length_map]
        omega
      rw [htotal, extractObjects]
      refine .bind ⟨[], runsTo_ofExcept.mpr ⟨rfl, hobject⟩⟩ (.bind ⟨events, hpush⟩ hrest)

variable (targetDir) in
theorem canReturn_extractBlobs {pack : Bytes} {objects : List PackObject}
    (hread : readPack inflate pack = .ok objects)
    (h : WritesAllowed (blobWrites blobId blobPaths objects)) :
    CanReturn (extractBlobsFromPackBytes inflate blobId blobPaths targetDir pack)
      (blobWrites blobId blobPaths objects).length := by
  unfold readPack at hread
  unfold extractBlobsFromPackBytes
  split at hread
  · cases hread
  · next hheader =>
      rw [if_neg hheader]
      have hall : WritesAllowed ([] ++ blobWrites blobId blobPaths objects) := h
      simpa using canReturn_extractObjects 0 hread hall

end Spec

end Extract

end Ripclone
