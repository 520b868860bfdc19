import Mathlib.Algebra.Group.Nat.Defs
import Ripclone.Library.Run
import Ripclone.Library.Slices
import Ripclone.Results

/-!
# Uploads to the bucket

A file is sent in one PUT, or in the parts of a multipart upload, of which up to sixteen are on their way
at once. A PUT that fails is sent again a few times. The bucket may do a request whose answer is lost, and
it may do it later, also when the request was sent again or the upload was given up. A DELETE is done
before it is answered, if at all.

An upload reads a file that does not change. The limit on PUTs, the waits between tries and the client's
own retries are not modelled.
-/

namespace Ripclone.S3

open Ripclone.Library

/-! ## The sizes of parts -/

def multipartUploadPartSize : Nat := 16 * 1024 * 1024

def multipartUploadThreshold : Nat := multipartUploadPartSize

def multipartUploadMaxConcurrency : Nat := 16

def streamPutAttempts : Nat := 3

def throttledPutAttempts : Nat := 8

def multipartUploadMaxPartBytes : Nat := 5 * 1024 * 1024 * 1024

def multipartUploadMaxParts : Nat := 10000

def multipartUploadMaxObjectBytes : Nat := 5 * 1024 * 1024 * 1024 * 1024

/-- Objects of this size are looked for before they are sent. -/
def existsCheckBytes : Nat := 1024 * 1024

inductive PartSizeError where
  /-- "object exceeds the S3 multipart object-size limit" -/
  | objectSize
  /-- "object exceeds the S3 multipart part-size limit" -/
  | partSize
  deriving DecidableEq, Repr

def divCeil (a b : Nat) : Nat := if a % b = 0 then a / b else a / b + 1

def multipartUploadPartBytes (len : Nat) : Except PartSizeError Nat :=
  if multipartUploadMaxObjectBytes < len then throw .objectSize
  else
    let partBytes := max multipartUploadPartSize (divCeil len multipartUploadMaxParts)
    if multipartUploadMaxPartBytes < partBytes then throw .partSize
    else return partBytes

/-- Where part `index` starts and ends. -/
def partRange (len partBytes index : Nat) : Nat × Nat :=
  (index * partBytes, index * partBytes + min (len - index * partBytes) partBytes)

/-- The number of a part, which is a `u32`. -/
def partNumber (index : Nat) : Option Nat := if index + 1 < 2 ^ 32 then some (index + 1) else none

/-! ## The tries of a PUT -/

inductive PutError where
  | throttled
  | other
  deriving DecidableEq, Repr

structure Tries where
  failures : Nat
  throttles : Nat
  deriving DecidableEq, Repr

/-- A PUT failed: it is sent again, or its error is returned. -/
def Tries.failed (tries : Tries) : PutError → Option Tries
  | .throttled =>
    let throttles := tries.throttles + 1
    if throttledPutAttempts ≤ throttles then none else some { tries with throttles }
  | .other =>
    let failures := tries.failures + 1
    if streamPutAttempts ≤ failures then none else some { tries with failures }

/-! ## The bucket -/

/-- A multipart upload that was started. -/
structure Multipart where
  key : String
  /-- What was sent under each number. -/
  parts : Nat → Option Bytes

structure Bucket where
  objects : String → Option Bytes
  multiparts : Nat → Option Multipart

inductive Request where
  | put (key : String) (body : Bytes)
  | uploadPart (id number : Nat) (body : Bytes)
  | complete (id : Nat) (parts : List (Nat × String))
  | abort (id : Nat)
  deriving DecidableEq, Repr

section Bucket

variable (etag : Bytes → String)

/-- The part that is listed, if it is the one the bucket has. -/
def Multipart.part (multipart : Multipart) (listed : Nat × String) : Option Bytes :=
  (multipart.parts listed.1).filter fun body => etag body = listed.2

/-- The object that the listed parts make, if they are there and in order. -/
def Multipart.assemble (multipart : Multipart) (listed : List (Nat × String)) : Option Bytes :=
  if listed ≠ [] ∧ (listed.map Prod.fst).Pairwise (· < ·) ∧
      ∀ part ∈ listed, multipart.part etag part ≠ none then
    some (listed.flatMap fun part => (multipart.part etag part).getD [])
  else none

/-- What the bucket does on a request. -/
def Bucket.exec (bucket : Bucket) : Request → Bucket
  | .put key body => { bucket with objects := Function.update bucket.objects key (some body) }
  | .uploadPart id number body =>
    match bucket.multiparts id with
    | none => bucket
    | some multipart =>
      let parts := Function.update multipart.parts number (some body)
      { bucket with multiparts := Function.update bucket.multiparts id (some { multipart with parts }) }
  | .complete id listed =>
    match bucket.multiparts id with
    | none => bucket
    | some multipart =>
      match multipart.assemble etag listed with
      | none => bucket
      | some object =>
        { objects := Function.update bucket.objects multipart.key (some object)
          multiparts := Function.update bucket.multiparts id none }
  | .abort id => { bucket with multiparts := Function.update bucket.multiparts id none }

/-- Whether the bucket can answer a request with success. -/
def Bucket.Accepts (bucket : Bucket) : Request → Prop
  | .put _ _ => True
  | .uploadPart id _ _ => bucket.multiparts id ≠ none
  | .complete id listed => ∃ multipart, bucket.multiparts id = some multipart ∧ multipart.assemble etag listed ≠ none
  | .abort _ => True

end Bucket

/-! ## An upload -/

inductive Phase where
  /-- The file's length is to be read. -/
  | stat
  | head
  | put (tries : Tries)
  | create (partBytes : Nat)
  /-- Parts are not started, on their way, and sent. -/
  | parts (id partBytes : Nat) (waiting : List Nat) (active : List (Nat × Tries)) (completed : List (Nat × String))
  | complete (id : Nat) (listed : List (Nat × String))
  | abort (id : Nat)
  /-- It ended, with success or an error. -/
  | done (ok : Bool)
  deriving DecidableEq, Repr

structure Task where
  hash : String
  /-- The file's bytes. -/
  data : Bytes
  phase : Phase
  /-- The build that started it has ended. -/
  released : Bool

/-- What a step of an upload sends. -/
inductive Sends where
  | nothing
  | request (request : Request) (answered : Bool)
  /-- A multipart upload is started. -/
  | create
  deriving DecidableEq, Repr

/-- Whether a PUT is sent, for which a slot of the server-wide limit is taken first. -/
def Sends.takesSlot : Sends → Bool
  | .request (.put _ _) _ | .request (.uploadPart _ _ _) _ => true
  | _ => false

/-- Whether an upload waits for such a slot, and can do nothing else. -/
def Phase.awaitsSlot : Phase → Bool
  | .put _ => true
  | .parts _ _ waiting active _ =>
    decide (active ≠ []) && (decide (waiting = []) || decide (multipartUploadMaxConcurrency ≤ active.length))
  | _ => false

def partLe (a b : Nat × String) : Bool := a.1 ≤ b.1

/-- `len` bytes of the file from an offset. -/
def fileRange (data : Bytes) (range : Nat × Nat) : Bytes := slice data range.1 range.2

section Task

variable (pfx : String)

def key (hash : String) : String := pfx ++ hash

/-- What comes after the file's length is known, and the object is not in the bucket. -/
def send (len : Nat) : Phase :=
  if multipartUploadThreshold ≤ len then
    match multipartUploadPartBytes len with
    | .error _ => .done false
    | .ok partBytes => .create partBytes
  else .put ⟨0, 0⟩

def afterStat (len : Nat) : Phase := if existsCheckBytes ≤ len then .head else send len

variable (etag : Bytes → String)

/-- What an upload may have on its way. -/
inductive Task.OnWay (hash : String) (data : Bytes) : Phase → Request → Prop
  | put {tries : Tries} : OnWay hash data (.put tries) (.put (key pfx hash) (fileRange data (0, data.length)))
  | part {id partBytes index number : Nat} {tries : Tries} {waiting : List Nat} {active : List (Nat × Tries)}
      {completed : List (Nat × String)} (hactive : (index, tries) ∈ active)
      (hnumber : partNumber index = some number) :
      OnWay hash data (.parts id partBytes waiting active completed)
        (.uploadPart id number (fileRange data (partRange data.length partBytes index)))
  | complete {id : Nat} {listed : List (Nat × String)} : OnWay hash data (.complete id listed) (.complete id listed)
  | abort {id : Nat} : OnWay hash data (.abort id) (.abort id)

/-- A step of an upload: what it sends and how it goes on. `fresh` is the id of the next multipart upload.
A PUT comes after the wait for a slot of the server-wide limit, which `Uploading.GoesOn` asks for. -/
inductive Task.Step (bucket : Bucket) (fresh : Nat) (hash : String) (data : Bytes) : Phase → Sends → Phase → Prop
  | stat (ok : Bool) : Step bucket fresh hash data .stat .nothing (if ok then afterStat data.length else .done false)
  | head (found : Bool)
      (hfound : found = true → ∃ object, bucket.objects (key pfx hash) = some object ∧ object.length = data.length) :
      Step bucket fresh hash data .head .nothing (if found then .done true else send data.length)
  | put {tries : Tries} :
      Step bucket fresh hash data (.put tries)
        (.request (.put (key pfx hash) (fileRange data (0, data.length))) true) (.done true)
  | putFailed {tries : Tries} (error : PutError) :
      Step bucket fresh hash data (.put tries)
        (.request (.put (key pfx hash) (fileRange data (0, data.length))) false)
        ((tries.failed error).elim (.done false) .put)
  | create {partBytes : Nat} :
      Step bucket fresh hash data (.create partBytes) .create
        (.parts fresh partBytes (List.range (divCeil data.length partBytes)) [] [])
  | createFailed {partBytes : Nat} : Step bucket fresh hash data (.create partBytes) .create (.done false)
  /-- A part is started, or there is no number for it. -/
  | start {id partBytes index : Nat} {waiting : List Nat} {active : List (Nat × Tries)}
      {completed : List (Nat × String)} (hroom : active.length < multipartUploadMaxConcurrency) :
      Step bucket fresh hash data (.parts id partBytes (index :: waiting) active completed) .nothing
        (if (partNumber index).isSome then .parts id partBytes waiting (active ++ [(index, ⟨0, 0⟩)]) completed
          else .abort id)
  /-- A part is sent. Its answer may omit the tag. -/
  | part {id partBytes index number : Nat} {tries : Tries} {waiting : List Nat} {active : List (Nat × Tries)}
      {completed : List (Nat × String)} (tagged : Bool) (hactive : (index, tries) ∈ active)
      (hnumber : partNumber index = some number) {body : Bytes}
      (hbody : body = fileRange data (partRange data.length partBytes index)) :
      Step bucket fresh hash data (.parts id partBytes waiting active completed)
        (.request (.uploadPart id number body) true)
        (if tagged then
          .parts id partBytes waiting (active.erase (index, tries)) (completed ++ [(number, etag body)])
        else .abort id)
  | partFailed {id partBytes index number : Nat} {tries : Tries} {waiting : List Nat} {active : List (Nat × Tries)}
      {completed : List (Nat × String)} (error : PutError) (hactive : (index, tries) ∈ active)
      (hnumber : partNumber index = some number) {body : Bytes}
      (hbody : body = fileRange data (partRange data.length partBytes index)) :
      Step bucket fresh hash data (.parts id partBytes waiting active completed)
        (.request (.uploadPart id number body) false)
        ((tries.failed error).elim (.abort id) fun tries' =>
          .parts id partBytes waiting ((index, tries') :: active.erase (index, tries)) completed)
  | sent {id partBytes : Nat} {completed : List (Nat × String)} :
      Step bucket fresh hash data (.parts id partBytes [] [] completed) .nothing
        (.complete id (completed.mergeSort partLe))
  | complete {id : Nat} {listed : List (Nat × String)} :
      Step bucket fresh hash data (.complete id listed) (.request (.complete id listed) true) (.done true)
  | completeFailed {id : Nat} {listed : List (Nat × String)} :
      Step bucket fresh hash data (.complete id listed) (.request (.complete id listed) false) (.abort id)
  | abort {id : Nat} (answered : Bool) :
      Step bucket fresh hash data (.abort id) (.request (.abort id) answered) (.done false)

end Task

/-! ## All of them -/

/-- The bucket, its requests on the way and the uploads to it. -/
structure Uploading where
  bucket : Bucket
  /-- Requests that were sent, each of which the bucket may do again or late. -/
  wire : List Request
  /-- The hash and bytes that each multipart upload is of. -/
  started : List (String × Bytes)
  tasks : List Task

inductive Event where
  | upload (hash : String) (data : Bytes)
  /-- A request is sent, and not answered yet. -/
  | send (t : Nat)
  | step (t : Nat)
  /-- The upload's future is dropped. -/
  | cancel (t : Nat)
  | release (t : Nat)
  | deliver (request : Request)
  | delete (hash : String)
  deriving DecidableEq, Repr

namespace Uploading

variable (pfx : String) (etag sha256 : Bytes → String)

def empty : Uploading := ⟨⟨fun _ => none, fun _ => none⟩, [], [], []⟩

/-- What task `t` sends, it being in phase `phase` afterwards. -/
def sent (s : Uploading) (t : Nat) (task : Task) (sends : Sends) (phase : Phase) : Uploading :=
  let tasks := s.tasks.set t { task with phase }
  match sends with
  | .nothing => { s with tasks }
  | .request request answered =>
    { s with
      bucket := if answered then s.bucket.exec etag request else s.bucket
      wire := request :: s.wire
      tasks }
  | .create =>
    let multiparts := Function.update s.bucket.multiparts s.started.length (some ⟨key pfx task.hash, fun _ => none⟩)
    { s with
      bucket := { s.bucket with multiparts }
      started := s.started ++ [(task.hash, task.data)]
      tasks }

/-- A request is answered with success only if the bucket can do it. -/
def Possible (s : Uploading) : Sends → Prop
  | .request request true => s.bucket.Accepts etag request
  | _ => True

inductive Step : Uploading → Event → Uploading → Prop
  /-- A file of the store, whose name is its hash, is uploaded for a build. -/
  | upload {s : Uploading} {hash : String} {data : Bytes} (hhash : sha256 data = hash) :
      Step s (.upload hash data) { s with
        tasks := s.tasks ++ [⟨hash, data, if validateArtifactId hash then .stat else .done false, false⟩] }
  | send {s : Uploading} {t : Nat} {task : Task} {request : Request} (htask : s.tasks[t]? = some task)
      (hrequest : Task.OnWay pfx task.hash task.data task.phase request) :
      Step s (.send t) { s with wire := request :: s.wire }
  | step {s : Uploading} {t : Nat} {task : Task} {sends : Sends} {phase : Phase} (htask : s.tasks[t]? = some task)
      (hstep : Task.Step pfx etag s.bucket s.started.length task.hash task.data task.phase sends phase)
      (hpossible : s.Possible etag sends) : Step s (.step t) (s.sent pfx etag t task sends phase)
  | cancel {s : Uploading} {t : Nat} {task : Task} (htask : s.tasks[t]? = some task) :
      Step s (.cancel t) { s with tasks := s.tasks.set t { task with phase := .done false } }
  | release {s : Uploading} {t : Nat} {task : Task} (htask : s.tasks[t]? = some task) :
      Step s (.release t) { s with tasks := s.tasks.set t { task with released := true } }
  | deliver {s : Uploading} {request : Request} (hsent : request ∈ s.wire) :
      Step s (.deliver request) { s with bucket := s.bucket.exec etag request }
  /-- An object that no build pins is deleted. -/
  | delete {s : Uploading} {hash : String} (hunpinned : ∀ task ∈ s.tasks, task.hash = hash → task.released = true) :
      Step s (.delete hash) { s with
        bucket := { s.bucket with objects := Function.update s.bucket.objects (key pfx hash) none } }

/-- Upload `t` goes on, with a PUT only if it is granted a slot for one. -/
def GoesOn (slot : Bool) (s : Uploading) (t : Nat) (s' : Uploading) : Prop :=
  ∃ task sends phase, s.tasks[t]? = some task ∧
    Task.Step pfx etag s.bucket s.started.length task.hash task.data task.phase sends phase ∧
    s.Possible etag sends ∧ (sends.takesSlot = true → slot = true) ∧ s' = s.sent pfx etag t task sends phase

end Uploading

end Ripclone.S3
