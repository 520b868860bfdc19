import Ripclone.Library.Semaphore
import Ripclone.Storage.S3

/-!
# A build's uploads

Each artifact's upload starts when the artifact is stored, in a task of its own, and the build waits for all
of its tasks before it returns. One limit bounds the uploads of all builds. A build's tasks are dropped with
it, or when one of them fails; a task that is dropped stops at its next await, so it may get further first.

The bucket and what goes on in an upload are those of the bucket's own model. `seen` is the set of `started`.
-/

namespace Ripclone.Upload

open Ripclone.Library

/-- Uploads running at once across every build. -/
def uploadSlots : Nat := 32

/-- Where an upload's task is. -/
inductive Stage where
  | spawned
  /-- It waits for a slot. -/
  | queued
  /-- It has a slot, and is to look whether its build is cancelled. -/
  | running
  | putting
  | ended (ok : Bool)
  deriving DecidableEq, Repr

structure Job where
  build : Nat
  hash : String
  /-- The file's bytes. -/
  data : Bytes
  stage : Stage
  /-- The bucket's upload that it started. -/
  upload : Option Nat
  aborted : Bool

/-- Where `finish` is. -/
inductive Finish where
  | notCalled
  /-- About to take the tasks. -/
  | looking
  /-- Waits for the tasks that it took. -/
  | joining (tasks : List Nat)
  /-- It took none, and is about to read what was started. -/
  | listing
  | returned (uploaded : Option (List String))
  deriving DecidableEq, Repr

structure Uploads where
  started : List String
  tasks : List Nat
  cancelled : Bool
  finish : Finish
  /-- The build is over, and its pins are dropped. -/
  ended : Bool

/-- The bucket, the limit, and the builds with their tasks. -/
structure System where
  bucket : S3.Uploading
  slots : Semaphore
  jobs : List Job
  builds : List Uploads

inductive Event where
  | new
  | start (build : Nat) (hash : String) (data : Bytes)
  | acquire (job : Nat)
  /-- A task that waits finds that it was handed a slot. -/
  | resumed (job : Nat)
  | check (job : Nat)
  /-- A task's upload ended. -/
  | put (job : Nat)
  | abort (job : Nat)
  /-- The bucket's own steps and those of an upload. -/
  | bucket (event : S3.Event)
  | finish (build : Nat)
  | take (build : Nat)
  | join (build : Nat) (job : Nat)
  /-- All tasks that were taken are joined. -/
  | again (build : Nat)
  | list (build : Nat)
  | cancel (build : Nat)
  /-- The build's uploads are dropped. -/
  | drop (build : Nat)
  /-- The build's pins are dropped. -/
  | release (build : Nat)
  deriving DecidableEq, Repr

def init : System := ⟨.empty, .new uploadSlots, [], []⟩

def Job.abortIf (job : Job) (p : Job → Bool) : Job := if p job then { job with aborted := true } else job

namespace System

/-- Every task that `p` holds of is dropped. -/
def abortAll (s : System) (p : Nat → Job → Bool) : System :=
  { s with jobs := s.jobs.mapIdx fun j job => job.abortIf (p j) }

def setBuild (s : System) (b : Nat) (uploads : Uploads) : System :=
  { s with builds := s.builds.set b uploads }

def setJob (s : System) (j : Nat) (job : Job) : System :=
  { s with jobs := s.jobs.set j job }

/-- The bucket's uploads of a build's tasks. -/
def uploadsOf (s : System) (b : Nat) : List Nat :=
  (s.jobs.filter fun job => job.build = b).filterMap Job.upload

/-- Whether the build is over. -/
def buildOver (s : System) (b : Nat) : Bool := (s.builds[b]?.map Uploads.ended).getD false

end System

/-- The bucket's upload is one that no build waits for any more. -/
def releaseUpload (bucket : S3.Uploading) (t : Nat) : S3.Uploading :=
  match bucket.tasks[t]? with
  | some task => { bucket with tasks := bucket.tasks.set t { task with released := true } }
  | none => bucket

/-- The bucket's upload is dropped. -/
def cancelUpload (bucket : S3.Uploading) (t : Nat) : S3.Uploading :=
  match bucket.tasks[t]? with
  | some task => { bucket with tasks := bucket.tasks.set t { task with phase := .done false } }
  | none => bucket

/-- A new upload of the file `data`. That of a build that is over is one that nobody waits for. -/
def beginUpload (bucket : S3.Uploading) (hash : String) (data : Bytes) (buildOver : Bool) : S3.Uploading :=
  { bucket with
    tasks := bucket.tasks ++ [⟨hash, data, if validateArtifactId hash then .stat else .done false, buildOver⟩] }

/-- A task's slot is given back when it ends. -/
def endJob (s : System) (j : Nat) (job : Job) (ok : Bool) : System :=
  { s with slots := s.slots.release, jobs := s.jobs.set j { job with stage := .ended ok } }

/-- What the drop of a task leaves, by where it is. -/
def abortJob (s : System) (j : Nat) (job : Job) : System :=
  let jobs := s.jobs.set j { job with stage := .ended false }
  match job.stage with
  | .spawned => { s with jobs := jobs }
  | .queued => { s with slots := s.slots.abandon j, jobs := jobs }
  | .running => endJob s j job false
  | .putting =>
    { endJob s j job false with bucket := (job.upload.map (cancelUpload s.bucket)).getD s.bucket }
  | .ended _ => s

/-- `start`: nothing for an empty hash or one that was started. The task is pinned before it is spawned. -/
def start (s : System) (b : Nat) (uploads : Uploads) (hash : String) (data : Bytes) : System :=
  if hash = "" ∨ hash ∈ uploads.started then s
  else
    { s with
      jobs := s.jobs ++ [⟨b, hash, data, .spawned, none, false⟩]
      builds := s.builds.set b { uploads with
        started := uploads.started ++ [hash]
        tasks := uploads.tasks ++ [s.jobs.length] } }

/-- A task with a slot looks whether its build is cancelled, and starts its upload. -/
def check (s : System) (j : Nat) (job : Job) (uploads : Uploads) : System :=
  if uploads.cancelled then endJob s j job false
  else
    { s with
      bucket := beginUpload s.bucket job.hash job.data uploads.ended
      jobs := s.jobs.set j { job with stage := .putting, upload := some s.bucket.tasks.length } }

/-- A joined task: its failure is returned, and drops the tasks that were taken. -/
def join (s : System) (b : Nat) (uploads : Uploads) (tasks : List Nat) (j : Nat) (ok : Bool) : System :=
  if ok then s.setBuild b { uploads with finish := .joining (tasks.erase j) }
  else (s.setBuild b { uploads with finish := .returned none }).abortAll fun k _ => k ∈ tasks.erase j

/-- The build's uploads are dropped, and a `finish` that has not returned. -/
def drop (s : System) (b : Nat) (uploads : Uploads) : System :=
  let finish := match uploads.finish with
    | .returned uploaded => .returned uploaded
    | _ => .returned none
  (s.setBuild b { uploads with finish := finish }).abortAll fun _ job => job.build = b

section Step

variable (pfx : String) (etag sha256 : Bytes → String)

inductive Step : System → Event → System → Prop
  | new {s : System} : Step s .new { s with builds := s.builds ++ [⟨[], [], false, .notCalled, false⟩] }
  /-- A file of the store, whose name is its hash. -/
  | start {s : System} {b : Nat} {uploads : Uploads} {hash : String} {data : Bytes}
      (huploads : s.builds[b]? = some uploads) (hended : uploads.ended = false) (hhash : sha256 data = hash) :
      Step s (.start b hash data) (Upload.start s b uploads hash data)
  | acquire {s : System} {j : Nat} {job : Job} (hjob : s.jobs[j]? = some job) (hstage : job.stage = .spawned) :
      Step s (.acquire j) { s with
        slots := (s.slots.acquire j).1
        jobs := s.jobs.set j { job with stage := if (s.slots.acquire j).2 then .running else .queued } }
  | resumed {s : System} {j : Nat} {job : Job} (hjob : s.jobs[j]? = some job) (hhanded : j ∈ s.slots.handed) :
      Step s (.resumed j) { s with
        slots := s.slots.resume j
        jobs := s.jobs.set j { job with stage := .running } }
  | check {s : System} {j : Nat} {job : Job} {uploads : Uploads} (hjob : s.jobs[j]? = some job)
      (hstage : job.stage = .running) (huploads : s.builds[job.build]? = some uploads) :
      Step s (.check j) (Upload.check s j job uploads)
  | put {s : System} {j t : Nat} {job : Job} {task : S3.Task} {ok : Bool} (hjob : s.jobs[j]? = some job)
      (hstage : job.stage = .putting) (hupload : job.upload = some t) (htask : s.bucket.tasks[t]? = some task)
      (hphase : task.phase = .done ok) : Step s (.put j) (endJob s j job ok)
  | abort {s : System} {j : Nat} {job : Job} (hjob : s.jobs[j]? = some job) (haborted : job.aborted = true) :
      Step s (.abort j) (abortJob s j job)
  /-- Uploads that are no build's come and go, too. -/
  | bucket {s : System} {event : S3.Event} {bucket : S3.Uploading}
      (hstep : S3.Uploading.Step pfx etag sha256 s.bucket event bucket)
      (hcancel : ∀ t, event = .cancel t → ∀ job ∈ s.jobs, job.upload ≠ some t)
      (hrelease : ∀ t, event = .release t → ∀ job ∈ s.jobs, job.upload ≠ some t) :
      Step s (.bucket event) { s with bucket := bucket }
  | finish {s : System} {b : Nat} {uploads : Uploads} (huploads : s.builds[b]? = some uploads)
      (hfinish : uploads.finish = .notCalled) :
      Step s (.finish b) (s.setBuild b { uploads with finish := .looking })
  | take {s : System} {b : Nat} {uploads : Uploads} (huploads : s.builds[b]? = some uploads)
      (hfinish : uploads.finish = .looking) :
      Step s (.take b) (s.setBuild b { uploads with
        tasks := []
        finish := if uploads.tasks = [] then .listing else .joining uploads.tasks })
  | join {s : System} {b j : Nat} {uploads : Uploads} {tasks : List Nat} {job : Job} {ok : Bool}
      (huploads : s.builds[b]? = some uploads) (hfinish : uploads.finish = .joining tasks) (hj : j ∈ tasks)
      (hjob : s.jobs[j]? = some job) (hstage : job.stage = .ended ok) :
      Step s (.join b j) (Upload.join s b uploads tasks j ok)
  | again {s : System} {b : Nat} {uploads : Uploads} (huploads : s.builds[b]? = some uploads)
      (hfinish : uploads.finish = .joining []) :
      Step s (.again b) (s.setBuild b { uploads with finish := .looking })
  | list {s : System} {b : Nat} {uploads : Uploads} (huploads : s.builds[b]? = some uploads)
      (hfinish : uploads.finish = .listing) :
      Step s (.list b) (s.setBuild b { uploads with finish := .returned (some uploads.started) })
  | cancel {s : System} {b : Nat} {uploads : Uploads} (huploads : s.builds[b]? = some uploads) :
      Step s (.cancel b) (s.setBuild b { uploads with cancelled := true })
  | drop {s : System} {b : Nat} {uploads : Uploads} (huploads : s.builds[b]? = some uploads) :
      Step s (.drop b) (Upload.drop s b uploads)
  /-- The pins outlive the build's future. -/
  | release {s : System} {b : Nat} {uploads : Uploads} (huploads : s.builds[b]? = some uploads) :
      Step s (.release b) { s with
        bucket := (s.uploadsOf b).foldl releaseUpload s.bucket
        builds := s.builds.set b { uploads with ended := true } }

end Step

end Ripclone.Upload
