import Ripclone.Control.Artifacts
import Ripclone.Pins

/-!
# The life of an artifact

Builds and refs publishes store artifacts, publishes name them, purges and unpublished work queue
them for deletion, and sweeps delete what is queued, due, named by no repository and pinned by no
build. Here all of these run at once over one control database, one set of pins and one artifact
storage: the bucket, or the directory of a local backend.

A step of the system is one statement of the control database, one operation on the pins, one effect
on storage or one reading of the clock, by whichever party is at it. What an output or a refs row
consists of is left open: what is stored of it is what the job pinned and then stored or found in storage, or what
was stored of a row that the job read. A job stands for a claim's build, with the tags that a Head
publishes beside it, or for a refs publish of its own.

A Files also names the frames of its archive, and no frame is an object of its own once a bundle has
two: what is stored is the bundle. So an output's stored artifacts are told apart from all that it
names, which the references record and the deletion queue gets.

Storage calls that a dropped future leaves behind go on: a store may take effect after its job has
ended, and a deletion after the sweep that asked for it has dropped it. A deletion that fails has no
later effect, and neither has one that the storage client sends again.
-/

namespace Ripclone

/-! ## What is stored of an output -/

/-- The artifacts of a Files that a build stores: all it names but the frames of its archive, which
its bundles hold. -/
def FilesResult.storedArtifacts : FilesResult → List String
  | ⟨clonepack, archiveChunks, _, compact⟩ =>
    let hashes := named (clonepack.artifacts ++ archiveChunks)
    match compact with
    | none => hashes
    | some compact => (hashes ++ compact.storedArtifacts).dedup

theorem FilesResult.artifacts_of_stored {hash : String} : ∀ {files : FilesResult},
    hash ∈ files.storedArtifacts → hash ∈ files.artifacts
  | ⟨clonepack, archiveChunks, archiveFrames, none⟩, h => by
      simp only [storedArtifacts, artifacts, named, List.mem_dedup, List.mem_filter,
        List.mem_append] at h ⊢
      exact ⟨.inl h.1, h.2⟩
  | ⟨clonepack, archiveChunks, archiveFrames, some compact⟩, h => by
      simp only [storedArtifacts, artifacts, named, List.mem_dedup, List.mem_filter,
        List.mem_append] at h ⊢
      exact h.imp (fun hown => ⟨.inl hown.1, hown.2⟩) artifacts_of_stored

namespace Control

def StoredOutput.storedArtifacts : StoredOutput → List String
  | .head result => result.artifacts
  | .files result => result.storedArtifacts
  | .full result => result.artifacts

def Output.storedArtifacts (output : Output) : List String := output.stored.storedArtifacts

theorem StoredOutput.artifacts_of_stored {output : StoredOutput} {hash : String}
    (h : hash ∈ output.storedArtifacts) : hash ∈ output.artifacts := by
  cases output with
  | head result => exact h
  | files result => exact result.artifacts_of_stored h
  | full result => exact h

end Control

end Ripclone

namespace Ripclone.Server.Lifecycle

open Ripclone.Library Ripclone.Control

/-! ## The parties -/

inductive Work where
  | build (claim : Claim)
  | refs (repo : String)

def Work.repo : Work → String
  | .build claim => claim.repo
  | .refs repo => repo

/-- What a job is about to publish. -/
inductive Plan where
  | output (output : Output)
  | refs (row : RepoRefs)

def Plan.artifacts : Plan → List String
  | .output built => built.artifacts
  | .refs row => row.artifacts

def Plan.storedArtifacts : Plan → List String
  | .output built => built.storedArtifacts
  | .refs row => row.artifacts

/-- A publish that has begun with `record_sizes`. -/
structure Write where
  plan : Plan
  /-- Those of its artifacts whose size it found recorded or has recorded. -/
  sized : List String

inductive Stage where
  | running
  /-- It published, failed or was cancelled. `keep` is what its publish named. -/
  | settled (keep : List String)
  /-- `queue_unnamed` has read the pins and the clock. -/
  | discarding (hashes : List String) (dueAt : Int)
  | ended
  deriving DecidableEq, Repr

/-- A job's pins are the set of the job's index. -/
structure Job where
  work : Work
  /-- What was stored of the build rows it read. -/
  rows : List String
  /-- The artifacts of the refs rows it read. -/
  refs : List String
  /-- The artifacts it pinned and began to store. -/
  started : List String
  /-- Those of them that it stored or found in storage. -/
  relied : List String
  writes : List Write
  stage : Stage

def Job.new (work : Work) : Job := ⟨work, [], [], [], [], [], .running⟩

/-- Whether a store of the job may be under way: a publish waits for all of them. -/
def Job.stores (job : Job) : Bool :=
  match job.stage with
  | .settled keep => keep.isEmpty
  | _ => true

/-- The job after it has written a refs row: a refs publish is settled by it, and a Head's build goes
on. -/
def Job.wroteRefs (job : Job) (n : Nat) (written : Bool) (row : RepoRefs) : Job :=
  match job.work with
  | .build _ => { job with writes := job.writes.eraseIdx n }
  | .refs _ => { job with writes := [], stage := .settled (if written then row.artifacts else []) }

/-- A purge that has read the clock. -/
structure Purge where
  repo : String
  dueAt : Int
  deriving DecidableEq, Repr

/-- One batch of a sweep. -/
structure Sweep where
  now : Int
  /-- Whether it has read the queue. -/
  read : Bool
  /-- The artifacts it has yet to look at. -/
  due : List String
  /-- The artifacts it deleted or kept. -/
  done : List String
  /-- Those of them whose result it has collected. -/
  settled : List String
  /-- It stops at the first failure. -/
  failed : Bool
  ended : Bool
  deriving DecidableEq, Repr

inductive FlightStage where
  /-- It has the artifact's `Deleting` guard. -/
  | marked
  /-- The artifact is deletable: its storage request is under way. -/
  | deleting
  /-- The request has taken effect. -/
  | removed
  deriving DecidableEq, Repr

/-- A `sweep_one` that has its guard. -/
structure Flight where
  hash : String
  sweep : Nat
  stage : FlightStage
  deriving DecidableEq, Repr

structure World where
  /-- Twice the lifetime of a signed URL, in seconds. -/
  grace : Nat
  control : Control.World
  clock : Int
  pins : Pins.System
  storage : List String
  jobs : List Job
  purges : List Purge
  sweeps : List Sweep
  flights : List Flight
  /-- Deletions that a sweep dropped while their storage request was under way. -/
  late : List String
  /-- The `(repo, hash)` pairs of what was stored of each publish, until a purge. -/
  storedRefs : List (String × String)
  /-- The `(repo, hash)` pairs named by a publish that found or recorded their size, until a purge. -/
  sizedRefs : List (String × String)

def World.init (grace : Nat) (clock : Int) : World where
  grace := grace
  control := .init
  clock := clock
  pins := .init
  storage := []
  jobs := []
  purges := []
  sweeps := []
  flights := []
  late := []
  storedRefs := []
  sizedRefs := []

/-! ## What a job does alone -/

inductive JobEvent where
  /-- A build reads a row of its repo. -/
  | read (key : String × String)
  | readRefs
  /-- A store begins of an artifact the job has pinned. -/
  | start (hash : String)
  /-- The store finds the artifact in storage. -/
  | found (hash : String)
  /-- `record_sizes` looks up which sizes are recorded. -/
  | unsized (plan : Plan)
  /-- The job fails, is cancelled, finds nothing to publish, or panics with its lease held. -/
  | settle
  /-- `queue_unnamed` reads the pins and the clock. -/
  | discard
  /-- The build's task panics after the claim lost its lease. -/
  | abandon

/-- What was stored of a row's ready outputs. -/
def readyArtifacts (key : String × String) (db : Db) : List String :=
  [ExactResultKind.head, .files, .full].flatMap fun kind =>
    match db.out key kind with
    | some columns =>
      if columns.state = .ready then (columns.output.map StoredOutput.storedArtifacts).getD [] else []
    | none => []

def refsArtifacts (repo : String) (db : Db) : List String :=
  ((Table.lookup Prod.fst repo db.repoRefs).map fun row => row.2.artifacts).getD []

/-- Whether the size of an artifact is recorded. -/
def sized (db : Db) (hash : String) : Bool := db.artifactSizes.any fun size => size.1 = hash

namespace World

def db (w : World) : Db := w.control.db

/-- The artifacts job `i` has pinned. -/
def held (w : World) (i : Nat) : List String := (w.pins.sets[i]?.map Pins.PinSet.held).getD []

/-- Whether job `i` still has its pins. -/
def alive (w : World) (i : Nat) : Bool := w.pins.sets[i]?.any Pins.PinSet.alive

/-- Whether the job may publish this: what is stored of it is pinned and in storage, or taken over from
a row that the job read. -/
def fits (job : Job) : Plan → Bool
  | .output output =>
    match job.work with
    | .build _ => output.storedArtifacts.all fun hash => hash ∈ job.relied ++ job.rows
    | .refs _ => false
  | .refs row => row.artifacts.all fun hash => hash ∈ job.relied ++ job.refs

def jobExec (w : World) (i : Nat) (job : Job) : JobEvent → Option Job
  | .read key =>
    match job.work with
    | .build claim =>
      if job.stage = .running ∧ key.1 = claim.repo then
        some { job with rows := job.rows ++ readyArtifacts key w.db }
      else none
    | .refs _ => none
  | .readRefs =>
    if job.stage = .running then
      some { job with refs := job.refs ++ refsArtifacts job.work.repo w.db }
    else none
  | .start hash =>
    if hash ∈ w.held i then some { job with started := hash :: job.started } else none
  | .found hash =>
    if hash ∈ job.started ∧ hash ∈ w.storage then some { job with relied := hash :: job.relied }
    else none
  | .unsized plan =>
    if job.stage = .running ∧ fits job plan then
      some { job with writes := job.writes ++ [⟨plan, plan.artifacts.filter (sized w.db)⟩] }
    else none
  | .settle => if w.alive i then some { job with writes := [], stage := .settled [] } else none
  | .discard =>
    match job.stage with
    | .settled keep =>
      some { job with stage := .discarding ((w.held i).filter fun hash => hash ∉ keep) w.clock }
    | _ => none
  | .abandon =>
    match job.work with
    | .build _ => if job.stage = .ended then none else some { job with writes := [], stage := .ended }
    | .refs _ => none

end World

/-! ## Every step -/

inductive Event where
  | tick (seconds : Nat)
  /-- An admission, a retry, a renewal, a failure, a release, an addition or a removal. -/
  | control (op : Op)
  | claim (store : SqliteControlStore) (now : Int) (owner : String) (pool : Pool) (lease : Nat)
      (seen : Db)
  /-- A refs publish begins that has pins of its own. -/
  | refs (repo : String)
  | job (i : Nat) (e : JobEvent)
  /-- A pin, or a step of dropping a set. -/
  | pins (e : Pins.Event)
  /-- A store takes effect. -/
  | store (i : Nat) (hash : String)
  | sizes (i : Nat) (write : Nat) (sizes : List (String × Nat))
  | publish (i : Nat) (write : Nat)
  | queue (i : Nat)
  /-- The last reference to an ended job's pins is dropped. -/
  | release (i : Nat)
  | purgeBegin (repo : String)
  | purge (n : Nat)
  | sweep
  | due (k : Nat)
  | mark (k : Nat) (hash : String)
  | check (hash : String)
  | remove (hash : String)
  | done (hash : String)
  | collect (k : Nat) (hash : String)
  /-- A deletion fails, and its sweep stops. -/
  | fail (hash : String)
  /-- A sweep that stopped drops a deletion in flight. -/
  | drop (hash : String)
  | dequeue (k : Nat)
  /-- The request of a dropped deletion takes effect. -/
  | late (hash : String)

/-- The operations that no party's state depends on. -/
def plain : Op → Bool
  | .admitBuild .. | .retry .. | .renew .. | .fail .. | .release .. | .addRepo .. | .removeRepo .. =>
    true
  | _ => false

/-- The steps of pins that a job's threads and the dropping of a set take. -/
def pinning : Pins.Event → Bool
  | .pin .. | .count .. | .hold .. | .drain .. | .unpin .. | .dropped .. => true
  | _ => false

namespace World

def setJob (w : World) (i : Nat) (job : Job) : World := { w with jobs := w.jobs.set i job }

def setSweep (w : World) (k : Nat) (sweep : Sweep) : World := { w with sweeps := w.sweeps.set k sweep }

def after (w : World) (op : Op) : World := { w with control := w.control.after op }

def newJob (w : World) (work : Work) : World :=
  { w with
    pins := { w.pins with sets := w.pins.sets ++ [⟨[], .idle⟩] }
    jobs := w.jobs ++ [.new work] }

def flight (w : World) (hash : String) : Option Flight := w.flights.find? fun f => f.hash = hash

/-- Drop the guard of a deletion. -/
def endFlight (w : World) (hash : String) : World :=
  { w with
    pins := { w.pins with state := w.pins.state.endDelete hash, guards := w.pins.guards.erase hash }
    flights := w.flights.filter fun f => f.hash ≠ hash }

def setFlight (w : World) (hash : String) (stage : FlightStage) : World :=
  { w with
    flights := w.flights.map fun f => if f.hash = hash then { f with stage := stage } else f }

/-- The sweep has deleted or kept the artifact. -/
def doneFlight (w : World) (f : Flight) (sweep : Sweep) : World :=
  (w.endFlight f.hash).setSweep f.sweep { sweep with done := f.hash :: sweep.done }

/-- Storage without the artifact. -/
def removeStored (w : World) (hash : String) : World :=
  { w with storage := w.storage.filter fun stored => stored ≠ hash }

/-- What is stored of a publish that was written. -/
def recordStored (repo : String) (plan : Plan) (written : Bool) : List (String × String) :=
  if written then plan.storedArtifacts.map fun hash => (repo, hash) else []

/-- What a publish that was written names and had found or recorded the size of. A size that cannot be
read is logged and left out, as that of a frame, which is no object of its own. -/
def recordSized (repo : String) (write : Write) (written : Bool) : List (String × String) :=
  if written then
    (write.plan.artifacts.filter fun hash => hash ∈ write.sized).map fun hash => (repo, hash)
  else []

def publishExec (w : World) (i : Nat) (job : Job) (n : Nat) (write : Write) : Option World :=
  match write.plan with
  | .output output =>
    match job.work with
    | .build claim =>
      let applied := Control.applied claim output w.db
      some { (w.after (.publish claim output)).setJob i
          { job with writes := [], stage := .settled (if applied then output.artifacts else []) } with
        storedRefs := recordStored claim.repo write.plan applied ++ w.storedRefs
        sizedRefs := recordSized claim.repo write applied ++ w.sizedRefs }
    | .refs _ => none
  | .refs row =>
    let repo := job.work.repo
    let written := (setRefs repo row w.db).2
    some { (w.after (.setRefs repo row)).setJob i (job.wroteRefs n written row) with
      storedRefs := recordStored repo write.plan written ++ w.storedRefs
      sizedRefs := recordSized repo write written ++ w.sizedRefs }

def exec (w : World) : Event → Option World
  | .tick seconds => some { w with clock := w.clock + seconds }
  | .control op => if plain op then some (w.after op) else none
  | .claim store now owner pool lease seen =>
    -- The server numbers its claims per slot, and the store prefixes its instance.
    if leaseOwner store owner ∈ grantedOwners w.control.history then none
    else
      let op := Op.claim store now owner pool lease seen
      match (Control.claim store now owner pool lease seen w.db).2 with
      | none => some (w.after op)
      | some claim => some ((w.after op).newJob (.build claim))
  | .refs repo => some (w.newJob (.refs repo))
  | .job i e => do
    let job ← w.jobs[i]?
    let job' ← w.jobExec i job e
    return w.setJob i job'
  | .pins e =>
    if pinning e then (w.pins.exec e).map fun pins => { w with pins := pins } else none
  | .store i hash => do
    let job ← w.jobs[i]?
    if hash ∈ job.started ∧ job.stores then
      some { w.setJob i { job with relied := hash :: job.relied } with
        storage := hash :: w.storage }
    else none
  | .sizes i n sizes => do
    let job ← w.jobs[i]?
    let write ← job.writes[n]?
    if sizes.all fun size => size.1 ∈ write.plan.artifacts then
      let write := { write with sized := sizes.map Prod.fst ++ write.sized }
      some ((w.after (.recordSizes sizes)).setJob i { job with writes := job.writes.set n write })
    else none
  | .publish i n => do
    let job ← w.jobs[i]?
    let write ← job.writes[n]?
    if job.stage = .running then w.publishExec i job n write else none
  | .queue i => do
    let job ← w.jobs[i]?
    match job.stage with
    | .discarding hashes dueAt =>
      some ((w.after (.queueDeletions hashes dueAt)).setJob i { job with stage := .ended })
    | _ => none
  | .release i => do
    let job ← w.jobs[i]?
    if job.stage = .ended then (w.pins.exec (.dropSet i)).map fun pins => { w with pins := pins }
    else none
  | .purgeBegin repo =>
    let dueAt := saturatingAdd w.clock (durationSecs w.grace)
    some { w with purges := w.purges ++ [⟨repo, dueAt⟩] }
  | .purge n => do
    let purge ← w.purges[n]?
    some { w.after (.purgeRepo purge.repo purge.dueAt) with
      purges := w.purges.eraseIdx n
      storedRefs := w.storedRefs.filter fun named => named.1 ≠ purge.repo
      sizedRefs := w.sizedRefs.filter fun named => named.1 ≠ purge.repo }
  | .sweep => some { w with sweeps := w.sweeps ++ [⟨w.clock, false, [], [], [], false, false⟩] }
  | .due k => do
    let sweep ← w.sweeps[k]?
    if sweep.read || sweep.ended then none
    else
      let due := dueDeletions sweep.now 1000 w.db
      some (w.setSweep k { sweep with read := true, due := due })
  | .mark k hash => do
    let sweep ← w.sweeps[k]?
    if hash ∈ sweep.due ∧ sweep.failed = false then
      let w := w.setSweep k { sweep with due := sweep.due.erase hash }
      match w.pins.state.beginDelete hash with
      -- A running build relies on it; the next sweep tries again.
      | none => some w
      | some state =>
        some { w with
          pins := { w.pins with state := state, guards := hash :: w.pins.guards }
          flights := ⟨hash, k, .marked⟩ :: w.flights }
    else none
  | .check hash => do
    let f ← w.flight hash
    let sweep ← w.sweeps[f.sweep]?
    if f.stage = .marked ∧ sweep.failed = false then
      if deletable hash sweep.now w.db then some (w.setFlight hash .deleting)
      else some (w.doneFlight f sweep)
    else none
  | .remove hash => do
    let f ← w.flight hash
    if f.stage = .marked then none else some ((w.setFlight hash .removed).removeStored hash)
  | .done hash => do
    let f ← w.flight hash
    let sweep ← w.sweeps[f.sweep]?
    if f.stage = .removed ∧ sweep.failed = false then some (w.doneFlight f sweep) else none
  | .collect k hash => do
    let sweep ← w.sweeps[k]?
    if hash ∈ sweep.done ∧ sweep.failed = false then
      some (w.setSweep k
        { sweep with done := sweep.done.erase hash, settled := hash :: sweep.settled })
    else none
  | .fail hash => do
    let f ← w.flight hash
    let sweep ← w.sweeps[f.sweep]?
    some ((w.endFlight hash).setSweep f.sweep { sweep with failed := true })
  | .drop hash => do
    let f ← w.flight hash
    let sweep ← w.sweeps[f.sweep]?
    if sweep.failed then
      some { w.endFlight hash with
        late := if f.stage = .deleting then hash :: w.late else w.late }
    else none
  | .dequeue k => do
    let sweep ← w.sweeps[k]?
    if sweep.read && !sweep.ended && (sweep.failed || (sweep.due.isEmpty && sweep.done.isEmpty)) &&
        w.flights.all fun f => f.sweep ≠ k then
      some ((w.after (.dequeueDeletions sweep.settled sweep.now)).setSweep k
        { sweep with done := [], settled := [], due := [], ended := true })
    else none
  | .late hash => if hash ∈ w.late then some (w.removeStored hash) else none

end World

/-- One step of one party. -/
def Step (w : World) (e : Event) (w' : World) : Prop := w.exec e = some w'

/-- A step that meets a condition. -/
def StepWhen (p : World → Event → Bool) (w : World) (e : Event) (w' : World) : Prop :=
  p w e = true ∧ Step w e w'

/-! ## Runs of given events -/

namespace World

def execWhen (p : World → Event → Bool) (w : World) (e : Event) : Option World :=
  if p w e then w.exec e else none

def runWhen (p : World → Event → Bool) (w : World) (events : List Event) : World :=
  (events.foldlM (execWhen p) w).getD w

end World

theorem stepWhen_of_execWhen {p : World → Event → Bool} {w w' : World} {e : Event}
    (h : w.execWhen p e = some w') : StepWhen p w e w' := by
  unfold World.execWhen at h
  split at h
  · next hp => exact ⟨hp, h⟩
  · cases h

theorem step_runWhen (p : World → Event → Bool) (w : World) (e : Event)
    (h : (w.execWhen p e).isSome = true) : StepWhen p w e (w.runWhen p [e]) := by
  obtain ⟨w', hw'⟩ := Option.isSome_iff_exists.mp h
  have hrun : w.runWhen p [e] = w' := by simp [World.runWhen, hw']
  exact hrun ▸ stepWhen_of_execWhen hw'

theorem run_runWhen (p : World → Event → Bool) (w : World) (events : List Event)
    (h : (events.foldlM (World.execWhen p) w).isSome = true) :
    Run (StepWhen p) w events (w.runWhen p events) := by
  obtain ⟨w', hw'⟩ := Option.isSome_iff_exists.mp h
  rw [World.runWhen, hw', Option.getD_some]
  exact (Run.of_foldlM hw').mono fun s e s' hexec => stepWhen_of_execWhen hexec

theorem run_step {p : World → Event → Bool} {w w' : World} {events : List Event}
    (h : Run (StepWhen p) w events w') : Run Step w events w' :=
  h.mono fun _ _ _ hstep => hstep.2

/-- The step in which a sweep reads the queue, when the batch is known. -/
theorem due_step {p : World → Event → Bool} {w : World} {k : Nat} {sweep : Sweep} {due : List String}
    (hp : p w (.due k) = true) (hsweep : w.sweeps[k]? = some sweep)
    (hfresh : (sweep.read || sweep.ended) = false)
    (hdue : dueDeletions sweep.now 1000 w.db = due) :
    StepWhen p w (.due k) (w.setSweep k { sweep with read := true, due := due }) := by
  refine ⟨hp, ?_⟩
  simp only [Step, World.exec, hsweep, Option.bind_eq_bind, Option.bind_some, hfresh, hdue]
  rfl

end Ripclone.Server.Lifecycle
