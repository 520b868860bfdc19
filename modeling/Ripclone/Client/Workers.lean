import Ripclone.Client.Cleanup

/-!
# The workers of an async job

What a clone's future starts, as a term: tasks held by an `AbortOnDrop`, git children held by a
`GitChild`, and blocking calls that are only awaited. A job may be dropped wherever it waits. It then
drops the guards it holds and takes no further step, and what it only awaited runs on: nothing can
stop a blocking call that has begun.

A job and those of its tasks drive the protocol of `Cleanup`: they start the tasks and children, wait
for them, and drop their guards only as they are dropped or fail. A worker that is only awaited is
loose. The protocol does not know of it, so its reaper may remove staging while the worker writes
there.
-/

namespace Ripclone.Client

open Ripclone.Library Cleanup

inductive Job where
  | done
  | failed
  /-- Work of the future itself, which may fail: requests, and calls that do not wait. -/
  | work
  /-- A task with an `AbortOnDrop`, and the wait for it. A blocking worker's body is `work`. -/
  | task (body : Job)
  /-- A git process with a `GitChild`, and the wait for it. -/
  | git
  /-- A blocking call that is only awaited, and whether it writes under staging. -/
  | blocking (writes : Bool)
  | seq (first next : Job)
  /-- Both at once. The first failure drops the other. A guard that is held while other work goes on
  is one side. -/
  | both (left right : Job)
  /-- The wait for task `i`, whose guard the job holds. -/
  | joining (i : Nat)
  /-- The wait for child `i`. -/
  | waiting (i : Nat)
  /-- The wait for a loose worker. -/
  | awaiting (i : Nat)
  deriving DecidableEq, Repr

namespace Job

/-- All of them at once. -/
def all : List Job → Job
  | [] => .done
  | job :: rest => .both job (all rest)

def ended : Job → Bool
  | done | failed => true
  | _ => false

def result (ok : Bool) : Job := if ok then .done else .failed

/-- Whether the job holds the guard of task `i`. -/
def holdsTask (i : Nat) : Job → Bool
  | joining j => i = j
  | seq first _ => first.holdsTask i
  | both left right => left.holdsTask i || right.holdsTask i
  | _ => false

def holdsChild (i : Nat) : Job → Bool
  | waiting j => i = j
  | seq first _ => first.holdsChild i
  | both left right => left.holdsChild i || right.holdsChild i
  | _ => false

/-- What a job does to the workers as it goes on. -/
inductive Act where
  | quiet
  | spawn (body : Job)
  | spawnChild
  /-- A blocking call begins. -/
  | detach (writes : Bool)
  | joined (i : Nat)
  | waited (i : Nat)
  | returned (i : Nat)
  deriving DecidableEq, Repr

inductive Side where
  | left
  | right
  deriving DecidableEq, Repr

/-- How many workers of each sort there are: the number of the next one. -/
structure Numbers where
  tasks : Nat
  children : Nat
  loose : Nat

/-- How `both` ends. -/
def settle : Job → Job → Option Job
  | failed, _ => some .failed
  | _, failed => some .failed
  | done, done => some .done
  | _, _ => none

/-- The job goes on where `path` leads. `ok` says how the step turns out, where it can fail. -/
def advance (next : Numbers) (ok : Bool) : List Side → Job → Option (Act × Job)
  | [], work => some (.quiet, result ok)
  | [], task body => some (.spawn body, .joining next.tasks)
  | [], git => some (.spawnChild, .waiting next.children)
  | [], blocking writes => some (.detach writes, .awaiting next.loose)
  | [], joining i => some (.joined i, result ok)
  | [], waiting i => some (.waited i, result ok)
  | [], awaiting i => some (.returned i, result ok)
  | [], seq done rest => some (.quiet, rest)
  | [], seq failed _ => some (.quiet, .failed)
  | [], both left right => (settle left right).map fun job => (.quiet, job)
  | .left :: path, seq first rest =>
    (first.advance next ok path).map fun (act, first) => (act, .seq first rest)
  | .left :: path, both left right =>
    (left.advance next ok path).map fun (act, left) => (act, .both left right)
  | .right :: path, both left right =>
    (right.advance next ok path).map fun (act, right) => (act, .both left right)
  | _, _ => none

/-- Every worker that writes is held by a guard. -/
def guarded : Job → Bool
  | task body => body.guarded
  | blocking writes => !writes
  | seq first next => first.guarded && next.guarded
  | both left right => left.guarded && right.guarded
  | _ => true

end Job

/-- A blocking call that is only awaited. -/
structure Loose where
  writes : Bool
  ended : Bool
  deriving DecidableEq, Repr

/-- A clone's future with the workers it and its tasks have started. -/
structure Workers where
  system : System
  /-- The clone's own future. -/
  future : Job
  /-- The body of each task. -/
  bodies : List Job
  loose : List Loose
  /-- The reaper has taken staging and removed it. -/
  removed : Bool
  deriving DecidableEq, Repr

inductive WorkEvent where
  /-- An owner's job goes on. -/
  | advance (owner : Owner) (path : List Job.Side) (ok : Bool)
  /-- An owner's job is dropped. -/
  | abandon (owner : Owner)
  /-- A step of the protocol. -/
  | cleanup (event : Event)
  /-- A loose worker's call returns. -/
  | ended (i : Nat)
  | remove
  deriving DecidableEq, Repr

namespace Workers

def start (job : Job) : Workers := ⟨.init, job, [], [], false⟩

def job (s : Workers) : Owner → Option Job
  | none => some s.future
  | some i => s.bodies[i]?

def setJob (s : Workers) (owner : Owner) (job : Job) : Workers :=
  match owner with
  | none => { s with future := job }
  | some i => { s with bodies := s.bodies.set i job }

def numbers (s : Workers) : Job.Numbers :=
  ⟨s.system.tasks.length, s.system.children.length, s.loose.length⟩

/-- What a job's step does. A wait is over once the protocol has taken back the guard. -/
def act (s : Workers) (owner : Owner) : Job.Act → Option Workers
  | .quiet => some s
  | .spawn body => do
    let system ← s.system.exec (.spawn owner)
    return { s with system, bodies := s.bodies ++ [body] }
  | .spawnChild => do
    let system ← s.system.exec (.spawnChild owner)
    return { s with system }
  | .detach writes => some { s with loose := s.loose ++ [⟨writes, false⟩] }
  | .joined i => if (s.system.tasks[i]?).any (·.guard = .done) then some s else none
  | .waited i => if (s.system.children[i]?).any (·.holding = .waited) then some s else none
  | .returned i => if (s.loose[i]?).any Loose.ended then some s else none

/-- Whether the owner's job holds the guard of task `i`. -/
def heldTask (s : Workers) (i : Nat) : Bool :=
  (s.system.tasks[i]?).any fun task => (s.job task.owner).any (Job.holdsTask i)

def heldChild (s : Workers) (i : Nat) : Bool :=
  (s.system.children[i]?).any fun child => (s.job child.owner).any (Job.holdsChild i)

/-- The steps of the protocol that the jobs leave open. A job starts its tasks and children itself,
joins a guard only while it holds it, and drops it otherwise. -/
def allows (s : Workers) : Event → Bool
  | .spawn _ | .spawnChild _ => false
  | .join i => s.heldTask i
  | .drop i => !s.heldTask i
  | .waitChild i => s.heldChild i
  | .dropChild i => !s.heldChild i
  | .finish i => (s.bodies[i]?).any Job.ended
  | .close => s.future.ended
  | _ => true

/-- Whether the owner may be dropped: the clone's future at any time, a task's once it was
aborted. -/
def droppable (s : Workers) : Owner → Bool
  | none => true
  | some i => (s.system.tasks[i]?).any fun task => task.guard ≠ .spawned && task.guard ≠ .held

def exec (s : Workers) : WorkEvent → Option Workers
  | .advance owner path ok => do
    if s.system.alive owner then
      let job ← s.job owner
      let (act, job) ← job.advance s.numbers ok path
      let s ← s.act owner act
      return s.setJob owner job
    else none
  | .abandon owner =>
    if s.system.alive owner && s.droppable owner then some (s.setJob owner .failed) else none
  | .cleanup event =>
    if s.allows event then (s.system.exec event).map fun system => { s with system } else none
  | .ended i => do
    let worker ← s.loose[i]?
    return { s with loose := s.loose.set i { worker with ended := true } }
  | .remove => if s.system.reaper = .returned then some { s with removed := true } else none

def Step (s : Workers) (e : WorkEvent) (s' : Workers) : Prop := s.exec e = some s'

/-- Every worker that writes under staging is one the reaper waits for. -/
def Registered (s : Workers) : Prop := ∀ worker ∈ s.loose, worker.writes = false

/-- Nothing writes under staging any more. -/
def Quiet (s : Workers) : Prop :=
  s.system.clone ≠ .running ∧ (∀ task ∈ s.system.tasks, task.ended = true) ∧
    (∀ child ∈ s.system.children, child.reaped = true) ∧
    ∀ worker ∈ s.loose, worker.writes = true → worker.ended = true

end Workers

/-! ## A guarded job leaves nothing behind -/

namespace Job

/-- What a step of a guarded job starts is guarded. -/
def Act.guarded : Act → Bool
  | .spawn body => body.guarded
  | .detach writes => !writes
  | _ => true

theorem guarded_result (ok : Bool) : (result ok).guarded = true := by
  cases ok <;> rfl

theorem guarded_settle {left right job : Job} (h : settle left right = some job) :
    job.guarded = true := by
  unfold settle at h
  split at h
  all_goals cases h
  all_goals rfl

theorem guarded_all {jobs : List Job} (h : ∀ job ∈ jobs, job.guarded = true) :
    (all jobs).guarded = true := by
  induction jobs with
  | nil => rfl
  | cons job rest ih =>
      simp only [all, guarded, Bool.and_eq_true]
      exact ⟨h job List.mem_cons_self, ih fun job hjob => h job (List.mem_cons_of_mem _ hjob)⟩

theorem advance_guarded {next : Numbers} {ok : Bool} {path : List Side} {job job' : Job} {act : Act}
    (hjob : job.guarded = true) (h : job.advance next ok path = some (act, job')) :
    act.guarded = true ∧ job'.guarded = true := by
  induction job generalizing path job' with
  | done | failed => cases path <;> simp [advance] at h
  | work | joining _ | waiting _ | awaiting _ =>
      cases path with
      | nil =>
          obtain ⟨rfl, rfl⟩ := Prod.mk.inj (Option.some.inj h)
          exact ⟨rfl, guarded_result ok⟩
      | cons side path => cases side <;> cases h
  | task body _ =>
      cases path with
      | nil =>
          obtain ⟨rfl, rfl⟩ := Prod.mk.inj (Option.some.inj h)
          exact ⟨hjob, rfl⟩
      | cons side path => cases side <;> cases h
  | git | blocking _ =>
      cases path with
      | nil =>
          obtain ⟨rfl, rfl⟩ := Prod.mk.inj (Option.some.inj h)
          exact ⟨hjob, rfl⟩
      | cons side path => cases side <;> cases h
  -- A path leads to the part of the job that makes the step; the parts beside it stay as they are.
  | seq first rest ihFirst _ =>
      obtain ⟨hfirst, hrest⟩ := (Bool.and_eq_true _ _).mp hjob
      cases path with
      | nil =>
          cases first <;> simp [advance] at h
          · obtain ⟨rfl, rfl⟩ := h
            exact ⟨rfl, hrest⟩
          · obtain ⟨rfl, rfl⟩ := h
            exact ⟨rfl, rfl⟩
      | cons side path =>
          cases side with
          | right => simp [advance] at h
          | left =>
              obtain ⟨⟨act', first'⟩, hstep, h⟩ := Option.map_eq_some_iff.mp h
              obtain ⟨rfl, rfl⟩ := Prod.mk.inj h
              obtain ⟨hact, hfirst'⟩ := ihFirst hfirst hstep
              exact ⟨hact, (Bool.and_eq_true _ _).mpr ⟨hfirst', hrest⟩⟩
  | both left right ihLeft ihRight =>
      obtain ⟨hleft, hright⟩ := (Bool.and_eq_true _ _).mp hjob
      cases path with
      | nil =>
          obtain ⟨job'', hsettle, h⟩ := Option.map_eq_some_iff.mp h
          obtain ⟨rfl, rfl⟩ := Prod.mk.inj h
          exact ⟨rfl, guarded_settle hsettle⟩
      | cons side path =>
          cases side with
          | left =>
              obtain ⟨⟨act', left'⟩, hstep, h⟩ := Option.map_eq_some_iff.mp h
              obtain ⟨rfl, rfl⟩ := Prod.mk.inj h
              obtain ⟨hact, hleft'⟩ := ihLeft hleft hstep
              exact ⟨hact, (Bool.and_eq_true _ _).mpr ⟨hleft', hright⟩⟩
          | right =>
              obtain ⟨⟨act', right'⟩, hstep, h⟩ := Option.map_eq_some_iff.mp h
              obtain ⟨rfl, rfl⟩ := Prod.mk.inj h
              obtain ⟨hact, hright'⟩ := ihRight hright hstep
              exact ⟨hact, (Bool.and_eq_true _ _).mpr ⟨hleft, hright'⟩⟩

end Job

namespace Workers

variable {s s' : Workers} {owner : Owner}

/-- The protocol is in order, every job is guarded, and no loose worker writes. -/
structure Guarded (s : Workers) : Prop where
  ok : s.system.Ok
  jobs : ∀ owner, ∀ job ∈ s.job owner, job.guarded = true
  loose : s.Registered
  removed : s.removed = true → s.system.reaper = .returned

theorem guarded_start {job : Job} (h : job.guarded = true) : (start job).Guarded where
  ok := ok_init
  jobs := by
    intro owner
    cases owner with
    | none =>
        intro job' hjob'
        obtain rfl := Option.some.inj hjob'
        exact h
    | some i => exact fun job' hjob' => by cases hjob'
  loose := fun worker hworker => by cases hworker
  removed := fun h => by cases h

theorem Guarded.setJob (h : s.Guarded) {job : Job} (hjob : job.guarded = true) :
    (s.setJob owner job).Guarded := by
  cases owner with
  | none =>
      refine ⟨h.ok, ?_, h.loose, h.removed⟩
      intro owner' job' hjob'
      cases owner' with
      | none =>
          obtain rfl := Option.some.inj hjob'
          exact hjob
      | some i => exact h.jobs (some i) job' hjob'
  | some i =>
      refine ⟨h.ok, ?_, h.loose, h.removed⟩
      intro owner' job' hjob'
      cases owner' with
      | none => exact h.jobs none job' hjob'
      | some j =>
          rcases List.mem_or_eq_of_mem_set (List.mem_of_getElem? hjob') with hmem | rfl
          · obtain ⟨k, hk⟩ := List.mem_iff_getElem?.mp hmem
            exact h.jobs (some k) job' hk
          · exact hjob

/-- A step of the protocol. -/
theorem Guarded.setSystem (h : s.Guarded) {event : Event} {system : System}
    (hexec : s.system.exec event = some system) : Guarded { s with system } where
  ok := ok_exec h.ok hexec
  jobs := h.jobs
  loose := h.loose
  removed := fun hremoved => System.returned_exec (h.removed hremoved) hexec

theorem Guarded.act (h : s.Guarded) {act : Job.Act} (hact : act.guarded = true)
    (hstep : s.act owner act = some s') : s'.Guarded := by
  cases act with
  | quiet =>
      obtain rfl := Option.some.inj hstep
      exact h
  | joined _ | waited _ | returned _ =>
      obtain ⟨_, hs'⟩ := Option.ite_none_right_eq_some.mp hstep
      obtain rfl := Option.some.inj hs'
      exact h
  | spawnChild =>
      obtain ⟨system, hexec, hs'⟩ := Option.bind_eq_some_iff.mp hstep
      obtain rfl := Option.some.inj hs'
      exact h.setSystem hexec
  | spawn body =>
      obtain ⟨system, hexec, hs'⟩ := Option.bind_eq_some_iff.mp hstep
      obtain rfl := Option.some.inj hs'
      have hsystem := h.setSystem hexec
      refine ⟨hsystem.ok, ?_, hsystem.loose, hsystem.removed⟩
      intro owner' job hjob
      cases owner' with
      | none => exact h.jobs none job hjob
      | some i =>
          rcases List.mem_append.mp (List.mem_of_getElem? hjob) with hmem | hmem
          · obtain ⟨k, hk⟩ := List.mem_iff_getElem?.mp hmem
            exact h.jobs (some k) job hk
          · obtain rfl := List.mem_singleton.mp hmem
            exact hact
  | detach writes =>
      obtain rfl := Option.some.inj hstep
      refine ⟨h.ok, h.jobs, ?_, h.removed⟩
      intro worker hworker
      rcases List.mem_append.mp hworker with hworker | hworker
      · exact h.loose worker hworker
      · obtain rfl := List.mem_singleton.mp hworker
        simpa [Job.Act.guarded] using hact

theorem Guarded.step {e : WorkEvent} (h : s.Guarded) (hstep : Step s e s') : s'.Guarded := by
  cases e with
  | advance owner path ok =>
      simp only [Step, exec] at hstep
      split at hstep
      · obtain ⟨job, hjob, hstep⟩ := Option.bind_eq_some_iff.mp hstep
        obtain ⟨⟨act, job'⟩, hadvance, hstep⟩ := Option.bind_eq_some_iff.mp hstep
        obtain ⟨s₁, hact, hs'⟩ := Option.bind_eq_some_iff.mp hstep
        obtain rfl := Option.some.inj hs'
        obtain ⟨hguarded, hjob'⟩ := Job.advance_guarded (h.jobs owner job hjob) hadvance
        exact (h.act hguarded hact).setJob hjob'
      · cases hstep
  | abandon owner =>
      obtain ⟨_, hs'⟩ := Option.ite_none_right_eq_some.mp hstep
      obtain rfl := Option.some.inj hs'
      exact h.setJob rfl
  | cleanup event =>
      obtain ⟨_, hs'⟩ := Option.ite_none_right_eq_some.mp hstep
      obtain ⟨system, hexec, rfl⟩ := Option.map_eq_some_iff.mp hs'
      exact h.setSystem hexec
  | ended i =>
      obtain ⟨worker, hworker, hs'⟩ := Option.bind_eq_some_iff.mp hstep
      obtain rfl := Option.some.inj hs'
      refine ⟨h.ok, h.jobs, ?_, h.removed⟩
      intro worker' hworker'
      rcases List.mem_or_eq_of_mem_set hworker' with hmem | rfl
      · exact h.loose worker' hmem
      · exact h.loose worker (List.mem_of_getElem? hworker)
  | remove =>
      obtain ⟨hreturned, hs'⟩ := Option.ite_none_right_eq_some.mp hstep
      obtain rfl := Option.some.inj hs'
      exact ⟨h.ok, h.jobs, h.loose, fun _ => hreturned⟩

/-- A guarded job registers every worker that writes, wherever it is dropped or fails, and staging is
removed only when none writes. -/
theorem registered_of_guarded {job : Job} (hjob : job.guarded = true) {events : List WorkEvent}
    (hrun : Run Step (start job) events s) : s.Registered ∧ (s.removed = true → s.Quiet) := by
  have h : s.Guarded :=
    hrun.invariant (P := fun _ => True) (guarded_start hjob) (fun _ h hstep => h.step hstep)
      fun _ _ => trivial
  refine ⟨h.loose, ?_⟩
  intro hremoved
  obtain ⟨hclosed, htasks, hchildren⟩ := h.ok.returned_quiet (h.removed hremoved)
  refine ⟨h.ok.closed.mp hclosed, htasks, hchildren, ?_⟩
  intro worker hworker hwrites
  rw [h.loose worker hworker] at hwrites
  cases hwrites

end Workers

end Ripclone.Client
