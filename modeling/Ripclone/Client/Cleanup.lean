import Mathlib.Algebra.GroupWithZero.Nat
import Ripclone.Library.Run
import Ripclone.Library.Table

/-!
# The work a clone must finish before its staging is removed

A clone starts tasks, blocking workers and git children that write into its staging directory. Each
task is held by an `AbortOnDrop` guard and each child by a `GitChild`, of the clone itself or of a
task. A guard that is dropped before its task was joined leaves the handle to the clone's reaper,
which awaits every handle it is left, and returns once the clone has closed its `Cleanup` and no
guard is active.

A step is one access to what the threads share: the list of pending waits, the counter of guards,
the flag, and the one permit of the notification. A task may do its steps in any order and at any
time until it has ended, also after it was aborted: an abort only asks it to end.
-/

namespace Ripclone.Client.Cleanup

open Ripclone.Library

/-! ## The protocol -/

/-- Who holds a guard: the clone, or a task by its number. -/
abbrev Owner := Option Nat

/-- Where an `AbortOnDrop` is. -/
inductive Guard where
  /-- The task runs, and the guard is not counted yet. -/
  | spawned
  | held
  /-- `join` has awaited the handle and taken it. -/
  | joined
  /-- `drop` has taken the handle and aborted the task. -/
  | aborted
  /-- The handle is pending. The reaper is not notified of it yet. -/
  | pushed
  | notified
  /-- No longer counted. The reaper is not notified of it yet. -/
  | released
  | done
  deriving DecidableEq, Repr

/-- A task or blocking worker with its guard. -/
structure Task where
  owner : Owner
  guard : Guard
  /-- Whether its future was dropped, or its blocking call has returned. -/
  ended : Bool
  deriving DecidableEq, Repr

/-- Where a `GitChild` is. -/
inductive Holding where
  | held
  /-- Its owner's `wait` returned. -/
  | waited
  /-- `drop` has killed the process. -/
  | dropped
  /-- The wait is pending. The reaper is not notified of it yet. -/
  | pushed
  | done
  deriving DecidableEq, Repr

structure GitChild where
  owner : Owner
  holding : Holding
  exited : Bool
  /-- Whether a wait for the process has returned. -/
  reaped : Bool
  deriving DecidableEq, Repr

/-- The clone's future, and the `CloseOnDrop` it holds. -/
inductive Clone where
  | running
  /-- The flag is set. The reaper is not notified of it yet. -/
  | closing
  | ended
  deriving DecidableEq, Repr

/-- A future the reaper is left with: the wait for a task's handle or for a child. -/
inductive CleanupFuture where
  | task (i : Nat)
  | child (i : Nat)
  deriving DecidableEq, Repr

/-- Where `drain_closed` is. -/
inductive Reaper where
  /-- In `drain`, about to take what is pending. `last` is the call before it returns. -/
  | draining (last : Bool)
  /-- In `drain`, with these futures of a `join_all` still to resolve. -/
  | joining (last : Bool) (futures : List CleanupFuture)
  | loadClosed
  | loadActive
  | waiting
  | returned
  deriving DecidableEq, Repr

structure System where
  pending : List CleanupFuture
  activeGuards : Nat
  closed : Bool
  /-- The permit that `notify_one` stores. -/
  permit : Bool
  clone : Clone
  tasks : List Task
  children : List GitChild
  reaper : Reaper
  deriving DecidableEq, Repr

def System.init : System := ⟨[], 0, false, false, .running, [], [], .draining false⟩

inductive Event where
  /-- An owner starts a task whose handle goes to `AbortOnDrop::new`. -/
  | spawn (owner : Owner)
  | guardStarted (i : Nat)
  /-- The handle that `join` awaits resolves. -/
  | join (i : Nat)
  | drop (i : Nat)
  | push (i : Nat)
  | pushNotify (i : Nat)
  /-- The `fetch_sub` of `guard_finished`. -/
  | release (i : Nat)
  | releaseNotify (i : Nat)
  /-- A task returns, or the future of an aborted one is dropped. -/
  | finish (i : Nat)
  | spawnChild (owner : Owner)
  | exit (i : Nat)
  | waitChild (i : Nat)
  | dropChild (i : Nat)
  | pushChild (i : Nat)
  | notifyChild (i : Nat)
  | close
  | closeNotify
  /-- `drain` takes what is pending. -/
  | take
  /-- A future of `join_all` resolves. -/
  | resolve (future : CleanupFuture)
  | joinAll
  | loadClosed
  | loadActive
  /-- `changed.await` consumes the permit. -/
  | wake
  deriving DecidableEq, Repr

/-- Whether the guard is counted in `active_guards`. -/
def Guard.counted : Guard → Bool
  | .held | .joined | .aborted | .pushed | .notified => true
  | _ => false

/-- Whether the child was waited for or left to the reaper. -/
def Holding.over : Holding → Bool
  | .waited | .done => true
  | _ => false

/-- `fetch_sub` on the guards' counter, which wraps. -/
def fetchSub (n : Nat) : Nat := if n = 0 then 2 ^ 64 - 1 else n - 1

namespace System

/-- Whether the owner still runs. -/
def alive (s : System) : Owner → Bool
  | none => s.clone = .running
  | some j => (s.tasks[j]?).any fun task => !task.ended

/-- Whether the owner has dropped or joined everything it held, as it does before it ends. The
clone's future is dropped before its `CloseOnDrop`. -/
def free (s : System) (owner : Owner) : Bool :=
  (s.tasks.all fun task => task.owner ≠ owner || task.guard = .done) &&
    s.children.all fun child => child.owner ≠ owner || child.holding.over

def setTask (s : System) (i : Nat) (task : Task) : System := { s with tasks := s.tasks.set i task }

def setChild (s : System) (i : Nat) (child : GitChild) : System :=
  { s with children := s.children.set i child }

/-- The task `i` with its guard at `guard`. -/
def taskAt (s : System) (i : Nat) (guard : Guard) : Option Task :=
  (s.tasks[i]?).filter fun task => task.guard = guard

def childAt (s : System) (i : Nat) (holding : Holding) : Option GitChild :=
  (s.children[i]?).filter fun child => child.holding = holding

/-- The reaper's wait for a child returns. -/
def reap (s : System) : CleanupFuture → System
  | .task _ => s
  | .child i =>
    match s.children[i]? with
    | some child => s.setChild i { child with reaped := true }
    | none => s

/-- Whether the awaited future can resolve. -/
def resolves (s : System) : CleanupFuture → Bool
  | .task i => (s.tasks[i]?).any Task.ended
  | .child i => (s.children[i]?).any GitChild.exited

def exec (s : System) : Event → Option System
  | .spawn owner =>
    if s.alive owner then some { s with tasks := s.tasks ++ [⟨owner, .spawned, false⟩] } else none
  | .guardStarted i => do
    let task ← s.taskAt i .spawned
    return { s.setTask i { task with guard := .held } with activeGuards := s.activeGuards + 1 }
  | .join i => do
    let task ← s.taskAt i .held
    if task.ended then return s.setTask i { task with guard := .joined } else none
  | .drop i => do
    let task ← s.taskAt i .held
    return s.setTask i { task with guard := .aborted }
  | .push i => do
    let task ← s.taskAt i .aborted
    return { s.setTask i { task with guard := .pushed } with pending := s.pending ++ [.task i] }
  | .pushNotify i => do
    let task ← s.taskAt i .pushed
    return { s.setTask i { task with guard := .notified } with permit := true }
  | .release i => do
    let task ← s.tasks[i]?
    if task.guard = .joined ∨ task.guard = .notified then
      return { s.setTask i { task with guard := .released } with
        activeGuards := fetchSub s.activeGuards }
    else none
  | .releaseNotify i => do
    let task ← s.taskAt i .released
    return { s.setTask i { task with guard := .done } with permit := true }
  | .finish i => do
    let task ← s.tasks[i]?
    if !task.ended && s.free (some i) then return s.setTask i { task with ended := true } else none
  | .spawnChild owner =>
    if s.alive owner then
      some { s with children := s.children ++ [⟨owner, .held, false, false⟩] }
    else none
  | .exit i => do
    let child ← s.children[i]?
    return s.setChild i { child with exited := true }
  | .waitChild i => do
    let child ← s.childAt i .held
    if child.exited then return s.setChild i { child with holding := .waited, reaped := true }
    else none
  | .dropChild i => do
    let child ← s.childAt i .held
    return s.setChild i { child with holding := .dropped }
  | .pushChild i => do
    let child ← s.childAt i .dropped
    return { s.setChild i { child with holding := .pushed } with
      pending := s.pending ++ [.child i] }
  | .notifyChild i => do
    let child ← s.childAt i .pushed
    return { s.setChild i { child with holding := .done } with permit := true }
  | .close =>
    if s.clone = .running ∧ s.free none then some { s with closed := true, clone := .closing }
    else none
  | .closeNotify =>
    if s.clone = .closing then some { s with permit := true, clone := .ended } else none
  | .take =>
    match s.reaper with
    | .draining last =>
      if s.pending.isEmpty then some { s with reaper := if last then .returned else .loadClosed }
      else some { s with reaper := .joining last s.pending, pending := [] }
    | _ => none
  | .resolve future =>
    match s.reaper with
    | .joining last futures =>
      if future ∈ futures ∧ s.resolves future then
        some { s.reap future with reaper := .joining last (futures.erase future) }
      else none
    | _ => none
  | .joinAll =>
    match s.reaper with
    | .joining last [] => some { s with reaper := .draining last }
    | _ => none
  | .loadClosed =>
    if s.reaper = .loadClosed then
      some { s with reaper := if s.closed then .loadActive else .waiting }
    else none
  | .loadActive =>
    if s.reaper = .loadActive then
      some { s with reaper := if s.activeGuards = 0 then .draining true else .waiting }
    else none
  | .wake =>
    if s.reaper = .waiting ∧ s.permit then
      some { s with reaper := .draining false, permit := false }
    else none

end System

/-- One step of one thread. -/
def Step (s : System) (e : Event) (s' : System) : Prop := s.exec e = some s'

/-! ## What holds in every state -/

/-- Whether the guard still holds the task's handle. -/
def Guard.holds : Guard → Bool
  | .spawned | .held | .aborted => true
  | _ => false

/-- Whether the next step of the guard's owner is a `notify_one`. -/
def Guard.due : Guard → Bool
  | .pushed | .released => true
  | _ => false

namespace Reaper

/-- The futures the reaper awaits. -/
def futures : Reaper → List CleanupFuture
  | .joining _ futures => futures
  | _ => []

/-- Whether the reaper has seen nothing pending, and has not taken a permit since. -/
def checking : Reaper → Bool
  | .loadClosed | .loadActive | .waiting => true
  | _ => false

/-- Whether the reaper has seen the flag. -/
def sawClosed : Reaper → Bool
  | .draining true | .joining true _ | .loadActive | .returned => true
  | _ => false

end Reaper

namespace System

/-- Everything the reaper is left with and has not awaited. -/
def waits (s : System) : List CleanupFuture := s.reaper.futures ++ s.pending

/-- Whether some thread has changed what the reaper looks at, and calls `notify_one` next. -/
def due (s : System) : Bool :=
  s.tasks.any (fun task => task.guard.due) ||
    s.children.any (fun child => child.holding = .pushed) || s.clone = .closing

structure Ok (s : System) : Prop where
  /-- A task is older than those it starts. -/
  older : ∀ {i j : Nat} {task : Task}, s.tasks[i]? = some task → task.owner = some j → j < i
  alive : ∀ task ∈ s.tasks, task.guard ≠ .done → s.alive task.owner = true
  childAlive : ∀ child ∈ s.children, child.holding.over = false → s.alive child.owner = true
  /-- A task that runs is held by its guard or left to the reaper. -/
  kept : ∀ {i : Nat} {task : Task}, s.tasks[i]? = some task → task.ended = false →
    task.guard.holds = true ∨ .task i ∈ s.waits
  /-- A child is held, left to the reaper or was waited for. -/
  childKept : ∀ {i : Nat} {child : GitChild}, s.children[i]? = some child →
    child.holding = .held ∨ child.holding = .dropped ∨ .child i ∈ s.waits ∨ child.reaped = true
  active : s.activeGuards = s.tasks.countP fun task => task.guard.counted
  closed : s.closed = true ↔ s.clone ≠ .running
  sawClosed : s.reaper.sawClosed = true → s.closed = true
  /-- Between a check and the wait, nothing becomes pending unnoticed. -/
  quiet : s.reaper.checking = true → s.permit = true ∨ s.due = true ∨ s.pending = []
  /-- The reaper does not wait for what has happened already. -/
  missed : s.reaper = .waiting →
    s.permit = true ∨ s.due = true ∨ s.closed = false ∨ s.activeGuards ≠ 0
  returned : s.reaper = .returned → s.pending = []

end System

theorem ok_init : System.init.Ok := by
  constructor <;> simp [System.init, Reaper.sawClosed, Reaper.checking]

section Steps

variable {s s' : System} {task task' : Task} {child child' : GitChild} {i : Nat}

theorem System.alive_some {j : Nat} : s.alive (some j) = true ↔
    ∃ task, s.tasks[j]? = some task ∧ task.ended = false := by
  simp [System.alive, Option.any_eq_true]

theorem System.due_iff : s.due = true ↔ (∃ task ∈ s.tasks, task.guard.due = true) ∨
    (∃ child ∈ s.children, child.holding = .pushed) ∨ s.clone = .closing := by
  simp [System.due, or_assoc]

/-- Once the clone is closed and nothing is left to the reaper, every task has ended: a task that
runs would be held by an older one that runs. -/
theorem System.Ok.all_ended (h : s.Ok) (hclosed : s.closed = true) (hwaits : s.waits = [])
    {i : Nat} {task : Task} (htask : s.tasks[i]? = some task) : task.ended = true := by
  induction i using Nat.strongRecOn generalizing task with
  | _ i ih =>
    by_contra hruns
    have hheld : task.guard.holds = true := by
      rcases h.kept htask (by simpa using hruns) with hheld | hwait
      · exact hheld
      · rw [hwaits] at hwait
        cases hwait
    have hnotDone : task.guard ≠ .done := by
      intro hdone
      rw [hdone] at hheld
      cases hheld
    have halive := h.alive task (List.mem_of_getElem? htask) hnotDone
    cases howner : task.owner with
    | none =>
        rw [howner] at halive
        exact h.closed.mp hclosed (of_decide_eq_true halive)
    | some j =>
        rw [howner] at halive
        obtain ⟨parent, hparent, hparentRuns⟩ := System.alive_some.mp halive
        have := ih j (h.older htask howner) hparent
        rw [this] at hparentRuns
        cases hparentRuns

/-- Nobody is left to take a step. -/
theorem System.Ok.none_alive (h : s.Ok) (hclosed : s.closed = true) (hwaits : s.waits = [])
    (owner : Owner) : s.alive owner = false := by
  cases owner with
  | none => exact decide_eq_false (h.closed.mp hclosed)
  | some j =>
      by_contra halive
      obtain ⟨task, htask, hruns⟩ := System.alive_some.mp (by simpa using halive)
      rw [h.all_ended hclosed hwaits htask] at hruns
      cases hruns

/-- In a state where the reaper has returned, no owner runs. -/
theorem System.Ok.not_returned (h : s.Ok) {owner : Owner} (halive : s.alive owner = true) :
    s.reaper ≠ .returned := by
  intro hreturned
  have hwaits : s.waits = [] := by
    rw [System.waits, hreturned, h.returned hreturned]
    rfl
  have hnone := h.none_alive (h.sawClosed (by rw [hreturned]; rfl)) hwaits owner
  rw [hnone] at halive
  cases halive

/-- Whoever runs does so whatever its guard and its children are at. -/
theorem System.alive_setTask (task' : Task) (htask : s.tasks[i]? = some task)
    (hended : task'.ended = task.ended) (owner : Owner) : (s.setTask i task').alive owner = s.alive owner := by
  cases owner with
  | none => rfl
  | some j =>
      show ((s.tasks.set i task')[j]?).any _ = (s.tasks[j]?).any _
      by_cases hij : i = j
      · subst hij
        rw [List.getElem?_set_self (List.getElem?_eq_some_iff.mp htask).1, htask]
        simp [hended]
      · rw [List.getElem?_set_ne hij]

theorem countP_replaced (p : Task → Bool) (task' : Task) (htask : s.tasks[i]? = some task) :
    (s.tasks.set i task').countP p + (if p task then 1 else 0) =
      s.tasks.countP p + if p task' then 1 else 0 := by
  obtain ⟨hlt, hget⟩ := List.getElem?_eq_some_iff.mp htask
  rw [List.countP_set hlt, hget]
  have hpos : (if p task then 1 else 0) ≤ s.tasks.countP p := by
    split
    · next hp => exact List.countP_pos_iff.mpr ⟨task, List.mem_of_getElem? htask, hp⟩
    · exact Nat.zero_le _
  omega

/-- A notification that is due stays due while its task's guard is not replaced. -/
theorem System.due_setTask (htask : s.tasks[i]? = some task) (hnot : task.guard.due = false)
    (hdue : s.due = true) : (s.setTask i task').due = true := by
  rw [System.due_iff] at hdue ⊢
  refine hdue.imp_left ?_
  rintro ⟨other, hother, hotherDue⟩
  obtain ⟨j, hj⟩ := List.mem_iff_getElem?.mp hother
  have hne : i ≠ j := by
    rintro rfl
    obtain rfl := Option.some.inj (htask.symm.trans hj)
    rw [hnot] at hotherDue
    cases hotherDue
  refine ⟨other, ?_, hotherDue⟩
  apply List.mem_of_getElem? (i := j)
  show (s.tasks.set i task')[j]? = some other
  rw [List.getElem?_set_ne hne]
  exact hj

/-- A step of the guard of one task. -/
theorem System.Ok.setGuard (h : s.Ok) {guard : Guard} {pending : List CleanupFuture}
    {activeGuards : Nat} {permit : Bool} (htask : s.tasks[i]? = some task)
    (hdone : task.guard ≠ .done)
    (hkept : task.ended = false → guard.holds = true ∨ .task i ∈ s.reaper.futures ++ pending)
    (hpending : s.pending ⊆ pending)
    (hactive : activeGuards + (if task.guard.counted then 1 else 0) =
      s.activeGuards + if guard.counted then 1 else 0)
    (hwake : permit = true ∨ guard.due = true ∨ (permit = s.permit ∧ task.guard.due = false ∧
      pending = s.pending ∧ s.activeGuards ≤ activeGuards)) :
    System.Ok { s.setTask i { task with guard := guard } with
      pending := pending, activeGuards := activeGuards, permit := permit } := by
  have hmem := List.mem_of_getElem? htask
  -- A guard's step ends no task, so who is alive and what the reaper waits for stay.
  have halive : ∀ owner, System.alive { s.setTask i { task with guard := guard } with
      pending := pending, activeGuards := activeGuards, permit := permit } owner = s.alive owner :=
    System.alive_setTask { task with guard := guard } htask rfl
  have hwaits : ∀ {future}, future ∈ s.waits → future ∈ s.reaper.futures ++ pending := by
    intro future hfuture
    rcases List.mem_append.mp hfuture with hfirst | hsecond
    · exact List.mem_append_left _ hfirst
    · exact List.mem_append_right _ (hpending hsecond)
  have hnow : guard.due = true → System.due { s.setTask i { task with guard := guard } with
      pending := pending, activeGuards := activeGuards, permit := permit } = true := by
    intro hdue
    refine System.due_iff.mpr (.inl ⟨{ task with guard := guard }, ?_, hdue⟩)
    exact List.mem_set (List.getElem?_eq_some_iff.mp htask).1 _
  refine ⟨?_, ?_, ?_, ?_, ?_, ?_, h.closed, h.sawClosed, ?_, ?_, ?_⟩
  · intro j k other hother howner
    rcases Table.getElem?_set_cases hother with ⟨rfl, rfl⟩ | ⟨_, hother⟩
    · exact h.older htask howner
    · exact h.older hother howner
  · intro other hother hnotDone
    rw [halive]
    rcases List.mem_or_eq_of_mem_set hother with hold | rfl
    · exact h.alive other hold hnotDone
    · exact h.alive task hmem hdone
  · intro child hchild hover
    rw [halive]
    exact h.childAlive child hchild hover
  · intro j other hother hruns
    rcases Table.getElem?_set_cases hother with ⟨rfl, rfl⟩ | ⟨_, hother⟩
    · exact hkept hruns
    · exact (h.kept hother hruns).imp_right hwaits
  · intro j child hchild
    exact (h.childKept hchild).imp_right (Or.imp_right (Or.imp_left hwaits))
  · have hcount := countP_replaced (fun task => task.guard.counted) { task with guard := guard } htask
    have hbefore := h.active
    show activeGuards = (s.tasks.set i { task with guard := guard }).countP _
    simp only at hcount
    omega
  · intro hchecking
    -- Nobody sleeps through the step: it leaves a permit, or is due, or changed nothing that matters.
    rcases hwake with hpermit | hdue | ⟨hpermit, hnot, hsame, _⟩
    · exact .inl hpermit
    · exact .inr (.inl (hnow hdue))
    · rcases h.quiet hchecking with hold | hold | hold
      · exact .inl (hpermit.trans hold)
      · exact .inr (.inl (System.due_setTask htask hnot hold))
      · exact .inr (.inr (hsame.trans hold))
  · intro hwaiting
    rcases hwake with hpermit | hdue | ⟨hpermit, hnot, _, hle⟩
    · exact .inl hpermit
    · exact .inr (.inl (hnow hdue))
    · rcases h.missed hwaiting with hold | hold | hold | hold
      · exact .inl (hpermit.trans hold)
      · exact .inr (.inl (System.due_setTask htask hnot hold))
      · exact .inr (.inr (.inl hold))
      · refine .inr (.inr (.inr ?_))
        show activeGuards ≠ 0
        omega
  · intro hreturned
    exact absurd hreturned (h.not_returned (h.alive task hmem hdone))

/-- An owner starts a task. -/
theorem System.Ok.addTask (h : s.Ok) {owner : Owner} (halive : s.alive owner = true) :
    System.Ok { s with tasks := s.tasks ++ [⟨owner, .spawned, false⟩] } := by
  have hkeeps : ∀ other, s.alive other = true →
      System.alive { s with tasks := s.tasks ++ [⟨owner, .spawned, false⟩] } other = true := by
    intro other hother
    cases other with
    | none => exact hother
    | some j =>
        obtain ⟨task, htask, hruns⟩ := System.alive_some.mp hother
        refine System.alive_some.mpr ⟨task, ?_, hruns⟩
        exact (List.getElem?_append_left (List.getElem?_eq_some_iff.mp htask).1).trans htask
  have hdue : s.due = true →
      System.due { s with tasks := s.tasks ++ [⟨owner, .spawned, false⟩] } = true := by
    intro hdue
    rw [System.due_iff] at hdue ⊢
    refine hdue.imp_left ?_
    rintro ⟨task, htask, htaskDue⟩
    exact ⟨task, List.mem_append_left _ htask, htaskDue⟩
  refine ⟨?_, ?_, ?_, ?_, h.childKept, ?_, h.closed, h.sawClosed, ?_, ?_, h.returned⟩
  · intro j k task htask howner
    rcases Table.getElem?_concat_cases htask with ⟨rfl, rfl⟩ | htask
    · -- Its owner is in the list already.
      obtain rfl : owner = some k := howner
      obtain ⟨parent, hparent, _⟩ := System.alive_some.mp halive
      exact (List.getElem?_eq_some_iff.mp hparent).1
    · exact h.older htask howner
  · intro task htask hnotDone
    rcases List.mem_append.mp htask with hold | hnew
    · exact hkeeps _ (h.alive task hold hnotDone)
    · obtain rfl := List.mem_singleton.mp hnew
      exact hkeeps _ halive
  · intro child hchild hover
    exact hkeeps _ (h.childAlive child hchild hover)
  · intro j task htask hruns
    rcases Table.getElem?_concat_cases htask with ⟨rfl, rfl⟩ | htask
    · exact .inl rfl
    · exact h.kept htask hruns
  · show s.activeGuards = _
    rw [List.countP_append, h.active]
    rfl
  · intro hchecking
    exact (h.quiet hchecking).imp_right (Or.imp_left hdue)
  · intro hwaiting
    exact (h.missed hwaiting).imp_right (Or.imp_left hdue)

theorem System.free_iff {owner : Owner} : s.free owner = true ↔
    (∀ task ∈ s.tasks, task.owner = owner → task.guard = .done) ∧
      ∀ child ∈ s.children, child.owner = owner → child.holding.over = true := by
  simp only [System.free, Bool.and_eq_true, List.all_eq_true, Bool.or_eq_true, decide_eq_true_eq]
  constructor <;> rintro ⟨htasks, hchildren⟩
  · refine ⟨fun task htask howner => ?_, fun child hchild howner => ?_⟩
    · exact (htasks task htask).resolve_left (not_not_intro howner)
    · exact (hchildren child hchild).resolve_left (not_not_intro howner)
  · refine ⟨fun task htask => ?_, fun child hchild => ?_⟩
    · exact or_iff_not_imp_left.mpr fun howner => htasks task htask (not_not.mp howner)
    · exact or_iff_not_imp_left.mpr fun howner => hchildren child hchild (not_not.mp howner)

/-- A task ends. -/
theorem System.Ok.finish (h : s.Ok) (htask : s.tasks[i]? = some task)
    (hfree : s.free (some i) = true) : (s.setTask i { task with ended := true }).Ok := by
  obtain ⟨htasks, hchildren⟩ := System.free_iff.mp hfree
  have hkeeps : ∀ owner, owner ≠ some i → s.alive owner = true →
      (s.setTask i { task with ended := true }).alive owner = true := by
    intro owner hne halive
    cases owner with
    | none => exact halive
    | some j =>
        obtain ⟨other, hother, hruns⟩ := System.alive_some.mp halive
        refine System.alive_some.mpr ⟨other, ?_, hruns⟩
        have hij : i ≠ j := fun hij => hne (congrArg some hij.symm)
        exact (List.getElem?_set_ne hij).trans hother
  -- Guards and owners stay; only whether the task runs changes.
  have hguard : ∀ other ∈ s.tasks.set i { task with ended := true }, ∃ before ∈ s.tasks,
      other.guard = before.guard ∧ other.owner = before.owner := by
    intro other hother
    rcases List.mem_or_eq_of_mem_set hother with hold | rfl
    · exact ⟨other, hold, rfl, rfl⟩
    · exact ⟨task, List.mem_of_getElem? htask, rfl, rfl⟩
  have hdue : s.due = true → (s.setTask i { task with ended := true }).due = true := by
    intro hdue
    rw [System.due_iff] at hdue ⊢
    refine hdue.imp_left ?_
    rintro ⟨other, hother, hotherDue⟩
    obtain ⟨j, hj⟩ := List.mem_iff_getElem?.mp hother
    by_cases hij : i = j
    · subst hij
      obtain rfl := Option.some.inj (htask.symm.trans hj)
      exact ⟨_, List.mem_set (List.getElem?_eq_some_iff.mp htask).1 _, hotherDue⟩
    · exact ⟨other, List.mem_of_getElem? ((List.getElem?_set_ne hij).trans hj), hotherDue⟩
  refine ⟨?_, ?_, ?_, ?_, h.childKept, ?_, h.closed, h.sawClosed, ?_, ?_, h.returned⟩
  · intro j k other hother howner
    rcases Table.getElem?_set_cases hother with ⟨rfl, rfl⟩ | ⟨_, hother⟩
    · exact h.older htask howner
    · exact h.older hother howner
  · intro other hother hnotDone
    obtain ⟨before, hbefore, hsame, howner⟩ := hguard other hother
    rw [hsame] at hnotDone
    rw [howner]
    -- A task that still holds something is not free to end.
    refine hkeeps _ (fun hmine => ?_) (h.alive before hbefore hnotDone)
    exact hnotDone (htasks before hbefore hmine)
  · intro child hchild hover
    refine hkeeps _ (fun hmine => ?_) (h.childAlive child hchild hover)
    rw [hchildren child hchild hmine] at hover
    cases hover
  · intro j other hother hruns
    rcases Table.getElem?_set_cases hother with ⟨rfl, rfl⟩ | ⟨_, hother⟩
    · cases hruns
    · exact h.kept hother hruns
  · have hcount := countP_replaced (fun task => task.guard.counted) { task with ended := true } htask
    have hbefore := h.active
    show s.activeGuards = (s.tasks.set i { task with ended := true }).countP _
    simp only at hcount
    omega
  · intro hchecking
    exact (h.quiet hchecking).imp_right (Or.imp_left hdue)
  · intro hwaiting
    exact (h.missed hwaiting).imp_right (Or.imp_left hdue)

/-- An owner starts a child. -/
theorem System.Ok.addChild (h : s.Ok) {owner : Owner} (halive : s.alive owner = true) :
    System.Ok { s with children := s.children ++ [⟨owner, .held, false, false⟩] } := by
  have hdue : s.due = true →
      System.due { s with children := s.children ++ [⟨owner, .held, false, false⟩] } = true := by
    intro hdue
    rw [System.due_iff] at hdue ⊢
    refine hdue.imp_right (Or.imp_left ?_)
    rintro ⟨child, hchild, hpushed⟩
    exact ⟨child, List.mem_append_left _ hchild, hpushed⟩
  refine ⟨h.older, h.alive, ?_, h.kept, ?_, h.active, h.closed, h.sawClosed, ?_, ?_, h.returned⟩
  · intro child hchild hover
    rcases List.mem_append.mp hchild with hold | hnew
    · exact h.childAlive child hold hover
    · obtain rfl := List.mem_singleton.mp hnew
      exact halive
  · intro j child hchild
    rcases Table.getElem?_concat_cases hchild with ⟨rfl, rfl⟩ | hchild
    · exact .inl rfl
    · exact h.childKept hchild
  · intro hchecking
    exact (h.quiet hchecking).imp_right (Or.imp_left hdue)
  · intro hwaiting
    exact (h.missed hwaiting).imp_right (Or.imp_left hdue)

/-- A step of one child, or of its `GitChild`. -/
theorem System.Ok.setChild (h : s.Ok) {pending : List CleanupFuture} {permit : Bool}
    (hchild : s.children[i]? = some child) (howner : child'.owner = child.owner)
    (hover : child'.holding.over = false → child.holding.over = false)
    (hkept : child'.holding = .held ∨ child'.holding = .dropped ∨
      .child i ∈ s.reaper.futures ++ pending ∨ child'.reaped = true)
    (hpending : s.pending ⊆ pending)
    (hwake : permit = true ∨ child'.holding = .pushed ∨
      (permit = s.permit ∧ child.holding ≠ .pushed ∧ pending = s.pending))
    (hreturned : s.reaper = .returned → pending = []) :
    System.Ok { s.setChild i child' with pending := pending, permit := permit } := by
  have hwaits : ∀ {future}, future ∈ s.waits → future ∈ s.reaper.futures ++ pending := by
    intro future hfuture
    rcases List.mem_append.mp hfuture with hfirst | hsecond
    · exact List.mem_append_left _ hfirst
    · exact List.mem_append_right _ (hpending hsecond)
  have hlt := (List.getElem?_eq_some_iff.mp hchild).1
  have hnow : child'.holding = .pushed →
      System.due { s.setChild i child' with pending := pending, permit := permit } = true := by
    intro hpushed
    exact System.due_iff.mpr (.inr (.inl ⟨child', List.mem_set hlt _, hpushed⟩))
  have hstays : child.holding ≠ .pushed → s.due = true →
      System.due { s.setChild i child' with pending := pending, permit := permit } = true := by
    intro hnot hdue
    rw [System.due_iff] at hdue ⊢
    refine hdue.imp_right (Or.imp_left ?_)
    rintro ⟨other, hother, hpushed⟩
    obtain ⟨j, hj⟩ := List.mem_iff_getElem?.mp hother
    have hij : i ≠ j := by
      rintro rfl
      obtain rfl := Option.some.inj (hchild.symm.trans hj)
      exact hnot hpushed
    exact ⟨other, List.mem_of_getElem? ((List.getElem?_set_ne hij).trans hj), hpushed⟩
  refine ⟨h.older, h.alive, ?_, ?_, ?_, h.active, h.closed, h.sawClosed, ?_, ?_, hreturned⟩
  · intro other hother hotherOver
    rcases List.mem_or_eq_of_mem_set hother with hold | rfl
    · exact h.childAlive other hold hotherOver
    · rw [howner]
      exact h.childAlive child (List.mem_of_getElem? hchild) (hover hotherOver)
  · intro j other hother hruns
    exact (h.kept hother hruns).imp_right hwaits
  · intro j other hother
    rcases Table.getElem?_set_cases hother with ⟨rfl, rfl⟩ | ⟨_, hother⟩
    · exact hkept
    · exact (h.childKept hother).imp_right (Or.imp_right (Or.imp_left hwaits))
  · intro hchecking
    rcases hwake with hpermit | hpushed | ⟨hpermit, hnot, hsame⟩
    · exact .inl hpermit
    · exact .inr (.inl (hnow hpushed))
    · rcases h.quiet hchecking with hold | hold | hold
      · exact .inl (hpermit.trans hold)
      · exact .inr (.inl (hstays hnot hold))
      · exact .inr (.inr (hsame.trans hold))
  · intro hwaiting
    rcases hwake with hpermit | hpushed | ⟨hpermit, hnot, _⟩
    · exact .inl hpermit
    · exact .inr (.inl (hnow hpushed))
    · rcases h.missed hwaiting with hold | hold | hold
      · exact .inl (hpermit.trans hold)
      · exact .inr (.inl (hstays hnot hold))
      · exact .inr (.inr hold)

/-- The clone's future ends, with nothing held. -/
theorem System.Ok.close (h : s.Ok) (hfree : s.free none = true) :
    System.Ok { s with closed := true, clone := .closing } := by
  obtain ⟨htasks, hchildren⟩ := System.free_iff.mp hfree
  have hdue : System.due { s with closed := true, clone := .closing } = true :=
    System.due_iff.mpr (.inr (.inr rfl))
  have hkeeps : ∀ owner, owner ≠ none → s.alive owner = true →
      System.alive { s with closed := true, clone := .closing } owner = true := by
    intro owner hne halive
    cases owner with
    | none => exact absurd rfl hne
    | some j => exact halive
  refine ⟨h.older, ?_, ?_, h.kept, h.childKept, h.active, by simp, fun _ => rfl,
    fun _ => .inr (.inl hdue), fun _ => .inr (.inl hdue), h.returned⟩
  · intro task htask hnotDone
    exact hkeeps _ (fun hmine => hnotDone (htasks task htask hmine)) (h.alive task htask hnotDone)
  · intro child hchild hover
    refine hkeeps _ (fun hmine => ?_) (h.childAlive child hchild hover)
    rw [hchildren child hchild hmine] at hover
    cases hover

theorem System.Ok.closeNotify (h : s.Ok) (hclone : s.clone = .closing) :
    System.Ok { s with permit := true, clone := .ended } := by
  have halive : ∀ owner, System.alive { s with permit := true, clone := .ended } owner =
      s.alive owner := by
    intro owner
    cases owner with
    | none => simp [System.alive, hclone]
    | some j => rfl
  refine ⟨h.older, ?_, ?_, h.kept, h.childKept, h.active, ?_, h.sawClosed, fun _ => .inl rfl,
    fun _ => .inl rfl, h.returned⟩
  · intro task htask hnotDone
    rw [halive]
    exact h.alive task htask hnotDone
  · intro child hchild hover
    rw [halive]
    exact h.childAlive child hchild hover
  · refine ⟨fun _ => by simp, fun _ => h.closed.mpr ?_⟩
    rw [hclone]
    simp

/-- Whether a wait is over. -/
def System.Settled (s : System) : CleanupFuture → Prop
  | .task i => ∀ task ∈ s.tasks[i]?, task.ended = true
  | .child i => ∀ child ∈ s.children[i]?, child.reaped = true

/-- A step of the reaper. -/
theorem System.Ok.setReaper (h : s.Ok) {reaper : Reaper} {pending : List CleanupFuture}
    {permit : Bool}
    (hkept : ∀ future ∈ s.waits, future ∈ reaper.futures ++ pending ∨ s.Settled future)
    (hsaw : reaper.sawClosed = true → s.closed = true)
    (hquiet : reaper.checking = true → permit = true ∨ s.due = true ∨ pending = [])
    (hmissed : reaper = .waiting →
      permit = true ∨ s.due = true ∨ s.closed = false ∨ s.activeGuards ≠ 0)
    (hreturned : reaper = .returned → pending = []) :
    System.Ok { s with reaper := reaper, pending := pending, permit := permit } := by
  refine ⟨h.older, h.alive, h.childAlive, ?_, ?_, h.active, h.closed, hsaw, hquiet, hmissed,
    hreturned⟩
  · intro i task htask hruns
    rcases h.kept htask hruns with hholds | hwait
    · exact .inl hholds
    · rcases hkept _ hwait with hstill | hsettled
      · exact .inr hstill
      · rw [hsettled task htask] at hruns
        cases hruns
  · intro i child hchild
    rcases h.childKept hchild with hheld | hdropped | hwait | hreaped
    · exact .inl hheld
    · exact .inr (.inl hdropped)
    · rcases hkept _ hwait with hstill | hsettled
      · exact .inr (.inr (.inl hstill))
      · exact .inr (.inr (.inr (hsettled child hchild)))
    · exact .inr (.inr (.inr hreaped))

theorem System.of_taskAt {guard : Guard} (h : s.taskAt i guard = some task) :
    s.tasks[i]? = some task ∧ task.guard = guard := by
  obtain ⟨htask, hguard⟩ := Option.filter_eq_some_iff.mp h
  exact ⟨htask, of_decide_eq_true hguard⟩

theorem System.of_childAt {holding : Holding} (h : s.childAt i holding = some child) :
    s.children[i]? = some child ∧ child.holding = holding := by
  obtain ⟨hchild, hholding⟩ := Option.filter_eq_some_iff.mp h
  exact ⟨hchild, of_decide_eq_true hholding⟩

theorem System.Ok.active_pos (h : s.Ok) (htask : s.tasks[i]? = some task)
    (hcounted : task.guard.counted = true) : 0 < s.activeGuards := by
  rw [h.active]
  exact List.countP_pos_iff.mpr ⟨task, List.mem_of_getElem? htask, hcounted⟩

theorem ok_guardStarted (h : s.Ok) (hstep : s.exec (.guardStarted i) = some s') : s'.Ok := by
  obtain ⟨task, hfound, hs'⟩ := Option.bind_eq_some_iff.mp hstep
  obtain ⟨htask, hguard⟩ := System.of_taskAt hfound
  obtain rfl := Option.some.inj hs'
  refine h.setGuard htask ?_ (fun _ => .inl rfl) (List.Subset.refl _) ?_ (.inr (.inr ?_)) <;>
    simp [hguard, Guard.counted, Guard.due, System.setTask]

theorem ok_join (h : s.Ok) (hstep : s.exec (.join i) = some s') : s'.Ok := by
  obtain ⟨task, hfound, hs'⟩ := Option.bind_eq_some_iff.mp hstep
  obtain ⟨htask, hguard⟩ := System.of_taskAt hfound
  obtain ⟨hended, hs'⟩ := Option.ite_none_right_eq_some.mp hs'
  obtain rfl := Option.some.inj hs'
  refine h.setGuard htask ?_ (fun hruns => ?_) (List.Subset.refl _) ?_ (.inr (.inr ?_))
  · simp [hguard]
  · rw [hended] at hruns
    cases hruns
  · simp [hguard, Guard.counted]
  · simp [hguard, Guard.due]

theorem ok_drop (h : s.Ok) (hstep : s.exec (.drop i) = some s') : s'.Ok := by
  obtain ⟨task, hfound, hs'⟩ := Option.bind_eq_some_iff.mp hstep
  obtain ⟨htask, hguard⟩ := System.of_taskAt hfound
  obtain rfl := Option.some.inj hs'
  refine h.setGuard htask ?_ (fun _ => .inl rfl) (List.Subset.refl _) ?_ (.inr (.inr ?_)) <;>
    simp [hguard, Guard.counted, Guard.due]

theorem ok_push (h : s.Ok) (hstep : s.exec (.push i) = some s') : s'.Ok := by
  obtain ⟨task, hfound, hs'⟩ := Option.bind_eq_some_iff.mp hstep
  obtain ⟨htask, hguard⟩ := System.of_taskAt hfound
  obtain rfl := Option.some.inj hs'
  refine h.setGuard htask ?_ (fun _ => .inr ?_) (List.subset_append_left _ _) ?_ (.inr (.inl rfl))
  · simp [hguard]
  · simp
  · simp [hguard, Guard.counted, System.setTask]

theorem ok_pushNotify (h : s.Ok) (hstep : s.exec (.pushNotify i) = some s') : s'.Ok := by
  obtain ⟨task, hfound, hs'⟩ := Option.bind_eq_some_iff.mp hstep
  obtain ⟨htask, hguard⟩ := System.of_taskAt hfound
  obtain rfl := Option.some.inj hs'
  refine h.setGuard htask ?_ (fun hruns => ?_) (List.Subset.refl _) ?_ (.inl rfl)
  · simp [hguard]
  · exact .inr ((h.kept htask hruns).resolve_left (by simp [hguard, Guard.holds]))
  · simp [hguard, Guard.counted, System.setTask]

theorem ok_release (h : s.Ok) (hstep : s.exec (.release i) = some s') : s'.Ok := by
  obtain ⟨task, htask, hs'⟩ := Option.bind_eq_some_iff.mp hstep
  obtain ⟨hguard, hs'⟩ := Option.ite_none_right_eq_some.mp hs'
  obtain rfl := Option.some.inj hs'
  have hcounted : task.guard.counted = true := by
    rcases hguard with hguard | hguard <;> rw [hguard] <;> rfl
  have hpos := h.active_pos htask hcounted
  refine h.setGuard htask ?_ (fun hruns => ?_) (List.Subset.refl _) ?_ (.inr (.inl rfl))
  · intro hdone
    rw [hdone] at hcounted
    cases hcounted
  · refine .inr ((h.kept htask hruns).resolve_left ?_)
    rcases hguard with hguard | hguard <;> simp [hguard, Guard.holds]
  · rw [if_pos hcounted, fetchSub, if_neg (Nat.ne_of_gt hpos)]
    show s.activeGuards - 1 + 1 = s.activeGuards + 0
    omega

theorem ok_releaseNotify (h : s.Ok) (hstep : s.exec (.releaseNotify i) = some s') : s'.Ok := by
  obtain ⟨task, hfound, hs'⟩ := Option.bind_eq_some_iff.mp hstep
  obtain ⟨htask, hguard⟩ := System.of_taskAt hfound
  obtain rfl := Option.some.inj hs'
  refine h.setGuard htask ?_ (fun hruns => ?_) (List.Subset.refl _) ?_ (.inl rfl)
  · simp [hguard]
  · exact .inr ((h.kept htask hruns).resolve_left (by simp [hguard, Guard.holds]))
  · simp [hguard, Guard.counted, System.setTask]

theorem ok_exit (h : s.Ok) (hstep : s.exec (.exit i) = some s') : s'.Ok := by
  obtain ⟨child, hchild, hs'⟩ := Option.bind_eq_some_iff.mp hstep
  obtain rfl := Option.some.inj hs'
  have hkept := h.childKept hchild
  by_cases hpushed : child.holding = .pushed
  · exact h.setChild hchild rfl id hkept (List.Subset.refl _) (.inr (.inl hpushed)) h.returned
  · exact h.setChild hchild rfl id hkept (List.Subset.refl _) (.inr (.inr ⟨rfl, hpushed, rfl⟩))
      h.returned

/-- A step of a `GitChild` whose owner is at it, and so runs. -/
theorem System.Ok.setHolding (h : s.Ok) {pending : List CleanupFuture} {permit : Bool}
    (hchild : s.children[i]? = some child) (hover : child.holding.over = false)
    (howner : child'.owner = child.owner)
    (hkept : child'.holding = .held ∨ child'.holding = .dropped ∨
      .child i ∈ s.reaper.futures ++ pending ∨ child'.reaped = true)
    (hpending : s.pending ⊆ pending)
    (hwake : permit = true ∨ child'.holding = .pushed ∨
      (permit = s.permit ∧ child.holding ≠ .pushed ∧ pending = s.pending)) :
    System.Ok { s.setChild i child' with pending := pending, permit := permit } := by
  refine h.setChild hchild howner (fun _ => hover) hkept hpending hwake (fun hreturned => ?_)
  have halive := h.childAlive child (List.mem_of_getElem? hchild) hover
  exact absurd hreturned (h.not_returned halive)

theorem ok_waitChild (h : s.Ok) (hstep : s.exec (.waitChild i) = some s') : s'.Ok := by
  obtain ⟨child, hfound, hs'⟩ := Option.bind_eq_some_iff.mp hstep
  obtain ⟨hchild, hholding⟩ := System.of_childAt hfound
  obtain ⟨_, hs'⟩ := Option.ite_none_right_eq_some.mp hs'
  obtain rfl := Option.some.inj hs'
  exact h.setHolding hchild (by rw [hholding]; rfl) rfl (.inr (.inr (.inr rfl)))
    (List.Subset.refl _) (.inr (.inr ⟨rfl, by simp [hholding], rfl⟩))

theorem ok_dropChild (h : s.Ok) (hstep : s.exec (.dropChild i) = some s') : s'.Ok := by
  obtain ⟨child, hfound, hs'⟩ := Option.bind_eq_some_iff.mp hstep
  obtain ⟨hchild, hholding⟩ := System.of_childAt hfound
  obtain rfl := Option.some.inj hs'
  exact h.setHolding hchild (by rw [hholding]; rfl) rfl (.inr (.inl rfl))
    (List.Subset.refl _) (.inr (.inr ⟨rfl, by simp [hholding], rfl⟩))

theorem ok_pushChild (h : s.Ok) (hstep : s.exec (.pushChild i) = some s') : s'.Ok := by
  obtain ⟨child, hfound, hs'⟩ := Option.bind_eq_some_iff.mp hstep
  obtain ⟨hchild, hholding⟩ := System.of_childAt hfound
  obtain rfl := Option.some.inj hs'
  exact h.setHolding hchild (by rw [hholding]; rfl) rfl (.inr (.inr (.inl (by simp))))
    (List.subset_append_left _ _) (.inr (.inl rfl))

theorem ok_notifyChild (h : s.Ok) (hstep : s.exec (.notifyChild i) = some s') : s'.Ok := by
  obtain ⟨child, hfound, hs'⟩ := Option.bind_eq_some_iff.mp hstep
  obtain ⟨hchild, hholding⟩ := System.of_childAt hfound
  obtain rfl := Option.some.inj hs'
  have hkept := h.childKept hchild
  rw [hholding] at hkept
  have hleft : .child i ∈ s.waits ∨ child.reaped = true :=
    (hkept.resolve_left (by simp)).resolve_left (by simp)
  exact h.setHolding hchild (by rw [hholding]; rfl) rfl (.inr (.inr hleft)) (List.Subset.refl _)
    (.inl rfl)

theorem ok_take (h : s.Ok) (hstep : s.exec .take = some s') : s'.Ok := by
  simp only [System.exec] at hstep
  split at hstep
  · next last hreaper =>
      have hwaits : s.waits = s.pending := by rw [System.waits, hreaper]; rfl
      split at hstep
      · next hempty =>
          have hnone : s.pending = [] := List.isEmpty_iff.mp hempty
          obtain rfl := Option.some.inj hstep
          refine h.setReaper ?_ ?_ (fun _ => .inr (.inr hnone)) ?_ (fun _ => hnone)
          · intro future hfuture
            rw [hwaits, hnone] at hfuture
            cases hfuture
          · intro hsaw
            apply h.sawClosed
            rw [hreaper]
            cases last
            · cases hsaw
            · rfl
          · intro hwaiting
            cases last <;> cases hwaiting
      · obtain rfl := Option.some.inj hstep
        refine h.setReaper ?_ ?_ (fun hchecking => nomatch hchecking) (fun hwaiting => nomatch hwaiting)
          (fun hreturned => nomatch hreturned)
        · intro future hfuture
          rw [hwaits] at hfuture
          exact .inl (List.mem_append_left _ hfuture)
        · intro hsaw
          apply h.sawClosed
          rw [hreaper]
          cases last
          · cases hsaw
          · rfl
  · cases hstep

/-- The reaper's wait for a child is noted at the child. -/
theorem System.Ok.reap (h : s.Ok) (future : CleanupFuture) : (s.reap future).Ok := by
  cases future with
  | task i => exact h
  | child i =>
      simp only [System.reap]
      split
      · next child hchild =>
          have hreaped : ({ child with reaped := true } : GitChild).reaped = true := rfl
          by_cases hpushed : child.holding = .pushed
          · exact h.setChild hchild rfl id (.inr (.inr (.inr hreaped))) (List.Subset.refl _)
              (.inr (.inl hpushed)) h.returned
          · exact h.setChild hchild rfl id (.inr (.inr (.inr hreaped))) (List.Subset.refl _)
              (.inr (.inr ⟨rfl, hpushed, rfl⟩)) h.returned
      · exact h

theorem System.reap_fields (s : System) (future : CleanupFuture) :
    (s.reap future).reaper = s.reaper ∧ (s.reap future).pending = s.pending ∧
      (s.reap future).permit = s.permit ∧ (s.reap future).closed = s.closed := by
  cases future with
  | task i => exact ⟨rfl, rfl, rfl, rfl⟩
  | child i =>
      simp only [System.reap]
      split <;> exact ⟨rfl, rfl, rfl, rfl⟩

theorem System.settled_reap {future : CleanupFuture} (hresolves : s.resolves future = true) :
    (s.reap future).Settled future := by
  cases future with
  | task i =>
      intro task htask
      obtain ⟨other, hother, hended⟩ := (Option.any_eq_true _ _).mp hresolves
      obtain rfl := Option.some.inj (hother.symm.trans htask)
      exact hended
  | child i =>
      intro child hchild
      simp only [System.reap] at hchild
      split at hchild
      · next before hbefore =>
          rcases Table.getElem?_set_cases hchild with ⟨_, rfl⟩ | ⟨hne, _⟩
          · rfl
          · exact absurd rfl hne
      · next hnone =>
          rw [hnone] at hchild
          cases hchild

theorem ok_resolve {future : CleanupFuture} (h : s.Ok)
    (hstep : s.exec (.resolve future) = some s') : s'.Ok := by
  simp only [System.exec] at hstep
  split at hstep
  · next last futures hreaper =>
      split at hstep
      · next hcan =>
          obtain ⟨hsame, hpending, hpermit, hclosed⟩ := System.reap_fields s future
          obtain rfl := Option.some.inj hstep
          refine (h.reap future).setReaper ?_ ?_ (fun hchecking => nomatch hchecking)
            (fun hwaiting => nomatch hwaiting) (fun hreturned => nomatch hreturned)
          · intro other hother
            by_cases hne : other = future
            · rw [hne]
              exact .inr (System.settled_reap hcan.2)
            · rw [System.waits, hsame, hreaper] at hother
              rcases List.mem_append.mp hother with hfirst | hsecond
              · exact .inl (List.mem_append_left _ ((List.mem_erase_of_ne hne).mpr hfirst))
              · exact .inl (List.mem_append_right _ hsecond)
          · intro hsaw
            rw [hclosed]
            apply h.sawClosed
            rw [hreaper]
            cases last
            · cases hsaw
            · rfl
      · cases hstep
  · cases hstep

theorem ok_joinAll (h : s.Ok) (hstep : s.exec .joinAll = some s') : s'.Ok := by
  simp only [System.exec] at hstep
  split at hstep
  · next last hreaper =>
      obtain rfl := Option.some.inj hstep
      refine h.setReaper ?_ ?_ (fun hchecking => nomatch hchecking) (fun hwaiting => nomatch hwaiting)
        (fun hreturned => nomatch hreturned)
      · intro future hfuture
        rw [System.waits, hreaper] at hfuture
        exact .inl hfuture
      · intro hsaw
        apply h.sawClosed
        rw [hreaper]
        cases last
        · cases hsaw
        · rfl
  · cases hstep

theorem ok_loadClosed (h : s.Ok) (hstep : s.exec .loadClosed = some s') : s'.Ok := by
  obtain ⟨hreaper, hs'⟩ := Option.ite_none_right_eq_some.mp hstep
  obtain rfl := Option.some.inj hs'
  have hquiet := h.quiet (by rw [hreaper]; rfl)
  refine h.setReaper ?_ ?_ (fun _ => hquiet) ?_ ?_
  · intro future hfuture
    rw [System.waits, hreaper] at hfuture
    exact .inl (List.mem_append_right _ hfuture)
  · cases hclosed : s.closed
    · intro hsaw
      cases hsaw
    · exact fun _ => rfl
  · cases hclosed : s.closed
    · exact fun _ => .inr (.inr (.inl rfl))
    · intro hwaiting
      cases hwaiting
  · cases s.closed <;> exact fun hreturned => nomatch hreturned

theorem ok_loadActive (h : s.Ok) (hstep : s.exec .loadActive = some s') : s'.Ok := by
  obtain ⟨hreaper, hs'⟩ := Option.ite_none_right_eq_some.mp hstep
  obtain rfl := Option.some.inj hs'
  have hquiet := h.quiet (by rw [hreaper]; rfl)
  have hclosed := h.sawClosed (by rw [hreaper]; rfl)
  refine h.setReaper ?_ (fun _ => hclosed) (fun _ => hquiet) ?_ ?_
  · intro future hfuture
    rw [System.waits, hreaper] at hfuture
    exact .inl (List.mem_append_right _ hfuture)
  · split
    · intro hwaiting
      cases hwaiting
    · next hactive => exact fun _ => .inr (.inr (.inr hactive))
  · split <;> exact fun hreturned => nomatch hreturned

theorem ok_wake (h : s.Ok) (hstep : s.exec .wake = some s') : s'.Ok := by
  obtain ⟨⟨hreaper, _⟩, hs'⟩ := Option.ite_none_right_eq_some.mp hstep
  obtain rfl := Option.some.inj hs'
  refine h.setReaper ?_ (fun hsaw => nomatch hsaw) (fun hchecking => nomatch hchecking)
    (fun hwaiting => nomatch hwaiting) (fun hreturned => nomatch hreturned)
  intro future hfuture
  rw [System.waits, hreaper] at hfuture
  exact .inl (List.mem_append_right _ hfuture)

/-- Every step keeps the invariant. -/
theorem ok_exec {e : Event} (h : s.Ok) (hstep : s.exec e = some s') : s'.Ok := by
  cases e with
  | spawn owner =>
      obtain ⟨halive, hs'⟩ := Option.ite_none_right_eq_some.mp hstep
      obtain rfl := Option.some.inj hs'
      exact h.addTask halive
  | guardStarted i => exact ok_guardStarted h hstep
  | join i => exact ok_join h hstep
  | drop i => exact ok_drop h hstep
  | push i => exact ok_push h hstep
  | pushNotify i => exact ok_pushNotify h hstep
  | release i => exact ok_release h hstep
  | releaseNotify i => exact ok_releaseNotify h hstep
  | finish i =>
      obtain ⟨task, htask, hs'⟩ := Option.bind_eq_some_iff.mp hstep
      obtain ⟨hends, hs'⟩ := Option.ite_none_right_eq_some.mp hs'
      obtain rfl := Option.some.inj hs'
      exact h.finish htask ((Bool.and_eq_true _ _).mp hends).2
  | spawnChild owner =>
      obtain ⟨halive, hs'⟩ := Option.ite_none_right_eq_some.mp hstep
      obtain rfl := Option.some.inj hs'
      exact h.addChild halive
  | exit i => exact ok_exit h hstep
  | waitChild i => exact ok_waitChild h hstep
  | dropChild i => exact ok_dropChild h hstep
  | pushChild i => exact ok_pushChild h hstep
  | notifyChild i => exact ok_notifyChild h hstep
  | close =>
      obtain ⟨hcan, hs'⟩ := Option.ite_none_right_eq_some.mp hstep
      obtain rfl := Option.some.inj hs'
      exact h.close hcan.2
  | closeNotify =>
      obtain ⟨hclone, hs'⟩ := Option.ite_none_right_eq_some.mp hstep
      obtain rfl := Option.some.inj hs'
      exact h.closeNotify hclone
  | take => exact ok_take h hstep
  | resolve future => exact ok_resolve h hstep
  | joinAll => exact ok_joinAll h hstep
  | loadClosed => exact ok_loadClosed h hstep
  | loadActive => exact ok_loadActive h hstep
  | wake => exact ok_wake h hstep

end Steps

/-! ## Whole runs -/

section Runs

variable {s : System} {events : List Event}

theorem ok_run (hrun : Run Step System.init events s) : s.Ok :=
  hrun.invariant ok_init (fun _ hok hstep => ok_exec hok hstep) (fun _ _ => trivial)

/-- While a clone is closed, the reaper waits only for a notification that is on its way. -/
theorem System.Ok.due_of_waiting (h : s.Ok) (hclosed : s.closed = true)
    (hwaiting : s.reaper = .waiting) (hpermit : s.permit = false) : s.due = true := by
  by_contra hdue
  have hpending : s.pending = [] := by
    have hquiet := h.quiet (by rw [hwaiting]; rfl)
    exact (hquiet.resolve_left (by simp [hpermit])).resolve_left hdue
  have hwaits : s.waits = [] := by
    rw [System.waits, hwaiting, hpending]
    rfl
  -- Every owner has ended, so every guard is done and none is counted.
  have hactive : s.activeGuards = 0 := by
    rw [h.active, List.countP_eq_zero]
    intro task htask hcounted
    have hnotDone : task.guard ≠ .done := by
      intro hdone
      rw [hdone] at hcounted
      cases hcounted
    have halive := h.alive task htask hnotDone
    rw [h.none_alive hclosed hwaits] at halive
    cases halive
  rcases h.missed hwaiting with hthere | hthere | hthere | hthere
  · rw [hpermit] at hthere
    cases hthere
  · exact hdue hthere
  · rw [hclosed] at hthere
    cases hthere
  · exact hthere hactive

/-- When `drain_closed` has returned, nothing the clone registered still runs. -/
theorem System.Ok.returned_quiet (h : s.Ok) (hreturned : s.reaper = .returned) :
    s.closed = true ∧ (∀ task ∈ s.tasks, task.ended = true) ∧
      ∀ child ∈ s.children, child.reaped = true := by
  have hclosed := h.sawClosed (by rw [hreturned]; rfl)
  have hwaits : s.waits = [] := by
    rw [System.waits, hreturned, h.returned hreturned]
    rfl
  refine ⟨hclosed, fun task htask => ?_, fun child hchild => ?_⟩
  · obtain ⟨i, hi⟩ := List.mem_iff_getElem?.mp htask
    exact h.all_ended hclosed hwaits hi
  · obtain ⟨i, hi⟩ := List.mem_iff_getElem?.mp hchild
    have hover : child.holding.over = true := by
      by_contra hover
      have halive := h.childAlive child hchild (by simpa using hover)
      rw [h.none_alive hclosed hwaits] at halive
      cases halive
    rcases h.childKept hi with hheld | hdropped | hwait | hreaped
    · rw [hheld] at hover
      cases hover
    · rw [hdropped] at hover
      cases hover
    · rw [hwaits] at hwait
      cases hwait
    · exact hreaped

/-- `drain_closed` returns once. -/
theorem System.returned_exec {s' : System} {e : Event} (hreturned : s.reaper = .returned)
    (hstep : s.exec e = some s') : s'.reaper = .returned := by
  cases e with
  | take | resolve _ | joinAll | loadClosed | loadActive | wake =>
      simp [System.exec, hreturned] at hstep
  | spawn _ | spawnChild _ | close | closeNotify =>
      obtain ⟨_, hs'⟩ := Option.ite_none_right_eq_some.mp hstep
      obtain rfl := Option.some.inj hs'
      exact hreturned
  | join _ | release _ | finish _ | waitChild _ =>
      obtain ⟨task, _, hs'⟩ := Option.bind_eq_some_iff.mp hstep
      obtain ⟨_, hs'⟩ := Option.ite_none_right_eq_some.mp hs'
      obtain rfl := Option.some.inj hs'
      exact hreturned
  | guardStarted _ | drop _ | push _ | pushNotify _ | releaseNotify _ | exit _ | dropChild _
  | pushChild _ | notifyChild _ =>
      obtain ⟨task, _, hs'⟩ := Option.bind_eq_some_iff.mp hstep
      obtain rfl := Option.some.inj hs'
      exact hreturned

/-- In every interleaving: when `drain_closed` has returned, the clone is closed, every task has
ended and every child was waited for; no step takes the counter of guards below zero; and once the
clone is closed, the reaper waits without a permit only while a thread that has changed what it
looks at is yet to notify it. -/
theorem reaper_waits_for_all (hrun : Run Step System.init events s) :
    (s.reaper = .returned → s.closed = true ∧ (∀ task ∈ s.tasks, task.ended = true) ∧
      ∀ child ∈ s.children, child.reaped = true) ∧
    (∀ i, (s.exec (.release i)).isSome = true → 0 < s.activeGuards) ∧
    (s.closed = true → s.reaper = .waiting → s.permit = false → s.due = true) := by
  have h := ok_run hrun
  refine ⟨h.returned_quiet, fun i hcan => ?_, h.due_of_waiting⟩
  obtain ⟨s', hstep⟩ := Option.isSome_iff_exists.mp hcan
  obtain ⟨task, htask, hs'⟩ := Option.bind_eq_some_iff.mp hstep
  obtain ⟨hguard, _⟩ := Option.ite_none_right_eq_some.mp hs'
  apply h.active_pos htask
  rcases hguard with hguard | hguard <;> rw [hguard] <;> rfl

/-- A clone is dropped while a task of its holds another task and a git child, which the task
starts after it was aborted. -/
def droppedEvents : List Event :=
  [.spawn none, .guardStarted 0, .take, .loadClosed, .drop 0, .spawn (some 0), .push 0,
    .pushNotify 0, .release 0, .releaseNotify 0, .guardStarted 1, .spawnChild (some 0), .close,
    .wake, .closeNotify, .take, .drop 1, .push 1, .dropChild 0, .pushChild 0, .pushNotify 1,
    .release 1, .notifyChild 0, .releaseNotify 1, .finish 0, .resolve (.task 0), .joinAll, .take,
    .finish 1, .exit 0, .resolve (.child 0), .resolve (.task 1), .joinAll, .take, .loadClosed,
    .loadActive, .take]

theorem dropped_events_reaped : ∃ s, Run Step System.init droppedEvents s ∧
    s.reaper = .returned ∧ s.tasks.length = 2 ∧ s.children.length = 1 ∧
    (∀ task ∈ s.tasks, task.ended = true) ∧ ∀ child ∈ s.children, child.reaped = true := by
  have hruns : (droppedEvents.foldlM System.exec System.init).any (fun s =>
      s.reaper = .returned ∧ s.tasks.length = 2 ∧ s.children.length = 1) = true := by
    decide
  obtain ⟨s, hs, hstate⟩ := (Option.any_eq_true _ _).mp hruns
  obtain ⟨hreturned, htasks, hchildren⟩ := of_decide_eq_true hstate
  have hrun : Run Step System.init droppedEvents s := Run.of_foldlM hs
  exact ⟨s, hrun, hreturned, htasks, hchildren, ((reaper_waits_for_all hrun).1 hreturned).2⟩

end Runs

end Ripclone.Client.Cleanup
