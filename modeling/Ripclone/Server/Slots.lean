import Mathlib.Data.Finset.Card
import Ripclone.Control.Sqlite
import Ripclone.Library.Notify
import Ripclone.Library.Run

/-!
# Build slots and their wake-ups

The slots of one pool look for builds in the database, each on its own, and sleep when there is none. An
admission that makes work wakes one of them. A slot registers for a wake-up before it looks, and keeps the
registration while it builds.

Every statement is a step, and so is each call of the pool's `Notify`. A statement that fails leaves the
database as it was; a failed claim is a step, since the slot then sleeps whatever work there is. Such slots
are remembered until a slot has found no work.
-/

namespace Ripclone.Slots

open Ripclone.Library Ripclone.Control

/-- Where a slot is in its loop. `ready` says that its `Notified` is done: it took the notification that
was kept. -/
inductive Stage where
  /-- About to register. -/
  | start
  /-- Registered, and about to read whether there is work. -/
  | enabled (ready : Bool)
  /-- The read found work. -/
  | taking (ready : Bool)
  | building (ready : Bool) (claim : Claim)
  /-- The build is over, and its lease given up or lost. -/
  | leaving (ready : Bool)
  | asleep (ready : Bool)

/-- An admission between its statements. -/
structure Call where
  repo : String
  commit : String
  /-- The row as it was last read. -/
  row : BuildRow
  /-- The row was new, or its failed kinds were reset. -/
  made : Bool
  /-- Failed kinds are still to be reset. -/
  again : Bool

structure System where
  db : Db
  now : Int
  wake : Notify
  calls : List Call
  stages : List Stage
  /-- How many repositories may have become available with nobody told, since a slot last found none. -/
  untold : Nat
  /-- The slots whose claims failed since a slot last found none, each as often as they did. -/
  failed : List Nat

inductive Event where
  | admission (repo commit : String) (refName : Option String) (again : Bool)
  /-- An admission resets the kinds that failed. -/
  | retry (call : Nat)
  /-- An admission wakes a slot if its row is pending. -/
  | notify (call : Nat)
  /-- An admission whose request is dropped. -/
  | abandon (call : Nat)
  | enable (slot : Nat)
  | poll (slot : Nat)
  | take (slot : Nat) (owner : String)
  /-- The claim fails. -/
  | failed (slot : Nat)
  | renew (slot : Nat)
  | publish (slot : Nat) (output : Output)
  | fail (slot : Nat) (error : String) (retryAfter : Option Nat)
  | release (slot : Nat)
  /-- The build stopped because its lease was lost. -/
  | lost (slot : Nat)
  /-- The next turn of the loop, which drops the registration. -/
  | leave (slot : Nat)
  | wake (slot : Nat)
  /-- The sleep is over. -/
  | timer (slot : Nat)
  /-- What changes otherwise: other pools' statements, deletions, time. -/
  | elsewhere (db : Db) (now : Int)

/-- The repositories with a build the pool may claim. -/
def available (store : SqliteControlStore) (now : Int) (pool : Pool) (db : Db) : Finset String :=
  ((db.builds.filter (claimable store now pool db)).map BuildRow.repo).toFinset

section Step

variable (store : SqliteControlStore) (pool : Pool) (lease : Nat)

def System.work (s : System) : Finset String := available store s.now pool s.db

/-- The admitted row is read in the admission's transaction. -/
def admitCall (s : System) (repo commit : String) (refName : Option String) (again : Bool) : System :=
  match admitBuild repo commit refName s.now s.db with
  | .error _ => s
  | .ok (db, inserted) =>
    match db.row (repo, commit) with
    | none => { s with db := db }
    | some row =>
      { s with
        db := db
        calls := s.calls ++ [⟨repo, commit, row, inserted, again && anyFailed row⟩] }

/-- The call after its reset, which finds no row when the repository was deleted. -/
def Call.reset (call : Call) (retried : Option BuildRow) : Call :=
  { call with row := retried.getD call.row, made := call.made || retried.isSome, again := false }

def retryCall (s : System) (i : Nat) (call : Call) : System :=
  let retried := retry call.repo call.commit s.db
  { s with db := retried.1, calls := s.calls.set i (call.reset retried.2) }

/-- Whether the row has a pending output of the pool's kind. -/
def Call.pending (call : Call) : Bool := (call.row.out pool.kind).state = .pending

/-- Whether an admission made work and is to say so. -/
def Call.tells (call : Call) : Bool := call.made && call.pending pool

def notifyCall (s : System) (i : Nat) (call : Call) : System :=
  { s with
    wake := if call.pending pool then s.wake.notifyOne else s.wake
    calls := s.calls.eraseIdx i }

def System.set (s : System) (i : Nat) (stage : Stage) : System :=
  { s with stages := s.stages.set i stage }

/-- The slot's `Notified` is dropped; one that is done leaves nothing behind. -/
def System.drop (s : System) (i : Nat) (ready : Bool) : System :=
  { s with wake := if ready then s.wake else s.wake.drop i, stages := s.stages.set i .start }

def take (s : System) (i : Nat) (ready : Bool) (owner : String) : System :=
  match claimTransaction store s.now owner pool lease s.db with
  | (db, none) =>
    { s with db := db, untold := 0, failed := [], stages := s.stages.set i (.asleep ready) }
  | (db, some claim) => { s with db := db, stages := s.stages.set i (.building ready claim) }

def exec (s : System) : Event → Option System
  | .admission repo commit refName again => some (admitCall s repo commit refName again)
  | .retry i =>
    match s.calls[i]? with
    | some call => if call.again then some (retryCall s i call) else none
    | none => none
  | .notify i =>
    match s.calls[i]? with
    | some call => if call.again then none else some (notifyCall pool s i call)
    | none => none
  | .abandon i =>
    match s.calls[i]? with
    | some call =>
      some { s with
        calls := s.calls.eraseIdx i
        untold := if call.tells pool then s.untold + 1 else s.untold }
    | none => none
  | .enable i =>
    match s.stages[i]? with
    | some .start =>
      some { s with
        wake := (s.wake.enable i).1
        stages := s.stages.set i (.enabled (s.wake.enable i).2) }
    | _ => none
  | .poll i =>
    match s.stages[i]? with
    | some (.enabled ready) =>
      if looksForWork store s.now pool s.db then some (s.set i (.taking ready))
      else some { s with untold := 0, failed := [], stages := s.stages.set i (.asleep ready) }
    | _ => none
  | .take i owner =>
    match s.stages[i]? with
    | some (.taking ready) => some (take store pool lease s i ready owner)
    | _ => none
  | .failed i =>
    match s.stages[i]? with
    | some (.enabled ready) | some (.taking ready) =>
      some { s with failed := i :: s.failed, stages := s.stages.set i (.asleep ready) }
    | _ => none
  | .renew i =>
    match s.stages[i]? with
    | some (.building _ claim) => some { s with db := (renew s.now claim lease s.db).1 }
    | _ => none
  | .publish i output =>
    match s.stages[i]? with
    | some (.building _ claim) =>
      match publish claim output s.db with
      | .ok (db, _) => some { s with db := db }
      | .error _ => some s
    | _ => none
  | .fail i error retryAfter =>
    match s.stages[i]? with
    | some (.building _ claim) => some { s with db := fail store s.now claim error retryAfter s.db }
    | _ => none
  | .release i =>
    match s.stages[i]? with
    | some (.building ready claim) =>
      some { s with db := release claim s.db, stages := s.stages.set i (.leaving ready) }
    | _ => none
  | .lost i =>
    match s.stages[i]? with
    | some (.building ready _) => some (s.set i (.leaving ready))
    | _ => none
  | .leave i =>
    match s.stages[i]? with
    | some (.leaving ready) => some (s.drop i ready)
    | _ => none
  | .wake i =>
    match s.stages[i]? with
    | some (.asleep true) => some (s.set i .start)
    | some (.asleep false) =>
      if i ∈ s.wake.notified then some { s with wake := s.wake.see i, stages := s.stages.set i .start }
      else none
    | _ => none
  | .timer i =>
    match s.stages[i]? with
    | some (.asleep ready) => some (s.drop i ready)
    | _ => none
  | .elsewhere db now =>
    if (db.builds.map BuildRow.key).Nodup then
      some { s with
        db := db
        now := now
        untold := s.untold + (available store now pool db \ s.work store pool).card }
    else none

/-- One step. -/
def Step (s : System) (event : Event) (s' : System) : Prop := exec store pool lease s event = some s'

/-- The slots start on a database that another run left. -/
def System.init (db : Db) (now : Int) (slots : Nat) : System :=
  ⟨db, now, .new, [], List.replicate slots .start, 0, []⟩

end Step

/-! ## Who knows of work -/

/-- Whether a slot that has its stage is going to look at the database. -/
def Stage.going : Stage → Bool
  | .start | .enabled _ | .taking _ | .leaving _ | .asleep true => true
  | .building _ _ | .asleep false => false

namespace System

/-- A slot sleeps, and nobody has woken it. -/
def Sleeping (s : System) (i : Nat) : Prop := s.stages[i]? = some (.asleep false) ∧ i ∈ s.wake.waiting

/-- The admissions that are to tell of work, the slots that are told and those that are to look. -/
def told (pool : Pool) (s : System) : Nat :=
  s.calls.countP (Call.tells pool) + s.wake.notified.length + s.stages.countP Stage.going

end System

end Ripclone.Slots
