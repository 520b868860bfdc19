import Mathlib.Logic.Relation
import Ripclone.Library.Run
import Ripclone.Control.Sqlite

/-!
# Runs of the control store

A run is any sequence of store operations, by any number of workers and open stores, in the order
the database serialises them. Clock readings, owners and claims are arguments of the operations, so
a run may use any of them.

Almost every operation rewrites rows one at a time. `RowStep` lists what can happen to one row, with
the conditions the statement's `WHERE` puts on it, and `row_exec` says that nothing else does: a row
disappears only in a purge of its repo, appears only with an admission, and otherwise changes by
`RowStep`s of the operation. Invariants of build rows are proved over `RowStep` and never unfold the
statements again.

The history kept beside the database is a ghost: it records admissions, granted claims and the
retries that reset a kind, newest first, so that properties may speak about what happened before.
-/

namespace Ripclone.Control

open Ripclone.Library

inductive Op where
  | admitBuild (repo commit : String) (refName : Option String) (now : Int)
  | retry (repo commit : String)
  | claim (store : SqliteControlStore) (now : Int) (owner : String) (pool : Pool) (lease : Nat)
      (seen : Db)
  | renew (now : Int) (claim : Claim) (lease : Nat)
  | publish (claim : Claim) (output : Output)
  | fail (store : SqliteControlStore) (now : Int) (claim : Claim) (error : String)
      (retryAfter : Option Nat)
  | release (claim : Claim)
  | resetLeases
  | purgeRepo (repo : String) (dueAt : Int)
  | addRepo (repo : String) (owner : Option String) (now : Int)
  | removeRepo (repo : String)
  | setRefs (repo : String) (refs : RepoRefs)
  | queueDeletions (hashes : List String) (dueAt : Int)
  | dequeueDeletions (hashes : List String) (now : Int)
  | recordSizes (sizes : List (String × Nat))

/-- The database after an operation. One that reports an error leaves it as it was. -/
@[grind =] def exec : Op → Db → Db
  | .admitBuild repo commit refName now, db =>
    match admitBuild repo commit refName now db with
    | .ok (db, _) => db
    | .error _ => db
  | .retry repo commit, db => (retry repo commit db).1
  | .claim store now owner pool lease seen, db => (claim store now owner pool lease seen db).1
  | .renew now claim lease, db => (renew now claim lease db).1
  | .publish claim output, db =>
    match publish claim output db with
    | .ok (db, _) => db
    | .error _ => db
  | .fail store now claim error retryAfter, db => fail store now claim error retryAfter db
  | .release claim, db => release claim db
  | .resetLeases, db => (resetLeases db).1
  | .purgeRepo repo dueAt, db => (purgeRepo repo dueAt db).1
  | .addRepo repo owner now, db => (addRepo repo owner now db).1
  | .removeRepo repo, db => (removeRepo repo db).1
  | .setRefs repo refs, db => (setRefs repo refs db).1
  | .queueDeletions hashes dueAt, db => queueDeletions hashes dueAt db
  | .dequeueDeletions hashes now, db => dequeueDeletions hashes now db
  | .recordSizes sizes, db => recordSizes sizes db

/-! ## What a run records -/

inductive Event where
  | admitted (key : String × String)
  | granted (claim : Claim)
  | retried (key : String × String) (kind : ExactResultKind)

/-- The kinds a retry of `key` resets: its failed ones. -/
def retriedKinds (key : String × String) (db : Db) : List ExactResultKind :=
  [ExactResultKind.head, .files, .full].filter fun kind =>
    (db.out key kind).any fun columns => columns.state = .failed

@[grind =] def events : Op → Db → List Event
  | .admitBuild repo commit refName now, db =>
    match admitBuild repo commit refName now db with
    | .ok (_, true) => [.admitted (repo, commit)]
    | _ => []
  | .claim store now owner pool lease seen, db =>
    (claim store now owner pool lease seen db).2.toList.map .granted
  | .retry repo commit, db =>
    (retriedKinds (repo, commit) db).map (.retried (repo, commit))
  | _, _ => []

/-- The database and, beside it, what happened so far, newest first. -/
structure World where
  db : Db
  history : List Event

def World.init : World := ⟨.empty, []⟩

def World.after (w : World) (op : Op) : World :=
  ⟨exec op w.db, events op w.db ++ w.history⟩

/-- One operation of the store. -/
def Step (w : World) (op : Op) (w' : World) : Prop := w' = w.after op

def World.run (w : World) (ops : List Op) : World := ops.foldl World.after w

theorem run_run (w : World) (ops : List Op) : Run Step w ops (w.run ops) := by
  induction ops using List.reverseRecOn with
  | nil => exact .nil
  | append_singleton ops op ih =>
      refine ih.snoc ?_
      simp [Step, World.run]

/-- Whether an operation purges `repo`. -/
def Op.purges (repo : String) : Op → Bool
  | .purgeRepo purged _ => purged = repo
  | _ => false

/-- The owner string a claim writes when it is granted. -/
def Op.owner? : Op → Option String
  | .claim store _ owner _ _ _ => some (leaseOwner store owner)
  | _ => none

/-- The claim a renew, publish, fail or release is made with. -/
def Op.claim? : Op → Option Claim
  | .renew _ held _ => some held
  | .publish held _ => some held
  | .fail _ _ held _ _ => some held
  | .release held => some held
  | _ => none

/-! ## What an operation can do to one row -/

inductive RowStep : Op → BuildRow → BuildRow → Prop
  | refName {repo commit refName now row} :
      RowStep (.admitBuild repo commit refName now) row (fillRefName refName row)
  | reset {repo commit row} (hkey : row.key = (repo, commit)) (hfailed : anyFailed row = true) :
      RowStep (.retry repo commit) row (resetRow row)
  | gaveUp {store now owner pool lease seen row} (h : exhausted store now pool.kind row = true) :
      RowStep (.claim store now owner pool lease seen) row (giveUpRow store pool.kind row)
  | leased {store now owner pool lease seen row leaseUntil}
      (hstate : (row.out pool.kind).state = .pending)
      (hhead : pool = .full → row.head.state = .ready)
      (hattempts : (row.out pool.kind).attempts < store.maxAttempts) :
      RowStep (.claim store now owner pool lease seen) row
        (leaseRow pool.kind (leaseOwner store owner) leaseUntil row)
  | renewed {now claim lease row leaseUntil} (h : ownsLease claim row = true) :
      RowStep (.renew now claim lease) row (renewRow claim leaseUntil row)
  | published {claim output row} (h : ownsPending claim row = true)
      (hkind : output.kind = claim.kind) :
      RowStep (.publish claim output) row (publishRow output row)
  | failed {store now claim error retryAfter row retryAt} (h : ownsPending claim row = true) :
      RowStep (.fail store now claim error retryAfter) row
        (failRow store claim.kind error retryAt row)
  | released {claim row} (h : ownsLease claim row = true) :
      RowStep (.release claim) row (releaseRow claim.kind row)
  | cleared {row} : RowStep .resetLeases row (clearLeases row)

/-- What one operation does to a row: nothing, or statements one after the other. -/
def RowSteps (op : Op) : BuildRow → BuildRow → Prop := Relation.ReflTransGen (RowStep op)

/-! ## The rows after an operation -/

section Rows

variable {db : Db} {key : String × String}

@[simp] theorem key_fillRefName (refName : Option String) (row : BuildRow) :
    (fillRefName refName row).key = row.key := rfl

@[simp] theorem key_resetRow (row : BuildRow) : (resetRow row).key = row.key := rfl

@[simp] theorem key_headFailureCascade (fails : Bool) (error : String) (row : BuildRow) :
    (headFailureCascade fails error row).key = row.key := by
  unfold headFailureCascade
  split <;> rfl

@[simp] theorem key_giveUpRow (store : SqliteControlStore) (kind : ExactResultKind)
    (row : BuildRow) : (giveUpRow store kind row).key = row.key := by
  cases kind <;> simp [giveUpRow]

@[simp] theorem key_leaseRow (kind : ExactResultKind) (owner : String) (leaseUntil : Int)
    (row : BuildRow) : (leaseRow kind owner leaseUntil row).key = row.key := by
  simp [leaseRow]

@[simp] theorem key_renewRow (claim : Claim) (leaseUntil : Int) (row : BuildRow) :
    (renewRow claim leaseUntil row).key = row.key := by
  simp [renewRow]

@[simp] theorem key_publishRow (output : Output) (row : BuildRow) :
    (publishRow output row).key = row.key := by
  cases output <;> rfl

@[simp] theorem key_failRow (store : SqliteControlStore) (kind : ExactResultKind) (error : String)
    (retryAt : Option Int) (row : BuildRow) :
    (failRow store kind error retryAt row).key = row.key := by
  cases kind <;> simp [failRow]

@[simp] theorem key_releaseRow (kind : ExactResultKind) (row : BuildRow) :
    (releaseRow kind row).key = row.key := by
  simp [releaseRow]

@[simp] theorem key_clearLeases (row : BuildRow) : (clearLeases row).key = row.key := rfl

/-! What each statement leaves in the columns of a kind. -/

section Out

variable (row : BuildRow) (kind kind' : ExactResultKind)

@[simp] theorem out_fillRefName (refName : Option String) :
    (fillRefName refName row).out kind = row.out kind := by
  cases kind <;> rfl

@[simp] theorem out_resetRow : (resetRow row).out kind = resetFailed (row.out kind) := by
  cases kind <;> rfl

theorem out_headFailureCascade (fails : Bool) (error : String) :
    (headFailureCascade fails error row).out kind =
      if fails ∧ kind = .full ∧ row.full.state = .pending then
        { row.full with state := .failed, error := some error }
      else row.out kind := by
  unfold headFailureCascade
  by_cases hfull : row.full.state = .pending <;> cases fails <;> cases kind <;>
    simp [BuildRow.out, hfull]

theorem out_leaseRow (owner : String) (leaseUntil : Int) :
    (leaseRow kind owner leaseUntil row).out kind' =
      if kind' = kind then
        { row.out kind with
          lease := some ⟨owner, leaseUntil⟩, attempts := (row.out kind).attempts + 1 }
      else row.out kind' := by
  rw [leaseRow, BuildRow.out_setOut]

theorem out_renewRow (claim : Claim) (leaseUntil : Int) :
    (renewRow claim leaseUntil row).out kind =
      if kind = claim.kind then
        { row.out claim.kind with
          lease := (row.out claim.kind).lease.map fun lease =>
            { lease with leaseUntil := leaseUntil } }
      else row.out kind := by
  rw [renewRow, BuildRow.out_setOut]

theorem out_publishRow (output : Output) :
    (publishRow output row).out kind =
      if kind = output.kind then
        { row.out output.kind with state := .ready, output := some output.stored, error := none }
      else row.out kind := by
  cases output <;> cases kind <;> rfl

theorem out_releaseRow : (releaseRow kind row).out kind' =
    if kind' = kind then { row.out kind with lease := none } else row.out kind' := by
  rw [releaseRow, BuildRow.out_setOut]

@[simp] theorem out_clearLeases :
    (clearLeases row).out kind = { row.out kind with lease := none } := by
  cases kind <;> rfl

/-- Giving up fails the columns of its kind and, for a Head, the pending Full. -/
theorem out_giveUpRow (store : SqliteControlStore) :
    (giveUpRow store kind row).out kind' =
      if kind' = kind then giveUpColumns store (row.out kind)
      else if kind = .head ∧ kind' = .full ∧ row.full.state = .pending then
        { row.full with
          state := .failed
          error := some ("head failed: " ++ withLastError (gaveUp store) (row.out kind).error) }
      else row.out kind' := by
  rw [giveUpRow, out_headFailureCascade, BuildRow.out_setOut]
  cases kind <;> cases kind' <;> simp [BuildRow.setOut]

/-- A failure leaves its kind pending, or fails it and, for a Head, the pending Full. -/
theorem out_failRow (store : SqliteControlStore) (error : String) (retryAt : Option Int) :
    (failRow store kind error retryAt row).out kind' =
      if kind' = kind then failColumns store error retryAt (row.out kind)
      else if kind = .head ∧ givesUp store retryAt row.head ∧ kind' = .full ∧
          row.full.state = .pending then
        { row.full with state := .failed, error := some ("head failed: " ++ error) }
      else row.out kind' := by
  rw [failRow, out_headFailureCascade, BuildRow.out_setOut]
  cases kind <;> cases kind' <;> simp [BuildRow.setOut, BuildRow.out]

end Out

/-- A `RowStep` keeps the row's primary key. -/
theorem RowStep.key_eq {op : Op} {row row' : BuildRow} (h : RowStep op row row') :
    row'.key = row.key := by
  cases h <;> simp

/-- An update whose rows take a `RowStep` takes the row of every key by `RowSteps`. -/
theorem rowSteps_update {op : Op} {p : BuildRow → Bool} {f : BuildRow → BuildRow} {db' : Db}
    (hbuilds : db'.builds = Table.update p f db.builds) (hkey : ∀ row, (f row).key = row.key)
    (hstep : ∀ row ∈ db.builds, p row = true → RowStep op row (f row))
    {row : BuildRow} (hrow : db.row key = some row) :
    ∃ row', db'.row key = some row' ∧ RowSteps op row row' := by
  have hmem := Table.mem_of_lookup hrow
  refine ⟨if p row then f row else row, ?_, ?_⟩
  · rw [Db.row, hbuilds, Table.lookup_update hkey]
    rw [Db.row] at hrow
    rw [hrow]
    rfl
  · by_cases hp : p row = true
    · rw [if_pos hp]
      exact .single (hstep row hmem hp)
    · rw [if_neg hp]
      exact .refl

theorem row_eq_none_update {p : BuildRow → Bool} {f : BuildRow → BuildRow} {db' : Db}
    (hbuilds : db'.builds = Table.update p f db.builds) (hkey : ∀ row, (f row).key = row.key)
    (hrow : db.row key = none) : db'.row key = none := by
  rw [Db.row] at hrow ⊢
  rw [hbuilds, Table.lookup_update hkey, hrow]
  rfl

theorem row_purgeRepo (repo : String) (dueAt : Int) :
    (exec (.purgeRepo repo dueAt) db).row key = if repo = key.1 then none else db.row key := by
  have hdelete : Table.lookup BuildRow.key key
      (Table.delete (fun row => row.repo = repo) db.builds) =
      if key.1 = repo then none else Table.lookup BuildRow.key key db.builds := by
    refine (Table.lookup_delete (q := fun k : String × String => decide (k.1 = repo))
      fun row => rfl).trans ?_
    simp
  simpa [exec, purgeRepo, Db.row, eq_comm] using hdelete

theorem builds_addRepo (repo : String) (owner : Option String) (now : Int) :
    (exec (.addRepo repo owner now) db).builds = db.builds := by
  cases owner with
  | none => rfl
  | some owner =>
      simp only [exec, addRepo]
      split <;> rfl

theorem builds_setRefs (repo : String) (refs : RepoRefs) :
    (exec (.setRefs repo refs) db).builds = db.builds := by
  simp only [exec, setRefs]
  split <;> rfl

/-- What a claim's transaction can do: find nothing to look for, give up and find nothing to lease,
or give up and lease one claimable row. -/
theorem claim_cases (store : SqliteControlStore) (now : Int) (owner : String) (pool : Pool)
    (lease : Nat) (seen db : Db) :
    claim store now owner pool lease seen db = (db, none) ∨
    claim store now owner pool lease seen db = (giveUp store now pool.kind db, none) ∨
    ∃ row ∈ (giveUp store now pool.kind db).builds, ∃ leaseUntil,
      claimable store now pool (giveUp store now pool.kind db) row = true ∧
      claim store now owner pool lease seen db =
        (leaseBuild pool (leaseOwner store owner) leaseUntil row (giveUp store now pool.kind db),
          some ⟨row.repo, leaseOwner store owner, pool,
            leaseRow pool.kind (leaseOwner store owner) leaseUntil row⟩) := by
  unfold claim
  split
  · unfold claimTransaction
    cases hcand : candidate store now pool (giveUp store now pool.kind db) with
    | none => exact .inr (.inl (by simp only [hcand]))
    | some row =>
        have hmem := List.mem_filter.mp (List.argmin_mem hcand)
        exact .inr (.inr ⟨row, hmem.1, saturatingAdd now (durationSecs lease), hmem.2,
          by simp only [hcand]⟩)
  · exact .inl rfl

theorem row_insertBuild (new : BuildRow) : (insertBuild new db).row key =
    (db.row key).or (if new.key = key then some new else none) :=
  Table.lookup_insertNew

theorem leased_of_claimable {store : SqliteControlStore} {now : Int} {owner : String} {pool : Pool}
    {lease : Nat} {seen : Db} {row : BuildRow} {leaseUntil : Int}
    (h : claimable store now pool db row = true) :
    RowStep (.claim store now owner pool lease seen) row
      (leaseRow pool.kind (leaseOwner store owner) leaseUntil row) := by
  simp only [claimable, Bool.and_eq_true, decide_eq_true_eq] at h
  obtain ⟨⟨⟨⟨⟨hstate, hneeds⟩, _⟩, _⟩, hattempts⟩, _⟩ := h
  refine .leased hstate ?_ hattempts
  rintro rfl
  simp only [poolNeeds, Bool.and_eq_true, decide_eq_true_eq] at hneeds
  exact hneeds.1

/-- What an admission can do: nothing, insert the row unless it is there, or fill the ref name of a
row that is there. -/
theorem admitBuild_cases (repo commit : String) (refName : Option String) (now : Int) (db : Db) :
    (∃ error, admitBuild repo commit refName now db = .error error) ∨
    admitBuild repo commit refName now db =
      .ok (insertBuild (newBuild repo commit refName now (nextSeq db)) db,
        (db.row (repo, commit)).isNone) ∨
    (db.row (repo, commit)).isNone = false ∧ ∃ missing,
      admitBuild repo commit refName now db =
        .ok ({ db with
                builds := Table.update missing (fillRefName refName)
                  (insertBuild (newBuild repo commit refName now (nextSeq db)) db).builds },
          false) := by
  unfold admitBuild
  split
  · exact .inl ⟨_, rfl⟩
  · split
    · exact .inl ⟨_, rfl⟩
    · cases hrow : (db.row (repo, commit)).isNone with
      | true => exact .inr (.inl rfl)
      | false =>
          cases refName with
          | none => exact .inr (.inl rfl)
          | some name => exact .inr (.inr ⟨rfl, _, rfl⟩)

/-- What a publish can do: report an error or find no row it may write, or write its output and the
artifacts it names. -/
theorem publish_cases (claim : Claim) (output : Output) (db : Db) :
    (∃ error, publish claim output db = .error error) ∨
    publish claim output db = .ok (db, ⟨false, false⟩) ∨
    output.kind = claim.kind ∧ ∃ row ∈ db.builds, ownsPending claim row = true ∧
      publish claim output db =
        .ok ({ db with
                builds := Table.update (ownsPending claim) (publishRow output) db.builds
                artifactRefs := recordRefs claim.repo output.artifacts db.artifactRefs },
            ⟨true, rowComplete (publishRow output row)⟩) := by
  unfold publish
  split
  · exact .inl ⟨_, rfl⟩
  · split
    · exact .inr (.inl rfl)
    · next hkind =>
        cases hfind : db.builds.find? (ownsPending claim) with
        | none => exact .inr (.inl rfl)
        | some row =>
            refine .inr (.inr ⟨not_not.mp hkind, row, List.mem_of_find?_eq_some hfind, ?_, rfl⟩)
            exact List.find?_some hfind

/-- A row that is not there appears only by an admission of its key. -/
theorem row_exec_none (op : Op) (hrow : db.row key = none) :
    (exec op db).row key = none ∨
    ∃ refName now, op = .admitBuild key.1 key.2 refName now ∧
      (exec op db).row key = some (newBuild key.1 key.2 refName now (nextSeq db)) := by
  -- Only an admission of the key makes its row.
  cases op with
  | admitBuild repo commit refName now =>
      have hinsert : (insertBuild (newBuild repo commit refName now (nextSeq db)) db).row key =
          if (repo, commit) = key then some (newBuild repo commit refName now (nextSeq db))
          else none := by
        rw [row_insertBuild, hrow]
        rfl
      rcases admitBuild_cases repo commit refName now db with ⟨error, h⟩ | h | ⟨hthere, missing, h⟩
      · exact .inl (by simpa [exec, h] using hrow)
      · by_cases hkey : (repo, commit) = key
        · refine .inr ⟨refName, now, by rw [← hkey], ?_⟩
          simp only [exec, h, hinsert, if_pos hkey]
          rw [← hkey]
        · refine .inl ?_
          simp only [exec, h, hinsert, if_neg hkey]
      · refine .inl ?_
        have hkey : (repo, commit) ≠ key := by
          intro heq
          rw [heq, hrow] at hthere
          cases hthere
        rw [if_neg hkey] at hinsert
        simp only [exec, h]
        exact row_eq_none_update rfl (key_fillRefName refName) hinsert
  | claim store now owner pool lease seen =>
      refine .inl ?_
      have hgive : (giveUp store now pool.kind db).row key = none :=
        row_eq_none_update rfl (key_giveUpRow store pool.kind) hrow
      rcases claim_cases store now owner pool lease seen db with h | h | ⟨r, _, u, _, h⟩
      · simpa only [exec, h] using hrow
      · simpa only [exec, h] using hgive
      · simp only [exec, h]
        exact row_eq_none_update rfl (key_leaseRow pool.kind _ _) hgive
  | publish claim output =>
      refine .inl ?_
      rcases publish_cases claim output db with ⟨error, h⟩ | h | ⟨_, r, _, _, h⟩
      · simpa only [exec, h] using hrow
      · simpa only [exec, h] using hrow
      · simp only [exec, h]
        exact row_eq_none_update rfl (key_publishRow output) hrow
  | retry repo commit => exact .inl (row_eq_none_update rfl key_resetRow hrow)
  | renew now claim lease => exact .inl (row_eq_none_update rfl (key_renewRow claim _) hrow)
  | fail store now claim error retryAfter =>
      exact .inl (row_eq_none_update rfl (key_failRow store claim.kind error _) hrow)
  | release claim => exact .inl (row_eq_none_update rfl (key_releaseRow claim.kind) hrow)
  | resetLeases => exact .inl (row_eq_none_update rfl key_clearLeases hrow)
  | purgeRepo repo dueAt => exact .inl (by rw [row_purgeRepo, hrow]; simp)
  | addRepo repo owner now => exact .inl (by rw [Db.row, builds_addRepo]; exact hrow)
  | setRefs repo refs => exact .inl (by rw [Db.row, builds_setRefs]; exact hrow)
  | removeRepo repo => exact .inl hrow
  | queueDeletions hashes dueAt => exact .inl hrow
  | dequeueDeletions hashes now => exact .inl hrow
  | recordSizes sizes => exact .inl hrow

theorem keysUnique_update {p : BuildRow → Bool} {f : BuildRow → BuildRow} {db' : Db}
    (hbuilds : db'.builds = Table.update p f db.builds) (hkey : ∀ row, (f row).key = row.key)
    (hkeys : db.KeysUnique) : db'.KeysUnique := by
  rw [Db.KeysUnique, hbuilds, Table.map_key_update hkey]
  exact hkeys

theorem keysUnique_giveUp {store : SqliteControlStore} {now : Int} {kind : ExactResultKind}
    (hkeys : db.KeysUnique) : (giveUp store now kind db).KeysUnique :=
  keysUnique_update rfl (key_giveUpRow store kind) hkeys

/-- Every operation keeps the primary key constraint. -/
theorem keysUnique_exec (op : Op) (hkeys : db.KeysUnique) : (exec op db).KeysUnique := by
  cases op with
  | admitBuild repo commit refName now =>
      have hinsert : (insertBuild (newBuild repo commit refName now (nextSeq db)) db).KeysUnique :=
        Table.nodup_insertNew hkeys
      rcases admitBuild_cases repo commit refName now db with ⟨error, h⟩ | h | ⟨_, missing, h⟩
      · simpa only [exec, h] using hkeys
      · simpa only [exec, h] using hinsert
      · simp only [exec, h]
        exact keysUnique_update rfl (key_fillRefName refName) hinsert
  | claim store now owner pool lease seen =>
      rcases claim_cases store now owner pool lease seen db with h | h | ⟨r, _, u, _, h⟩
      · simpa only [exec, h] using hkeys
      · simpa only [exec, h] using keysUnique_giveUp hkeys
      · simp only [exec, h]
        exact keysUnique_update rfl (key_leaseRow pool.kind _ _) (keysUnique_giveUp hkeys)
  | publish claim output =>
      rcases publish_cases claim output db with ⟨error, h⟩ | h | ⟨_, r, _, _, h⟩
      · simpa only [exec, h] using hkeys
      · simpa only [exec, h] using hkeys
      · simp only [exec, h]
        exact keysUnique_update rfl (key_publishRow output) hkeys
  | retry repo commit => exact keysUnique_update rfl key_resetRow hkeys
  | renew now claim lease => exact keysUnique_update rfl (key_renewRow claim _) hkeys
  | fail store now claim error retryAfter =>
      exact keysUnique_update rfl (key_failRow store claim.kind error _) hkeys
  | release claim => exact keysUnique_update rfl (key_releaseRow claim.kind) hkeys
  | resetLeases => exact keysUnique_update rfl key_clearLeases hkeys
  | purgeRepo repo dueAt => exact Table.nodup_delete hkeys
  | addRepo repo owner now =>
      rw [Db.KeysUnique, builds_addRepo]
      exact hkeys
  | setRefs repo refs =>
      rw [Db.KeysUnique, builds_setRefs]
      exact hkeys
  | removeRepo repo => exact hkeys
  | queueDeletions hashes dueAt => exact hkeys
  | dequeueDeletions hashes now => exact hkeys
  | recordSizes sizes => exact hkeys

/-- What a claim does to one row: give up on it if it is exhausted, and then either leave it, when
the claim it grants is of another row, or lease it, when the claim it grants is of this one. -/
theorem row_claim (store : SqliteControlStore) (now : Int) (owner : String) (pool : Pool)
    (lease : Nat) (seen : Db) (hkeys : db.KeysUnique) {row : BuildRow}
    (hrow : db.row key = some row) :
    ∃ row₁, (row₁ = row ∨
        exhausted store now pool.kind row = true ∧ row₁ = giveUpRow store pool.kind row) ∧
      ((claim store now owner pool lease seen db).1.row key = some row₁ ∧
          (∀ granted ∈ (claim store now owner pool lease seen db).2, granted.key ≠ key) ∨
        ∃ granted ∈ (claim store now owner pool lease seen db).2, ∃ leaseUntil,
          granted.key = key ∧ granted.pool = pool ∧ granted.owner = leaseOwner store owner ∧
          RowStep (.claim store now owner pool lease seen) row₁
            (leaseRow pool.kind (leaseOwner store owner) leaseUntil row₁) ∧
          (claim store now owner pool lease seen db).1.row key =
            some (leaseRow pool.kind (leaseOwner store owner) leaseUntil row₁)) := by
  have hkeys₁ : (giveUp store now pool.kind db).KeysUnique := keysUnique_giveUp hkeys
  -- The claim first gives up what is exhausted, and leases what is left.
  have hgive : (giveUp store now pool.kind db).row key = some
      (if exhausted store now pool.kind row then giveUpRow store pool.kind row else row) := by
    simp only [giveUp, Db.row, Table.lookup_update (key_giveUpRow store pool.kind)]
    rw [show Table.lookup BuildRow.key key db.builds = some row from hrow]
    rfl
  set row₁ := if exhausted store now pool.kind row then giveUpRow store pool.kind row else row
    with hrow₁
  have hcases : row₁ = row ∨
      exhausted store now pool.kind row = true ∧ row₁ = giveUpRow store pool.kind row := by
    by_cases hex : exhausted store now pool.kind row = true
    · exact .inr ⟨hex, by rw [hrow₁, if_pos hex]⟩
    · exact .inl (by rw [hrow₁, if_neg hex])
  rcases claim_cases store now owner pool lease seen db with h | h | ⟨r, hr, u, hclaim, h⟩
  · exact ⟨row, .inl rfl, .inl ⟨by rw [h]; exact hrow, by simp [h]⟩⟩
  · exact ⟨row₁, hcases, .inl ⟨by rw [h]; exact hgive, by simp [h]⟩⟩
  · -- The claim is of `r`; it is this row exactly when the keys agree.
    have hlookup := Table.lookup_of_mem hkeys₁ hr
    have hleased : (leaseBuild pool (leaseOwner store owner) u r
        (giveUp store now pool.kind db)).row key = some (if row₁.key = r.key then
          leaseRow pool.kind (leaseOwner store owner) u row₁ else row₁) := by
      simp only [leaseBuild, Db.row, Table.lookup_update (key_leaseRow pool.kind _ _)]
      rw [show Table.lookup BuildRow.key key (giveUp store now pool.kind db).builds = some row₁
        from hgive]
      simp
    have hkey₁ : row₁.key = key := Table.key_of_lookup hgive
    have hkey : (r.repo, (leaseRow pool.kind (leaseOwner store owner) u r).commitId) = r.key := by
      cases pool <;> rfl
    refine ⟨row₁, hcases, ?_⟩
    rw [h]
    by_cases hsame : r.key = key
    · have hr₁ : r = row₁ := by
        rw [hsame, show Table.lookup BuildRow.key key (giveUp store now pool.kind db).builds =
          some row₁ from hgive] at hlookup
        exact (Option.some.inj hlookup).symm
      subst hr₁
      refine .inr ⟨_, rfl, u, ?_, rfl, rfl, leased_of_claimable hclaim, ?_⟩
      · exact hkey.trans hsame
      · rw [hleased, if_pos rfl]
    · refine .inl ⟨?_, ?_⟩
      · rw [hleased, if_neg (by rw [hkey₁]; exact Ne.symm hsame)]
      · intro granted hgranted
        obtain rfl := Option.some.inj hgranted
        exact fun heq => hsame (hkey.symm.trans heq)

/-- A row that is there is deleted only by a purge of its repo, and otherwise changes only by
`RowSteps` of the operation. -/
theorem row_exec_some (op : Op) (hkeys : db.KeysUnique) {row : BuildRow} (hrow : db.row key = some row) :
    (op.purges key.1 = true ∧ (exec op db).row key = none) ∨
    ∃ row', (exec op db).row key = some row' ∧ RowSteps op row row' := by
  cases op with
  | admitBuild repo commit refName now =>
      have hinsert : (insertBuild (newBuild repo commit refName now (nextSeq db)) db).row key =
          some row := by
        rw [row_insertBuild, hrow, Option.some_or]
      rcases admitBuild_cases repo commit refName now db with ⟨error, h⟩ | h | ⟨hthere, missing, h⟩
      · exact .inr ⟨row, by simpa [exec, h] using hrow, .refl⟩
      · exact .inr ⟨row, by simp only [exec, h, hinsert], .refl⟩
      · refine .inr ?_
        simp only [exec, h]
        exact rowSteps_update rfl (key_fillRefName refName) (fun r _ _ => .refName) hinsert
  | claim store now owner pool lease seen =>
      refine .inr ?_
      obtain ⟨row₁, hgave, hleased⟩ := row_claim store now owner pool lease seen hkeys hrow
      have hsteps : RowSteps (.claim store now owner pool lease seen) row row₁ := by
        rcases hgave with rfl | ⟨hex, rfl⟩
        · exact .refl
        · exact .single (.gaveUp hex)
      rcases hleased with ⟨hrow', _⟩ | ⟨_, _, u, _, _, _, hstep, hrow'⟩
      · exact ⟨row₁, hrow', hsteps⟩
      · exact ⟨_, hrow', hsteps.tail hstep⟩
  | publish claim output =>
      refine .inr ?_
      rcases publish_cases claim output db with ⟨error, h⟩ | h | ⟨hkind, r, _, _, h⟩
      · exact ⟨row, by simpa only [exec, h] using hrow, .refl⟩
      · exact ⟨row, by simpa only [exec, h] using hrow, .refl⟩
      · simp only [exec, h]
        exact rowSteps_update rfl (key_publishRow output) (fun r _ hp => .published hp hkind) hrow
  | retry repo commit =>
      refine .inr (rowSteps_update rfl key_resetRow (fun r _ hp => ?_) hrow)
      rw [Bool.and_eq_true] at hp
      exact .reset (by simpa using hp.1) hp.2
  | renew now claim lease =>
      exact .inr (rowSteps_update rfl (key_renewRow claim _) (fun r _ hp => .renewed hp) hrow)
  | fail store now claim error retryAfter =>
      exact .inr (rowSteps_update rfl (key_failRow store claim.kind error _)
        (fun r _ hp => .failed hp) hrow)
  | release claim =>
      exact .inr (rowSteps_update rfl (key_releaseRow claim.kind) (fun r _ hp => .released hp) hrow)
  | resetLeases => exact .inr (rowSteps_update rfl key_clearLeases (fun r _ _ => .cleared) hrow)
  | purgeRepo repo dueAt =>
      by_cases hrepo : repo = key.1
      · refine .inl ⟨by simp [Op.purges, hrepo], ?_⟩
        rw [row_purgeRepo, if_pos hrepo]
      · refine .inr ⟨row, ?_, .refl⟩
        rw [row_purgeRepo, if_neg hrepo, hrow]
  | addRepo repo owner now => exact .inr ⟨row, by rw [Db.row, builds_addRepo]; exact hrow, .refl⟩
  | setRefs repo refs => exact .inr ⟨row, by rw [Db.row, builds_setRefs]; exact hrow, .refl⟩
  | removeRepo repo => exact .inr ⟨row, hrow, .refl⟩
  | queueDeletions hashes dueAt => exact .inr ⟨row, hrow, .refl⟩
  | dequeueDeletions hashes now => exact .inr ⟨row, hrow, .refl⟩
  | recordSizes sizes => exact .inr ⟨row, hrow, .refl⟩

end Rows

end Ripclone.Control
