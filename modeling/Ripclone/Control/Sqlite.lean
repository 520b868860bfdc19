import Mathlib.Algebra.Group.Int.Defs
import Mathlib.Data.List.MinMax
import Mathlib.Data.Prod.Lex
import Ripclone.Control.Schema

/-!
# The control store's statements

Each operation of the store as a function on the database, in the order its statements run. An
operation is one statement or one transaction, so it is one step of a run. `now` is what the
store's clock read; nothing relates it to the clocks of other operations.

`claim` first looks for work on a read of its own and only then takes the write lock. The read may
have seen an older database than the transaction does, so it is a separate argument.
-/

namespace Ripclone.Control

open Ripclone.Library

/-! ## 64-bit times -/

def i64Max : Int := 2 ^ 63 - 1
def i64Min : Int := -(2 ^ 63)

def saturatingAdd (a b : Int) : Int := max i64Min (min i64Max (a + b))

/-- A duration in whole seconds, as a signed 64-bit number. -/
def durationSecs (seconds : Nat) : Int := min i64Max seconds

/-! ## Admission -/

/-- `SELECT COALESCE(MAX(seq), 0) + 1 FROM builds`. -/
def nextSeq (db : Db) : Nat := (db.builds.map BuildRow.seq).foldr max 0 + 1

def newBuild (repo commit : String) (refName : Option String) (now : Int) (seq : Nat) :
    BuildRow where
  repo := repo
  commitId := commit
  seq := seq
  refName := refName
  parent := none
  createdAt := now
  head := .default
  files := .default
  full := .default

/-- Fill a missing ref name; never replace one. -/
def fillRefName (refName : Option String) (row : BuildRow) : BuildRow :=
  { row with refName := refName }

def isFullRef (name : String) : Bool := "refs/".toList.isPrefixOf name.toList

/-- `INSERT INTO builds … ON CONFLICT DO NOTHING`. -/
def insertBuild (row : BuildRow) (db : Db) : Db :=
  { db with builds := Table.insertNew BuildRow.key row db.builds }

def admitBuild (repo commit : String) (refName : Option String) (now : Int) (db : Db) :
    Except ControlError (Db × Bool) :=
  if !validateObjectId commit then throw (.invalidCommit commit)
  else
    match refName.filter fun name => !isFullRef name with
    | some name => throw (.notAFullRef name)
    | none =>
      let inserted := (db.row (repo, commit)).isNone
      let db := insertBuild (newBuild repo commit refName now (nextSeq db)) db
      if !inserted && refName.isSome then
        let missing (row : BuildRow) : Bool := row.key = (repo, commit) && row.refName.isNone
        return ({ db with builds := Table.update missing (fillRefName refName) db.builds }, inserted)
      else return (db, inserted)

/-! ## Retry -/

/-- A failed kind returns to pending with fresh attempts. -/
def resetFailed (columns : OutColumns) : OutColumns :=
  if columns.state = .failed then
    { columns with state := .pending, error := none, attempts := 0, retryAfter := 0 }
  else columns

def resetRow (row : BuildRow) : BuildRow :=
  { row with
    head := resetFailed row.head
    files := resetFailed row.files
    full := resetFailed row.full }

def anyFailed (row : BuildRow) : Bool :=
  row.head.state = .failed || row.files.state = .failed || row.full.state = .failed

/-- The row as the update returns it, or as it is when no kind of it had failed. The source reads it in that
case with a second statement, which is here in the same step: it only reads. -/
def retry (repo commit : String) (db : Db) : Db × Option BuildRow :=
  let builds := Table.update (fun row => row.key = (repo, commit) && anyFailed row) resetRow db.builds
  let db := { db with builds := builds }
  (db, db.row (repo, commit))

/-! ## Claims -/

section Claims

variable (store : SqliteControlStore) (now : Int)

/-- A lease is held while it has not expired, or while it carries this store's instance. -/
def leaseHeld (columns : OutColumns) : Bool :=
  match columns.lease with
  | none => false
  | some lease =>
    decide (now < lease.leaseUntil) || store.instanceId.toList.isPrefixOf lease.owner.toList

/-- Outputs whose last allowed attempt ended without a result. -/
def exhausted (kind : ExactResultKind) (row : BuildRow) : Bool :=
  (row.out kind).state = .pending && decide (store.maxAttempts ≤ (row.out kind).attempts) &&
    !leaseHeld store now (row.out kind)

/-- SET clauses that fail a row's pending Full when `fails` holds: Full is built from Head, so a
failed Head takes it along. Files does not need Head. -/
def headFailureCascade (fails : Bool) (error : String) (row : BuildRow) : BuildRow :=
  if fails && row.full.state = .pending then
    { row with full := { row.full with state := .failed, error := some error } }
  else row

/-- `reason || COALESCE(': ' || error, '')`. -/
def withLastError (reason : String) (error : Option String) : String :=
  reason ++ (error.map (": " ++ ·)).getD ""

def gaveUp : String := "gave up after " ++ toString store.maxAttempts ++ " attempts"

/-- Give up on an exhausted output. The lease is cleared so a late publish cannot land. -/
def giveUpColumns (columns : OutColumns) : OutColumns :=
  { columns with
    state := .failed
    error := some (withLastError (gaveUp store) columns.error)
    lease := none }

/-- A Head takes the pending Full with it; SET expressions read the row as it was before the
update. -/
def giveUpRow (kind : ExactResultKind) (row : BuildRow) : BuildRow :=
  headFailureCascade (kind = .head)
    ("head failed: " ++ withLastError (gaveUp store) (row.out kind).error)
    (row.setOut kind (giveUpColumns store (row.out kind)))

def giveUp (kind : ExactResultKind) (db : Db) : Db :=
  { db with builds := Table.update (exhausted store now kind) (giveUpRow store kind) db.builds }

/-- Head and Files build from the commit alone. Full is built from Head, and waits for every older
Full of its repo. -/
def poolNeeds (pool : Pool) (db : Db) (row : BuildRow) : Bool :=
  match pool with
  | .head | .files => true
  | .full =>
    row.head.state = .ready &&
      !db.builds.any fun older =>
        older.repo = row.repo && older.full.state = .pending && decide (older.seq < row.seq)

/-- The claimable rows of a pool: pending, unleased, past their retry time, with attempts left, of a
repo that holds no lease of this kind. -/
def claimable (pool : Pool) (db : Db) (row : BuildRow) : Bool :=
  (row.out pool.kind).state = .pending && poolNeeds pool db row &&
    !leaseHeld store now (row.out pool.kind) && decide ((row.out pool.kind).retryAfter ≤ now) &&
    decide ((row.out pool.kind).attempts < store.maxAttempts) &&
    !db.builds.any fun busy => busy.repo = row.repo && leaseHeld store now (busy.out pool.kind)

/-- `COALESCE(added.owner, '')`. -/
def repoOwner (db : Db) (repo : String) : String :=
  ((Table.lookup AddedRepo.repo repo db.addedRepos).map AddedRepo.owner).getD ""

/-- `COALESCE(turns.turn, 0)`. -/
def ownerTurn (pool : Pool) (db : Db) (owner : String) : Nat :=
  ((Table.lookup (fun t : OwnerTurn => (t.pool, t.owner)) (pool, owner) db.ownerTurns).map
    OwnerTurn.turn).getD 0

/-- A claimable row of the owner this pool served longest ago, then the oldest. -/
def candidate (pool : Pool) (db : Db) : Option BuildRow :=
  (db.builds.filter (claimable store now pool db)).argmin fun row =>
    toLex (ownerTurn pool db (repoOwner db row.repo), row.seq)

/-- Idle polls stop on this read, without taking the write lock. -/
def looksForWork (pool : Pool) (db : Db) : Bool :=
  db.builds.any (exhausted store now pool.kind) || (candidate store now pool db).isSome

/-- `INSERT … ON CONFLICT (pool, owner) DO UPDATE SET turn = excluded.turn`, with
`MAX(turn) + 1` over every pool. -/
def recordTurn (pool : Pool) (owner : String) (turns : List OwnerTurn) : List OwnerTurn :=
  let turn := (turns.map OwnerTurn.turn).foldr max 0 + 1
  if turns.any fun t => t.pool = pool && t.owner = owner then
    Table.update (fun t => t.pool = pool && t.owner = owner) (fun t => { t with turn := turn }) turns
  else turns ++ [⟨pool, owner, turn⟩]

def leaseRow (kind : ExactResultKind) (owner : String) (leaseUntil : Int) (row : BuildRow) :
    BuildRow :=
  row.setOut kind
    { row.out kind with
      lease := some ⟨owner, leaseUntil⟩
      attempts := (row.out kind).attempts + 1 }

/-- The owner string a claim writes: the caller's, prefixed with the store's instance. -/
def leaseOwner (owner : String) : String := store.instanceId ++ owner

/-- Lease one row, and record the turn its repo's owner has had. -/
def leaseBuild (pool : Pool) (owner : String) (leaseUntil : Int) (row : BuildRow) (db : Db) : Db :=
  { db with
    builds := Table.update (fun r => r.key = row.key) (leaseRow pool.kind owner leaseUntil) db.builds
    ownerTurns := recordTurn pool (repoOwner db row.repo) db.ownerTurns }

/-- The claim's transaction: give up on exhausted outputs of the kind, then lease the candidate. -/
def claimTransaction (owner : String) (pool : Pool) (lease : Nat) (db : Db) : Db × Option Claim :=
  let db := giveUp store now pool.kind db
  match candidate store now pool db with
  | none => (db, none)
  | some row =>
    let owner := leaseOwner store owner
    let leaseUntil := saturatingAdd now (durationSecs lease)
    (leaseBuild pool owner leaseUntil row db,
      some ⟨row.repo, owner, pool, leaseRow pool.kind owner leaseUntil row⟩)

/-- `seen` is the database the poll read. -/
def claim (owner : String) (pool : Pool) (lease : Nat) (seen db : Db) : Db × Option Claim :=
  if looksForWork store now pool seen then claimTransaction store now owner pool lease db
  else (db, none)

end Claims

/-! ## Work on a claim

Every statement here names the claim's owner in its `WHERE`: this is the fence that keeps a claim
that lost its lease from writing. -/

/-- `WHERE repo = … AND commit_id = … AND {k}_lease_owner = …`. -/
def ownsLease (claim : Claim) (row : BuildRow) : Bool :=
  row.key = claim.key && (row.out claim.kind).lease.map Lease.owner = some claim.owner

/-- The fence and `AND {k}_state = 'pending'`. -/
def ownsPending (claim : Claim) (row : BuildRow) : Bool :=
  ownsLease claim row && (row.out claim.kind).state = .pending

def renewRow (claim : Claim) (leaseUntil : Int) (row : BuildRow) : BuildRow :=
  row.setOut claim.kind
    { row.out claim.kind with
      lease := (row.out claim.kind).lease.map fun lease => { lease with leaseUntil := leaseUntil } }

def renew (now : Int) (claim : Claim) (lease : Nat) (db : Db) : Db × Bool :=
  let leaseUntil := saturatingAdd now (durationSecs lease)
  ({ db with builds := Table.update (ownsLease claim) (renewRow claim leaseUntil) db.builds },
    db.builds.any (ownsLease claim))

def publishRow (output : Output) (row : BuildRow) : BuildRow :=
  let row := row.setOut output.kind
    { row.out output.kind with state := .ready, output := some output.stored, error := none }
  if output.kind = .head then { row with parent := output.parent } else row

/-- `INSERT INTO artifact_refs … ON CONFLICT DO NOTHING`. -/
def recordRefs (repo : String) (hashes : List String) (refs : List (String × String)) :
    List (String × String) :=
  hashes.foldl (fun refs hash => Table.insertNew id (repo, hash) refs) refs

def rowComplete (row : BuildRow) : Bool :=
  row.head.state = .ready && row.files.state = .ready && row.full.state = .ready

def publish (claim : Claim) (output : Output) (db : Db) : Except ControlError (Db × Published) :=
  if !exactOutputArtifactsReady claim.build.commitId output.kind output.clonepack then
    throw (.invalidResult output.kind claim.build.commitId)
  -- A claim holds only its own kind's lease.
  else if output.kind ≠ claim.kind then
    return (db, ⟨false, false⟩)
  else
    match db.builds.find? (ownsPending claim) with
    | none => return (db, ⟨false, false⟩)
    | some row =>
      let db :=
        { db with
          builds := Table.update (ownsPending claim) (publishRow output) db.builds
          artifactRefs := recordRefs claim.repo output.artifacts db.artifactRefs }
      return (db, ⟨true, rowComplete (publishRow output row)⟩)

/-- The output fails when there is no retry or no attempt left. -/
def givesUp (store : SqliteControlStore) (retryAt : Option Int) (columns : OutColumns) : Bool :=
  retryAt.isNone || decide (store.maxAttempts ≤ columns.attempts)

def failColumns (store : SqliteControlStore) (error : String) (retryAt : Option Int)
    (columns : OutColumns) : OutColumns :=
  let fails := givesUp store retryAt columns
  { columns with
    state := if fails then .failed else .pending
    error := some error
    retryAfter := if fails then columns.retryAfter else retryAt.getD columns.retryAfter }

/-- A Head that fails takes the pending Full with it. -/
def failRow (store : SqliteControlStore) (kind : ExactResultKind) (error : String)
    (retryAt : Option Int) (row : BuildRow) : BuildRow :=
  headFailureCascade (decide (kind = .head) && givesUp store retryAt (row.out kind))
    ("head failed: " ++ error)
    (row.setOut kind (failColumns store error retryAt (row.out kind)))

def fail (store : SqliteControlStore) (now : Int) (claim : Claim) (error : String)
    (retryAfter : Option Nat) (db : Db) : Db :=
  let retryAt := retryAfter.map fun delay => saturatingAdd now (durationSecs delay)
  { db with
    builds := Table.update (ownsPending claim) (failRow store claim.kind error retryAt) db.builds }

def releaseRow (kind : ExactResultKind) (row : BuildRow) : BuildRow :=
  row.setOut kind { row.out kind with lease := none }

def release (claim : Claim) (db : Db) : Db :=
  { db with builds := Table.update (ownsLease claim) (releaseRow claim.kind) db.builds }

def anyLease (row : BuildRow) : Bool :=
  row.head.lease.isSome || row.files.lease.isSome || row.full.lease.isSome

def clearLeases (row : BuildRow) : BuildRow :=
  { row with
    head := { row.head with lease := none }
    files := { row.files with lease := none }
    full := { row.full with lease := none } }

/-- Clear every lease of every kind. Returns the number of rows that held one. -/
def resetLeases (db : Db) : Db × Nat :=
  ({ db with builds := Table.update anyLease clearLeases db.builds }, db.builds.countP anyLease)

/-! ## Repositories -/

def addRepo (repo : String) (owner : Option String) (now : Int) (db : Db) : Db × Bool :=
  let added := (Table.lookup AddedRepo.repo repo db.addedRepos).isNone
  let rows := Table.insertNew AddedRepo.repo ⟨repo, now, owner.getD ""⟩ db.addedRepos
  match owner with
  | some owner =>
    if added then ({ db with addedRepos := rows }, added)
    else
      -- A later add with an owner fills a missing one and never replaces one.
      let missing (row : AddedRepo) : Bool := row.repo = repo && row.owner = ""
      ({ db with addedRepos := Table.update missing (fun row => { row with owner := owner }) rows },
        added)
  | none => ({ db with addedRepos := rows }, added)

def removeRepo (repo : String) (db : Db) : Db × Bool :=
  ({ db with addedRepos := Table.delete (fun row => row.repo = repo) db.addedRepos },
    db.addedRepos.any fun row => row.repo = repo)

/-- Whether `repo` is added or has build rows. -/
def knowsRepo (repo : String) (db : Db) : Bool :=
  db.addedRepos.any (fun row => row.repo = repo) || db.builds.any (fun row => row.repo = repo)

def setRefs (repo : String) (refs : RepoRefs) (db : Db) : Db × Bool :=
  if !knowsRepo repo db then (db, false)
  else
    ({ db with
       repoRefs := Table.delete (fun row => row.1 = repo) db.repoRefs ++ [(repo, refs)]
       artifactRefs := recordRefs repo refs.artifacts db.artifactRefs }, true)

/-! ## The deletion queue -/

/-- A queued artifact queued again keeps the later of its due times. -/
def queueDeletion (dueAt : Int) (deletions : List Deletion) (hash : String) : List Deletion :=
  if deletions.any fun queued => queued.hash = hash then
    Table.update (fun queued => queued.hash = hash)
      (fun queued => { queued with dueAt := max dueAt queued.dueAt }) deletions
  else deletions ++ [⟨hash, dueAt⟩]

def queueDeletions (hashes : List String) (dueAt : Int) (db : Db) : Db :=
  { db with deletions := hashes.foldl (queueDeletion dueAt) db.deletions }

/-- The artifacts `repo` names and no other repository does. -/
def onlyNamedBy (repo : String) (refs : List (String × String)) : List String :=
  (refs.filter fun mine => mine.1 = repo &&
    !refs.any fun other => other.2 = mine.2 && other.1 ≠ repo).map Prod.snd

/-- Delete the repository in one transaction, queueing each artifact only it named. -/
def purgeRepo (repo : String) (dueAt : Int) (db : Db) : Db × Purged :=
  let queued := onlyNamedBy repo db.artifactRefs
  ({ db with
     addedRepos := Table.delete (fun row => row.repo = repo) db.addedRepos
     deletions := queued.foldl (queueDeletion dueAt) db.deletions
     repoRefs := Table.delete (fun row => row.1 = repo) db.repoRefs
     artifactRefs := Table.delete (fun mine => mine.1 = repo) db.artifactRefs
     builds := Table.delete (fun row => row.repo = repo) db.builds },
    ⟨db.builds.countP fun row => row.repo = repo, queued.length⟩)

/-- Up to `limit` queued artifacts due before `now`, soonest first. -/
def dueDeletions (now : Int) (limit : Nat) (db : Db) : List String :=
  let due := db.deletions.filter fun queued => decide (queued.dueAt < now)
  let sorted := due.mergeSort fun a b =>
    decide (a.dueAt < b.dueAt) || (a.dueAt == b.dueAt && decide (a.hash ≤ b.hash))
  (sorted.take limit).map Deletion.hash

/-- Whether `hash` may be deleted now: queued, due before `now`, and named by no repository. -/
def deletable (hash : String) (now : Int) (db : Db) : Bool :=
  (db.deletions.any fun queued => queued.hash = hash && decide (queued.dueAt < now)) &&
    !db.artifactRefs.any fun mine => mine.2 = hash

/-- Take each of `hashes` off the queue unless it was queued again for `now` or later, and forget
the size of each one no repository names. -/
def dequeueDeletions (hashes : List String) (now : Int) (db : Db) : Db :=
  let deletions := Table.delete
    (fun queued => hashes.contains queued.hash && decide (queued.dueAt < now)) db.deletions
  { db with
    deletions := deletions
    artifactSizes := Table.delete (fun size => hashes.contains size.1 &&
      (!db.artifactRefs.any fun mine => mine.2 = size.1) &&
      !deletions.any fun queued => queued.hash = size.1) db.artifactSizes }

/-- Record each artifact's size. A recorded size is kept. -/
def recordSizes (sizes : List (String × Nat)) (db : Db) : Db :=
  { db with
    artifactSizes := sizes.foldl (fun rows size => Table.insertNew Prod.fst size rows)
      db.artifactSizes }

end Ripclone.Control
