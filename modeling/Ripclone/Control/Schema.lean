import Ripclone.Library.Table
import Ripclone.Results

/-!
# The control database

The tables of the server-owned SQLite database, one structure per row. A build row is one
`(repo, commit)` with three groups of columns, one for each output kind; `BuildRow.out` and
`BuildRow.setOut` address a group by its kind, which is what the column prefixes `head_`, `files_`
and `full_` do in the statements.

A group's lease owner and lease expiry are written and cleared together by every statement, so the
two nullable columns are one optional `Lease`. Outputs are stored as JSON text; the model keeps the
value the text decodes to. Times are epoch seconds, integers of 64 bits in the source.

The `build_usage` table is not modelled: no operation reads it to decide anything.
-/

namespace Ripclone.Control

open Ripclone.Library

/-- Which claimers a build row is offered to. -/
inductive Pool where
  | head
  | files
  | full
  deriving DecidableEq, Repr

/-- The output kind a pool builds. -/
def Pool.kind : Pool → ExactResultKind
  | .head => .head
  | .files => .files
  | .full => .full

inductive OutState where
  | pending
  | ready
  | failed
  deriving DecidableEq, Repr

/-- A finished output to publish for a claim. -/
inductive Output where
  | head (result : HeadResult) (parent : Option String)
  | files (result : FilesResult)
  | full (result : FullResult)

/-- An output column's value: the result without the parent, which has a column of its own. -/
inductive StoredOutput where
  | head (result : HeadResult)
  | files (result : FilesResult)
  | full (result : FullResult)

namespace Output

def kind : Output → ExactResultKind
  | .head _ _ => .head
  | .files _ => .files
  | .full _ => .full

def clonepack : Output → ClonepackArtifacts
  | .head result _ => result.clonepack
  | .files result => result.clonepack
  | .full result => result.clonepack

def stored : Output → StoredOutput
  | .head result _ => .head result
  | .files result => .files result
  | .full result => .full result

def parent : Output → Option String
  | .head _ parent => parent
  | .files _ => none
  | .full _ => none

end Output

def StoredOutput.artifacts : StoredOutput → List String
  | .head result => result.artifacts
  | .files result => result.artifacts
  | .full result => result.artifacts

/-- Every artifact the output names. -/
def Output.artifacts (output : Output) : List String := output.stored.artifacts

/-- The columns `_lease_owner` and `_lease_until`, when they are not `NULL`. -/
structure Lease where
  owner : String
  leaseUntil : Int
  deriving DecidableEq, Repr

/-- The columns of one output kind. -/
structure OutColumns where
  state : OutState
  output : Option StoredOutput
  error : Option String
  attempts : Nat
  retryAfter : Int
  lease : Option Lease

/-- The column defaults. -/
def OutColumns.default : OutColumns where
  state := .pending
  output := none
  error := none
  attempts := 0
  retryAfter := 0
  lease := none

structure BuildRow where
  repo : String
  commitId : String
  /-- Admission order. -/
  seq : Nat
  refName : Option String
  parent : Option String
  createdAt : Int
  head : OutColumns
  files : OutColumns
  full : OutColumns

namespace BuildRow

/-- The primary key. -/
def key (row : BuildRow) : String × String := (row.repo, row.commitId)

def out (row : BuildRow) : ExactResultKind → OutColumns
  | .head => row.head
  | .files => row.files
  | .full => row.full

def setOut (row : BuildRow) (kind : ExactResultKind) (columns : OutColumns) : BuildRow :=
  match kind with
  | .head => { row with head := columns }
  | .files => { row with files := columns }
  | .full => { row with full := columns }

@[simp] theorem key_setOut (row : BuildRow) (kind : ExactResultKind) (columns : OutColumns) :
    (row.setOut kind columns).key = row.key := by
  cases kind <;> rfl

@[simp] theorem repo_setOut (row : BuildRow) (kind : ExactResultKind) (columns : OutColumns) :
    (row.setOut kind columns).repo = row.repo := by
  cases kind <;> rfl

@[simp] theorem seq_setOut (row : BuildRow) (kind : ExactResultKind) (columns : OutColumns) :
    (row.setOut kind columns).seq = row.seq := by
  cases kind <;> rfl

theorem out_setOut (row : BuildRow) (kind kind' : ExactResultKind) (columns : OutColumns) :
    (row.setOut kind columns).out kind' = if kind' = kind then columns else row.out kind' := by
  cases kind <;> cases kind' <;> rfl

@[simp] theorem out_setOut_self (row : BuildRow) (kind : ExactResultKind) (columns : OutColumns) :
    (row.setOut kind columns).out kind = columns := by
  rw [out_setOut, if_pos rfl]

end BuildRow

/-- A leased output of a build row. `build` is the row as it was when claimed. -/
structure Claim where
  repo : String
  owner : String
  pool : Pool
  build : BuildRow

def Claim.kind (claim : Claim) : ExactResultKind := claim.pool.kind

/-- The primary key of the row a claim is of. -/
def Claim.key (claim : Claim) : String × String := (claim.repo, claim.build.commitId)

structure AddedRepo where
  repo : String
  addedAt : Int
  owner : String
  deriving DecidableEq, Repr

structure OwnerTurn where
  pool : Pool
  owner : String
  turn : Nat
  deriving DecidableEq, Repr

structure Deletion where
  hash : String
  dueAt : Int
  deriving DecidableEq, Repr

structure Db where
  builds : List BuildRow
  addedRepos : List AddedRepo
  ownerTurns : List OwnerTurn
  repoRefs : List (String × RepoRefs)
  /-- The `(repo, hash)` pairs of published outputs and refs. -/
  artifactRefs : List (String × String)
  artifactSizes : List (String × Nat)
  deletions : List Deletion

/-- A fresh database. -/
def Db.empty : Db where
  builds := []
  addedRepos := []
  ownerTurns := []
  repoRefs := []
  artifactRefs := []
  artifactSizes := []
  deletions := []

/-- The build row with primary key `key`. -/
def Db.row (db : Db) (key : String × String) : Option BuildRow :=
  Table.lookup BuildRow.key key db.builds

/-- The primary key constraint of `builds`. -/
def Db.KeysUnique (db : Db) : Prop := (db.builds.map BuildRow.key).Nodup

/-- The columns of one output of one build. -/
def Db.out (db : Db) (key : String × String) (kind : ExactResultKind) : Option OutColumns :=
  (db.row key).map fun row => row.out kind

/-- An open store: what every statement it issues carries. -/
structure SqliteControlStore where
  /-- Prefix of every lease owner this store writes, unique to this open. -/
  instanceId : String
  maxAttempts : Nat
  /-- `open` refuses a limit below 1. -/
  maxAttempts_pos : 1 ≤ maxAttempts

inductive ControlError where
  /-- "validate admitted commit" -/
  | invalidCommit (commit : String)
  /-- "admitted ref … is not a full ref name" -/
  | notAFullRef (refName : String)
  /-- "invalid … result for …" -/
  | invalidResult (kind : ExactResultKind) (commit : String)
  deriving DecidableEq, Repr

structure Published where
  applied : Bool
  rowComplete : Bool
  deriving DecidableEq, Repr

structure Purged where
  builds : Nat
  queued : Nat
  deriving DecidableEq, Repr

end Ripclone.Control
