import Ripclone.Branches
import Ripclone.Library.Run
import Ripclone.Pack.Contents

/-!
# Publishing a repository's refs

A refresh fetches every branch and tag into the mirror and publishes them with a *side pack*: what
they reach and the default branch does not. The side pack is kept in layers. While the default
branch only moves forward, a refresh keeps the layers, as they are or with one more for what the
refs newly reach, and otherwise it builds the side pack whole.

A new layer leaves out what the tips of the layers below reach. The control store has those tips by
hash only; the ids are read back from a file in the mirror. Nothing ties the file to the store: a
publish that fails leaves a newer one behind, and it may be lost with the mirror. The runs below
therefore let it hold anything at any time.
-/

namespace Ripclone.Server

open Ripclone.Library Ripclone.Pack

/-- The calls a publish makes on the mirror, the artifact store and the control store. -/
structure RefsCalls where
  /-- Whether the first commit is in the second one's history. -/
  isAncestor (commit of : String) : Except String Bool
  /-- The pack `git pack-objects --revs` wrote, stored with its idx. -/
  packObjects (tips excluded : List String) : Except String SidePack
  /-- The branches artifact of the listing, stored, with its length. -/
  putBranches (refs : MirrorRefs) : Except String (String × Nat)
  putTags (refs : MirrorRefs) : Except String (String × Nat)
  /-- Whether the commit's Full is ready. -/
  fullReady (commit : String) : Except String Bool
  /-- Whether the side tips could be written to the mirror's file. -/
  writesSideTips : Bool

section Publish

variable (hash : String → String) (calls : RefsCalls)

def packObjectsExcluding (tips excluded : List String) : Except String SidePack :=
  if (tips ++ excluded).all validateObjectId then calls.packObjects tips excluded
  else throw "invalid object id"

/-- The pack of every object reachable from a branch or tag but not from the default branch or any
of `older`, the side tips the layers below this one complete. -/
def sidePack (refs : MirrorRefs) (older : List String) : Except String (Option SidePack) :=
  match refs.base with
  | none => return none
  | some base =>
    let tips := refs.sideTips.filter fun id => decide (id ≠ base ∧ id ∉ older)
    if tips.isEmpty then return none
    else do
      let pack ← packObjectsExcluding calls tips (base :: older)
      return if pack.packLen ≤ emptyPackLen then none else some pack

def sideLayers : Nat := 8

def wholeSidePack (refs : MirrorRefs) : Except String (Option String × List SidePack) := do
  let layer ← sidePack calls refs []
  return (refs.base, layer.toList)

/-- The side tips the mirror's file lists, when they are the ones `sideTips` is the hash of. -/
def readSideTips (file : Option String) (sideTips : String) : Option (List String) :=
  match file with
  | none => none
  | some listed => if hash listed = sideTips then some (textLines listed) else none

/-- Whether what the previous side pack leaves out is still in the default branch's history. -/
def movedForward (previous : Option RepoBranches) (base : Option String) : Except String Bool :=
  match previous.bind RepoBranches.sideBase, base with
  | some sideBase, some base => calls.isAncestor sideBase base
  | _, _ => return false

/-- The side base and layers to publish; `previous` is one the default branch moved forward
from. -/
def sidePackLayers (file : Option String) (refs : MirrorRefs) (previous : Option RepoBranches) :
    Except String (Option String × List SidePack) :=
  match previous with
  | none => wholeSidePack calls refs
  | some previous =>
    if previous.sideTips = refs.sideTipsHash hash then
      return (previous.sideBase, previous.sidePacks)
    else if previous.sidePacks.length < sideLayers then
      match readSideTips hash file previous.sideTips with
      | none => wholeSidePack calls refs
      | some older =>
        match sidePack calls refs older with
        | .ok layer => return (refs.base, previous.sidePacks ++ layer.toList)
        -- such as an old tip a repack dropped
        | .error _ => wholeSidePack calls refs
    else wholeSidePack calls refs

/-- The branches to publish for a listing, and the mirror's file afterwards. -/
def publishBranches (file : Option String) (refs : MirrorRefs) (previous : Option RepoBranches)
    (tags : PublishedTags) : Except String (RepoBranches × Option String) := do
  let (artifact, len) ← calls.putBranches refs
  let forward ← movedForward calls previous refs.base
  let (sideBase, sidePacks) ← sidePackLayers hash calls file refs (previous.filter fun _ => forward)
  return ({ artifact, len, refsHash := refs.refsHash hash, defaultBranch := refs.defaultBranch,
            base := refs.base, sideBase, sideTips := refs.sideTipsHash hash, sidePacks, tags },
    if calls.writesSideTips then some refs.sideTipsText else file)

def buildTags (refs : MirrorRefs) : Except String PublishedTags := do
  let (artifact, len) ← calls.putTags refs
  return ⟨artifact, len, refs.tags.length, refs.tagsHash hash⟩

/-- A repository without a row has every column at its default. -/
def RepoRefs.default : RepoRefs := ⟨"", 0, 0, "", none, none⟩

def tagsFor (stored : RepoRefs) (refs : MirrorRefs) : Except String PublishedTags :=
  if stored.tagsHash = refs.tagsHash hash then
    return ⟨stored.tagsArtifact, stored.tagsLen, stored.tagsCount, stored.tagsHash⟩
  else buildTags hash calls refs

/-- What a refresh does before it takes the lock: the published branches again when the listing is
still theirs, and new ones otherwise. -/
def builtBranches (stored : RepoRefs) (file : Option String) (refs : MirrorRefs) :
    Except String (RepoBranches × Option String) :=
  match stored.branches.filter fun previous => previous.refsHash = refs.refsHash hash with
  | some previous => return (previous, file)
  | none => do
    let tags ← tagsFor hash calls stored refs
    publishBranches hash calls file refs stored.branches tags

/-- The tags columns, read again under the lock: a build's fetch may have added tags since. -/
def rowTags (stored : Option RepoRefs) (refs : MirrorRefs) (branches : Option RepoBranches) :
    Except String RepoRefs := do
  let row := stored.getD RepoRefs.default
  if stored.isNone || row.tagsHash ≠ refs.tagsHash hash then
    match branches.filter fun branches => branches.tags.hash = refs.tagsHash hash with
    | some branches =>
      return { row with
        tagsArtifact := branches.tags.artifact, tagsLen := branches.tags.len,
        tagsCount := branches.tags.count, tagsHash := refs.tagsHash hash }
    | none =>
      let tags ← buildTags hash calls refs
      return { row with
        tagsArtifact := tags.artifact, tagsLen := tags.len,
        tagsCount := tags.count, tagsHash := refs.tagsHash hash }
  else return row

/-- Whether the replaced branches' base has its Full ready. -/
def replacedReady (replaced : Option RepoBranches) : Except String Bool :=
  match replaced.bind RepoBranches.base with
  | none => return false
  | some base => calls.fullReady base

/-- The row a publish writes. Branches it replaces stay as `ready` when their base's Full is
ready. -/
def publishedRow (stored : Option RepoRefs) (refs : MirrorRefs) (branches : Option RepoBranches) :
    Except String RepoRefs := do
  let row ← rowTags hash calls stored refs branches
  if branches.isNone || row.branches = branches then return row
  else
    let ready ← replacedReady calls row.branches
    return { row with branches, ready := if ready then row.branches else row.ready }

end Publish

/-! ## Runs of refreshes -/

/-- What a repository's publishes read and write. -/
structure RefsState where
  /-- The repository's row. -/
  stored : Option RepoRefs
  /-- The mirror's file of side tips. -/
  file : Option String
  /-- The branches refreshes have built so far. One that fails later writes none. -/
  built : List RepoBranches

def RefsState.init : RefsState := ⟨none, none, []⟩

inductive RefsEvent where
  /-- A refresh builds the branches of the listing it read. -/
  | build (refs : MirrorRefs)
  /-- A publish writes the row, with branches it built or the tags alone. -/
  | publish (refs : MirrorRefs)
  | purge
  /-- The mirror's file is lost, or another one stands in its place. -/
  | file (content : Option String)

variable {objects : String → Set String} {child : String → String → Prop} {hash : String → String}

/-- What a publish relies on git for. -/
structure RefsCalls.Ok (objects : String → Set String) (child : String → String → Prop)
    (calls : RefsCalls) : Prop where
  ancestor : ∀ {commit of}, calls.isAncestor commit of = .ok true → commit ∈ Reach child of
  /-- The pack holds what the tips reach and the excluded ids do not. -/
  packed : ∀ {tips excluded pack}, calls.packObjects tips excluded = .ok pack →
    objects pack.pack =
      ReachAny child {id | id ∈ tips} \ ReachAny child {id | id ∈ excluded}
  empty : ∀ {tips excluded pack}, calls.packObjects tips excluded = .ok pack →
    pack.packLen ≤ emptyPackLen → objects pack.pack = ∅

inductive RefsStep (objects : String → Set String) (child : String → String → Prop)
    (hash : String → String) : RefsState → RefsEvent → RefsState → Prop
  | build {s : RefsState} {calls : RefsCalls} {refs : MirrorRefs} {branches : RepoBranches}
      {file : Option String} (hcalls : calls.Ok objects child)
      (h : builtBranches hash calls (s.stored.getD RepoRefs.default) s.file refs =
        .ok (branches, file)) :
      RefsStep objects child hash s (.build refs) { s with file, built := branches :: s.built }
  | publish {s : RefsState} {calls : RefsCalls} {refs : MirrorRefs}
      {branches : Option RepoBranches} {row : RepoRefs} (hcalls : calls.Ok objects child)
      (hbuilt : ∀ b ∈ branches, b ∈ s.built)
      (h : publishedRow hash calls s.stored refs branches = .ok row) :
      RefsStep objects child hash s (.publish refs) { s with stored := some row }
  | purge {s : RefsState} : RefsStep objects child hash s .purge { s with stored := none }
  | file {s : RefsState} {content : Option String} :
      RefsStep objects child hash s (.file content) { s with file := content }

end Ripclone.Server
