import Ripclone.Control.Schema
import Ripclone.Library.Result

/-!
# Answers about a commit's outputs

A clone asks for one output of one commit. A ready output is answered with its manifest, a signed
URL for each artifact storage can sign, and the repository's refs as of now. A Full gets the newest
published branches every ref can be completed from: those whose base is in its own history, or else
whose base has a ready Full, which is named for the clone to install. A pending Full names a ready
Full of an older commit, for the clone to start from.

The texts of a response that no download and no install reads (owner, host, origin) are left out,
and so is the copy of small artifacts it carries: a clone that has them inline downloads less.
-/

namespace Ripclone.Server

open Ripclone.Library Ripclone.Control

/-- A signed URL serves the object it was signed for until it expires. -/
structure SignedUrl where
  hash : String
  expires : Nat
  deriving DecidableEq, Repr

structure SidePackRef where
  pack : String
  packLen : Nat
  packUrl : Option SignedUrl
  idx : String
  idxLen : Nat
  idxUrl : Option SignedUrl
  deriving DecidableEq, Repr

structure BranchesRef where
  artifact : String
  artifactUrl : Option SignedUrl
  /-- Oldest layer first. -/
  sidePacks : List SidePackRef
  deriving DecidableEq, Repr

structure OwnHistoryRef where
  packs : List SidePackRef
  headPacks : List Nat
  deriving DecidableEq, Repr

structure RefResponse where
  commit : String
  parentCommit : Option String
  clonepackManifest : String
  clonepackManifestUrl : Option SignedUrl
  metadataChunk : String
  metadataChunkUrl : Option SignedUrl
  /-- Empty when the chunk is the whole table. -/
  metadataDelta : String
  metadataDeltaUrl : Option SignedUrl
  archiveChunkUrls : Option (List (Option SignedUrl))
  /-- One for each pack, in manifest order. -/
  packChunkUrls : Option (List (Option SignedUrl))
  packIdxUrls : Option (List (Option SignedUrl))
  midxUrl : Option SignedUrl
  idxBundleUrl : Option SignedUrl
  tagsArtifact : Option String
  tagsArtifactUrl : Option SignedUrl
  branches : Option BranchesRef
  /-- The ready Full of the default branch's tip, when that is another commit. -/
  refsBase : Option RefResponse
  ownHistory : Option OwnHistoryRef
  kind : ExactResultKind

/-- The ready Head of a group of columns. -/
def readyHead (columns : OutColumns) : Option HeadResult :=
  match columns.state, columns.output with
  | .ready, some (.head result) => some result
  | _, _ => none

def readyFiles (columns : OutColumns) : Option FilesResult :=
  match columns.state, columns.output with
  | .ready, some (.files result) => some result
  | _, _ => none

def readyFull (columns : OutColumns) : Option FullResult :=
  match columns.state, columns.output with
  | .ready, some (.full result) => some result
  | _, _ => none

/-- `exact_result_clonepack` of the row's ready outputs. -/
def exactResultClonepack (row : BuildRow) : ExactResultKind → Option ClonepackArtifacts
  | .head => (readyHead row.head).map HeadResult.clonepack
  | .files => (readyFiles row.files).map FilesResult.clonepack
  | .full => (readyFull row.full).map FullResult.clonepack

/-- What a request reads: the repository's row of refs, the build rows, the mirror's answers about
ancestry, and what storage signs. A mirror that cannot answer says no. -/
structure ApiState where
  /-- None also when the row could not be read. -/
  refs : Option RepoRefs
  status (commit : String) : Except String (Option BuildRow)
  latestReadyFull (refName : String) : Except String (Option String)
  inHistory (base commit : String) : Bool
  /-- When a URL of the object expires, if the backend signs it. -/
  sign (hash : String) : Option Nat

namespace ApiState

variable (state : ApiState)

def signedUrl (hash : String) : Option SignedUrl :=
  if hash = "" then none else (state.sign hash).map (SignedUrl.mk hash)

/-- A URL for each hash, or nothing when none is signed. -/
def signedList (hashes : List String) : Option (List (Option SignedUrl)) :=
  let urls := hashes.map state.signedUrl
  if urls.all Option.isNone then none else some urls

def sidePackRef (side : SidePack) : SidePackRef where
  pack := side.pack
  packLen := side.packLen
  packUrl := state.signedUrl side.pack
  idx := side.idx
  idxLen := side.idxLen
  idxUrl := state.signedUrl side.idx

def ownPackRef (pack : SizedPack) : SidePackRef where
  pack := pack.pack
  packLen := pack.packLen
  packUrl := state.signedUrl pack.pack
  idx := pack.idx
  idxLen := pack.idxLen
  idxUrl := state.signedUrl pack.idx

/-- The packs of an output, in manifest order. -/
def packArtifacts (row : BuildRow) : ExactResultKind → List PackArtifact
  | .head => ((readyHead row.head).map HeadResult.packs).getD []
  | .full => ((readyFull row.full).map FullResult.packs).getD []
  | .files => []

/-- The idx files fetched on their own: a Full's history packs' and those of the Head packs a clone
installs with its own history, and a Head's levels'. -/
def ownIdx (row : BuildRow) : ExactResultKind → List String
  | .full => ((readyFull row.full).map fun full =>
      full.historyLevels.flatMap (fun level => level.packs.map SizedPack.idx) ++
        full.ownHistory.toList.flatMap fun own =>
          own.headPacks.filterMap fun i => (full.packs[i]?).map PackArtifact.idx).getD []
  | .head => ((readyHead row.head).map fun head => head.levels.map SizedPack.idx).getD []
  | .files => []

def packIdxUrls (row : BuildRow) (kind : ExactResultKind) : Option (List (Option SignedUrl)) :=
  let own := ownIdx row kind
  let urls := (packArtifacts row kind).map fun p =>
    if p.idx ∈ own then state.signedUrl p.idx else none
  if own.isEmpty || urls.all Option.isNone then none else some urls

def archiveChunks (row : BuildRow) : ExactResultKind → List String
  | .files => ((readyFiles row.files).map FilesResult.archiveChunks).getD []
  | _ => []

/-- The ready `kind` output of `row` with `refs`. None when the output is not ready: the source does
not build a response then. -/
def refResponse (row : BuildRow) (refs : Option RepoRefs) (kind : ExactResultKind) :
    Option RefResponse :=
  (exactResultClonepack row kind).map fun artifacts =>
    let tagged := refs.filter fun refs => 0 < refs.tagsCount
    { commit := artifacts.commit
      parentCommit := row.parent
      clonepackManifest := artifacts.manifest
      clonepackManifestUrl := state.signedUrl artifacts.manifest
      metadataChunk := artifacts.metadataChunk
      metadataChunkUrl := state.signedUrl artifacts.metadataChunk
      metadataDelta := artifacts.metadataDelta
      metadataDeltaUrl := state.signedUrl artifacts.metadataDelta
      archiveChunkUrls := state.signedList (archiveChunks row kind)
      packChunkUrls := state.signedList ((packArtifacts row kind).map PackArtifact.pack)
      packIdxUrls := state.packIdxUrls row kind
      midxUrl := state.signedUrl artifacts.midx
      idxBundleUrl := state.signedUrl artifacts.idxBundle
      tagsArtifact := tagged.map RepoRefs.tagsArtifact
      tagsArtifactUrl := tagged.bind fun refs => state.signedUrl refs.tagsArtifact
      branches := ((refs.bind RepoRefs.branches).filter fun _ => kind = .full).map fun branches =>
        { artifact := branches.artifact
          artifactUrl := state.signedUrl branches.artifact
          sidePacks := branches.sidePacks.map state.sidePackRef }
      refsBase := none
      ownHistory := none
      kind }

/-- The ready branches with the tags of their own refresh. -/
def readyRefs (stored : RepoRefs) : Option RepoRefs :=
  stored.ready.map fun branches =>
    { tagsArtifact := branches.tags.artifact
      tagsLen := branches.tags.len
      tagsCount := branches.tags.count
      tagsHash := branches.tags.hash
      branches := some branches
      ready := none }

/-- Whether `row` is a later admit of the branch `base` was admitted from. -/
def newer (row base : BuildRow) : Bool :=
  row.refName.isSome && row.refName == base.refName && decide (base.seq < row.seq)

/-- The refs a Full is answered with, and the row of their base when the clone is to install its
history. -/
structure Served where
  refs : RepoRefs
  base : Option BuildRow

/-- The first of `candidates` whose base is in the row's history or has a ready Full. A base that
`row` is a later admit of the branch of was force-pushed, and stops the search. -/
def serve (row : BuildRow) : List RepoRefs → Except String (Option Served)
  | [] => return none
  | served :: rest =>
    match served.branches.bind RepoBranches.base with
    | none => serve row rest
    | some base =>
      if base = row.commitId || state.inHistory base row.commitId then return some ⟨served, none⟩
      else do
        let baseRow ← state.status base
        if baseRow.any (newer row) then return none
        else
          match baseRow.filter fun base => (readyFull base.full).isSome with
          | some base => return some ⟨served, some base⟩
          | none => serve row rest

/-- The own history of `row`'s Full, when a clone that installs `base`'s history holds every object
but these. -/
def ownHistory (row : BuildRow) (base : String) : Option OwnHistoryRef :=
  ((readyFull row.full).bind FullResult.ownHistory).bind fun own =>
    if own.base ≠ base ∧ state.inHistory own.base base = false then none
    else some { packs := own.packs.map state.ownPackRef, headPacks := own.headPacks }

/-- A Full's answer with the refs it is served with. -/
def servedBody (row : BuildRow) (served : Served) : Option RefResponse :=
  (state.refResponse row (some served.refs) .full).map fun result =>
    match served.base with
    | none => result
    | some base => { result with
        ownHistory := state.ownHistory row base.commitId
        refsBase := state.refResponse base (some served.refs) .full }

/-- A ready output's body. Without refs to complete every ref from, a Full gets the newest, and the
clone fetches its refs from upstream. -/
def readyBody (row : BuildRow) (kind : ExactResultKind) : Except String (Option RefResponse) :=
  match kind, state.refs with
  | .full, some stored => do
    match ← state.serve row (stored :: (readyRefs stored).toList) with
    | some served => return state.servedBody row served
    | none => return state.refResponse row (some stored) .full
  | _, refs => return state.refResponse row refs kind

/-- The refs a Full is answered with, the newest when every ref can be completed from none. -/
def servedRefs (row : BuildRow) : Except String (Option Served) :=
  match state.refs with
  | none => return none
  | some stored => do
    let served ← state.serve row (stored :: (readyRefs stored).toList)
    return some (served.getD ⟨stored, none⟩)

inductive OutputBody where
  | ready (result : RefResponse)
  | failed (error : String)
  /-- With the Full to start from, when there is one. -/
  | pending (topUp : Option RefResponse)

/-- The newest ready Full admitted from the row's ref, or else the row's parent's Full. -/
def topUpBase (row : BuildRow) : Except String (Option BuildRow) := do
  let latest ← match row.refName with
    | some refName => state.latestReadyFull refName
    | none => pure none
  match latest.or row.parent with
  | none => return none
  | some base => do
    let base ← state.status base
    return base.filter fun base => (readyFull base.full).isSome

def pendingBody (row : BuildRow) (kind : ExactResultKind) : Except String OutputBody := do
  let base ← if kind = .full then state.topUpBase row else pure none
  match base with
  | none => return .pending none
  | some base =>
    let body ← state.readyBody base .full
    if base.commitId = row.commitId then
      -- its Full was published since the row was read
      match body with
      | some result => return .ready result
      | none => return .pending none
    else return .pending body

def outputBody (row : BuildRow) (kind : ExactResultKind) : Except String OutputBody :=
  match (row.out kind).state with
  | .ready => do
    match ← state.readyBody row kind with
    | some result => return .ready result
    | none => throw "requested exact result is ready before response construction"
  | .failed => return .failed ((row.out kind).error.getD "")
  | .pending => state.pendingBody row kind

/-! ## What is served -/

variable {state}

theorem readyBody_full {row : BuildRow} {output : RefResponse}
    (h : state.readyBody row .full = .ok (some output)) :
    ∃ served, state.servedRefs row = .ok served ∧
      ((served = none ∧ state.refResponse row none .full = some output) ∨
        ∃ refs, served = some refs ∧ state.servedBody row refs = some output) := by
  cases hrefs : state.refs with
  | none =>
      simp only [readyBody, hrefs] at h
      refine ⟨none, ?_, .inl ⟨rfl, pure_eq_ok.mp h⟩⟩
      simp only [servedRefs, hrefs]
      rfl
  | some stored =>
      simp only [readyBody, hrefs] at h
      obtain ⟨served, hserve, h⟩ := bind_eq_ok.mp h
      refine ⟨some (served.getD ⟨stored, none⟩), ?_, .inr ⟨_, rfl, ?_⟩⟩
      · simp only [servedRefs, hrefs, hserve]
        rfl
      · cases served with
        | some served => exact pure_eq_ok.mp h
        | none =>
            have hbody := pure_eq_ok.mp h
            show (state.refResponse row (some stored) .full).map _ = some output
            rw [hbody]
            rfl

/-- The refs served are of the row, or its ready branches; a base that is served has a ready Full. -/
theorem serve_ok {row : BuildRow} {candidates : List RepoRefs} {served : Served}
    (h : state.serve row candidates = .ok (some served)) :
    served.refs ∈ candidates ∧ ∀ baseRow ∈ served.base, ∃ base,
      served.refs.branches.bind RepoBranches.base = some base ∧
      state.status base = .ok (some baseRow) ∧ (readyFull baseRow.full).isSome = true := by
  induction candidates with
  | nil => cases pure_eq_ok.mp h
  | cons candidate rest ih =>
      have hrest : state.serve row rest = .ok (some served) →
          served.refs ∈ candidate :: rest ∧ ∀ baseRow ∈ served.base, ∃ base,
            served.refs.branches.bind RepoBranches.base = some base ∧
            state.status base = .ok (some baseRow) ∧ (readyFull baseRow.full).isSome = true :=
        fun h => ⟨List.mem_cons_of_mem _ (ih h).1, (ih h).2⟩
      simp only [serve] at h
      split at h
      · exact hrest h
      · next base hbase =>
          split at h
          · obtain rfl := Option.some.inj (pure_eq_ok.mp h)
            exact ⟨List.mem_cons_self, fun baseRow hnone => (Option.not_mem_none _ hnone).elim⟩
          · obtain ⟨baseRow, hstatus, h⟩ := bind_eq_ok.mp h
            split at h
            · cases pure_eq_ok.mp h
            · split at h
              · next found hfound =>
                  obtain rfl := Option.some.inj (pure_eq_ok.mp h)
                  refine ⟨List.mem_cons_self, fun baseRow' hbaseRow => ⟨base, hbase, ?_⟩⟩
                  obtain rfl := Option.some.inj hbaseRow
                  obtain ⟨hsome, hready⟩ := Option.filter_eq_some_iff.mp hfound
                  rw [hstatus, hsome]
                  exact ⟨rfl, hready⟩
              · exact hrest h

/-- Whatever branches are served, the row names them. -/
theorem servedRefs_ok {row : BuildRow} {served : Served}
    (h : state.servedRefs row = .ok (some served)) :
    ∃ stored, state.refs = some stored ∧
      (∀ b ∈ served.refs.branches, b ∈ stored.branches.toList ++ stored.ready.toList) ∧
      ∀ baseRow ∈ served.base, ∃ base,
        served.refs.branches.bind RepoBranches.base = some base ∧
        state.status base = .ok (some baseRow) ∧ (readyFull baseRow.full).isSome = true := by
  simp only [servedRefs] at h
  split at h
  · cases pure_eq_ok.mp h
  · next stored hrefs =>
      obtain ⟨found, hserve, h⟩ := bind_eq_ok.mp h
      obtain rfl := Option.some.inj (pure_eq_ok.mp h)
      refine ⟨stored, hrefs, ?_⟩
      cases found with
      | none =>
          refine ⟨fun b hb => List.mem_append_left _ (Option.mem_toList.mpr hb), ?_⟩
          exact fun baseRow hnone => (Option.not_mem_none _ hnone).elim
      | some served =>
          obtain ⟨hmem, hbase⟩ := serve_ok hserve
          refine ⟨fun b hb => ?_, hbase⟩
          rcases List.mem_cons.mp hmem with heq | hmem
          · rw [Option.getD_some, heq] at hb
            exact List.mem_append_left _ (Option.mem_toList.mpr hb)
          · obtain ⟨ready, hready, hrefs⟩ := Option.map_eq_some_iff.mp (Option.mem_toList.mp hmem)
            rw [Option.getD_some, ← hrefs] at hb
            obtain rfl := Option.some.inj hb
            exact List.mem_append_right _ (Option.mem_toList.mpr hready)

theorem state_of_readyFull {columns : OutColumns} (h : (readyFull columns).isSome = true) :
    columns.state = .ready := by
  unfold readyFull at h
  split at h
  · next hstate _ => exact hstate
  · cases h

theorem topUpBase_ok {row base : BuildRow} (h : state.topUpBase row = .ok (some base)) :
    ∃ commit, state.status commit = .ok (some base) ∧ (readyFull base.full).isSome = true := by
  have hread : ∀ commit, (do
      let base ← state.status commit
      return base.filter fun base => (readyFull base.full).isSome) = Except.ok (some base) →
      ∃ commit, state.status commit = .ok (some base) ∧ (readyFull base.full).isSome = true := by
    intro commit h
    obtain ⟨found, hfound, h⟩ := bind_eq_ok.mp h
    obtain ⟨rfl, hready⟩ := Option.filter_eq_some_iff.mp (pure_eq_ok.mp h)
    exact ⟨commit, hfound, hready⟩
  simp only [topUpBase] at h
  split at h
  all_goals
    obtain ⟨latest, _, h⟩ := bind_eq_ok.mp h
    split at h
    · cases pure_eq_ok.mp h
    · exact hread _ h

/-- A pending output that is answered as ready is a Full that is found ready after its row was
read. -/
theorem pendingBody_ready {row : BuildRow} {kind : ExactResultKind} {result : RefResponse}
    (h : state.pendingBody row kind = .ok (.ready result)) :
    kind = .full ∧ ∃ base commit, state.status commit = .ok (some base) ∧
      base.commitId = row.commitId ∧ base.full.state = .ready := by
  simp only [pendingBody] at h
  split at h
  · next hkind =>
      obtain ⟨base, hbase, h⟩ := bind_eq_ok.mp h
      cases base with
      | none => cases pure_eq_ok.mp h
      | some base =>
          obtain ⟨commit, hstatus, hready⟩ := topUpBase_ok hbase
          obtain ⟨body, _, h⟩ := bind_eq_ok.mp h
          split at h
          · next hcommit => exact ⟨hkind, base, commit, hstatus, hcommit, state_of_readyFull hready⟩
          · cases pure_eq_ok.mp h
  · cases pure_eq_ok.mp h

end ApiState

end Ripclone.Server
