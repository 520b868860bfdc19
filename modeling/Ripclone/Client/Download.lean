import Ripclone.Clonepack
import Ripclone.Library.Run
import Ripclone.Library.Table
import Ripclone.Server.Api

/-!
# The URLs a clone downloads from

A clone downloads the artifacts of one ready output, each from the signed URL at its slot of the
response. A URL that has expired is refreshed: the output is asked for again, and whatever stands at
the slot of the new response is the URL from then on. One refresh serves every download.

The new response is the server's answer of that moment. What belongs to the output is the same as
long as the output is. The refs and the own history are chosen anew on every request, and the clone
checks only that the manifest and the files table are the ones it has.
-/

namespace Ripclone.Client

open Ripclone.Library Ripclone.Control Ripclone.Server

inductive UrlSlot where
  | manifest
  | metadata
  | metadataDelta
  | archiveChunk (index : Nat)
  | packChunk (index : Nat)
  | packIdx (index : Nat)
  | midx
  | idxBundle
  | tags
  | branches
  | sidePack (index : Nat)
  | sideIdx (index : Nat)
  | ownPack (index : Nat)
  | ownIdx (index : Nat)
  deriving DecidableEq, Repr

/-- The URL at an index of a list that may be absent. -/
def indexed (urls : Option (List (Option SignedUrl))) (index : Nat) : Option SignedUrl :=
  (urls.bind fun urls => urls[index]?).join

namespace UrlSlot

/-- The URL of a response that serves the slot. -/
def select (info : RefResponse) : UrlSlot → Option SignedUrl
  | manifest => info.clonepackManifestUrl
  | metadata => info.metadataChunkUrl
  | metadataDelta => info.metadataDeltaUrl
  | archiveChunk index => indexed info.archiveChunkUrls index
  | packChunk index => indexed info.packChunkUrls index
  | packIdx index => indexed info.packIdxUrls index
  | midx => info.midxUrl
  | idxBundle => info.idxBundleUrl
  | tags => info.tagsArtifactUrl
  | branches => info.branches.bind BranchesRef.artifactUrl
  | sidePack index =>
    (info.branches.bind fun branches => branches.sidePacks[index]?).bind SidePackRef.packUrl
  | sideIdx index =>
    (info.branches.bind fun branches => branches.sidePacks[index]?).bind SidePackRef.idxUrl
  | ownPack index => (info.ownHistory.bind fun own => own.packs[index]?).bind SidePackRef.packUrl
  | ownIdx index => (info.ownHistory.bind fun own => own.packs[index]?).bind SidePackRef.idxUrl

/-- The hash of the artifact that a clone of `info` downloads from the slot. The packs and chunks are
those its manifest lists. -/
def artifact (listed : ClonepackManifest) (info : RefResponse) : UrlSlot → Option String
  | manifest => some info.clonepackManifest
  | metadata => some info.metadataChunk
  | metadataDelta => if info.metadataDelta = "" then none else some info.metadataDelta
  | archiveChunk index => (listed.archiveChunks[index]?).map ChunkRef.hash
  | packChunk index => (listed.packs[index]?).map fun entry => entry.pack.hash
  | packIdx index => (listed.packs[index]?).map fun entry => entry.idx.hash
  | midx => listed.midx.map ChunkRef.hash
  | idxBundle => listed.idxBundle.map ChunkRef.hash
  | tags => info.tagsArtifact
  | branches => info.branches.map BranchesRef.artifact
  | sidePack index =>
    (info.branches.bind fun branches => branches.sidePacks[index]?).map SidePackRef.pack
  | sideIdx index =>
    (info.branches.bind fun branches => branches.sidePacks[index]?).map SidePackRef.idx
  | ownPack index => (info.ownHistory.bind fun own => own.packs[index]?).map SidePackRef.pack
  | ownIdx index => (info.ownHistory.bind fun own => own.packs[index]?).map SidePackRef.idx

/-- Whether the slot's artifact belongs to the output, not to the refs it is served with. -/
def ofOutput : UrlSlot → Bool
  | manifest | metadata | metadataDelta | archiveChunk _ | packChunk _ | packIdx _ | midx
  | idxBundle => true
  | _ => false

/-- The hash that the slot's URL is signed for. -/
def signed (info : RefResponse) (slot : UrlSlot) : Option String :=
  (slot.select info).map SignedUrl.hash

end UrlSlot

/-! ## What a response signs -/

section Signed

variable {state state' : ApiState} {row row' : BuildRow} {kind : ExactResultKind}
  {output info : RefResponse}

/-- The backend signs the same objects. -/
def SignsAlike (state state' : ApiState) : Prop :=
  ∀ hash, (state.sign hash).isSome = (state'.sign hash).isSome

theorem signedUrl_hash (state : ApiState) (hash : String) :
    (state.signedUrl hash).map SignedUrl.hash =
      if hash ≠ "" ∧ (state.sign hash).isSome then some hash else none := by
  simp only [ApiState.signedUrl]
  by_cases hempty : hash = ""
  · simp [hempty]
  · cases hsign : state.sign hash <;> simp [hempty]

theorem SignsAlike.hash (h : SignsAlike state state') (hash : String) :
    (state.signedUrl hash).map SignedUrl.hash = (state'.signedUrl hash).map SignedUrl.hash := by
  rw [signedUrl_hash, signedUrl_hash, h hash]

/-- A list without a URL is left out, and has none at any index. -/
theorem indexed_of_all_none {urls : List (Option SignedUrl)} (index : Nat) :
    indexed (if urls.all Option.isNone then none else some urls) index = (urls[index]?).join := by
  split
  · next hall =>
      cases hget : urls[index]? with
      | none => rfl
      | some url =>
          have hnone := List.all_eq_true.mp hall url (List.mem_of_getElem? hget)
          rw [Option.isNone_iff_eq_none] at hnone
          simp [indexed, hnone]
  · rfl

theorem indexed_signedList (state : ApiState) (hashes : List String) (index : Nat) :
    indexed (state.signedList hashes) index = (hashes[index]?).bind state.signedUrl := by
  rw [ApiState.signedList, indexed_of_all_none, List.getElem?_map]
  cases hashes[index]? <;> rfl

theorem indexed_packIdxUrls (state : ApiState) (row : BuildRow) (kind : ExactResultKind)
    (index : Nat) : indexed (state.packIdxUrls row kind) index =
      ((ApiState.packArtifacts row kind)[index]?).bind fun p =>
        if p.idx ∈ ApiState.ownIdx row kind then state.signedUrl p.idx else none := by
  have hmap : ∀ p : Option PackArtifact, (p.map fun p =>
      if p.idx ∈ ApiState.ownIdx row kind then state.signedUrl p.idx else none).join =
      p.bind fun p => if p.idx ∈ ApiState.ownIdx row kind then state.signedUrl p.idx else none := by
    intro p
    cases p <;> rfl
  rw [ApiState.packIdxUrls]
  by_cases hown : (ApiState.ownIdx row kind).isEmpty = true
  · -- no idx is fetched on its own
    rw [List.isEmpty_iff.mp hown]
    cases (ApiState.packArtifacts row kind)[index]? <;> simp [indexed]
  · simp only [Bool.not_eq_true] at hown
    simp only [hown, Bool.false_or]
    rw [indexed_of_all_none, List.getElem?_map, hmap]

/-- The hash, when the backend signs it. -/
def signable (state : ApiState) (hash : String) : Option String :=
  if hash ≠ "" ∧ (state.sign hash).isSome then some hash else none

theorem map_bind_signedUrl (state : ApiState) (hash : Option String) :
    (hash.bind state.signedUrl).map SignedUrl.hash = hash.bind (signable state) := by
  cases hash with
  | none => rfl
  | some hash => exact signedUrl_hash state hash

/-- A manifest that lists nothing. -/
def nothingListed : ClonepackManifest := ⟨"", none, ⟨"", 0⟩, none, [], [], none, none⟩

/-- What stands at the slot of a response for the row: the row's own artifacts, and the refs and the
own history the response names. -/
def UrlSlot.named (row : BuildRow) (kind : ExactResultKind) (info : RefResponse) :
    UrlSlot → Option String
  | manifest => (exactResultClonepack row kind).map ClonepackArtifacts.manifest
  | metadata => (exactResultClonepack row kind).map ClonepackArtifacts.metadataChunk
  | metadataDelta => (exactResultClonepack row kind).map ClonepackArtifacts.metadataDelta
  | archiveChunk index => (ApiState.archiveChunks row kind)[index]?
  | packChunk index => ((ApiState.packArtifacts row kind)[index]?).map PackArtifact.pack
  | packIdx index => ((ApiState.packArtifacts row kind)[index]?).bind fun p =>
      if p.idx ∈ ApiState.ownIdx row kind then some p.idx else none
  | midx => (exactResultClonepack row kind).map ClonepackArtifacts.midx
  | idxBundle => (exactResultClonepack row kind).map ClonepackArtifacts.idxBundle
  | slot => slot.artifact nothingListed info

/-- Every URL of a ready output's response is signed for what is named at its slot. -/
theorem signed_refResponse {refs : Option RepoRefs}
    (h : state.refResponse row refs kind = some info) (slot : UrlSlot) :
    slot.signed info = (slot.named row kind info).bind (signable state) := by
  obtain ⟨artifacts, hartifacts, rfl⟩ := Option.map_eq_some_iff.mp h
  have hclonepack : ∀ field : ClonepackArtifacts → String,
      (state.signedUrl (field artifacts)).map SignedUrl.hash =
        ((exactResultClonepack row kind).map field).bind (signable state) := by
    intro field
    rw [hartifacts]
    exact signedUrl_hash state _
  -- Each slot is signed where it is listed, by the same rule as the artifact that it names.
  cases slot with
  | manifest => exact hclonepack ClonepackArtifacts.manifest
  | metadata => exact hclonepack ClonepackArtifacts.metadataChunk
  | metadataDelta => exact hclonepack ClonepackArtifacts.metadataDelta
  | midx => exact hclonepack ClonepackArtifacts.midx
  | idxBundle => exact hclonepack ClonepackArtifacts.idxBundle
  | archiveChunk index =>
      show (indexed (state.signedList (ApiState.archiveChunks row kind)) index).map _ = _
      rw [indexed_signedList, map_bind_signedUrl]
      rfl
  | packChunk index =>
      show (indexed (state.signedList _) index).map _ = _
      rw [indexed_signedList, map_bind_signedUrl, List.getElem?_map]
      rfl
  | packIdx index =>
      show (indexed (state.packIdxUrls row kind) index).map _ = _
      rw [indexed_packIdxUrls, UrlSlot.named]
      cases (ApiState.packArtifacts row kind)[index]? with
      | none => rfl
      | some p =>
          simp only [Option.bind_some]
          split
          · exact signedUrl_hash state _
          · rfl
  | tags =>
      show ((refs.filter fun refs => 0 < refs.tagsCount).bind _).map _ = Option.bind (Option.map _ _) _
      cases refs.filter fun refs => 0 < refs.tagsCount with
      | none => rfl
      | some refs => exact signedUrl_hash state _
  | branches =>
      show (Option.bind (Option.map _ ((refs.bind RepoRefs.branches).filter _)) _).map _ =
        (Option.map _ (Option.map _ _)).bind _
      -- The side packs are those of the branches, which only a Full lists.
      cases (refs.bind RepoRefs.branches).filter fun _ => kind = .full with
      | none => rfl
      | some branches => exact signedUrl_hash state _
  | sidePack index =>
      show (Option.bind (Option.bind (Option.map _ ((refs.bind RepoRefs.branches).filter _)) _) _).map
        _ = (Option.map _ (Option.bind (Option.map _ _) _)).bind _
      cases (refs.bind RepoRefs.branches).filter fun _ => kind = .full with
      | none => rfl
      | some branches =>
          simp only [Option.map_some, Option.bind_some, List.getElem?_map]
          cases branches.sidePacks[index]? with
          | none => rfl
          | some side => exact signedUrl_hash state _
  | sideIdx index =>
      show (Option.bind (Option.bind (Option.map _ ((refs.bind RepoRefs.branches).filter _)) _) _).map
        _ = (Option.map _ (Option.bind (Option.map _ _) _)).bind _
      cases (refs.bind RepoRefs.branches).filter fun _ => kind = .full with
      | none => rfl
      | some branches =>
          simp only [Option.map_some, Option.bind_some, List.getElem?_map]
          cases branches.sidePacks[index]? with
          | none => rfl
          | some side => exact signedUrl_hash state _
  | ownPack index => rfl
  | ownIdx index => rfl

/-- The same of the own history a response is given. -/
theorem signed_ownHistory {base : String} {own : OwnHistoryRef}
    (h : state.ownHistory row base = some own) (index : Nat) :
    ((own.packs[index]?).bind SidePackRef.packUrl).map SignedUrl.hash =
        ((own.packs[index]?).map SidePackRef.pack).bind (signable state) ∧
      ((own.packs[index]?).bind SidePackRef.idxUrl).map SignedUrl.hash =
        ((own.packs[index]?).map SidePackRef.idx).bind (signable state) := by
  obtain ⟨stored, _, h⟩ := Option.bind_eq_some_iff.mp h
  split at h
  · cases h
  · obtain rfl := Option.some.inj h
    simp only [List.getElem?_map]
    cases stored.packs[index]? with
    | none => exact ⟨rfl, rfl⟩
    | some pack => exact ⟨signedUrl_hash state _, signedUrl_hash state _⟩

/-- Every URL of an answer is signed for what is named at its slot. -/
theorem signed_readyBody (h : state.readyBody row kind = .ok (some info)) (slot : UrlSlot) :
    slot.signed info = (slot.named row kind info).bind (signable state) := by
  cases hkind : kind with
  | head =>
      subst hkind
      exact signed_refResponse (pure_eq_ok.mp h) slot
  | files =>
      subst hkind
      exact signed_refResponse (pure_eq_ok.mp h) slot
  | full =>
      subst hkind
      obtain ⟨served, _, ⟨_, hanswer⟩ | ⟨refs, _, hanswer⟩⟩ := ApiState.readyBody_full h
      · exact signed_refResponse hanswer slot
      · obtain ⟨result, hresult, rfl⟩ := Option.map_eq_some_iff.mp hanswer
        split
        · exact signed_refResponse hresult slot
        · next base _ =>
            have hrest := signed_refResponse hresult slot
            cases slot with
            | ownPack index =>
                cases hown : state.ownHistory row base.commitId with
                | none => simp [UrlSlot.signed, UrlSlot.select, UrlSlot.named, UrlSlot.artifact]
                | some own =>
                    simpa [UrlSlot.signed, UrlSlot.select, UrlSlot.named, UrlSlot.artifact, hown]
                      using (signed_ownHistory hown index).1
            | ownIdx index =>
                cases hown : state.ownHistory row base.commitId with
                | none => simp [UrlSlot.signed, UrlSlot.select, UrlSlot.named, UrlSlot.artifact]
                | some own =>
                    simpa [UrlSlot.signed, UrlSlot.select, UrlSlot.named, UrlSlot.artifact, hown]
                      using (signed_ownHistory hown index).2
            | _ => exact hrest

end Signed

/-! ## The refs a response is given

What the server picks for a request, as names: the part of an answer that is chosen anew each
time. -/

structure RefNames where
  tags : Option String
  /-- The artifact, and the pack and idx of each layer. -/
  branches : Option (String × List (String × String))
  own : Option (List (String × String))
  deriving DecidableEq, Repr

def packNames (side : SidePackRef) : String × String := (side.pack, side.idx)

def refNames (info : RefResponse) : RefNames where
  tags := info.tagsArtifact
  branches := info.branches.map fun b => (b.artifact, b.sidePacks.map packNames)
  own := info.ownHistory.map fun own => own.packs.map packNames

/-- The tags artifact of a row of refs with tags. -/
def tagsName (refs : Option RepoRefs) : Option String :=
  (refs.filter fun refs => 0 < refs.tagsCount).map RepoRefs.tagsArtifact

def branchNames (branches : Option RepoBranches) : Option (String × List (String × String)) :=
  branches.map fun b => (b.artifact, b.sidePacks.map fun s => (s.pack, s.idx))

/-- The own history that goes with a base. -/
def ownNames (state : ApiState) (row : BuildRow) (base : String) : Option (List (String × String)) :=
  ((readyFull row.full).bind FullResult.ownHistory).bind fun own =>
    if own.base ≠ base ∧ state.inHistory own.base base = false then none
    else some (own.packs.map fun pack => (pack.pack, pack.idx))

/-- What `ready_body` picks for the row from the refs and builds of the moment. -/
def picked (state : ApiState) (row : BuildRow) : ExactResultKind → Except String RefNames
  | .full => do
    match ← state.servedRefs row with
    | none => return ⟨none, none, none⟩
    | some served => return {
        tags := tagsName (some served.refs)
        branches := branchNames served.refs.branches
        own := served.base.bind fun base => ownNames state row base.commitId }
  | _ => return ⟨tagsName state.refs, none, none⟩

section Picked

variable {state : ApiState} {row : BuildRow} {kind : ExactResultKind} {info output : RefResponse}

theorem refNames_refResponse {refs : Option RepoRefs}
    (h : state.refResponse row refs kind = some info) :
    refNames info = ⟨tagsName refs,
      branchNames ((refs.bind RepoRefs.branches).filter fun _ => kind = .full), none⟩ := by
  obtain ⟨artifacts, _, rfl⟩ := Option.map_eq_some_iff.mp h
  simp only [refNames, tagsName, branchNames, RefNames.mk.injEq, Option.map_none, and_true, true_and,
    Option.map_map]
  congr 1
  funext branches
  simp [ApiState.sidePackRef, packNames]

theorem ownHistory_names (base : String) :
    ((state.ownHistory row base).map fun own => own.packs.map packNames) =
      ownNames state row base := by
  simp only [ApiState.ownHistory, ownNames]
  cases (readyFull row.full).bind FullResult.ownHistory with
  | none => rfl
  | some own =>
      simp only [Option.bind_some]
      split
      · rfl
      · simp [ApiState.ownPackRef, packNames]

/-- An answer names what was picked. -/
theorem picked_of_readyBody (h : state.readyBody row kind = .ok (some info)) :
    picked state row kind = .ok (refNames info) := by
  cases hkind : kind with
  | head =>
      subst hkind
      rw [refNames_refResponse (pure_eq_ok.mp h)]
      cases hbranches : state.refs.bind RepoRefs.branches <;> simp [picked, branchNames]
  | files =>
      subst hkind
      rw [refNames_refResponse (pure_eq_ok.mp h)]
      cases hbranches : state.refs.bind RepoRefs.branches <;> simp [picked, branchNames]
  | full =>
      subst hkind
      obtain ⟨served, hserved, ⟨rfl, hanswer⟩ | ⟨refs, rfl, hanswer⟩⟩ := ApiState.readyBody_full h
      · rw [refNames_refResponse hanswer, picked, hserved]
        rfl
      · obtain ⟨result, hresult, rfl⟩ := Option.map_eq_some_iff.mp hanswer
        have hnames := refNames_refResponse hresult
        have hkept : ((some refs.refs).bind RepoRefs.branches).filter
            (fun _ => decide (ExactResultKind.full = .full)) = refs.refs.branches := by
          cases hbranches : refs.refs.branches <;> simp [hbranches]
        rw [hkept] at hnames
        rw [picked, hserved]
        cases hbase : refs.base with
        | none =>
            show Except.ok _ = Except.ok (refNames result)
            rw [hnames, hbase]
            rfl
        | some base =>
            show Except.ok _ = Except.ok (RefNames.mk (refNames result).tags (refNames result).branches
              ((state.ownHistory row base.commitId).map _))
            rw [hnames, ownHistory_names, hbase]
            rfl

/-- A layer's pack and idx, by its place in the list. -/
theorem sidePacks_names (branches : Option BranchesRef) (index : Nat) :
    ((branches.bind fun b => b.sidePacks[index]?).map packNames) =
      (branches.map fun b => (b.artifact, b.sidePacks.map packNames)).bind fun b => b.2[index]? := by
  cases branches <;> simp

theorem ownPacks_names (own : Option OwnHistoryRef) (index : Nat) :
    ((own.bind fun own => own.packs[index]?).map packNames) =
      (own.map fun own => own.packs.map packNames).bind fun packs => packs[index]? := by
  cases own <;> simp

/-- Answers with the same refs name the same artifacts at the slots of the refs. -/
theorem artifact_of_refNames (h : refNames info = refNames output) {slot : UrlSlot}
    (hslot : slot.ofOutput = false) (listed listed' : ClonepackManifest) :
    slot.artifact listed info = slot.artifact listed' output := by
  have hbranches : (info.branches.map fun b => (b.artifact, b.sidePacks.map packNames)) =
      output.branches.map fun b => (b.artifact, b.sidePacks.map packNames) :=
    congrArg RefNames.branches h
  have hown : (info.ownHistory.map fun own => own.packs.map packNames) =
      output.ownHistory.map fun own => own.packs.map packNames := congrArg RefNames.own h
  have hlayer : ∀ index : Nat, ((info.branches.bind fun b => b.sidePacks[index]?).map packNames) =
      (output.branches.bind fun b => b.sidePacks[index]?).map packNames := by
    intro index
    rw [sidePacks_names, sidePacks_names, hbranches]
  have hpack : ∀ index : Nat, ((info.ownHistory.bind fun own => own.packs[index]?).map packNames) =
      (output.ownHistory.bind fun own => own.packs[index]?).map packNames := by
    intro index
    rw [ownPacks_names, ownPacks_names, hown]
  have hfirst : ∀ side : Option SidePackRef,
      side.map SidePackRef.pack = (side.map packNames).map Prod.fst := by
    intro side
    cases side <;> rfl
  have hsecond : ∀ side : Option SidePackRef,
      side.map SidePackRef.idx = (side.map packNames).map Prod.snd := by
    intro side
    cases side <;> rfl
  cases slot with
  | tags => exact congrArg RefNames.tags h
  | branches =>
      have hartifact : ∀ branches : Option BranchesRef, branches.map BranchesRef.artifact =
          (branches.map fun b => (b.artifact, b.sidePacks.map packNames)).map Prod.fst := by
        intro branches
        cases branches <;> rfl
      simp only [UrlSlot.artifact, hartifact, hbranches]
  | sidePack index => simp only [UrlSlot.artifact, hfirst, hlayer]
  | sideIdx index => simp only [UrlSlot.artifact, hsecond, hlayer]
  | ownPack index => simp only [UrlSlot.artifact, hfirst, hpack]
  | ownIdx index => simp only [UrlSlot.artifact, hsecond, hpack]
  | _ => cases hslot

end Picked

/-! ## Refreshing a URL -/

inductive RefreshError where
  /-- The request failed, or the commit has no row. -/
  | lookup (error : String)
  | notReady (commit : String) (kind : ExactResultKind)
  | otherCommit (expected found : String)
  | otherKind (expected found : ExactResultKind)
  | noManifest (commit : String) (kind : ExactResultKind)
  | changed (commit : String) (kind : ExactResultKind)
  | omitted (slot : UrlSlot)
  deriving DecidableEq, Repr

/-- `validate_output`: a ready body is the `kind` output of `commit`. -/
def validateOutput (info : RefResponse) (commit : String) (kind : ExactResultKind) :
    Except RefreshError Unit :=
  if info.commit ≠ commit then .error (.otherCommit commit info.commit)
  else if info.kind ≠ kind then .error (.otherKind kind info.kind)
  else if info.clonepackManifest = "" then .error (.noManifest commit kind)
  else .ok ()

/-- `GET .../commits/COMMIT?kind=KIND`, which must be answered with a ready output. -/
def commitOutput (server : ApiState) (commit : String) (kind : ExactResultKind) :
    Except RefreshError RefResponse :=
  match server.status commit with
  | .error error => .error (.lookup error)
  | .ok none => .error (.lookup ("no build for commit " ++ commit))
  | .ok (some row) =>
    match server.outputBody row kind with
    | .error error => .error (.lookup error)
    | .ok (.ready info) => .ok info
    | .ok _ => .error (.notReady commit kind)

/-- The signed URLs of the one ready output a clone installs. -/
structure OutputUrls where
  /-- The output as the clone first read it. -/
  output : RefResponse
  /-- How many refreshes produced `current`. -/
  generation : Nat
  /-- The newest response. -/
  current : RefResponse

namespace OutputUrls

def new (output : RefResponse) : OutputUrls := ⟨output, 0, output⟩

/-- A fresh URL for `slot`. `seen` is the generation the caller's URL came from; when another
download has refreshed past it, that answer is reused. -/
def refresh (urls : OutputUrls) (server : ApiState) (slot : UrlSlot) (seen : Nat) :
    Except RefreshError (OutputUrls × SignedUrl) :=
  if seen < urls.generation then
    match slot.select urls.current with
    | some url => .ok (urls, url)
    | none => .error (.omitted slot)
  else do
    let output := urls.output
    let info ← commitOutput server output.commit output.kind
    validateOutput info output.commit output.kind
    if info.clonepackManifest = output.clonepackManifest ∧
        info.metadataChunk = output.metadataChunk ∧ info.metadataDelta = output.metadataDelta then
      match slot.select info with
      | some url => .ok (⟨output, urls.generation + 1, info⟩, url)
      | none => .error (.omitted slot)
    else .error (.changed output.commit output.kind)

end OutputUrls

/-- One download, or one range of it: the artifact it is of, and the URL it was last handed with the
generation it came from. Without a URL it goes by its hash. -/
structure Download where
  slot : UrlSlot
  hash : String
  generation : Nat
  url : Option SignedUrl
  /-- Why its refresh failed. -/
  failed : Option RefreshError

/-- The clone's URLs and downloads, and the server they are refreshed from. -/
structure UrlState where
  server : ApiState
  urls : OutputUrls
  downloads : List Download

inductive UrlEvent where
  /-- The server publishes refs, moves branches or readies outputs. -/
  | serve (server : ApiState)
  /-- A download of the slot's artifact starts. -/
  | start (slot : UrlSlot)
  /-- The signed URL of a download is refused. -/
  | refresh (index : Nat)

/-- A download's refresh. -/
def UrlState.refreshed (s : UrlState) (index : Nat) (download : Download) : UrlState :=
  match s.urls.refresh s.server download.slot download.generation with
  | .ok (urls, url) => { s with
      urls
      downloads := s.downloads.set index
        { download with generation := urls.generation, url := some url } }
  | .error error => { s with
      downloads := s.downloads.set index { download with failed := some error } }

/-- What the server keeps while a clone of the row's output runs: its rows are found by their commit,
and the output is the same for as long as it is ready. -/
structure Serves (row : BuildRow) (output : RefResponse) (server : ApiState) : Prop where
  keyed : ∀ {commit found}, server.status commit = .ok (some found) → found.commitId = commit
  kept : ∀ {found}, server.status output.commit = .ok (some found) →
    (found.out output.kind).state = .ready → found.out output.kind = row.out output.kind

/-- A step of a clone that downloads what `listed`, the manifest of `row`'s output, lists. -/
inductive UrlStep (listed : ClonepackManifest) (row : BuildRow) :
    UrlState → UrlEvent → UrlState → Prop
  | serve {s : UrlState} {server : ApiState} (signs : SignsAlike s.server server)
      (serves : Serves row s.urls.output server) :
      UrlStep listed row s (.serve server) { s with server }
  | start {s : UrlState} {slot : UrlSlot} {hash : String}
      (named : slot.artifact listed s.urls.output = some hash) :
      UrlStep listed row s (.start slot) { s with
        downloads := s.downloads ++
          [⟨slot, hash, s.urls.generation, slot.select s.urls.current, none⟩] }
  | refresh {s : UrlState} {index : Nat} {download : Download}
      (found : s.downloads[index]? = some download) (live : download.failed = none)
      (signed : download.url.isSome) :
      UrlStep listed row s (.refresh index) (s.refreshed index download)

/-- The server would answer the clone's request with the refs it was first answered with. -/
def Settled (s : UrlState) : Prop :=
  ∀ row, s.server.status s.urls.output.commit = .ok (some row) →
    picked s.server row s.urls.output.kind = .ok (refNames s.urls.output)

/-- A step whose refreshes are all settled. -/
inductive SettledStep (listed : ClonepackManifest) (row : BuildRow) :
    UrlState → UrlEvent → UrlState → Prop
  | serve {s s' : UrlState} {server : ApiState} (step : UrlStep listed row s (.serve server) s') :
      SettledStep listed row s (.serve server) s'
  | start {s s' : UrlState} {slot : UrlSlot} (step : UrlStep listed row s (.start slot) s') :
      SettledStep listed row s (.start slot) s'
  | refresh {s s' : UrlState} {index : Nat} (step : UrlStep listed row s (.refresh index) s')
      (settled : Settled s) : SettledStep listed row s (.refresh index) s'

/-- A download's URL is one of its artifact, and no refresh left it without one. -/
structure Download.Right (download : Download) : Prop where
  url : ∀ url ∈ download.url, url.hash = download.hash
  kept : download.failed ≠ some (.omitted download.slot)

section Refresh

variable {listed : ClonepackManifest} {row : BuildRow} {output info : RefResponse}
  {server : ApiState} {kind : ExactResultKind}

/-- A ready answer about a commit is `ready_body` of its row. -/
theorem readyBody_of_commitOutput
    (hkeyed : ∀ {commit found}, server.status commit = .ok (some found) → found.commitId = commit)
    {commit : String} (h : commitOutput server commit kind = .ok info) :
    ∃ found, server.status commit = .ok (some found) ∧ (found.out kind).state = .ready ∧
      server.readyBody found kind = .ok (some info) := by
  simp only [commitOutput] at h
  split at h
  · cases h
  · cases h
  · next found hfound =>
      refine ⟨found, hfound, ?_⟩
      split at h
      · cases h
      · next answer hanswer =>
          obtain rfl := Except.ok.inj h
          simp only [ApiState.outputBody] at hanswer
          split at hanswer
          · next hready =>
              obtain ⟨body, hbody, hanswer⟩ := bind_eq_ok.mp hanswer
              cases body with
              | none => cases hanswer
              | some body =>
                  cases pure_eq_ok.mp hanswer
                  exact ⟨hready, hbody⟩
          · cases pure_eq_ok.mp hanswer
          · next hpending =>
              -- the row of the commit would be pending and ready at once
              obtain ⟨rfl, base, commit', hbase, hcommit, hready⟩ :=
                ApiState.pendingBody_ready hanswer
              rw [hkeyed hbase, hkeyed hfound] at hcommit
              rw [hcommit, hfound] at hbase
              cases hbase
              cases hpending.symm.trans hready
      · cases h

/-- The slots of the output depend on its columns only. -/
theorem named_of_out {found : BuildRow} (h : found.out kind = row.out kind) {slot : UrlSlot}
    (hslot : slot.ofOutput = true) (info output : RefResponse) :
    slot.named found kind info = slot.named row kind output := by
  have hclonepack : exactResultClonepack found kind = exactResultClonepack row kind := by
    cases kind <;> simp only [BuildRow.out] at h <;> simp only [exactResultClonepack, h]
  have hpacks : ApiState.packArtifacts found kind = ApiState.packArtifacts row kind := by
    cases kind <;> simp only [BuildRow.out] at h <;> simp only [ApiState.packArtifacts, h]
  have hchunks : ApiState.archiveChunks found kind = ApiState.archiveChunks row kind := by
    cases kind <;> simp only [BuildRow.out] at h <;> simp only [ApiState.archiveChunks, h]
  have hidx : ApiState.ownIdx found kind = ApiState.ownIdx row kind := by
    cases kind <;> simp only [BuildRow.out] at h <;> simp only [ApiState.ownIdx, h]
  cases slot with
  | manifest | metadata | metadataDelta | midx | idxBundle =>
      simp only [UrlSlot.named, hclonepack]
  | archiveChunk index => simp only [UrlSlot.named, hchunks]
  | packChunk index => simp only [UrlSlot.named, hpacks]
  | packIdx index => simp only [UrlSlot.named, hpacks, hidx]
  | _ => cases hslot

/-- A refresh takes the URL from the newest response, or from the answer it gets and keeps; or it
fails before it selects one. -/
theorem refresh_cases (urls : OutputUrls) (server : ApiState) (slot : UrlSlot) (seen : Nat) :
    (∃ urls' : OutputUrls,
      (urls' = urls ∨
        ∃ info, commitOutput server urls.output.commit urls.output.kind = .ok info ∧
          urls' = ⟨urls.output, urls.generation + 1, info⟩) ∧
      ((∃ url, slot.select urls'.current = some url ∧
          urls.refresh server slot seen = .ok (urls', url)) ∨
        (slot.select urls'.current = none ∧
          urls.refresh server slot seen = .error (.omitted slot)))) ∨
    ∃ error, urls.refresh server slot seen = .error error ∧ ∀ slot, error ≠ .omitted slot := by
  unfold OutputUrls.refresh
  split
  · -- another download has refreshed
    refine .inl ⟨urls, .inl rfl, ?_⟩
    cases hselect : slot.select urls.current with
    | none => exact .inr ⟨rfl, rfl⟩
    | some url => exact .inl ⟨url, rfl, rfl⟩
  · cases hinfo : commitOutput server urls.output.commit urls.output.kind with
    | error error =>
        refine .inr ⟨error, by simp [hinfo, bind, Except.bind], ?_⟩
        intro slot heq
        subst heq
        simp only [commitOutput] at hinfo
        repeat' split at hinfo
        all_goals cases hinfo
    | ok info =>
        cases hvalid : validateOutput info urls.output.commit urls.output.kind with
        | error error =>
            refine .inr ⟨error, by simp [hinfo, hvalid, bind, Except.bind], ?_⟩
            intro slot heq
            subst heq
            simp only [validateOutput] at hvalid
            repeat' split at hvalid
            all_goals cases hvalid
        | ok valid =>
            simp only [hinfo, hvalid, bind, Except.bind]
            split
            · refine .inl ⟨⟨urls.output, urls.generation + 1, info⟩, .inr ⟨info, rfl, rfl⟩, ?_⟩
              cases hselect : slot.select info with
              | none => exact .inr ⟨rfl, rfl⟩
              | some url => exact .inl ⟨url, rfl, rfl⟩
            · exact .inr ⟨_, rfl, fun slot => RefreshError.noConfusion⟩

end Refresh

/-! ## Every download gets its own URL -/

/-- How a clone got its output: as the body of a ready output, or, for a base whose history it
installs, named in another's. -/
def Answer (server : ApiState) (row : BuildRow) (output : RefResponse) : Prop :=
  server.readyBody row output.kind = .ok (some output) ∨
    ∃ refs, server.refResponse row refs output.kind = some output

/-- The manifest lists the packs and chunks of the row's output, in the order of the row. -/
structure Listed (listed : ClonepackManifest) (row : BuildRow) (kind : ExactResultKind) : Prop where
  packs : (ApiState.packArtifacts row kind).map PackArtifact.pack =
    listed.packs.map fun entry => entry.pack.hash
  idx : (ApiState.packArtifacts row kind).map PackArtifact.idx =
    listed.packs.map fun entry => entry.idx.hash
  chunks : kind = .files → ApiState.archiveChunks row kind = listed.archiveChunks.map ChunkRef.hash
  midx : ∀ artifacts ∈ exactResultClonepack row kind,
    artifacts.midx = (listed.midx.map ChunkRef.hash).getD ""
  idxBundle : ∀ artifacts ∈ exactResultClonepack row kind,
    artifacts.idxBundle = (listed.idxBundle.map ChunkRef.hash).getD ""

section Runs

variable {listed : ClonepackManifest} {row : BuildRow} {output : RefResponse}
  {server : ApiState}

theorem signed_answer (h : Answer server row output) (slot : UrlSlot) :
    slot.signed output = (slot.named row output.kind output).bind (signable server) := by
  rcases h with h | ⟨refs, h⟩
  · exact signed_readyBody h slot
  · exact signed_refResponse h slot

/-- The manifest and the table an answer names are the output's. -/
theorem artifacts_answer (h : Answer server row output) :
    ∃ artifacts, exactResultClonepack row output.kind = some artifacts ∧
      output.clonepackManifest = artifacts.manifest ∧
      output.metadataChunk = artifacts.metadataChunk ∧
      output.metadataDelta = artifacts.metadataDelta := by
  have hresponse : ∀ {kind refs result}, server.refResponse row refs kind = some result →
      ∃ artifacts, exactResultClonepack row kind = some artifacts ∧
        result.clonepackManifest = artifacts.manifest ∧
        result.metadataChunk = artifacts.metadataChunk ∧
        result.metadataDelta = artifacts.metadataDelta := by
    intro kind refs result h
    obtain ⟨artifacts, hartifacts, rfl⟩ := Option.map_eq_some_iff.mp h
    exact ⟨artifacts, hartifacts, rfl, rfl, rfl⟩
  rcases h with h | ⟨refs, h⟩
  · generalize output.kind = kind at h ⊢
    cases kind with
    | head => exact hresponse (pure_eq_ok.mp h)
    | files => exact hresponse (pure_eq_ok.mp h)
    | full =>
        obtain ⟨served, _, ⟨_, hanswer⟩ | ⟨refs, _, hanswer⟩⟩ := ApiState.readyBody_full h
        · exact hresponse hanswer
        · obtain ⟨result, hresult, rfl⟩ := Option.map_eq_some_iff.mp hanswer
          have hfields := hresponse hresult
          split
          · exact hfields
          · exact hfields
  · exact hresponse h

theorem signable_eq_some {hash signed : String} (h : signable server hash = some signed) :
    signed = hash ∧ hash ≠ "" := by
  unfold signable at h
  split at h
  · next hsigned => exact ⟨(Option.some.inj h).symm, hsigned.1⟩
  · cases h

/-- The URLs a clone is first given are each of the artifact at its slot. -/
theorem signed_right (hanswer : Answer server row output) (hlisted : Listed listed row output.kind)
    {slot : UrlSlot} {hash signed : String} (hsigned : slot.signed output = some signed)
    (hhash : slot.artifact listed output = some hash) : signed = hash := by
  rw [signed_answer hanswer] at hsigned
  obtain ⟨named, hnamed, hsigned⟩ := Option.bind_eq_some_iff.mp hsigned
  obtain ⟨rfl, hnonempty⟩ := signable_eq_some hsigned
  obtain ⟨artifacts, hartifacts, hmanifest, hmetadata, hdelta⟩ := artifacts_answer hanswer
  -- an optional artifact of the output: the row has the empty text for none
  have hoptional : ∀ {chunk : Option ChunkRef}, signed = (chunk.map ChunkRef.hash).getD "" →
      chunk.map ChunkRef.hash = some hash → signed = hash := by
    intro chunk heq hchunk
    rw [heq, hchunk]
    rfl
  cases slot with
  | manifest =>
      simp only [UrlSlot.named, hartifacts, Option.map_some, Option.some.injEq] at hnamed
      simp only [UrlSlot.artifact, Option.some.injEq] at hhash
      rw [← hnamed, ← hhash, hmanifest]
  | metadata =>
      simp only [UrlSlot.named, hartifacts, Option.map_some, Option.some.injEq] at hnamed
      simp only [UrlSlot.artifact, Option.some.injEq] at hhash
      rw [← hnamed, ← hhash, hmetadata]
  | metadataDelta =>
      simp only [UrlSlot.named, hartifacts, Option.map_some, Option.some.injEq] at hnamed
      simp only [UrlSlot.artifact] at hhash
      split at hhash
      · cases hhash
      · rw [← hnamed, ← Option.some.inj hhash, hdelta]
  | midx =>
      simp only [UrlSlot.named, hartifacts, Option.map_some, Option.some.injEq] at hnamed
      exact hoptional (hnamed ▸ hlisted.midx artifacts hartifacts) hhash
  | idxBundle =>
      simp only [UrlSlot.named, hartifacts, Option.map_some, Option.some.injEq] at hnamed
      exact hoptional (hnamed ▸ hlisted.idxBundle artifacts hartifacts) hhash
  | archiveChunk index =>
      cases hkind : output.kind with
      | files =>
          simp only [UrlSlot.named, hlisted.chunks hkind, List.getElem?_map] at hnamed
          exact Option.some.inj (hnamed.symm.trans hhash)
      | head | full => simp [UrlSlot.named, ApiState.archiveChunks, hkind] at hnamed
  | packChunk index =>
      simp only [UrlSlot.named, ← List.getElem?_map, hlisted.packs] at hnamed
      simp only [UrlSlot.artifact, ← List.getElem?_map] at hhash
      exact Option.some.inj (hnamed.symm.trans hhash)
  | packIdx index =>
      obtain ⟨pack, hpack, hown⟩ := Option.bind_eq_some_iff.mp hnamed
      have hidx : ((ApiState.packArtifacts row output.kind).map PackArtifact.idx)[index]? =
          some pack.idx := by rw [List.getElem?_map, hpack]; rfl
      rw [hlisted.idx, List.getElem?_map] at hidx
      split at hown
      · rw [← Option.some.inj hown]
        exact Option.some.inj (hidx.symm.trans hhash)
      · cases hown
  | tags | branches | sidePack _ | sideIdx _ | ownPack _ | ownIdx _ =>
      exact Option.some.inj (hnamed.symm.trans hhash)

theorem SignsAlike.signable {server server' : ApiState} (h : SignsAlike server server')
    (hash : String) : signable server hash = signable server' hash := by
  rw [Client.signable, Client.signable, h hash]

/-- An answer about an output that was kept signs the output's own slots as before. -/
theorem signed_kept {first : ApiState} {info : RefResponse} (hanswer : Answer first row output)
    (hsigns : SignsAlike first server) (hserves : Serves row output server)
    (h : commitOutput server output.commit output.kind = .ok info) {slot : UrlSlot}
    (hslot : slot.ofOutput = true) : slot.signed info = slot.signed output := by
  obtain ⟨found, hfound, hready, hbody⟩ := readyBody_of_commitOutput hserves.keyed h
  rw [signed_readyBody hbody, signed_answer hanswer,
    named_of_out (hserves.kept hfound hready) hslot info output, funext hsigns.signable]

/-- When the refs are picked again, so are the slots of the refs. -/
theorem signed_settled {first : ApiState} {info : RefResponse} (hanswer : Answer first row output)
    (hsigns : SignsAlike first server) (hserves : Serves row output server)
    (hpicked : ∀ row, server.status output.commit = .ok (some row) →
      picked server row output.kind = .ok (refNames output))
    (h : commitOutput server output.commit output.kind = .ok info) (slot : UrlSlot) :
    slot.signed info = slot.signed output := by
  cases hslot : slot.ofOutput with
  | true => exact signed_kept hanswer hsigns hserves h hslot
  | false =>
      obtain ⟨found, hfound, hready, hbody⟩ := readyBody_of_commitOutput hserves.keyed h
      have hnames : refNames info = refNames output := by
        have hfirst := hpicked found hfound
        rw [picked_of_readyBody hbody] at hfirst
        exact Except.ok.inj hfirst
      have hnamed : slot.named found output.kind info = slot.named row output.kind output := by
        cases slot with
        | tags | branches | sidePack _ | sideIdx _ | ownPack _ | ownIdx _ =>
            exact artifact_of_refNames hnames hslot nothingListed nothingListed
        | _ => cases hslot
      rw [signed_readyBody hbody, signed_answer hanswer, hnamed, funext hsigns.signable]

/-- A download of a slot of `P` has the URL of the first answer. -/
structure HandedTo (listed : ClonepackManifest) (output : RefResponse) (P : UrlSlot → Prop)
    (download : Download) : Prop where
  named : download.slot.artifact listed output = some download.hash
  url : P download.slot → download.url.map SignedUrl.hash = download.slot.signed output
  kept : P download.slot → download.failed ≠ some (.omitted download.slot)

/-- The slots of `P` are signed as in the first answer. -/
structure Handed (first : ApiState) (row : BuildRow) (output : RefResponse)
    (listed : ClonepackManifest) (P : UrlSlot → Prop) (s : UrlState) : Prop where
  same : s.urls.output = output
  signs : SignsAlike first s.server
  serves : Serves row output s.server
  current : ∀ slot, P slot → slot.signed s.urls.current = slot.signed output
  downloads : ∀ download ∈ s.downloads, HandedTo listed output P download

variable {first : ApiState} {P : UrlSlot → Prop} {s s' : UrlState} {event : UrlEvent}

/-- A refresh keeps the URLs handed, if the answer it may get signs the slots of `P` as the first
one. -/
theorem Handed.refreshed (h : Handed first row output listed P s) {index : Nat}
    {download : Download} (hfound : s.downloads[index]? = some download)
    (hlive : download.failed = none) (hurl : download.url.isSome)
    (hasked : ∀ info, commitOutput s.server output.commit output.kind = .ok info →
      ∀ slot, P slot → slot.signed info = slot.signed output) :
    Handed first row output listed P (s.refreshed index download) := by
  have hold : HandedTo listed output P download :=
    h.downloads download (List.mem_of_getElem? hfound)
  have hset : ∀ {d}, HandedTo listed output P d →
      ∀ d' ∈ s.downloads.set index d, HandedTo listed output P d' := by
    intro d hd d' hd'
    rcases List.mem_or_eq_of_mem_set hd' with hd' | rfl
    · exact h.downloads d' hd'
    · exact hd
  unfold UrlState.refreshed
  obtain ⟨urls', hurls', hselect⟩ | ⟨error, hrefresh, herror⟩ :=
    refresh_cases s.urls s.server download.slot download.generation
  · have hcurrent : urls'.output = output ∧
        ∀ slot, P slot → slot.signed urls'.current = slot.signed output := by
      rcases hurls' with rfl | ⟨info, hinfo, rfl⟩
      · exact ⟨h.same, h.current⟩
      · rw [h.same] at hinfo
        exact ⟨h.same, hasked info hinfo⟩
    rcases hselect with ⟨url, hselect, hrefresh⟩ | ⟨hnone, hrefresh⟩
    · rw [hrefresh]
      refine ⟨hcurrent.1, h.signs, h.serves, hcurrent.2, hset ⟨hold.named, ?_, ?_⟩⟩
      · intro hslot
        rw [← hcurrent.2 _ hslot, UrlSlot.signed, hselect]
      · intro _ heq
        cases hlive.symm.trans heq
    · rw [hrefresh]
      refine ⟨h.same, h.signs, h.serves, h.current, hset ⟨hold.named, hold.url, ?_⟩⟩
      -- the download has a URL, so its slot was not omitted from the first answer
      intro hslot
      have hsigned := hold.url hslot
      rw [← hcurrent.2 _ hslot, UrlSlot.signed, hnone, Option.map_none, Option.map_eq_none_iff]
        at hsigned
      rw [hsigned] at hurl
      cases hurl
  · rw [hrefresh]
    refine ⟨h.same, h.signs, h.serves, h.current, hset ⟨hold.named, hold.url, ?_⟩⟩
    exact fun _ heq => herror _ (Option.some.inj heq)

theorem Handed.step (h : Handed first row output listed P s) (hstep : UrlStep listed row s event s')
    (hasked : ∀ index, event = .refresh index →
      ∀ info, commitOutput s.server output.commit output.kind = .ok info →
        ∀ slot, P slot → slot.signed info = slot.signed output) :
    Handed first row output listed P s' := by
  cases hstep with
  | serve signs serves =>
      refine ⟨h.same, fun hash => (h.signs hash).trans (signs hash), h.same ▸ serves, h.current,
        h.downloads⟩
  | @start slot hash named =>
      refine ⟨h.same, h.signs, h.serves, h.current, ?_⟩
      intro download hdownload
      rcases List.mem_append.mp hdownload with hdownload | hdownload
      · exact h.downloads download hdownload
      · obtain rfl := List.mem_singleton.mp hdownload
        refine ⟨h.same ▸ named, ?_, ?_⟩
        · intro hslot
          exact h.current slot hslot
        · intro _ heq
          cases heq
  | @refresh index download found live signed =>
      exact h.refreshed found live signed (hasked index rfl)

/-- What was handed at the slots of `P` is right. -/
theorem Handed.right (h : Handed first row output listed P s) (hanswer : Answer first row output)
    (hlisted : Listed listed row output.kind) {download : Download}
    (hdownload : download ∈ s.downloads) (hslot : P download.slot) : download.Right := by
  have hhanded := h.downloads download hdownload
  refine ⟨?_, hhanded.kept hslot⟩
  intro url hurl
  have hsigned : download.slot.signed output = some url.hash := by
    rw [← hhanded.url hslot, hurl]
    rfl
  exact signed_right hanswer hlisted hsigned hhanded.named

/-- The state in which a clone has its output's answer. -/
def UrlState.answered (server : ApiState) (output : RefResponse) : UrlState :=
  ⟨server, .new output, []⟩

theorem handed_answered (hserves : Serves row output first) :
    Handed first row output listed P (.answered first output) :=
  ⟨rfl, fun _ => rfl, hserves, fun _ _ => rfl, fun _ h => (List.not_mem_nil h).elim⟩

theorem SettledStep.step (h : SettledStep listed row s event s') : UrlStep listed row s event s' := by
  cases h <;> assumption

/-- However often URLs are refreshed and whatever the server publishes meanwhile, a download of the
output's own artifacts has a URL of its artifact. So has every download, while each refresh finds
the refs and the own history that the clone was first answered with. -/
theorem downloads_right (hanswer : Answer first row output)
    (hlisted : Listed listed row output.kind) (hserves : Serves row output first) :
    (∀ events s, Run (UrlStep listed row) (.answered first output) events s →
      ∀ download ∈ s.downloads, download.slot.ofOutput = true → download.Right) ∧
    ∀ events s, Run (SettledStep listed row) (.answered first output) events s →
      ∀ download ∈ s.downloads, download.Right := by
  constructor
  · intro events s hrun download hdownload hslot
    have hhanded : Handed first row output listed (fun slot => slot.ofOutput = true) s := by
      refine Run.invariant (P := fun _ => True) (handed_answered hserves) ?_ hrun fun _ _ => trivial
      intro event s s' _ h hstep
      refine h.step hstep ?_
      intro _ _ info hinfo slot hslot
      exact signed_kept hanswer h.signs h.serves hinfo hslot
    exact hhanded.right hanswer hlisted hdownload hslot
  · intro events s hrun download hdownload
    have hhanded : Handed first row output listed (fun _ => True) s := by
      refine Run.invariant (P := fun _ => True) (handed_answered hserves) ?_ hrun fun _ _ => trivial
      intro event s s' _ h hstep
      refine h.step hstep.step ?_
      rintro index rfl info hinfo slot _
      cases hstep with
      | refresh _ settled =>
          refine signed_settled hanswer h.signs h.serves ?_ hinfo slot
          rw [← h.same]
          exact settled
    exact hhanded.right hanswer hlisted hdownload trivial

end Runs

/-! ### A tag is published while a Head is cloned -/

def taggedHead : HeadResult where
  clonepack := ⟨"manifest", "table", "", "", "", "commit"⟩
  parentCommit := none
  packs := [⟨"pack", "idx"⟩]
  baseCommit := "commit"
  basePacks := [⟨"pack", 100, "idx", 1100⟩]
  levels := []

def taggedRow : BuildRow where
  repo := "acme/app"
  commitId := "commit"
  seq := 1
  refName := some "refs/heads/main"
  parent := none
  createdAt := 0
  head := { OutColumns.default with state := .ready, output := some (.head taggedHead) }
  files := .default
  full := .default

def taggedManifest : ClonepackManifest where
  commit := "commit"
  parentCommit := none
  metadataChunk := ⟨"table", 10⟩
  metadataDelta := none
  archiveChunks := []
  packs := [⟨⟨"pack", 100⟩, ⟨"idx", 1100⟩, false, none⟩]
  midx := none
  idxBundle := none

/-- A server whose row of refs names the tags artifact. -/
def taggedServer (artifact : String) : ApiState where
  refs := some ⟨artifact, 20, 1, artifact, none, none⟩
  status commit := .ok (if commit = "commit" then some taggedRow else none)
  latestReadyFull _ := .ok none
  inHistory _ _ := false
  sign _ := some 3600

/-- Its answer about the Head. -/
def taggedOutput (artifact : String) : RefResponse where
  commit := "commit"
  parentCommit := none
  clonepackManifest := "manifest"
  clonepackManifestUrl := some ⟨"manifest", 3600⟩
  metadataChunk := "table"
  metadataChunkUrl := some ⟨"table", 3600⟩
  metadataDelta := ""
  metadataDeltaUrl := none
  archiveChunkUrls := none
  packChunkUrls := some [some ⟨"pack", 3600⟩]
  packIdxUrls := none
  midxUrl := none
  idxBundleUrl := none
  tagsArtifact := some artifact
  tagsArtifactUrl := if artifact = "" then none else some ⟨artifact, 3600⟩
  branches := none
  refsBase := none
  ownHistory := none
  kind := .head

theorem taggedServer_answer (artifact : String) :
    Answer (taggedServer artifact) taggedRow (taggedOutput artifact) := by
  refine .inr ⟨some ⟨artifact, 20, 1, artifact, none, none⟩, ?_⟩
  by_cases hempty : artifact = ""
  · subst hempty
    rfl
  · have hurl : (taggedServer artifact).signedUrl artifact = some ⟨artifact, 3600⟩ := by
      rw [ApiState.signedUrl, if_neg hempty]
      rfl
    simp only [taggedOutput, if_neg hempty, ← hurl]
    rfl

theorem taggedServer_serves (artifact artifact' : String) :
    Serves taggedRow (taggedOutput artifact) (taggedServer artifact') where
  keyed := by
    intro commit found h
    simp only [taggedServer, Except.ok.injEq] at h
    split at h
    · next hcommit =>
        obtain rfl := Option.some.inj h
        exact hcommit.symm
    · cases h
  kept := by
    intro found h _
    obtain rfl := Option.some.inj (Except.ok.inj h)
    rfl

theorem taggedManifest_listed : Listed taggedManifest taggedRow .head where
  packs := rfl
  idx := rfl
  chunks := fun h => by cases h
  midx := by
    intro artifacts h
    obtain rfl := Option.some.inj h
    rfl
  idxBundle := by
    intro artifacts h
    obtain rfl := Option.some.inj h
    rfl

/-- A download of the first tags has started. -/
def taggedState (artifact : String) : UrlState :=
  ⟨taggedServer artifact, .new (taggedOutput "tags1"),
    [⟨.tags, "tags1", 0, some ⟨"tags1", 3600⟩, none⟩]⟩

/-- Its URL is refreshed to that of the tags the server names by then. -/
def taggedRefreshed (artifact : String) : UrlState :=
  ⟨taggedServer artifact, ⟨taggedOutput "tags1", 1, taggedOutput artifact⟩,
    [⟨.tags, "tags1", 1, some ⟨artifact, 3600⟩, none⟩]⟩

theorem tagged_refresh {artifact : String} (h : artifact = "tags1" ∨ artifact = "tags2") :
    UrlStep taggedManifest taggedRow (taggedState artifact) (.refresh 0)
      (taggedRefreshed artifact) := by
  have hrefreshed : (taggedState artifact).refreshed 0
      ⟨.tags, "tags1", 0, some ⟨"tags1", 3600⟩, none⟩ = taggedRefreshed artifact := by
    rcases h with rfl | rfl <;> rfl
  rw [← hrefreshed]
  exact .refresh rfl rfl rfl

theorem tagged_start : UrlStep taggedManifest taggedRow
    (.answered (taggedServer "tags1") (taggedOutput "tags1")) (.start .tags) (taggedState "tags1") :=
  .start rfl

/-- A refresh whose answer names the next tags artifact gives the download of this one its URL. -/
theorem refreshed_tags_other : ∃ events s,
    Run (UrlStep taggedManifest taggedRow)
      (.answered (taggedServer "tags1") (taggedOutput "tags1")) events s ∧
    ∃ download ∈ s.downloads, download.slot = .tags ∧ ¬ download.Right := by
  have hserve : UrlStep taggedManifest taggedRow (taggedState "tags1")
      (.serve (taggedServer "tags2")) (taggedState "tags2") :=
    .serve (fun _ => rfl) (taggedServer_serves "tags1" "tags2")
  have hrun := ((Run.nil.snoc tagged_start).snoc hserve).snoc (tagged_refresh (.inr rfl))
  refine ⟨_, _, hrun, _, List.mem_singleton.mpr rfl, rfl, ?_⟩
  intro h
  exact absurd (h.url _ rfl) (by decide)

/-- Nothing is published, and the refresh in between gives the download of the tags their URL. -/
theorem refreshed_tags_right : ∃ events s,
    Run (SettledStep taggedManifest taggedRow)
      (.answered (taggedServer "tags1") (taggedOutput "tags1")) events s ∧
    s.urls.generation = 1 ∧ s.downloads.length = 1 ∧ ∀ download ∈ s.downloads, download.Right := by
  have hsettled : Settled (taggedState "tags1") := by
    intro row h
    obtain rfl := Option.some.inj (Except.ok.inj h)
    rfl
  have hrun : Run (SettledStep taggedManifest taggedRow)
      (.answered (taggedServer "tags1") (taggedOutput "tags1")) [.start .tags, .refresh 0]
      (taggedRefreshed "tags1") :=
    (Run.nil.snoc (.start tagged_start)).snoc (.refresh (tagged_refresh (.inl rfl)) hsettled)
  refine ⟨_, _, hrun, rfl, rfl, ?_⟩
  exact (downloads_right (taggedServer_answer "tags1") taggedManifest_listed
    (taggedServer_serves "tags1" "tags1")).2 _ _ hrun

end Ripclone.Client
