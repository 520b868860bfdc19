import Ripclone.Client.FullRefs
import Ripclone.Client.Workers

/-!
# What a clone starts

The job of `materialize`, for every plan: which tasks, blocking workers and git children it starts,
in what order, and what it holds while it waits. Most are held by guards, so the clone's reaper waits
for them. A few blocking calls are only awaited: the pack installs of a clone with a refs base, the
write of a prebuilt multi-pack-index, the side pack install and the write of the refs.

What the job does next depends on what it downloaded and on what git and the clone's object database
answer on the way.
-/

namespace Ripclone.Client

open Ripclone.Library Ripclone.Server

/-- The ready output a clone installs. -/
inductive Plan where
  | files (output : RefResponse)
  /-- The working tree of the pinned commit from its ready Head, while its Files is pending. -/
  | filesFromHead (output : RefResponse)
  | head (output : RefResponse)
  | full (output : RefResponse)
  /-- Full of an older commit; the pinned commit is fetched on top. -/
  | topUp (base : RefResponse)

def Plan.exact (output : RefResponse) : Plan :=
  match output.kind with
  | .files => .files output
  | .head => .head output
  | .full => .full output

def Plan.output : Plan → RefResponse
  | files output | filesFromHead output | head output | full output | topUp output => output

/-- What a clone is asked to install. -/
structure Install where
  plan : Plan
  /-- The pinned commit. -/
  commit : String
  singleBranch : Bool
  /-- Whether the pin tracks the default branch. -/
  defaultBranch : Bool
  /-- The branch tip the caller read from upstream. -/
  upstreamTip : Option String

/-- What git and the clone's object database answer on the way. -/
structure Answers where
  /-- `Present::scan` of a clone that takes every branch. -/
  present (id : String) : Bool
  /-- `Present::scan` of `install_tags`. -/
  scanned (id : String) : Bool
  isCommit (id : String) : Bool
  /-- Whether the tip's tree holds the object. -/
  inTree (id : String) : Bool
  /-- Whether the tip reaches the tag's target. -/
  reached (tag : KeptTag) : Bool
  /-- Whether the installed objects are part of the history of a commit fetched on top. -/
  isAncestor : Bool
  /-- Whether the history the clone installs in place of its own holds its commit. -/
  held : Bool
  /-- Whether a prebuilt multi-pack-index was downloaded. -/
  midx : Bool
  /-- Whether the refs could be fetched from upstream. -/
  fetched : Bool
  /-- Whether `git var` finds a committer. -/
  ident : Bool

namespace Job

/-! ## The parts -/

/-- The files table, with its delta when it has one. -/
def fetchMetadata (output : RefResponse) : Job :=
  if output.metadataDelta = "" then .work else .both .work .work

/-- Each pack into a file in staging, and every idx ahead of them. -/
def fetchPacks (packs : List String) : Job :=
  .both .work (.all (packs.map fun _ => .task .work))

/-- The history packs of a Full but those that are held. -/
def fetchHistoryPacks (manifest : ClonepackManifest) (held : List String) : Job :=
  if historyPacks manifest = [] then .failed
  else fetchPacks ((historyPacks manifest).filter fun pack => decide (pack ∉ held))

/-- A commit's own history, once the idx files of the base's are in. -/
def ownHistory (answers : Answers) (manifest base : ClonepackManifest)
    (built : Option OwnHistoryRef) : Job :=
  .seq .work <|
    if answers.held then .done
    else
      match built with
      | some own => fetchPacks (own.packs.map SidePackRef.pack)
      | none => fetchHistoryPacks manifest (historyPacks base)

/-- The packs, each installed as it lands, and a Head's multi-pack-index. `packDir` says whether the
clone has an object database, `history` whether a Full's history packs are downloaded. -/
def installEditablePacks (answers : Answers) (manifest : ClonepackManifest)
    (packDir history : Bool) : Job :=
  if manifest.packs = [] then .failed
  else
    let full := manifest.packs.any PackEntry.historyOnly
    let headPackDir := packDir && !full
    let wanted := manifest.packs.filter fun entry => !entry.historyOnly || (packDir && history)
    let idxBundle :=
      if headPackDir && manifest.packs.any fun entry => entry.idxBundleOffset.isSome then
        if manifest.idxBundle.isSome then .task .work else .failed
      else .done
    let midx := if headPackDir && manifest.midx.isSome then .task .work else .done
    .seq
      -- each pack is downloaded by one task and installed by a blocking worker
      (.both midx (.seq (.both idxBundle .work)
        (.all (wanted.map fun _ => .seq (.task .work) (.task .work)))))
      (if headPackDir then
        if manifest.midx.isSome && answers.midx then .blocking true -- `tokio::fs::write`
        else .task .work -- `write_multi_pack_index`
      else .done)

/-- `git init` beside `git var`. -/
def initGitDir : Job := .both .git .git

def materializeGit (answers : Answers) (output : RefResponse) (manifest : ClonepackManifest)
    (history : Bool) : Job :=
  .seq (.both (.both .work (fetchMetadata output)) initGitDir)
    (.seq .work (installEditablePacks answers manifest true history))

def materializeTree (answers : Answers) (output : RefResponse) (manifest : ClonepackManifest) : Job :=
  .seq (.both .work (fetchMetadata output))
    (.seq .work (installEditablePacks answers manifest false false))

/-- The bridge and the downloads are held while the manifest and the table come in, and then while
the extractor runs. -/
def materializeFiles (output : RefResponse) : Job :=
  .both (.task .work) (.both (.task .work)
    (.seq (.both (.task .work) (fetchMetadata output)) (.seq .work (.task .work))))

/-- `read-tree`, then the index's stat data. -/
def writeIndex : Job := .seq .git (.task .work)

/-- A fetch, a reset, and the removal of `ORIG_HEAD`. -/
def topUp : Job := .seq .git (.seq .git .work)

/-- A throwaway reflog, read back. -/
def reflogIdent : Job := .seq .git .work

/-- Every branch and tag, then `pack-refs`. Without an upstream URL no child is started; the one here ends
before anything else, like a fetch that fails. -/
def fetchRefs (answers : Answers) : Job := .seq .git (if answers.fetched then .git else .done)

/-- `tags::write`, which writes nothing without refs. -/
def writeTags (tags : List KeptTag) (remotes : List (String × String)) : Job :=
  .blocking !(tags.isEmpty && remotes.isEmpty)

end Job

/-- The tags whose target the clone holds. A depth-1 clone drops those on any commit but the tip. -/
def scannedTags (answers : Answers) (tags : List KeptTag) (tip : Option String) : List KeptTag :=
  tags.filter fun tag => answers.scanned tag.target &&
    tip.all fun tip => tag.target = tip || !answers.isCommit tag.target

/-- A tag on a tree or blob stays only when the tip's tree holds it. -/
def treeTags (answers : Answers) (tags : List KeptTag) (tip : Option String) : List KeptTag :=
  (scannedTags answers tags tip).filter fun tag =>
    tip.all fun tip => tag.target = tip || answers.inTree tag.target

/-- The tags `install_tags` keeps. -/
def keptTags (answers : Answers) (tags : List KeptTag) (reaches : Bool) (tip : Option String) :
    List KeptTag :=
  (treeTags answers tags tip).filter fun tag => !reaches || answers.reached tag

/-- `install_full_refs`' check: the clone holds the commit of every ref. -/
def refsComplete (answers : Answers) (tags : List KeptTag) (branches : Option Branches) : Bool :=
  branches.any (fun branches => branches.base.any answers.present &&
    branches.branches.all fun branch => answers.present branch.2) &&
  tags.all fun tag => answers.present tag.target

namespace Job

/-- The scan, the questions to git, and the write. -/
def installTags (answers : Answers) (tags : List KeptTag) (reaches : Bool) (tip : Option String) :
    Job :=
  .seq (.blocking false)
    (.seq
      (if tip.any fun tip => (scannedTags answers tags tip).any fun tag => tag.target ≠ tip then
        .seq .git .git
      else .done)
      (.seq
        (if reaches && !(treeTags answers tags tip).isEmpty then .seq .work (.seq .git .work)
        else .done)
        (writeTags (keptTags answers tags reaches tip) [])))

/-- The side pack is installed with the scan. Without every ref's commit the refs are fetched, and
what could not be fetched leaves the tags the clone holds. -/
def installFullRefs (answers : Answers) (install : Install) (side : List String)
    (tags : List KeptTag) (branches : Option Branches) (reaches : Bool) : Job :=
  .seq (.blocking !side.isEmpty)
    (if refsComplete answers tags branches then
      writeTags tags ((branches.map Branches.branches).getD [])
    else .seq (fetchRefs answers)
      (if answers.fetched then
        if (branches.bind Branches.defaultBranch).isSome || install.defaultBranch then .git else .done
      else installTags answers tags reaches none))

end Job

namespace Install

variable (install : Install) (a : Artifacts) (answers : Answers)

def output : RefResponse := install.plan.output

def manifest : ClonepackManifest := a.manifest install.output.clonepackManifest

/-- Whether the clone takes every branch. -/
def full : Bool := install.output.kind = .full && !install.singleBranch

/-- The branches of the answer, when the clone takes them. -/
def branches : Option BranchesRef := install.output.branches.filter fun _ => install.full

def refsBase : Option RefResponse :=
  match install.plan with
  | .full output => if install.branches.isSome then output.refsBase else none
  | _ => none

def layers : List String :=
  (install.branches.map fun branches => branches.sidePacks.map SidePackRef.pack).getD []

def tags : List KeptTag := (install.output.tagsArtifact.map a.tags).getD []

/-- The upstream tip, when it is another commit. -/
def moved : Option String := install.upstreamTip.filter fun tip => tip ≠ install.commit

/-- Whether only the tags that the tip reaches stay. -/
def reaches : Bool :=
  !answers.isAncestor &&
    if install.moved.isSome then install.output.kind ≠ .head
    else
      match install.plan with
      | .topUp _ => true
      | _ => false

/-- The tip a depth-1 clone keeps the tags of. -/
def tip : Option String :=
  if install.output.kind = .head then some (install.moved.getD install.commit) else none

/-- What brings the clone to the upstream tip, or a top-up to the pinned commit. -/
def fetchTip : Job :=
  if install.moved.isSome then
    .seq .topUp (if install.output.kind = .head then .done else .git)
  else
    match install.plan with
    | .topUp _ => .seq .topUp .git
    | _ => .done

/-- The objects, the working tree and the index. With a refs base, the packs of its history and of
the clone's own are installed when all are in. -/
def objects : Job :=
  let side : Job := if install.layers = [] then .done else .task (.fetchPacks install.layers)
  match install.refsBase with
  | none =>
    .both side (.seq (.materializeGit answers install.output (install.manifest a) true)
      (.seq .writeIndex (.seq .work install.fetchTip)))
  | some base =>
    let baseManifest := a.manifest base.clonepackManifest
    .seq
      (.both side (.both (.materializeGit answers install.output (install.manifest a) false)
        (.seq .work (.both (.fetchHistoryPacks baseManifest [])
          (.ownHistory answers (install.manifest a) baseManifest install.output.ownHistory)))))
      (.seq (.blocking true) (.seq .writeIndex (.seq .work install.fetchTip)))

/-- The listing the refs are written from. -/
def listing : Option Branches :=
  install.branches.map fun branches => a.branches branches.artifact

/-- The refs. A clone with a refs base has its side layers already. -/
def refs : Job :=
  if install.full then
    .installFullRefs answers install (if install.refsBase.isSome then [] else install.layers)
      (install.tags a) (install.listing a) (install.reaches answers)
  else if install.output.tagsArtifact.isSome then
    .installTags answers (install.tags a) (install.reaches answers) install.tip
  else .done

/-- `materialize`: the refs download alongside the packs, and are written once the objects are in
place. -/
def materialize : Job :=
  match install.plan with
  | .files output => .materializeFiles output
  | .filesFromHead output => .materializeTree answers output (install.manifest a)
  | _ =>
    let tags : Job :=
      -- checked by a blocking call that only reads
      if install.output.tagsArtifact.isSome then .task (.seq .work (.blocking false)) else .done
    let branches : Job := if install.branches.isSome then .task .work else .done
    .seq .work
      (.seq (.both tags (.both branches (install.objects a answers)))
        (.seq (install.refs a answers)
          (.seq .work (.seq (if answers.ident then .done else .reflogIdent) .work))))

/-! ## Which clones register all they start -/

/-- The clone builds its multi-pack-index itself, if it has one. -/
def BuildsMidx : Prop :=
  (install.manifest a).packs = [] ∨ (install.manifest a).packs.any PackEntry.historyOnly = true ∨
    (install.manifest a).midx = none ∨ answers.midx = false

/-- No blocking call has packs of the base or the side layers to install, or refs to write. -/
def WritesNoRefs : Prop :=
  if install.full then
    install.refsBase = none ∧ install.layers = [] ∧
      if refsComplete answers (install.tags a) (install.listing a) then
        install.tags a = [] ∧ ((install.listing a).map Branches.branches).getD [] = []
      else answers.fetched = true ∨
        keptTags answers (install.tags a) (install.reaches answers) none = []
  else keptTags answers (install.tags a) (install.reaches answers) install.tip = []

/-- The clone starts no worker that writes and that its reaper does not know of. -/
def Registers : Prop :=
  match install.plan with
  | .files _ | .filesFromHead _ => True
  | _ => install.BuildsMidx a answers ∧ install.WritesNoRefs a answers

end Install

namespace Job

variable {answers : Answers} {output : RefResponse} {manifest base : ClonepackManifest}

@[simp] theorem guarded_seq (first next : Job) :
    (seq first next).guarded = (first.guarded && next.guarded) := rfl

@[simp] theorem guarded_both (left right : Job) :
    (both left right).guarded = (left.guarded && right.guarded) := rfl

@[simp] theorem guarded_task (body : Job) : (task body).guarded = body.guarded := rfl

@[simp] theorem guarded_blocking (writes : Bool) : (blocking writes).guarded = !writes := rfl

@[simp] theorem guarded_done : done.guarded = true := rfl

@[simp] theorem guarded_failed : failed.guarded = true := rfl

@[simp] theorem guarded_work : work.guarded = true := rfl

@[simp] theorem guarded_git : git.guarded = true := rfl

@[simp] theorem guarded_fetchMetadata : (fetchMetadata output).guarded = true := by
  unfold fetchMetadata
  split <;> rfl

@[simp] theorem guarded_fetchPacks (packs : List String) : (fetchPacks packs).guarded = true := by
  have hall : (all (packs.map fun _ => task work)).guarded = true := by
    apply guarded_all
    intro job hjob
    obtain ⟨_, _, rfl⟩ := List.mem_map.mp hjob
    rfl
  rw [fetchPacks, guarded_both, hall]
  rfl

@[simp] theorem guarded_fetchHistoryPacks (held : List String) :
    (fetchHistoryPacks manifest held).guarded = true := by
  unfold fetchHistoryPacks
  split <;> simp

@[simp] theorem guarded_ownHistory (built : Option OwnHistoryRef) :
    (ownHistory answers manifest base built).guarded = true := by
  unfold ownHistory
  cases answers.held <;> cases built <;> simp

/-- Only the write of a prebuilt multi-pack-index is loose. -/
theorem guarded_installEditablePacks (packDir history : Bool) :
    (installEditablePacks answers manifest packDir history).guarded = true ↔
      packDir = false ∨ manifest.packs = [] ∨ manifest.packs.any PackEntry.historyOnly = true ∨
        manifest.midx = none ∨ answers.midx = false := by
  have hpacks : ∀ packs : List PackEntry,
      (all (packs.map fun _ => seq (task work) (task work))).guarded = true := by
    intro packs
    apply guarded_all
    intro job hjob
    obtain ⟨_, _, rfl⟩ := List.mem_map.mp hjob
    rfl
  have hfetch : ∀ p : Bool, (if p then task work else done : Job).guarded = true := by
    intro p
    cases p <;> rfl
  have hbundle : ∀ p q : Bool,
      (if p then if q then task work else failed else done : Job).guarded = true := by
    intro p q
    cases p <;> cases q <;> rfl
  unfold installEditablePacks
  split
  · next hempty => simp [hempty]
  · next hne =>
      simp only [guarded_seq, guarded_both, guarded_work, hpacks, hfetch, hbundle, Bool.and_self,
        Bool.true_and]
      cases packDir with
      | false => simp
      | true =>
          cases hfull : manifest.packs.any PackEntry.historyOnly with
          | true => simp
          | false => cases manifest.midx <;> cases answers.midx <;> simp [hne]

theorem guarded_materializeGit (history : Bool) :
    (materializeGit answers output manifest history).guarded = true ↔
      manifest.packs = [] ∨ manifest.packs.any PackEntry.historyOnly = true ∨
        manifest.midx = none ∨ answers.midx = false := by
  have hparts : (materializeGit answers output manifest history).guarded =
      (installEditablePacks answers manifest true history).guarded := by
    simp [materializeGit, initGitDir]
  rw [hparts, guarded_installEditablePacks]
  simp

/-- A working tree alone has no multi-pack-index. -/
theorem guarded_materializeTree : (materializeTree answers output manifest).guarded = true := by
  have hinstall : (installEditablePacks answers manifest false false).guarded = true :=
    (guarded_installEditablePacks false false).mpr (.inl rfl)
  simp [materializeTree, hinstall]

theorem guarded_materializeFiles : (materializeFiles output).guarded = true := by
  simp [materializeFiles]

theorem guarded_writeTags (tags : List KeptTag) (remotes : List (String × String)) :
    (writeTags tags remotes).guarded = true ↔ tags = [] ∧ remotes = [] := by
  simp [writeTags]

theorem guarded_installTags (tags : List KeptTag) (reaches : Bool) (tip : Option String) :
    (installTags answers tags reaches tip).guarded = true ↔ keptTags answers tags reaches tip = [] := by
  have hasks : ∀ (p : Bool) (job : Job), job.guarded = true →
      (if p then job else done).guarded = true := by
    intro p job hjob
    cases p
    · rfl
    · exact hjob
  rw [installTags, guarded_seq, guarded_seq, guarded_seq, hasks _ _ rfl, hasks _ _ rfl]
  simp [guarded_writeTags]

theorem guarded_installFullRefs (install : Install) (side : List String) (tags : List KeptTag)
    (branches : Option Branches) (reaches : Bool) :
    (installFullRefs answers install side tags branches reaches).guarded = true ↔
      side = [] ∧ if refsComplete answers tags branches then
        tags = [] ∧ (branches.map Branches.branches).getD [] = []
      else answers.fetched = true ∨ keptTags answers tags reaches none = [] := by
  have hfetch : (fetchRefs answers).guarded = true := by
    unfold fetchRefs
    cases answers.fetched <;> rfl
  have hname : ∀ p : Bool, (if p then git else done : Job).guarded = true := by
    intro p
    cases p <;> rfl
  rw [installFullRefs, guarded_seq, Bool.and_eq_true]
  refine and_congr ?_ ?_
  · cases side <;> simp
  · split
    · exact guarded_writeTags _ _
    · rw [guarded_seq, hfetch, Bool.true_and]
      cases hfetched : answers.fetched with
      | true =>
          simp only [if_true, true_or, iff_true]
          exact hname _
      | false => simp [guarded_installTags]

end Job

namespace Install

variable {install : Install} {a : Artifacts} {answers : Answers}

theorem guarded_fetchTip : install.fetchTip.guarded = true := by
  unfold fetchTip
  split
  · split <;> rfl
  · split <;> rfl

/-- The packs of a refs base are installed by a loose call. -/
theorem guarded_objects : (install.objects a answers).guarded = true ↔
    install.BuildsMidx a answers ∧ install.refsBase = none := by
  have hside : (if install.layers = [] then .done else .task (.fetchPacks install.layers) : Job).guarded
      = true := by
    split <;> simp
  have hindex : Job.writeIndex.guarded = true := rfl
  unfold objects
  cases install.refsBase with
  | none =>
      simp only [Job.guarded_both, Job.guarded_seq, Job.guarded_work, hside, hindex, guarded_fetchTip,
        Bool.and_true, Bool.true_and, and_true]
      exact Job.guarded_materializeGit true
  | some base => simp

theorem refsBase_of_not_full (h : install.full = false) : install.refsBase = none := by
  have hbranches : install.branches = none := by
    unfold branches
    cases install.output.branches <;> simp [h]
  unfold refsBase
  split
  · rw [hbranches]
    rfl
  · rfl

theorem guarded_refs (hbase : install.refsBase = none) :
    (install.refs a answers).guarded = true ↔ install.WritesNoRefs a answers := by
  unfold refs WritesNoRefs
  split
  · rw [Job.guarded_installFullRefs, hbase]
    simp
  · split
    · exact Job.guarded_installTags _ _ _
    · next htags =>
        -- without an artifact there are no tags to keep
        have hnone : install.tags a = [] := by
          rw [tags, Option.not_isSome_iff_eq_none.mp htags]
          rfl
        simp [hnone, keptTags, treeTags, scannedTags]

/-- A clone's job is guarded just when it has no loose worker that writes. -/
theorem guarded_materialize : (install.materialize a answers).guarded = true ↔
    install.Registers a answers := by
  have hopt : ∀ (p : Bool) (job : Job), job.guarded = true →
      (if p then job else .done : Job).guarded = true := by
    intro p job hjob
    cases p
    · rfl
    · exact hjob
  have heditable : ∀ tags branches last : Job, tags.guarded = true → branches.guarded = true →
      last.guarded = true →
      ((Job.seq .work (.seq (.both tags (.both branches (install.objects a answers)))
        (.seq (install.refs a answers) (.seq .work (.seq last .work))))).guarded = true ↔
        install.BuildsMidx a answers ∧ install.WritesNoRefs a answers) := by
    intro tags branches last htags hbranches hlast
    simp only [Job.guarded_seq, Job.guarded_both, Job.guarded_work, htags, hbranches, hlast,
      Bool.and_true, Bool.true_and, Bool.and_eq_true]
    rw [guarded_objects]
    constructor
    · rintro ⟨⟨hmidx, hbase⟩, hrefs⟩
      exact ⟨hmidx, (guarded_refs hbase).mp hrefs⟩
    · rintro ⟨hmidx, hrefs⟩
      have hbase : install.refsBase = none := by
        cases hfull : install.full with
        | true =>
            rw [WritesNoRefs, hfull] at hrefs
            exact hrefs.1
        | false => exact refsBase_of_not_full hfull
      exact ⟨⟨hmidx, hbase⟩, (guarded_refs hbase).mpr hrefs⟩
  have htags := hopt install.output.tagsArtifact.isSome (.task (.seq .work (.blocking false))) rfl
  have hbranches := hopt install.branches.isSome (.task .work) rfl
  have hident : (if answers.ident then .done else Job.reflogIdent : Job).guarded = true := by
    cases answers.ident <;> rfl
  have hall := heditable _ _ _ htags hbranches hident
  unfold materialize Registers
  cases install.plan with
  | files output => simp [Job.guarded_materializeFiles]
  | filesFromHead output => simp [Job.guarded_materializeTree]
  | head _ | full _ | topUp _ => exact hall

end Install

/-! ### Clones of a Head -/

open Cleanup

def headArtifacts : Artifacts where
  manifest _ := {
    commit := "tip"
    parentCommit := none
    metadataChunk := ⟨"table", 10⟩
    metadataDelta := none
    archiveChunks := []
    packs := [⟨⟨"pack", 100⟩, ⟨"idx", 1100⟩, false, none⟩]
    midx := none
    idxBundle := none }
  ids _ := ["tip"]
  branches _ := ⟨none, none, []⟩
  tags hash := if hash = "tags" then [⟨"v1", "tip", "tip", []⟩] else []

def headAnswers : Answers where
  present id := id = "tip"
  scanned id := id = "tip"
  isCommit id := id = "tip"
  inTree _ := false
  reached _ := false
  isAncestor := true
  held := false
  midx := false
  fetched := false
  ident := true

/-- The answer about a Head, with the tags artifact. -/
def headAnswer (tags : Option String) : RefResponse where
  commit := "tip"
  parentCommit := none
  clonepackManifest := "manifest"
  clonepackManifestUrl := none
  metadataChunk := "table"
  metadataChunkUrl := none
  metadataDelta := ""
  metadataDeltaUrl := none
  archiveChunkUrls := none
  packChunkUrls := none
  packIdxUrls := none
  midxUrl := none
  idxBundleUrl := none
  tagsArtifact := tags
  tagsArtifactUrl := none
  branches := none
  refsBase := none
  ownHistory := none
  kind := .head

def headInstall (tags : Option String) : Install where
  plan := .head (headAnswer tags)
  commit := "tip"
  singleBranch := true
  defaultBranch := true
  upstreamTip := none

/-- The clone's job goes on at each of the paths. -/
def goesOn (paths : List (List Job.Side)) : List WorkEvent :=
  paths.map fun path => .advance none path true

/-- A guard's task is over, and joined. -/
def joins (path : List Job.Side) (i : Nat) : List WorkEvent :=
  [.cleanup (.finish i), .cleanup (.join i), .cleanup (.release i), .cleanup (.releaseNotify i),
    .advance none path true]

/-- The clone's task at the path runs and is joined. -/
def taskRuns (path : List Job.Side) (i : Nat) : List WorkEvent :=
  [.advance none path true, .cleanup (.guardStarted i), .advance (some i) [] true] ++ joins path i

/-- The git child at the path runs and is waited for. -/
def gitRuns (path : List Job.Side) (i : Nat) : List WorkEvent :=
  [.advance none path true, .cleanup (.exit i), .cleanup (.waitChild i), .advance none path true]

/-- The clone is dropped while it waits for no guard, and its reaper removes staging. -/
def droppedHere : List WorkEvent :=
  [.abandon none, .cleanup .close, .cleanup .closeNotify, .cleanup .take, .cleanup .loadClosed,
    .cleanup .loadActive, .cleanup .take, .remove]

/-- A Head with a tag on its commit: the clone is dropped while `tags::write` runs. -/
def taggedEvents : List WorkEvent :=
  let git : List Job.Side := [.left, .right, .right, .right]
  let l : Job.Side := .left
  let r : Job.Side := .right
  goesOn [[l], []] ++
  -- the tags are downloaded and checked
  [.advance none [l, l] true, .cleanup (.guardStarted 0), .advance (some 0) [l] true,
    .advance (some 0) [] true, .advance (some 0) [] true, .ended 0, .advance (some 0) [] true] ++
  joins [l, l] 0 ++
  -- the manifest, the table and `git init`
  goesOn [git ++ [l, l, l, l], git ++ [l, l, l, r], git ++ [l, l, l]] ++
  gitRuns (git ++ [l, l, r, l]) 0 ++ gitRuns (git ++ [l, l, r, r]) 1 ++
  goesOn [git ++ [l, l, r], git ++ [l, l], git ++ [l], git ++ [l, l], git ++ [l]] ++
  -- the pack
  goesOn [git ++ [l, l, r, l, r], git ++ [l, l, r, l], git ++ [l, l, r]] ++
  taskRuns (git ++ [l, l, r, l, l]) 1 ++ goesOn [git ++ [l, l, r, l]] ++
  taskRuns (git ++ [l, l, r, l]) 2 ++
  goesOn [git ++ [l, l, r], git ++ [l, l], git ++ [l]] ++
  -- the multi-pack-index and the index
  taskRuns (git ++ [l]) 3 ++ goesOn [git] ++
  gitRuns (git ++ [l, l]) 2 ++ goesOn [git ++ [l]] ++ taskRuns (git ++ [l]) 4 ++
  goesOn [git, git ++ [l], git, [l, r, r], [l, r], [l], []] ++
  -- the tags to keep, and the write of them begins
  goesOn [[l, l]] ++ [.ended 1] ++ goesOn [[l, l], [l], [l], [l], [l]] ++ droppedHere

/-- Without tags: the clone is dropped while `git init` runs. -/
def untaggedEvents : List WorkEvent :=
  goesOn [[.left], [], [.left, .right, .right, .right, .left, .left, .right, .left]] ++
  [.abandon none, .cleanup (.dropChild 0), .cleanup (.pushChild 0), .cleanup (.notifyChild 0),
    .cleanup .close, .cleanup .closeNotify, .cleanup .take, .cleanup (.exit 0),
    .cleanup (.resolve (.child 0)), .cleanup .joinAll, .cleanup .take, .cleanup .loadClosed,
    .cleanup .loadActive, .cleanup .take, .remove]

end Ripclone.Client
