import Ripclone.Server.Api
import Ripclone.Server.SideClosure

/-!
# The refs of a full clone

A full clone installs the history packs of one Full, or those of the Full the response names as the
base of its refs with its own history beside them, then the side pack's layers, and may fetch a
newer commit on top. It writes every branch and tag from the server's artifacts when it holds the
default branch's commit and the commit of every ref, and otherwise fetches them from upstream.

What a clone holds is read off the idx files of its packs, object by object. A layer holds the
history of its objects only down to the side base, so whether the refs are whole depends on the side
base, which the check does not look at.
-/

namespace Ripclone.Client

open Ripclone.Library Ripclone.Control Ripclone.Server

/-- A tag of a checked tags artifact. -/
structure KeptTag where
  name : String
  object : String
  /-- The id it peels to. -/
  target : String
  /-- The tag objects it peels through, none for a lightweight tag. -/
  chain : List String
  deriving DecidableEq, Repr

/-- What storage holds under the names of a response. -/
structure Artifacts where
  manifest (hash : String) : ClonepackManifest
  /-- The ids a pack's idx lists. -/
  ids (pack : String) : List String
  branches (hash : String) : Branches
  tags (hash : String) : List KeptTag

/-- Whether the ready Full is installed as it is, or for a commit to be fetched on top. -/
inductive FullPlan where
  | full
  | topUp
  deriving DecidableEq, Repr

/-- A full clone that takes every branch. -/
structure FullClone where
  plan : FullPlan
  output : RefResponse
  /-- The commit fetched from upstream, and the objects the fetch brought. -/
  fetched : Option (String × List String)

/-- The packs of a Full's history, by hash. -/
def historyPacks (manifest : ClonepackManifest) : List String :=
  (manifest.packs.filter fun entry => entry.historyOnly).map fun entry => entry.pack.hash

/-- The Head packs that stay in the object database: a Full's are only those at `keep`. -/
def keptPacks (manifest : ClonepackManifest) (keep : List Nat) : List String :=
  let full := manifest.packs.any fun entry => entry.historyOnly
  (manifest.packs.zipIdx.filter fun (entry, i) =>
    !entry.historyOnly && (!full || decide (i ∈ keep))).map fun (entry, _) => entry.pack.hash

def sideLayers (output : RefResponse) : List String :=
  (output.branches.map fun branches => branches.sidePacks.map SidePackRef.pack).getD []

namespace FullClone

variable (a : Artifacts) (clone : FullClone)

/-- The checked-out commit. -/
def commit : String := (clone.fetched.map Prod.fst).getD clone.output.commit

/-- The Full whose history is installed in place of the commit's own. -/
def refsBase : Option RefResponse :=
  match clone.plan with
  | .full => if clone.output.branches.isSome then clone.output.refsBase else none
  | .topUp => none

def manifest : ClonepackManifest := a.manifest clone.output.clonepackManifest

/-- The commit's own history, which the base's packs and the side layers lack: what the server built
of it, or else its Full's history packs but for those the base lists too. -/
def ownHistory (base : RefResponse) : List String :=
  let listed := historyPacks (a.manifest base.clonepackManifest)
  if clone.output.commit ∈ (listed ++ sideLayers clone.output).flatMap a.ids then []
  else
    match clone.output.ownHistory with
    | some built => built.packs.map SidePackRef.pack
    | none => (historyPacks (clone.manifest a)).filter fun pack => decide (pack ∉ listed)

/-- The packs installed for the history. -/
def historyInstalled : List String :=
  match clone.refsBase with
  | none => keptPacks (clone.manifest a) [] ++ historyPacks (clone.manifest a)
  | some base =>
    keptPacks (clone.manifest a) ((clone.output.ownHistory.map OwnHistoryRef.headPacks).getD []) ++
      historyPacks (a.manifest base.clonepackManifest) ++ clone.ownHistory a base

/-- The objects `Present::scan` finds. -/
def present : List String :=
  (clone.historyInstalled a ++ sideLayers clone.output).flatMap a.ids ++
    (clone.fetched.map Prod.snd).getD []

def branches : Option Branches :=
  clone.output.branches.map fun branches => a.branches branches.artifact

def tags : List KeptTag := (clone.output.tagsArtifact.map a.tags).getD []

/-- Whether the refs are written from the artifacts. -/
def complete : Bool :=
  ((clone.branches a).any fun branches =>
    branches.base.any (fun base => decide (base ∈ clone.present a)) &&
      branches.branches.all fun branch => decide (branch.2 ∈ clone.present a)) &&
  (clone.tags a).all fun tag => decide (tag.target ∈ clone.present a)

/-- What the refs that `tags::write` writes name. -/
def refs : List String :=
  ((clone.branches a).map fun branches => branches.branches.map Prod.snd).getD [] ++
    (clone.tags a).map KeptTag.object

/-- Every object of the clone, the tag objects written with the refs included. -/
def stored : List String := clone.present a ++ (clone.tags a).flatMap KeptTag.chain

/-- The clone holds every object its commit and its refs lead to. -/
def Whole (child : String → String → Prop) : Prop :=
  ∀ tip ∈ clone.commit :: clone.refs a, ∀ id ∈ Reach child tip, id ∈ clone.stored a

end FullClone

/-! ## What the parts promise -/

section Promises

variable (child : String → String → Prop) (a : Artifacts)

def Artifacts.objects (pack : String) : Set String := {id | id ∈ a.ids pack}

/-- Every object the packs hold. -/
def Artifacts.held (packs : List String) : Set String := {id | id ∈ packs.flatMap a.ids}

/-- A Full's history packs hold its commit's history, and its own history what a base lacks of it.
Whatever a history pack holds comes with its own history. -/
structure HoldsHistory (row : BuildRow) (full : FullResult) : Prop where
  commit : full.clonepack.commit = row.commitId
  history : row.commitId ∈ a.held (historyPacks (a.manifest full.clonepack.manifest))
  closed : ClosedOver child ∅ (a.held (historyPacks (a.manifest full.clonepack.manifest)))
  own : ∀ own ∈ full.ownHistory,
    let packs := own.packs.map SizedPack.pack ++
      keptPacks (a.manifest full.clonepack.manifest) own.headPacks
    a.held packs ⊆ Reach child row.commitId ∧
      Reach child row.commitId ⊆ Reach child own.base ∪ a.held packs

/-- A request reads the repository's row of refs or nothing, and its builds. The mirror answers yes
only about ancestors. -/
structure Reads (s : RefsState) (state : ApiState) : Prop where
  refs : ∀ stored ∈ state.refs, s.stored = some stored
  ancestor : ∀ {base commit}, state.inHistory base commit = true → base ∈ Reach child commit
  status : ∀ {commit row}, state.status commit = .ok (some row) → row.commitId = commit
  full : ∀ {commit row full}, state.status commit = .ok (some row) →
    readyFull row.full = some full → HoldsHistory child a row full

/-- The tag objects lead one to the next, each to nothing else, and the last to the target. -/
def Peels : String → List String → String → Prop
  | object, [], target => object = target
  | object, id :: chain, target =>
    object = id ∧ ∃ next, (∀ x, child id x → x = next) ∧ Peels next chain target

/-- A fetch brings the whole history of its commit, with what the clone holds already. -/
def Fetched (clone : FullClone) : Prop :=
  ∀ fetched ∈ clone.fetched, (∀ id ∈ fetched.2, id ∈ Reach child fetched.1) ∧
    ∀ id ∈ Reach child fetched.1, id ∈ clone.present a

end Promises

variable {child : String → String → Prop} {a : Artifacts}

/-- All that leads on from a peeled tag leads on from its target. -/
theorem Peels.reach {object target : String} {chain : List String}
    (h : Peels child object chain target) :
    Reach child object ⊆ {id | id ∈ chain} ∪ Reach child target := by
  induction chain generalizing object with
  | nil =>
      obtain rfl := h
      exact Set.subset_union_right
  | cons tag chain ih =>
      obtain ⟨rfl, next, honly, hrest⟩ := h
      intro id hid
      rcases Relation.ReflTransGen.cases_head hid with rfl | ⟨x, hx, hid⟩
      · exact .inl List.mem_cons_self
      · obtain rfl := honly x hx
        rcases ih hrest hid with hid | hid
        · exact .inl (List.mem_cons_of_mem _ hid)
        · exact .inr hid

theorem Artifacts.held_append {packs rest : List String} :
    a.held (packs ++ rest) = a.held packs ∪ a.held rest := by
  ext id
  simp [Artifacts.held]

theorem Artifacts.held_mono {packs rest : List String} (h : packs ⊆ rest) :
    a.held packs ⊆ a.held rest := by
  intro id hid
  obtain ⟨pack, hpack, hid⟩ := List.mem_flatMap.mp hid
  exact List.mem_flatMap.mpr ⟨pack, h hpack, hid⟩

theorem sidePacked_eq_held (packs : List SidePack) :
    sidePacked a.objects packs = a.held (packs.map SidePack.pack) := by
  ext id
  simp [sidePacked, Library.held, Artifacts.held, Artifacts.objects]

/-- A manifest with history packs keeps no Head pack that is not asked for. -/
theorem keptPacks_nil {manifest : ClonepackManifest} {id : String}
    (h : id ∈ a.held (historyPacks manifest)) : keptPacks manifest [] = [] := by
  obtain ⟨pack, hpack, _⟩ := List.mem_flatMap.mp h
  obtain ⟨entry, hentry, _⟩ := List.mem_map.mp hpack
  obtain ⟨hmem, hhistory⟩ := List.mem_filter.mp hentry
  have hfull : (manifest.packs.any fun entry => entry.historyOnly) = true :=
    List.any_eq_true.mpr ⟨entry, hmem, hhistory⟩
  simp [keptPacks, hfull]

/-! ## What a response names -/

section Response

variable {state : ApiState} {row : BuildRow} {output : RefResponse} {served : ApiState.Served}

theorem refResponse_full {refs : Option RepoRefs} (h : state.refResponse row refs .full = some output) :
    ∃ full, readyFull row.full = some full ∧ output.commit = full.clonepack.commit ∧
      output.clonepackManifest = full.clonepack.manifest := by
  obtain ⟨artifacts, hartifacts, rfl⟩ := Option.map_eq_some_iff.mp h
  obtain ⟨full, hfull, rfl⟩ := Option.map_eq_some_iff.mp hartifacts
  exact ⟨full, hfull, rfl, rfl⟩

theorem servedBody_full (h : state.servedBody row served = some output) :
    ∃ full, readyFull row.full = some full ∧ output.commit = full.clonepack.commit ∧
      output.clonepackManifest = full.clonepack.manifest := by
  obtain ⟨result, hresult, rfl⟩ := Option.map_eq_some_iff.mp h
  obtain ⟨full, hfull, hcommit, hmanifest⟩ := refResponse_full hresult
  refine ⟨full, hfull, ?_⟩
  split <;> exact ⟨hcommit, hmanifest⟩

/-- A response that names branches names those that are served. -/
theorem servedBody_branches {named : BranchesRef} (h : state.servedBody row served = some output)
    (hnamed : output.branches = some named) :
    ∃ branches, served.refs.branches = some branches ∧ named.artifact = branches.artifact ∧
      named.sidePacks.map SidePackRef.pack = branches.sidePacks.map SidePack.pack := by
  obtain ⟨result, hresult, rfl⟩ := Option.map_eq_some_iff.mp h
  have hbranches : result.branches = some named := by
    rw [← hnamed]
    split <;> rfl
  obtain ⟨artifacts, _, rfl⟩ := Option.map_eq_some_iff.mp hresult
  obtain ⟨branches, hfound, rfl⟩ := Option.map_eq_some_iff.mp hbranches
  refine ⟨branches, (Option.filter_eq_some_iff.mp hfound).1, rfl, ?_⟩
  rw [List.map_map]
  rfl

/-- A refs base that a response names is the ready Full of the row it is served with. -/
theorem servedBody_refsBase {base : RefResponse} (h : state.servedBody row served = some output)
    (hbase : output.refsBase = some base) :
    ∃ baseRow, served.base = some baseRow ∧
      state.refResponse baseRow (some served.refs) .full = some base ∧
      output.ownHistory = state.ownHistory row baseRow.commitId := by
  obtain ⟨result, hresult, rfl⟩ := Option.map_eq_some_iff.mp h
  split at hbase
  · obtain ⟨artifacts, _, rfl⟩ := Option.map_eq_some_iff.mp hresult
    cases hbase
  · next baseRow hserved =>
      exact ⟨baseRow, hserved, hbase, rfl⟩

theorem ownHistory_some {base : String} {built : OwnHistoryRef}
    (h : state.ownHistory row base = some built) :
    ∃ full own, readyFull row.full = some full ∧ full.ownHistory = some own ∧
      built.packs.map SidePackRef.pack = own.packs.map SizedPack.pack ∧
      built.headPacks = own.headPacks ∧ (own.base = base ∨ state.inHistory own.base base = true) := by
  obtain ⟨own, hown, h⟩ := Option.bind_eq_some_iff.mp h
  obtain ⟨full, hfull, hown⟩ := Option.bind_eq_some_iff.mp hown
  split at h
  · cases h
  · next hheld =>
      obtain rfl := Option.some.inj h
      refine ⟨full, own, hfull, hown, by rw [List.map_map]; rfl, rfl, ?_⟩
      by_cases hbase : own.base = base
      · exact .inl hbase
      · exact .inr (by simpa [hbase] using hheld)

end Response

/-! ## What a clone holds -/

section Installed

variable {s : RefsState} {state : ApiState} {row : BuildRow} {served : ApiState.Served} {clone : FullClone}
  {under : Set String}

/-- A clone that installs its own Full's history. -/
theorem own_installed (hrow : ∀ full ∈ readyFull row.full, HoldsHistory child a row full)
    (hbody : state.servedBody row served = some clone.output) (hbase : clone.refsBase = none) :
    ClosedOver child ∅ (a.held (clone.historyInstalled a)) ∧
      clone.output.commit ∈ a.held (clone.historyInstalled a) := by
  obtain ⟨full, hfull, hcommit, hmanifest⟩ := servedBody_full hbody
  have hholds := hrow full hfull
  have hinstalled : clone.historyInstalled a =
      historyPacks (a.manifest full.clonepack.manifest) := by
    rw [FullClone.historyInstalled, hbase]
    show keptPacks (a.manifest clone.output.clonepackManifest) [] ++
      historyPacks (a.manifest clone.output.clonepackManifest) = _
    rw [hmanifest, keptPacks_nil hholds.history, List.nil_append]
  rw [hinstalled, hcommit, hholds.commit]
  exact ⟨hholds.closed, hholds.history⟩

/-- The base's history is closed, holds the base, and the own history is built for it. -/
theorem refsBase_served (hreads : Reads child a s state)
    (hserved : state.servedRefs row = .ok (some served))
    (hbody : state.servedBody row served = some clone.output) {base : RefResponse}
    (hbase : clone.refsBase = some base) :
    ∃ baseRow, served.base = some baseRow ∧
      ClosedOver child ∅ (a.held (historyPacks (a.manifest base.clonepackManifest))) ∧
      baseRow.commitId ∈ a.held (historyPacks (a.manifest base.clonepackManifest)) ∧
      clone.output.ownHistory = state.ownHistory row baseRow.commitId := by
  have hnamed : clone.output.refsBase = some base := by
    rw [FullClone.refsBase] at hbase
    split at hbase
    · split at hbase
      · exact hbase
      · cases hbase
    · cases hbase
  obtain ⟨baseRow, hbaseRow, hresponse, hown⟩ := servedBody_refsBase hbody hnamed
  obtain ⟨_, _, _, hstatus⟩ := ApiState.servedRefs_ok hserved
  obtain ⟨baseCommit, _, hstatus, _⟩ := hstatus baseRow hbaseRow
  obtain ⟨full, hfull, _, hmanifest⟩ := refResponse_full hresponse
  have hholds := hreads.full hstatus hfull
  rw [hmanifest]
  exact ⟨baseRow, hbaseRow, hholds.closed, hholds.history, hown⟩

/-- The packs of the commit's own history. -/
def FullClone.ownInstalled (a : Artifacts) (clone : FullClone) (base : RefResponse) : List String :=
  keptPacks (clone.manifest a) ((clone.output.ownHistory.map OwnHistoryRef.headPacks).getD []) ++
    clone.ownHistory a base

/-- The base's history and the layers, as `own_history` looks for the commit in them. -/
def FullClone.below (a : Artifacts) (clone : FullClone) (base : RefResponse) : List String :=
  historyPacks (a.manifest base.clonepackManifest) ++ sideLayers clone.output

variable {base : RefResponse}

theorem ownHistory_found (h : clone.output.commit ∈ a.held (clone.below a base)) :
    clone.ownHistory a base = [] := if_pos h

theorem ownHistory_missing (h : clone.output.commit ∉ a.held (clone.below a base)) :
    clone.ownHistory a base =
      match clone.output.ownHistory with
      | some built => built.packs.map SidePackRef.pack
      | none => (historyPacks (clone.manifest a)).filter fun pack =>
          decide (pack ∉ historyPacks (a.manifest base.clonepackManifest)) := if_neg h

/-- The own history the server built, of which the base's history has the rest. -/
theorem built_beside {full : FullResult} {own : OwnHistory} {built : OwnHistoryRef}
    (hholds : HoldsHistory child a row full) (hcommit : clone.output.commit = row.commitId)
    (hmanifest : clone.manifest a = a.manifest full.clonepack.manifest)
    (hown : full.ownHistory = some own) (hbuilt : clone.output.ownHistory = some built)
    (hpacks : built.packs.map SidePackRef.pack = own.packs.map SizedPack.pack)
    (hheads : built.headPacks = own.headPacks)
    (hbase : Reach child own.base ⊆ a.held (clone.below a base))
    (hbelow : ClosedOver child under (a.held (clone.below a base))) :
    ClosedOver child (under ∪ a.held (clone.below a base)) (a.held (clone.ownInstalled a base)) ∧
      Reach child clone.output.commit ⊆
        under ∪ a.held (clone.below a base) ∪ a.held (clone.ownInstalled a base) := by
  obtain ⟨hsub, hreach⟩ := hholds.own own hown
  have hinstalled : clone.ownInstalled a base =
      keptPacks (a.manifest full.clonepack.manifest) own.headPacks ++ clone.ownHistory a base := by
    simp only [FullClone.ownInstalled, hmanifest, hbuilt, Option.map_some, Option.getD_some, hheads]
  have hcovered : Reach child clone.output.commit ⊆
      under ∪ a.held (clone.below a base) ∪ a.held (clone.ownInstalled a base) := by
    intro id hid
    by_cases hfound : clone.output.commit ∈ a.held (clone.below a base)
    · exact .inl (hbelow _ hfound hid)
    · have hpacked : clone.ownHistory a base = own.packs.map SizedPack.pack := by
        rw [← hpacks, ownHistory_missing hfound, hbuilt]
      rw [hcommit] at hid
      rcases hreach hid with hid | hid
      · exact .inl (.inr (hbase hid))
      · refine .inr (Artifacts.held_mono (fun pack hpack => ?_) hid)
        rw [hinstalled, hpacked]
        exact List.mem_append.mpr (List.mem_append.mp hpack).symm
  refine ⟨fun id hid => ?_, hcovered⟩
  have hmem : id ∈ Reach child clone.output.commit := by
    rw [hcommit]
    refine hsub (Artifacts.held_mono (fun pack hpack => ?_) hid)
    rw [hinstalled] at hpack
    rcases List.mem_append.mp hpack with hpack | hpack
    · exact List.mem_append_right _ hpack
    · rw [FullClone.ownHistory] at hpack
      split at hpack
      · cases hpack
      · simp only [hbuilt, hpacks] at hpack
        exact List.mem_append_left _ hpack
  exact (reach_subset hmem).trans hcovered

/-- The commit's Full in place of an own history, less the levels the base lists too. -/
theorem unbuilt_beside {full : FullResult} (hholds : HoldsHistory child a row full)
    (hcommit : clone.output.commit = row.commitId)
    (hmanifest : clone.manifest a = a.manifest full.clonepack.manifest)
    (hbuilt : clone.output.ownHistory = none)
    (hbelow : ClosedOver child under (a.held (clone.below a base))) :
    ClosedOver child (under ∪ a.held (clone.below a base)) (a.held (clone.ownInstalled a base)) ∧
      Reach child clone.output.commit ⊆
        under ∪ a.held (clone.below a base) ∪ a.held (clone.ownInstalled a base) := by
  have hinstalled : clone.ownInstalled a base = clone.ownHistory a base := by
    rw [FullClone.ownInstalled, hbuilt, hmanifest]
    show keptPacks _ [] ++ _ = _
    rw [keptPacks_nil hholds.history, List.nil_append]
  rw [hinstalled]
  by_cases hfound : clone.output.commit ∈ a.held (clone.below a base)
  · rw [ownHistory_found hfound]
    refine ⟨fun id hid => (List.not_mem_nil hid).elim, fun id hid => .inl (hbelow _ hfound hid)⟩
  · have hown : clone.ownHistory a base =
        (historyPacks (a.manifest full.clonepack.manifest)).filter fun pack =>
          decide (pack ∉ historyPacks (a.manifest base.clonepackManifest)) := by
      rw [← hmanifest, ownHistory_missing hfound, hbuilt]
    rw [hown]
    have hcovered : ∀ id ∈ a.held (historyPacks (a.manifest full.clonepack.manifest)),
        id ∈ under ∪ a.held (clone.below a base) ∪
          a.held ((historyPacks (a.manifest full.clonepack.manifest)).filter fun pack =>
            decide (pack ∉ historyPacks (a.manifest base.clonepackManifest))) := by
      intro id hid
      obtain ⟨pack, hpack, hid⟩ := List.mem_flatMap.mp hid
      by_cases hboth : pack ∈ historyPacks (a.manifest base.clonepackManifest)
      · exact .inl (.inr (List.mem_flatMap.mpr ⟨pack, List.mem_append_left _ hboth, hid⟩))
      · refine .inr (List.mem_flatMap.mpr ⟨pack, ?_, hid⟩)
        exact List.mem_filter.mpr ⟨hpack, decide_eq_true hboth⟩
    have hwhole : ∀ id ∈ a.held (historyPacks (a.manifest full.clonepack.manifest)),
        Reach child id ⊆ under ∪ a.held (clone.below a base) ∪
          a.held ((historyPacks (a.manifest full.clonepack.manifest)).filter fun pack =>
            decide (pack ∉ historyPacks (a.manifest base.clonepackManifest))) :=
      fun id hid id' hid' => hcovered id' ((hholds.closed id hid hid').resolve_left False.elim)
    refine ⟨fun id hid => hwhole id (Artifacts.held_mono List.filter_sublist.subset hid), ?_⟩
    rw [hcommit]
    exact hwhole _ hholds.history

/-- A clone that installs the history of its refs base, with its own history beside it. -/
theorem base_installed (hreads : Reads child a s state)
    (hrow : ∀ full ∈ readyFull row.full, HoldsHistory child a row full)
    (hserved : state.servedRefs row = .ok (some served))
    (hbody : state.servedBody row served = some clone.output)
    (hbase : clone.refsBase = some base)
    (hside : ClosedOver child under (a.held (sideLayers clone.output))) :
    ClosedOver child under (a.held (clone.historyInstalled a ++ sideLayers clone.output)) ∧
      Reach child clone.output.commit ⊆
        under ∪ a.held (clone.historyInstalled a ++ sideLayers clone.output) := by
  obtain ⟨full, hfull, hcommit, hmanifest⟩ := servedBody_full hbody
  have hholds := hrow full hfull
  rw [hholds.commit] at hcommit
  obtain ⟨baseRow, _, hclosed, hhistory, hownRef⟩ := refsBase_served hreads hserved hbody hbase
  have hbelow : ClosedOver child under (a.held (clone.below a base)) := by
    rw [FullClone.below, Artifacts.held_append]
    exact (hclosed.mono (Set.empty_subset _)).union hside
  have hinstalled : a.held (clone.historyInstalled a ++ sideLayers clone.output) =
      a.held (clone.below a base) ∪ a.held (clone.ownInstalled a base) := by
    rw [FullClone.historyInstalled, hbase]
    simp only [FullClone.below, FullClone.ownInstalled, Artifacts.held_append]
    ext id
    simp only [Set.mem_union]
    tauto
  have hman : clone.manifest a = a.manifest full.clonepack.manifest := by
    rw [FullClone.manifest, hmanifest]
  rw [hinstalled, ← Set.union_assoc]
  cases hbuilt : clone.output.ownHistory with
  | none =>
      obtain ⟨hown, hreach⟩ := unbuilt_beside hholds hcommit hman hbuilt hbelow
      exact ⟨hbelow.extend hown, hreach⟩
  | some built =>
      rw [hbuilt] at hownRef
      obtain ⟨full', own, hfull', hownHistory, hpacks, hheads, hownBase⟩ :=
        ownHistory_some hownRef.symm
      obtain rfl := Option.some.inj (hfull.symm.trans hfull')
      have hin : own.base ∈ Reach child baseRow.commitId := by
        rcases hownBase with heq | hancestor
        · rw [heq]
          exact mem_reach_self
        · exact hreads.ancestor hancestor
      -- what the own history leaves out is in the base's
      have hrest : Reach child own.base ⊆ a.held (clone.below a base) := by
        intro id hid
        rw [FullClone.below, Artifacts.held_append]
        exact .inl ((hclosed _ hhistory (reach_subset hin hid)).resolve_left False.elim)
      obtain ⟨hown, hreach⟩ :=
        built_beside hholds hcommit hman hownHistory hbuilt hpacks hheads hrest hbelow
      exact ⟨hbelow.extend hown, hreach⟩

/-- What the packs of a clone hold leads to what they hold, and into the side base's history. -/
theorem installed_closed (hreads : Reads child a s state)
    (hrow : ∀ full ∈ readyFull row.full, HoldsHistory child a row full)
    (hserved : state.servedRefs row = .ok (some served))
    (hbody : state.servedBody row served = some clone.output)
    (hside : ClosedOver child under (a.held (sideLayers clone.output))) :
    ClosedOver child under (a.held (clone.historyInstalled a ++ sideLayers clone.output)) ∧
      Reach child clone.output.commit ⊆
        under ∪ a.held (clone.historyInstalled a ++ sideLayers clone.output) := by
  cases hbase : clone.refsBase with
  | some base => exact base_installed hreads hrow hserved hbody hbase hside
  | none =>
      obtain ⟨hclosed, hcommit⟩ := own_installed hrow hbody hbase
      rw [Artifacts.held_append]
      refine ⟨(hclosed.mono (Set.empty_subset _)).union hside, fun id hid => ?_⟩
      exact .inr (.inl ((hclosed _ hcommit hid).resolve_left False.elim))

theorem mem_present {id : String} : id ∈ clone.present a ↔
    id ∈ a.held (clone.historyInstalled a ++ sideLayers clone.output) ∨
      ∃ fetched ∈ clone.fetched, id ∈ fetched.2 := by
  rw [FullClone.present, List.mem_append]
  refine or_congr_right ?_
  cases clone.fetched <;> simp

/-- A fetch adds whole histories only. -/
theorem present_closed (hfetched : Fetched child a clone)
    (hclosed : ClosedOver child under
      (a.held (clone.historyInstalled a ++ sideLayers clone.output))) :
    ClosedOver child under {id | id ∈ clone.present a} := by
  intro id hid id' hid'
  rcases mem_present.mp hid with hid | ⟨fetched, hmem, hid⟩
  · rcases hclosed id hid hid' with hid' | hid'
    · exact .inl hid'
    · exact .inr (mem_present.mpr (.inl hid'))
  · obtain ⟨hreach, hall⟩ := hfetched fetched hmem
    exact .inr (hall id' (reach_subset (hreach id hid) hid'))

end Installed

/-! ## The check -/

section Complete

variable {s : RefsState} {state : ApiState} {row : BuildRow} {served : ApiState.Served}
  {clone : FullClone} {hash : String → String}

theorem complete_iff : clone.complete a = true ↔
    (∃ branches, clone.branches a = some branches ∧
      (∃ base, branches.base = some base ∧ base ∈ clone.present a) ∧
      ∀ branch ∈ branches.branches, branch.2 ∈ clone.present a) ∧
    ∀ tag ∈ clone.tags a, tag.target ∈ clone.present a := by
  simp only [FullClone.complete, Bool.and_eq_true, Option.any_eq_true, List.all_eq_true,
    decide_eq_true_eq]

/-- The default branch's commit is that of a listed branch. -/
theorem base_listed {refs : MirrorRefs} {base : String} (h : refs.base = some base) :
    ∃ branch ∈ refs.branches, branch.2 = base := by
  obtain ⟨name, _, hfound⟩ := Option.bind_eq_some_iff.mp h
  obtain ⟨branch, hbranch, hcommit⟩ := Option.map_eq_some_iff.mp hfound
  exact ⟨branch, List.mem_of_find?_eq_some hbranch, hcommit⟩

/-- In every state the repository's refs can be in, for every answer a Full gets and every clone of
it that writes its refs from the artifacts, installed as it is or with a commit fetched on top: the
clone holds all that its commit and its refs lead to exactly when it holds all that the side base of
the served branches leads to. -/
theorem full_clone_whole_iff (hinj : Function.Injective hash) {es : List RefsEvent}
    (hrun : Run (PublishStep a.objects child hash a.branches) RefsState.init es s)
    (hreads : Reads child a s state)
    (hrow : ∀ full ∈ readyFull row.full, HoldsHistory child a row full)
    (htags : ∀ artifact, ∀ tag ∈ a.tags artifact, Peels child tag.object tag.chain tag.target)
    (hbody : state.readyBody row .full = .ok (some clone.output))
    (hserved : state.servedRefs row = .ok (some served)) (hfetched : Fetched child a clone)
    (hcomplete : clone.complete a = true) :
    clone.Whole a child ↔ ∀ branches ∈ served.refs.branches, ∀ sideBase ∈ branches.sideBase,
      ∀ id ∈ Reach child sideBase, id ∈ clone.stored a := by
  obtain ⟨served', hserved', hanswer⟩ := ApiState.readyBody_full hbody
  obtain rfl := Except.ok.inj (hserved.symm.trans hserved')
  have hanswer : state.servedBody row served = some clone.output := by
    rcases hanswer with ⟨hnone, _⟩ | ⟨refs, hrefs, hanswer⟩
    · cases hnone
    · obtain rfl := Option.some.inj hrefs
      exact hanswer
  obtain ⟨⟨listed, hlisted, ⟨base, hbase, _⟩, hbranches⟩, htargets⟩ := complete_iff.mp hcomplete
  obtain ⟨named, hnamed, rfl⟩ := Option.map_eq_some_iff.mp hlisted
  obtain ⟨branches, hfound, hartifact, hpacks⟩ := servedBody_branches hanswer hnamed
  obtain ⟨stored, hstored, hrowed, _⟩ := ApiState.servedRefs_ok hserved
  obtain ⟨refs, hlayered, hlisting⟩ :=
    (published_named hinj hrun).1 stored (hreads.refs stored hstored) branches (hrowed branches hfound)
  have hrefs : a.branches named.artifact = refs.build := hartifact ▸ hlisting
  rw [hrefs] at hbase hbranches
  have hbranchesBase : branches.base = some base := hlayered.base.trans hbase
  obtain ⟨sideBase, hsideBase, hforward⟩ := hlayered.layers.forward base hbase
  -- the layers of the response are those of the row
  have hlayers : a.held (sideLayers clone.output) = sidePacked a.objects branches.sidePacks := by
    rw [sidePacked_eq_held, ← hpacks, sideLayers, hnamed]
    rfl
  have hside : ClosedOver child (Reach child sideBase) (a.held (sideLayers clone.output)) := by
    have hclosed := hlayered.closed
    rw [SideClosed, Option.mem_def.mp hsideBase] at hclosed
    rw [hlayers]
    exact hclosed
  obtain ⟨hinstalled, hcommit⟩ := installed_closed hreads hrow hserved hanswer hside
  have hpresent := present_closed hfetched hinstalled
  have hstoredOf : ∀ {id}, id ∈ clone.present a → id ∈ clone.stored a :=
    fun hid => List.mem_append_left _ hid
  constructor
  · intro hwhole branches' hbranches' sideBase' hsideBase' id hid
    obtain rfl := Option.some.inj (hfound.symm.trans hbranches')
    obtain rfl := Option.some.inj (hsideBase.symm.trans hsideBase')
    obtain ⟨branch, hbranch, rfl⟩ := base_listed hbase
    refine hwhole branch.2 (List.mem_cons_of_mem _ ?_) id (reach_subset hforward hid)
    refine List.mem_append_left _ ?_
    rw [hlisted, hrefs]
    exact List.mem_map_of_mem hbranch
  · intro hbelow
    have hheld : ∀ {tip id}, tip ∈ clone.present a → id ∈ Reach child tip → id ∈ clone.stored a := by
      intro tip id htip hid
      rcases hpresent tip htip hid with hid | hid
      · exact hbelow branches hfound sideBase hsideBase id hid
      · exact hstoredOf hid
    intro tip htip id hid
    rcases List.mem_cons.mp htip with rfl | htip
    · cases hfetch : clone.fetched with
      | some fetched =>
          rw [FullClone.commit, hfetch] at hid
          exact hstoredOf ((hfetched fetched hfetch).2 id hid)
      | none =>
          rw [FullClone.commit, hfetch] at hid
          rcases hcommit hid with hid | hid
          · exact hbelow branches hfound sideBase hsideBase id hid
          · exact hstoredOf (mem_present.mpr (.inl hid))
    · rcases List.mem_append.mp htip with htip | htip
      · rw [hlisted, hrefs] at htip
        obtain ⟨branch, hbranch, rfl⟩ := List.mem_map.mp htip
        exact hheld (hbranches branch hbranch) hid
      · obtain ⟨tag, htag, rfl⟩ := List.mem_map.mp htip
        have hpeels : Peels child tag.object tag.chain tag.target := by
          cases hartifact : clone.output.tagsArtifact with
          | none => simp [FullClone.tags, hartifact] at htag
          | some artifact =>
              rw [FullClone.tags, hartifact] at htag
              exact htags artifact tag htag
        rcases hpeels.reach hid with hid | hid
        · exact List.mem_append_right _ (List.mem_flatMap.mpr ⟨tag, htag, hid⟩)
        · exact hheld (htargets tag htag) hid

end Complete

/-! ## A default branch that moves to a commit of a layer

Three commits, each the parent of the next: the old one, which has a ready Full, the one the default
branch is at, and the tip of a side branch. The first refresh packs the side branch's commit in a
layer over the default branch's. Then the default branch moves to the side branch's commit. The side
tips are the same, so the layer is kept, with the side base it has. -/

section Merged

def oldTip : String := "cccccccccccccccccccccccccccccccccccccccc"

def mergedChild (id parent : String) : Prop :=
  (id = sideTip ∧ parent = mainTip) ∨ (id = mainTip ∧ parent = oldTip)

theorem reach_oldTip : Reach mergedChild oldTip = {oldTip} := by
  ext id
  constructor
  · intro hid
    rcases Relation.ReflTransGen.cases_head hid with rfl | ⟨x, ⟨hx, _⟩ | ⟨hx, _⟩, _⟩
    · rfl
    · exact absurd hx (by decide)
    · exact absurd hx (by decide)
  · rintro rfl
    exact mem_reach_self

theorem reach_mainTip : Reach mergedChild mainTip = {mainTip, oldTip} := by
  ext id
  constructor
  · intro hid
    rcases Relation.ReflTransGen.cases_head hid with rfl | ⟨x, ⟨hx, _⟩ | ⟨_, rfl⟩, hid⟩
    · exact .inl rfl
    · exact absurd hx (by decide)
    · have hold : id ∈ Reach mergedChild oldTip := hid
      rw [reach_oldTip] at hold
      exact .inr hold
  · rintro (rfl | rfl)
    · exact mem_reach_self
    · exact Relation.ReflTransGen.single (.inr ⟨rfl, rfl⟩)

theorem reach_sideTip : Reach mergedChild sideTip = {sideTip, mainTip, oldTip} := by
  ext id
  constructor
  · intro hid
    rcases Relation.ReflTransGen.cases_head hid with rfl | ⟨x, ⟨_, rfl⟩ | ⟨hx, _⟩, hid⟩
    · exact .inl rfl
    · have hmain : id ∈ Reach mergedChild mainTip := hid
      rw [reach_mainTip] at hmain
      exact .inr hmain
    · exact absurd hx (by decide)
  · rintro (rfl | rfl | rfl)
    · exact mem_reach_self
    · exact Relation.ReflTransGen.single (.inl ⟨rfl, rfl⟩)
    · exact (Relation.ReflTransGen.single (.inl ⟨rfl, rfl⟩)).tail (.inr ⟨rfl, rfl⟩)

set_option maxRecDepth 10000 in
/-- The default branch at the side branch's commit. -/
def mergedRefs : MirrorRefs where
  defaultBranch := some "main"
  branches := [("main", sideTip), ("side", sideTip)]
  tags := []
  branches_ok := by decide
  tags_ok := noTags_ok
  default_listed := by simp

/-- The manifest of a Full with one history pack. -/
def fullManifest (commit pack : String) : ClonepackManifest where
  commit := commit
  parentCommit := none
  metadataChunk := ⟨"table", 10⟩
  metadataDelta := none
  archiveChunks := []
  packs := [⟨⟨pack, 100⟩, ⟨pack ++ ".idx", 1100⟩, true, none⟩]
  midx := none
  idxBundle := none

def mergedArtifacts : Artifacts where
  manifest hash :=
    if hash = "old.manifest" then fullManifest oldTip "old.pack"
    else fullManifest mainTip "main.pack"
  ids pack :=
    if pack = "side.pack" then [sideTip]
    else if pack = "old.pack" then [oldTip]
    else if pack = "main.pack" then [mainTip, oldTip]
    else []
  branches hash := if hash = "branches" then firstRefs.build else mergedRefs.build
  tags _ := []

/-- The calls of the second refresh: nothing is packed. -/
def mergedCalls : RefsCalls where
  isAncestor := fun commit of => .ok (commit == mainTip && of == sideTip)
  packObjects := fun _ _ => .error "pack-objects (side)"
  putBranches := fun _ => .ok ("branches2", 90)
  putTags := fun _ => .ok ("tags", 20)
  fullReady := fun _ => .ok false
  writesSideTips := true

theorem mergedCalls_ok : mergedCalls.Ok mergedArtifacts.objects mergedChild where
  ancestor := by
    intro commit of h
    have hboth : commit = mainTip ∧ of = sideTip := by simpa using Except.ok.inj h
    rw [hboth.1, hboth.2, reach_sideTip]
    exact .inr (.inl rfl)
  packed := fun h => by cases h
  empty := fun h => by cases h

theorem firstCalls_ok : firstRefsCalls.Ok mergedArtifacts.objects mergedChild where
  ancestor := fun h => by cases h
  packed := by
    intro tips excluded pack h
    simp only [firstRefsCalls] at h
    split at h
    · next hasked =>
        obtain rfl := Except.ok.inj h
        obtain ⟨rfl, rfl⟩ := hasked
        have htips : ReachAny mergedChild {id | id ∈ [sideTip]} = Reach mergedChild sideTip := by
          simp [ReachAny]
        have hexcluded : ReachAny mergedChild {id | id ∈ [mainTip]} = Reach mergedChild mainTip := by
          simp [ReachAny]
        rw [htips, hexcluded, reach_sideTip, reach_mainTip]
        ext id
        show id ∈ [sideTip] ↔ _
        constructor
        · intro hid
          obtain rfl := List.mem_singleton.mp hid
          exact ⟨.inl rfl, by simp [sideTip, mainTip, oldTip]⟩
        · rintro ⟨rfl | hid, hnot⟩
          · exact List.mem_singleton.mpr rfl
          · exact absurd hid hnot
    · cases h
  empty := by
    intro tips excluded pack h hlen
    simp only [firstRefsCalls] at h
    split at h
    · obtain rfl := Except.ok.inj h
      exact absurd hlen (by decide)
    · cases h

def mergedBranches : RepoBranches where
  artifact := "branches2"
  len := 90
  refsHash := mergedRefs.refsHash id
  defaultBranch := some "main"
  base := some sideTip
  sideBase := some mainTip
  sideTips := firstRefs.sideTipsHash id
  sidePacks := [firstSide]
  tags := ⟨"", 0, 0, ""⟩

def mergedRow : RepoRefs := ⟨"", 0, 0, "", some mergedBranches, none⟩

theorem mergedRefs_base : mergedRefs.base = some sideTip := by decide

theorem mergedRefs_sideTips : mergedRefs.sideTips = [sideTip] := by
  rw [MirrorRefs.sideTips]
  rw [show (((mergedRefs.branches.filter fun b => some b.1 ≠ mergedRefs.defaultBranch) ++
    mergedRefs.tags).map Prod.snd) = [sideTip] by decide]
  simp

theorem mergedRefs_sideTipsHash : mergedRefs.sideTipsHash id = firstRefs.sideTipsHash id := by
  simp only [MirrorRefs.sideTipsHash, MirrorRefs.sideTipsText, mergedRefs_sideTips,
    firstRefs_sideTips]

theorem mergedRefs_changed : ¬ firstBranches.refsHash = mergedRefs.refsHash id := by
  intro h
  have hsame := refsHash_inj Function.injective_id h
  have hbase := firstRefs_base
  rw [hsame, mergedRefs_base] at hbase
  exact absurd (Option.some.inj hbase) (by decide)

theorem mergedBranches_built :
    builtBranches id mergedCalls firstRow (some firstRefs.sideTipsText) mergedRefs =
      .ok (mergedBranches, some mergedRefs.sideTipsText) := by
  have hnew : firstRow.branches.filter (fun previous => previous.refsHash = mergedRefs.refsHash id) =
      none := by
    simp [firstRow, mergedRefs_changed]
  have hlayers : sidePackLayers id mergedCalls (some firstRefs.sideTipsText) mergedRefs
      (some firstBranches) = .ok (some mainTip, [firstSide]) := by
    have hkept : firstBranches.sideTips = mergedRefs.sideTipsHash id :=
      mergedRefs_sideTipsHash.symm
    simp only [sidePackLayers, if_pos hkept]
    rfl
  simp only [builtBranches, hnew]
  show publishBranches id mergedCalls (some firstRefs.sideTipsText) mergedRefs (some firstBranches)
    ⟨"", 0, 0, ""⟩ = _
  have hforward : movedForward mergedCalls (some firstBranches) mergedRefs.base = .ok true := by
    rw [mergedRefs_base]
    decide
  refine bind_eq_ok.mpr ⟨("branches2", 90), rfl, bind_eq_ok.mpr ⟨true, hforward, ?_⟩⟩
  refine bind_eq_ok.mpr ⟨(some mainTip, [firstSide]), hlayers, ?_⟩
  rw [mergedRefs_base, mergedRefs_sideTipsHash]
  rfl

theorem mergedRow_published :
    publishedRow id mergedCalls (some firstRow) mergedRefs (some mergedBranches) = .ok mergedRow := by
  have htags : rowTags id mergedCalls (some firstRow) mergedRefs (some mergedBranches) =
      .ok firstRow := rfl
  rw [publishedRow, htags]
  rfl

/-- The refs after both refreshes. -/
def mergedState : RefsState :=
  ⟨some mergedRow, some mergedRefs.sideTipsText, [mergedBranches, firstBranches]⟩

theorem first_refresh_named :
    Run (PublishStep mergedArtifacts.objects mergedChild id mergedArtifacts.branches) RefsState.init
      [.build firstRefs, .publish firstRefs]
      ⟨some firstRow, some firstRefs.sideTipsText, [firstBranches]⟩ := by
  have hbuild : PublishStep mergedArtifacts.objects mergedChild id mergedArtifacts.branches
      RefsState.init (.build firstRefs) ⟨none, some firstRefs.sideTipsText, [firstBranches]⟩ := by
    refine ⟨.build firstCalls_ok firstBranches_built, ?_⟩
    intro refs hrefs b hb _
    obtain rfl := RefsEvent.build.inj hrefs
    obtain rfl := List.mem_singleton.mp hb
    rfl
  refine (Run.nil.snoc hbuild).snoc ⟨.publish firstCalls_ok (by simp) firstRow_published, ?_⟩
  intro refs hrefs
  cases hrefs

theorem merged_refresh :
    Run (PublishStep mergedArtifacts.objects mergedChild id mergedArtifacts.branches) RefsState.init
      [.build firstRefs, .publish firstRefs, .build mergedRefs, .publish mergedRefs]
      mergedState := by
  have hbuild : PublishStep mergedArtifacts.objects mergedChild id mergedArtifacts.branches
      ⟨some firstRow, some firstRefs.sideTipsText, [firstBranches]⟩ (.build mergedRefs)
      ⟨some firstRow, some mergedRefs.sideTipsText, [mergedBranches, firstBranches]⟩ := by
    refine ⟨.build mergedCalls_ok mergedBranches_built, ?_⟩
    intro refs hrefs b hb hhash
    obtain rfl := RefsEvent.build.inj hrefs
    rcases List.mem_cons.mp hb with rfl | hb
    · rfl
    · obtain rfl := List.mem_singleton.mp hb
      exact absurd hhash mergedRefs_changed
  refine (first_refresh_named.snoc hbuild).snoc
    ⟨.publish mergedCalls_ok (by simp) mergedRow_published, ?_⟩
  intro refs hrefs
  cases hrefs

/-- A row with a ready Full. -/
def fullRow (commit manifest pack : String) (seq : Nat) : BuildRow where
  repo := "github/o/r"
  commitId := commit
  seq := seq
  refName := some "refs/heads/main"
  parent := none
  createdAt := 0
  head := OutColumns.default
  files := OutColumns.default
  full := { OutColumns.default with
    state := .ready
    output := some (.full {
      clonepack := ⟨manifest, "table", "", "", "", commit⟩
      packs := [⟨pack, pack ++ ".idx"⟩]
      historyLevels := [⟨commit, [⟨pack, 100, pack ++ ".idx", 1100⟩]⟩]
      headBase := none
      ownHistory := none }) }

def oldRow : BuildRow := fullRow oldTip "old.manifest" "old.pack" 1

/-- The new default branch's commit is admitted, and its Full is pending. -/
def pendingRow : BuildRow := { oldRow with
  commitId := sideTip, seq := 3, full := OutColumns.default }

/-- A request after both refreshes. -/
def mergedApi (refs : RepoRefs) : ApiState where
  refs := some refs
  status commit := .ok (if commit = sideTip then some pendingRow else none)
  latestReadyFull _ := .ok (some oldTip)
  inHistory _ _ := false
  sign _ := none

theorem mergedApi_reads {s : RefsState} {refs : RepoRefs} (h : s.stored = some refs) :
    Reads mergedChild mergedArtifacts s (mergedApi refs) where
  refs := by
    intro stored hstored
    rw [h, Option.some.inj hstored]
  ancestor := fun h => by cases h
  status := by
    intro commit row h
    have hrow := Except.ok.inj h
    split at hrow
    · next hcommit =>
        rw [← Option.some.inj hrow, hcommit]
        rfl
    · cases hrow
  full := by
    intro commit row full h hfull
    have hrow := Except.ok.inj h
    split at hrow
    · rw [← Option.some.inj hrow] at hfull
      cases hfull
    · cases hrow

theorem fullRow_holds {commit manifest pack : String} {seq : Nat}
    (hmanifest : mergedArtifacts.manifest manifest = fullManifest commit pack)
    (hids : mergedArtifacts.objects pack = Reach mergedChild commit) :
    ∀ full ∈ readyFull (fullRow commit manifest pack seq).full,
      HoldsHistory mergedChild mergedArtifacts (fullRow commit manifest pack seq) full := by
  intro full hfull
  obtain rfl := Option.some.inj hfull
  have hheld : mergedArtifacts.held (historyPacks (mergedArtifacts.manifest manifest)) =
      Reach mergedChild commit := by
    rw [hmanifest, ← hids]
    show {id | id ∈ [pack].flatMap mergedArtifacts.ids} = _
    rw [List.flatMap_singleton]
    rfl
  refine ⟨rfl, ?_, ?_, fun own hown => by cases hown⟩
  · show commit ∈ mergedArtifacts.held (historyPacks (mergedArtifacts.manifest manifest))
    rw [hheld]
    exact mem_reach_self
  · show ClosedOver mergedChild ∅
      (mergedArtifacts.held (historyPacks (mergedArtifacts.manifest manifest)))
    rw [hheld]
    exact closedOver_reach commit

theorem oldRow_holds : ∀ full ∈ readyFull oldRow.full,
    HoldsHistory mergedChild mergedArtifacts oldRow full := by
  refine fullRow_holds rfl ?_
  rw [reach_oldTip]
  ext id
  exact List.mem_singleton

/-- A clone of the old commit, by its id. -/
def oldClone : FullClone where
  plan := .full
  output := ((mergedApi mergedRow).refResponse oldRow (some mergedRow) .full).get rfl
  fetched := none

/-- The clone finds the default branch's commit in the layer, and lacks the side base. -/
theorem old_clone_not_whole :
    Run (PublishStep mergedArtifacts.objects mergedChild id mergedArtifacts.branches) RefsState.init
      [.build firstRefs, .publish firstRefs, .build mergedRefs, .publish mergedRefs]
      mergedState ∧
    Reads mergedChild mergedArtifacts mergedState (mergedApi mergedRow) ∧
    (∀ full ∈ readyFull oldRow.full, HoldsHistory mergedChild mergedArtifacts oldRow full) ∧
    (mergedApi mergedRow).readyBody oldRow .full = .ok (some oldClone.output) ∧
    Fetched mergedChild mergedArtifacts oldClone ∧
    oldClone.complete mergedArtifacts = true ∧ ¬ oldClone.Whole mergedArtifacts mergedChild := by
  refine ⟨merged_refresh, mergedApi_reads rfl, oldRow_holds, rfl, ?_, by decide, ?_⟩
  · intro fetched hfetched
    cases hfetched
  · intro hwhole
    have hheld := hwhole sideTip (by decide) mainTip (by rw [reach_sideTip]; exact .inr (.inl rfl))
    exact absurd hheld (by decide)

def mainRow : BuildRow := fullRow mainTip "main.manifest" "main.pack" 2

theorem mainRow_holds : ∀ full ∈ readyFull mainRow.full,
    HoldsHistory mergedChild mergedArtifacts mainRow full := by
  refine fullRow_holds rfl ?_
  rw [reach_mainTip]
  ext id
  exact List.mem_pair

/-- A clone of the default branch after the first refresh. -/
def mainClone : FullClone where
  plan := .full
  output := ((mergedApi firstRow).refResponse mainRow (some firstRow) .full).get rfl
  fetched := none

theorem main_clone_whole : mainClone.complete mergedArtifacts = true ∧
    mainClone.Whole mergedArtifacts mergedChild := by
  have hcomplete : mainClone.complete mergedArtifacts = true := by decide
  have hserved : (mergedApi firstRow).servedRefs mainRow = .ok (some ⟨firstRow, none⟩) := rfl
  refine ⟨hcomplete, ?_⟩
  refine (full_clone_whole_iff Function.injective_id first_refresh_named (mergedApi_reads rfl)
    mainRow_holds ?_ rfl hserved ?_ hcomplete).mpr ?_
  · intro artifact tag htag
    cases htag
  · intro fetched hfetched
    cases hfetched
  · intro branches hbranches sideBase hsideBase id hid
    obtain rfl := Option.some.inj hbranches
    obtain rfl := Option.some.inj hsideBase
    rw [reach_mainTip] at hid
    rcases hid with rfl | rfl <;> decide

end Merged

end Ripclone.Client
