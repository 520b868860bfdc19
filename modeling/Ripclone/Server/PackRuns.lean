import Ripclone.Server.HeadPacks
import Ripclone.Server.History

/-!
# Chains of Head and Full builds

A repository's published Heads and Fulls, and the builds that add to them. A Head may build on any
published Head's packs or any published Full's new base, a Full on the levels of any published Full
of an ancestor; which of them a build gets is decided elsewhere, and what a purge removed may still
have been read before. Every build has its own answers from git and storage.

The two results are over all such chains: Head packs share no object and hold the closure, and
history levels hold the history.
-/

namespace Ripclone.Server

open Ripclone.Library Ripclone.Pack

/-- A published Full, with the levels it was built on and the limit it was built under. -/
structure PublishedFull where
  result : FullResult
  previousLevels : List HistoryLevel
  maxLevels : Nat

structure Published where
  heads : List HeadResult
  fulls : List PublishedFull

def Published.empty : Published := ⟨[], []⟩

/-- The Head packs a later Head may add a level on. -/
def Published.bases (published : Published) : List HeadBase :=
  published.fulls.filterMap (fun full => full.result.headBase) ++
    published.heads.map fun head => ⟨head.baseCommit, head.basePacks, head.levels⟩

inductive PackEvent where
  | head (commit : String)
  | full (commit : String)

section Runs

variable (c : Contents) (child : String → String → Prop) (closure : String → Set String)

/-- One build that publishes. -/
inductive PackBuild : Published → PackEvent → Published → Prop
  | head {published git storage commit parent base table midx head}
      (hgit : Git.HeadOk c closure git) (hstorage : Storage.Ok c storage)
      (hbase : ∀ b ∈ base, b ∈ published.bases)
      (h : buildHeadResult git storage commit parent base table midx = .ok head) :
      PackBuild published (.head commit) { published with heads := head :: published.heads }
  | full {published git storage commit head previousLevels ownBase maxLevels rebaseBytes full}
      (hgit : Git.HeadOk c closure git) (hhistory : Git.HistoryOk c child git)
      (hstorage : Storage.Ok c storage) (hhead : head ∈ published.heads)
      (hlevels : previousLevels = [] ∨ ∃ base ∈ published.fulls,
        base.result.clonepack.commit ∈ Reach child commit ∧
          previousLevels = base.result.historyLevels)
      (h : buildFullResult git storage commit head previousLevels ownBase maxLevels rebaseBytes =
        .ok full) :
      PackBuild published (.full commit)
        { published with fulls := ⟨full, previousLevels, maxLevels⟩ :: published.fulls }

variable {c child closure} {events : List PackEvent} {published : Published}

/-- Every published Head and Full keeps its promise about Head packs. -/
structure HeadsOk (c : Contents) (closure : String → Set String) (published : Published) : Prop where
  heads : ∀ head ∈ published.heads, HeadOk c closure head
  fulls : ∀ full ∈ published.fulls, FullHeadOk c closure full.result

theorem HeadsOk.bases (h : HeadsOk c closure published) :
    ∀ base ∈ published.bases, c.PackSet (base.packs ++ base.levels) := by
  intro base hbase
  rcases List.mem_append.mp hbase with hfull | hhead
  · obtain ⟨full, hfull, hsome⟩ := List.mem_filterMap.mp hfull
    exact (h.fulls full hfull).headBase base hsome
  · obtain ⟨head, hmem, rfl⟩ := List.mem_map.mp hhead
    exact (h.heads head hmem).packSet

theorem HeadsOk.build {event : PackEvent} {published' : Published} (h : HeadsOk c closure published)
    (hbuild : PackBuild c child closure published event published') :
    HeadsOk c closure published' := by
  cases hbuild with
  | head hgit hstorage hbase hhead =>
      have hok := buildHeadResult_ok hgit hstorage (fun b hb => h.bases b (hbase b hb)) hhead
      exact ⟨List.forall_mem_cons.mpr ⟨hok.1, h.heads⟩, h.fulls⟩
  | full hgit _ hstorage hhead _ hfull =>
      have hok := buildFullResult_headOk hgit hstorage (h.heads _ hhead) hfull
      exact ⟨h.heads, List.forall_mem_cons.mpr ⟨hok, h.fulls⟩⟩

theorem HeadsOk.run (hrun : Run (PackBuild c child closure) Published.empty events published) :
    HeadsOk c closure published := by
  refine hrun.invariant (P := fun _ => True) ⟨by simp [Published.empty], by simp [Published.empty]⟩
    ?_ (by simp)
  rintro event p p' - h hbuild
  exact h.build hbuild

/-- Along every chain of builds, the packs of every published Head and the Head packs of every
published Full share no object and hold the commit's depth-1 closure. -/
theorem head_packs_disjoint_and_complete
    (hrun : Run (PackBuild c child closure) Published.empty events published) :
    (∀ head ∈ published.heads,
      let packs := (c.manifest head.clonepack.manifest).headPacks
      head.packs = packArtifactsOf packs ∧
      packs.Pairwise (fun p q => Disjoint (c.objects p.pack) (c.objects q.pack)) ∧
      closure head.clonepack.commit ⊆ c.packed packs) ∧
    ∀ full ∈ published.fulls,
      let packs := (c.manifest full.result.clonepack.manifest).headPacks
      packs.Pairwise (fun p q => Disjoint (c.objects p.pack) (c.objects q.pack)) ∧
      closure full.result.clonepack.commit ⊆ c.packed packs := by
  have hok := HeadsOk.run hrun
  refine ⟨?_, ?_⟩
  · intro head hhead
    have h := hok.heads head hhead
    dsimp only
    rw [h.headPacks]
    exact ⟨h.packs_eq, h.packSet.disjoint, h.complete⟩
  · intro full hfull
    have h := hok.fulls full hfull
    exact ⟨h.packSet.disjoint, h.complete⟩

/-- What a published Full promises of its history levels. -/
structure FullHistoryOk (c : Contents) (child : String → String → Prop) (full : PublishedFull) :
    Prop where
  history : HistoryOk c child full.result.clonepack.commit full.result.historyLevels
  sealed : (Reach child full.result.clonepack.commit \
      ReachOpt child (sealedTip full.previousLevels)).Nonempty →
    sealedTip full.result.historyLevels = some full.result.clonepack.commit
  bounded : full.result.historyLevels.length ≤ max 1 full.maxLevels

theorem FullHistoryOk.build {event : PackEvent} {published' : Published}
    (h : ∀ full ∈ published.fulls, FullHistoryOk c child full)
    (hbuild : PackBuild c child closure published event published') :
    ∀ full ∈ published'.fulls, FullHistoryOk c child full := by
  cases hbuild with
  | head _ _ _ _ => exact h
  | @full _ _ commit _ previousLevels _ _ _ full hgit hhistory hstorage _ hlevels hfull =>
      have hstarts : StartsFrom c child commit previousLevels := by
        rcases hlevels with rfl | ⟨base, hbase, hancestor, rfl⟩
        · exact startsFrom_nil
        · exact (h base hbase).history.toStartsFrom.of_ancestor hancestor
      have hcommit : full.clonepack.commit = commit := buildFullResult_commit hfull
      obtain ⟨newPacks, hbuilt⟩ := buildFullResult_history hfull
      obtain ⟨hok, hsealed, hbound⟩ := buildHistory_ok hhistory hstarts hbuilt
      refine List.forall_mem_cons.mpr ⟨⟨?_, ?_, hbound⟩, h⟩
      · rw [hcommit]
        exact hok
      · rw [hcommit]
        exact hsealed

/-- Along every chain of builds, the history levels of every published Full hold everything its
commit leads to, end at the commit when it has a range of its own, hold the ranges between a chain
of ancestors, and are within the limit; and compaction ends, merging neighbours and leaving the
other levels as they were. -/
theorem history_levels_complete
    (hrun : Run (PackBuild c child closure) Published.empty events published) :
    (∀ full ∈ published.fulls,
      let commit := full.result.clonepack.commit
      let levels := full.result.historyLevels
      Reach child commit ⊆ c.packed (levels.flatMap HistoryLevel.packs) ∧
      ((Reach child commit \ ReachOpt child (sealedTip full.previousLevels)).Nonempty →
        (levels.getLast?).map HistoryLevel.tipCommit = some commit) ∧
      HoldsRanges child HistoryLevel.tipCommit (fun level => c.packed level.packs) none levels ∧
      (∀ level ∈ levels.getLast?, level.tipCommit ∈ Reach child commit) ∧
      levels.length ≤ max 1 full.maxLevels) ∧
    ∀ (git : Git) (levels : List HistoryLevel) (maxLevels : Nat),
      (∀ fuel, levels.length ≤ fuel →
        compactLoop git maxLevels fuel levels [] = compactLevels git levels maxLevels) ∧
      ∀ result newPacks, compactLevels git levels maxLevels = .ok (result, newPacks) →
        Compacts levels result := by
  have hok : ∀ full ∈ published.fulls, FullHistoryOk c child full := by
    refine hrun.invariant (I := fun p => ∀ full ∈ p.fulls, FullHistoryOk c child full)
      (P := fun _ => True) (by simp [Published.empty]) ?_ (by simp)
    rintro event p p' - h hbuild
    exact FullHistoryOk.build h hbuild
  refine ⟨?_, ?_⟩
  · intro full hfull
    have h := hok full hfull
    refine ⟨h.history.complete, ?_, h.history.levelsOk, ?_, h.bounded⟩
    · rw [← sealedTip_eq_getLast]
      exact h.sealed
    · intro level hlevel
      refine h.history.ancestor level.tipCommit ?_
      rw [sealedTip_eq_getLast, Option.mem_def.mp hlevel]
      rfl
  · intro git levels maxLevels
    exact ⟨fun fuel hfuel => compactLoop_fuel [] hfuel,
      fun result newPacks h => compacts_compactLevels h⟩

end Runs

/-! ## One commit with an empty tree

The Head and the Full of a first commit, with what git and storage answer to them. -/

section FirstCommit

def firstCommit : String := "1111111111111111111111111111111111111111"

def emptyTree : String := "4b825dc642cb6eb9a060e54bf8d69288fbee4904"

/-- The idx of a pack of the two. -/
def firstIdx : Bytes :=
  idxMagic ++
    (List.range 256).flatMap (fun i => [0, 0, 0, if i < 0x11 then 0 else if i < 0x4b then 1 else 2]) ++
    List.replicate 20 0x11 ++
    [0x4b, 0x82, 0x5d, 0xc6, 0x42, 0xcb, 0x6e, 0xb9, 0xa0, 0x60, 0xe5, 0x4b, 0xf8, 0xd6, 0x92,
      0x88, 0xfb, 0xee, 0x49, 0x04]

def firstChild (a b : String) : Prop := a = firstCommit ∧ b = emptyTree

def firstClosure (commit : String) : Set String :=
  {id | commit = firstCommit ∧ id ∈ [firstCommit, emptyTree]}

def headPack : SizedPack := ⟨"head.pack", 200, "head.idx", 1120⟩

def historyPack : SizedPack := ⟨"history.pack", 190, "history.idx", 1120⟩

def firstHeadManifest : ClonepackManifest :=
  makeManifest firstCommit none [] ⟨"table", 60⟩ none [packEntry headPack false (some 0)] none
    (some ⟨"idx.bundle", firstIdx.length⟩)

def firstFullManifest : ClonepackManifest :=
  makeManifest firstCommit none [] ⟨"table", 60⟩ none
    [packEntry headPack false none, packEntry historyPack true none] none none

def firstContents : Contents where
  bytes _ := firstIdx
  objects hash := {id | hash ∈ ["head.pack", "history.pack"] ∧ id ∈ [firstCommit, emptyTree]}
  manifest hash := if hash = "head.manifest" then firstHeadManifest else firstFullManifest

def firstGit : Git where
  listHeadObjects commit := if commit = firstCommit then .ok [firstCommit, emptyTree]
    else .error "unknown revision"
  objectSizes _ := .ok [(firstCommit, 160), (emptyTree, 0)]
  packObjectsUndeltified oids := if oids = [firstCommit, emptyTree] then .ok [headPack]
    else .error "unknown object"
  fetchedHistoryPack _ := .ok none
  packObjectsRange tip exclude := if tip = firstCommit ∧ exclude = none then .ok [historyPack]
    else .error "unknown revision"
  isAncestor _ _ := .error "unknown revision"
  revListObjects _ _ := .error "unknown revision"
  packObjectsListed _ := .error "unknown object"

def firstStorage : Storage where
  get hash := if hash ∈ ["head.idx", "history.idx", "idx.bundle"] then .ok firstIdx
    else .error "not found"
  put bytes := if bytes = firstIdx then .ok "idx.bundle" else .error "disk full"
  getManifest hash := if hash = "head.manifest" then .ok firstHeadManifest
    else if hash = "full.manifest" then .ok firstFullManifest else .error "not found"
  putManifest manifest := if manifest = firstHeadManifest then .ok "head.manifest"
    else if manifest = firstFullManifest then .ok "full.manifest" else .error "disk full"

set_option maxRecDepth 10000 in
theorem firstIdx_ids : idxObjectIds firstIdx = .ok [firstCommit, emptyTree] := by
  decide

theorem wrote_first {pack : SizedPack} (hpack : pack.pack ∈ ["head.pack", "history.pack"])
    (hlen : emptyPackLen < pack.packLen) :
    firstContents.Wrote [pack] {id | id ∈ [firstCommit, emptyTree]} where
  packed_eq := by
    ext id
    simp only [mem_packed, List.mem_singleton, exists_eq_left]
    exact ⟨fun h => h.2, fun h => ⟨hpack, h⟩⟩
  described := by
    intro p hp
    obtain rfl := List.mem_singleton.mp hp
    exact ⟨_, firstIdx_ids, fun id => ⟨fun h => ⟨hpack, h⟩, fun h => h.2⟩⟩
  empty := by
    intro p hp hempty
    obtain rfl := List.mem_singleton.mp hp
    omega

theorem reach_firstCommit :
    Reach firstChild firstCommit \ ReachOpt firstChild none =
      {id | id ∈ [firstCommit, emptyTree]} := by
  ext id
  constructor
  · rintro ⟨hid, _⟩
    rcases Relation.ReflTransGen.cases_tail hid with rfl | ⟨_, _, _, rfl⟩
    · simp
    · simp
  · intro hid
    refine ⟨?_, Set.notMem_empty id⟩
    rcases List.mem_pair.mp hid with rfl | rfl
    · exact mem_reach_self
    · exact .single ⟨rfl, rfl⟩

theorem firstGit_headOk : firstGit.HeadOk firstContents firstClosure where
  nodup := by
    intro commit oids h
    simp only [firstGit] at h
    split at h
    · obtain rfl := Except.ok.inj h
      decide
    · cases h
  mem_closure := by
    intro commit oids h id
    simp only [firstGit] at h
    split at h
    · next hcommit =>
        obtain rfl := Except.ok.inj h
        exact ⟨fun hid => ⟨hcommit, hid⟩, fun hid => hid.2⟩
    · cases h
  wrote := by
    intro oids packs h
    simp only [firstGit] at h
    split at h
    · next hoids =>
        obtain rfl := Except.ok.inj h
        rw [hoids]
        exact wrote_first (by decide) (by decide)
    · cases h

theorem firstGit_historyOk : firstGit.HistoryOk firstContents firstChild where
  wrote := by
    intro tip exclude packs h
    simp only [firstGit] at h
    split at h
    · next hrange =>
        obtain rfl := Except.ok.inj h
        rw [hrange.1, hrange.2, reach_firstCommit]
        exact wrote_first (by decide) (by decide)
    · cases h
  fetched := by
    intro tip pack h
    cases h

theorem firstStorage_ok : firstStorage.Ok firstContents where
  get := by
    intro hash bytes h
    simp only [firstStorage] at h
    split at h
    · exact (Except.ok.inj h).symm
    · cases h
  put := by
    intro bytes hash h
    simp only [firstStorage] at h
    split at h
    · next hbytes => exact hbytes.symm
    · cases h
  put_ne := by
    intro bytes hash h
    simp only [firstStorage] at h
    split at h
    · rw [← Except.ok.inj h]
      decide
    · cases h
  getManifest := by
    intro hash manifest h
    simp only [firstStorage] at h
    split at h
    · next hhash => rw [← Except.ok.inj h, hhash]; rfl
    · next hhash =>
        split at h
        · rw [← Except.ok.inj h]
          exact (if_neg hhash).symm
        · cases h
  putManifest := by
    intro manifest hash h
    simp only [firstStorage] at h
    split at h
    · next hmanifest => rw [← Except.ok.inj h, hmanifest]; rfl
    · split at h
      · next hmanifest => rw [← Except.ok.inj h, hmanifest]; rfl
      · cases h

def firstHead : HeadResult where
  clonepack := ⟨"head.manifest", "table", "", "", "idx.bundle", firstCommit⟩
  parentCommit := none
  packs := [⟨"head.pack", "head.idx"⟩]
  baseCommit := firstCommit
  basePacks := [headPack]
  levels := []

def firstFull : FullResult where
  clonepack := ⟨"full.manifest", "table", "", "", "", firstCommit⟩
  packs := [⟨"head.pack", "head.idx"⟩, ⟨"history.pack", "history.idx"⟩]
  historyLevels := [⟨firstCommit, [historyPack]⟩]
  headBase := none
  ownHistory := none

set_option maxRecDepth 10000 in
theorem firstHead_built : buildHeadResult firstGit firstStorage firstCommit none none
    (.ok ⟨"table", "", ⟨"table", 60⟩, none, 60⟩) (fun _ => .ok (none, "")) = .ok firstHead := by
  decide

theorem firstFull_built : buildFullResult firstGit firstStorage firstCommit firstHead [] none 16
    (128 * 1024 * 1024) = .ok firstFull := by
  rfl

/-- The Head and then the Full are published. -/
theorem first_run : Run (PackBuild firstContents firstChild firstClosure) Published.empty
    [.head firstCommit, .full firstCommit] ⟨[firstHead], [⟨firstFull, [], 16⟩]⟩ := by
  have hhead : PackBuild firstContents firstChild firstClosure Published.empty (.head firstCommit)
      ⟨[firstHead], []⟩ :=
    .head firstGit_headOk firstStorage_ok (by simp) firstHead_built
  have hfull : PackBuild firstContents firstChild firstClosure ⟨[firstHead], []⟩
      (.full firstCommit) ⟨[firstHead], [⟨firstFull, [], 16⟩]⟩ :=
    .full firstGit_headOk firstGit_historyOk firstStorage_ok (List.mem_singleton.mpr rfl)
      (.inl rfl) firstFull_built
  exact (Run.nil.snoc hhead).snoc hfull

theorem first_head_packs_complete :
    firstClosure firstCommit ⊆
        firstContents.packed (firstContents.manifest firstHead.clonepack.manifest).headPacks ∧
      firstClosure firstCommit ⊆
        firstContents.packed (firstContents.manifest firstFull.clonepack.manifest).headPacks := by
  obtain ⟨hheads, hfulls⟩ := head_packs_disjoint_and_complete first_run
  exact ⟨(hheads firstHead (List.mem_singleton.mpr rfl)).2.2,
    (hfulls _ (List.mem_singleton.mpr rfl)).2⟩

theorem first_history_complete :
    Reach firstChild firstCommit ⊆
        firstContents.packed (firstFull.historyLevels.flatMap HistoryLevel.packs) ∧
      firstFull.historyLevels.length ≤ max 1 16 := by
  have hfull := (history_levels_complete first_run).1 _ (List.mem_singleton.mpr rfl)
  exact ⟨hfull.1, hfull.2.2.2.2⟩

end FirstCommit

end Ripclone.Server
