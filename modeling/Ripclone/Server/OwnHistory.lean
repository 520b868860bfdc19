import Ripclone.Server.PackRuns

/-!
# A commit's own history

A full clone of a pull request's commit installs the history of a base and, above it, the commit's own
packs and the Head levels the Full's manifest names by index. The own packs leave out what the levels'
idx files list, and the indexes are counted before a rebase may replace the Head packs. `own_history_complete`
says that the three still line up: nothing the commit leads to is left out.
-/

namespace Ripclone.Server

open Ripclone.Library Ripclone.Pack

/-- What an own history relies on git for. -/
structure Git.OwnOk (c : Contents) (child : String → String → Prop) (git : Git) : Prop where
  ancestor : ∀ {commit of}, git.isAncestor commit of = .ok true → commit ∈ Reach child of
  /-- Nothing of the range is left out. -/
  listed : ∀ {tip exclude ids}, git.revListObjects tip exclude = .ok ids →
    Reach child tip ⊆ Reach child exclude ∪ {id | id ∈ ids}
  wrote : ∀ {oids packs}, git.packObjectsListed oids = .ok packs → c.Wrote packs {id | id ∈ oids}

/-- The packs of the manifest's entries at `indexes`. -/
def indexedPacks (manifest : ClonepackManifest) (indexes : List Nat) : List SizedPack :=
  indexes.filterMap fun i => (manifest.packs[i]?).map PackEntry.sized

variable {c : Contents} {child : String → String → Prop} {git : Git} {storage : Storage}
  {commit base : String} {levels packs : List SizedPack}

/-- What the commit leads to and the base does not is packed, but for what is there already. -/
theorem buildOwnHistory_ok {haveIds : List String} (hgit : Git.OwnOk c child git)
    (h : buildOwnHistory git commit base haveIds = .ok packs) :
    Reach child commit ⊆ Reach child base ∪ c.packed packs ∪ {id | id ∈ haveIds} := by
  obtain ⟨listed, hlisted, h⟩ := bind_eq_ok.mp h
  intro id hid
  by_cases hhave : id ∈ haveIds
  · exact .inr hhave
  rcases hgit.listed hlisted hid with hbase | hmem
  · exact .inl (.inl hbase)
  have hown : id ∈ listed.filter fun id => !haveIds.contains id :=
    List.mem_filter.mpr ⟨hmem, by simpa using hhave⟩
  dsimp only at h
  split at h
  · next hempty =>
      rw [List.isEmpty_iff.mp hempty] at hown
      cases hown
  · obtain ⟨written, hwritten, h⟩ := bind_eq_ok.mp h
    obtain rfl := pure_eq_ok.mp h
    refine .inl (.inr ?_)
    rw [packed_storePacksFromDir (hgit.wrote hwritten)]
    exact hown

/-- The packs of an own history, with the levels when they are installed too. -/
theorem ownHistory_ok {installed : Bool} (hgit : Git.OwnOk c child git) (hstorage : storage.Ok c)
    (hlevels : ∀ pack ∈ levels, c.Described pack)
    (h : ownHistory git storage commit base levels = .ok (packs, installed)) :
    Reach child commit ⊆
      Reach child base ∪ c.packed packs ∪ c.packed (if installed then levels else []) := by
  obtain ⟨ancestor, hancestor, h⟩ := bind_eq_ok.mp h
  cases ancestor with
  | true =>
      intro id hid
      exact .inl (.inl (reach_subset (hgit.ancestor hancestor) hid))
  | false =>
      obtain ⟨haveIds, hhave, h⟩ := bind_eq_ok.mp h
      obtain ⟨built, hbuilt, h⟩ := bind_eq_ok.mp h
      obtain ⟨rfl, rfl⟩ := Prod.mk.inj (pure_eq_ok.mp h)
      have hids := objectsOf_ok hstorage hlevels hhave
      -- the ids that are left out are those of the levels, and levels that hold any are installed
      have hinstalled : {id | id ∈ haveIds} ⊆
          c.packed (if !levels.isEmpty then levels else []) := by
        intro id hid
        have hpacked := (hids id).mp hid
        cases levels with
        | nil => exact hpacked
        | cons level levels => exact hpacked
      exact (buildOwnHistory_ok hgit hbuilt).trans (Set.union_subset_union_right _ hinstalled)

/-- The levels a Full's own history may leave out: those of Head packs that were not rebased. -/
def ownLevels (baseCount : Nat) (headPacks : List SizedPack) (headBase : Option HeadBase) :
    List SizedPack :=
  if headBase.isSome then [] else headPacks.drop baseCount

theorem fullOwnHistory_ok {ownBase : Option String} {baseCount : Nat} {headPacks : List SizedPack}
    {headBase : Option HeadBase} {own : OwnHistory} (hgit : Git.OwnOk c child git)
    (hstorage : storage.Ok c)
    (hlevels : ∀ pack ∈ ownLevels baseCount headPacks headBase, c.Described pack)
    (h : fullOwnHistory git storage commit ownBase baseCount headPacks headBase = some own) :
    ∃ installed : Bool,
      own.headPacks = (if installed then
        (List.range (ownLevels baseCount headPacks headBase).length).map (baseCount + ·) else []) ∧
      Reach child commit ⊆ Reach child own.base ∪ c.packed own.packs ∪
        c.packed (if installed then ownLevels baseCount headPacks headBase else []) := by
  obtain ⟨base, _, h⟩ := Option.bind_eq_some_iff.mp h
  dsimp only at h
  rw [← ownLevels] at h
  cases hbuilt : ownHistory git storage commit base (ownLevels baseCount headPacks headBase) with
  | error error =>
      rw [hbuilt] at h
      cases h
  | ok built =>
      rw [hbuilt] at h
      obtain rfl := Option.some.inj h
      exact ⟨built.2, rfl, ownHistory_ok hgit hstorage hlevels hbuilt⟩

/-- The entries a Full's manifest has for its Head packs and for its history packs. -/
def fullEntries (headPacks historyPacks : List SizedPack) : List PackEntry :=
  headPacks.map (fun pack => packEntry pack false none) ++
    historyPacks.map fun pack => packEntry pack true none

/-- An index past the base is that of a level. -/
theorem fullEntries_level {headPacks historyPacks : List SizedPack} {baseCount j : Nat}
    {level : SizedPack} (h : (headPacks.drop baseCount)[j]? = some level) :
    (fullEntries headPacks historyPacks)[baseCount + j]? = some (packEntry level false none) := by
  rw [List.getElem?_drop] at h
  have hlt : baseCount + j < headPacks.length := (List.getElem?_eq_some_iff.mp h).1
  rw [fullEntries, List.getElem?_append_left (by rwa [List.length_map]), List.getElem?_map, h]
  rfl

/-- The own history of a Full that was built on `head`: nothing the commit leads to is missing, and the
indexes are of the Head's levels. -/
structure OwnHistoryOk (c : Contents) (child : String → String → Prop) (head : HeadResult)
    (full : FullResult) (own : OwnHistory) : Prop where
  complete : Reach child full.clonepack.commit ⊆ Reach child own.base ∪ c.packed own.packs ∪
    c.packed (indexedPacks (c.manifest full.clonepack.manifest) own.headPacks)
  levels : ∀ i ∈ own.headPacks, ∃ entry j, (c.manifest full.clonepack.manifest).packs[i]? = some entry ∧
    entry.historyOnly = false ∧ head.levels[j]? = some entry.sized ∧ i = head.basePacks.length + j

theorem ownHistoryOk_of_entries {head : HeadResult} {full : FullResult} {own : OwnHistory}
    {headPacks historyPacks : List SizedPack} {headBase : Option HeadBase} {installed : Bool}
    (hentries : (c.manifest full.clonepack.manifest).packs = fullEntries headPacks historyPacks)
    (hkept : headBase = none → headPacks = head.basePacks ++ head.levels)
    (hindexes : own.headPacks = if installed then
      (List.range (ownLevels head.basePacks.length headPacks headBase).length).map
        (head.basePacks.length + ·) else [])
    (hcomplete : Reach child full.clonepack.commit ⊆ Reach child own.base ∪ c.packed own.packs ∪
      c.packed (if installed then ownLevels head.basePacks.length headPacks headBase else [])) :
    OwnHistoryOk c child head full own := by
  cases installed with
  | false =>
      have hnone : own.headPacks = [] := hindexes
      refine ⟨?_, by simp [hnone]⟩
      rw [hnone]
      exact hcomplete
  | true =>
      have hindexes : own.headPacks = (List.range (ownLevels head.basePacks.length headPacks
        headBase).length).map (head.basePacks.length + ·) := hindexes
      cases headBase with
      | some rebased =>
          -- Rebased packs are a base: there is no level to index.
          have hnone : own.headPacks = [] := hindexes
          refine ⟨?_, by simp [hnone]⟩
          rw [hnone]
          exact hcomplete
      | none =>
          have hpacks := hkept rfl
          have hlevels : headPacks.drop head.basePacks.length = head.levels := by
            rw [hpacks, List.drop_left]
          have hown : ownLevels head.basePacks.length headPacks none = head.levels := hlevels
          rw [hown] at hindexes hcomplete
          have hentry {j : Nat} {level : SizedPack} (h : head.levels[j]? = some level) :
              (c.manifest full.clonepack.manifest).packs[head.basePacks.length + j]? =
                some (packEntry level false none) := by
            rw [hentries]
            exact fullEntries_level (hlevels ▸ h)
          refine ⟨hcomplete.trans (Set.union_subset_union_right _ ?_), ?_⟩
          · rintro id ⟨level, hlevel, hid⟩
            obtain ⟨j, hj⟩ := List.getElem?_of_mem hlevel
            refine ⟨level, List.mem_filterMap.mpr ⟨head.basePacks.length + j, ?_, ?_⟩, hid⟩
            · rw [hindexes]
              exact List.mem_map.mpr ⟨j, List.mem_range.mpr (List.getElem?_eq_some_iff.mp hj).1, rfl⟩
            · rw [hentry hj]
              rfl
          · intro i hi
            rw [hindexes] at hi
            obtain ⟨j, hj, rfl⟩ := List.mem_map.mp hi
            have hlevel := List.getElem?_eq_getElem (List.mem_range.mp hj)
            exact ⟨_, j, hentry hlevel, rfl, hlevel, rfl⟩

theorem buildFullResult_ownHistory {closure : String → Set String} {head : HeadResult}
    {previous : List HistoryLevel} {ownBase : Option String} {maxLevels rebaseBytes : Nat}
    {full : FullResult} {own : OwnHistory} (hgit : Git.OwnOk c child git) (hstorage : storage.Ok c)
    (hhead : HeadOk c closure head)
    (h : buildFullResult git storage commit head previous ownBase maxLevels rebaseBytes = .ok full)
    (hown : full.ownHistory = some own) : OwnHistoryOk c child head full own := by
  obtain ⟨headManifest, hmanifest, h⟩ := bind_eq_ok.mp h
  obtain ⟨_, h⟩ := ite_throw_eq_ok.mp h
  obtain ⟨⟨levels, newPacks⟩, _, h⟩ := bind_eq_ok.mp h
  obtain ⟨⟨packs, headBase⟩, hpacks, h⟩ := bind_eq_ok.mp h
  obtain ⟨manifest, hput, h⟩ := bind_eq_ok.mp h
  obtain rfl := pure_eq_ok.mp h
  have htuples : headManifest.packTuples = head.basePacks ++ head.levels := by
    rw [hstorage.getManifest hmanifest, hhead.packTuples]
  have hcount : min head.basePacks.length headManifest.packTuples.length = head.basePacks.length := by
    rw [htuples, List.length_append]
    omega
  -- a Full that did not rebase keeps the Head's packs
  have hkept : headBase = none → packs = head.basePacks ++ head.levels := by
    intro hnone
    simp only [fullHeadPacks] at hpacks
    split at hpacks
    · obtain ⟨rebased, _, hpacks⟩ := bind_eq_ok.mp hpacks
      obtain ⟨_, rfl⟩ := Prod.mk.inj (pure_eq_ok.mp hpacks)
      cases hnone
    · obtain ⟨rfl, _⟩ := Prod.mk.inj (pure_eq_ok.mp hpacks)
      exact htuples
  have hdescribed : ∀ pack ∈ ownLevels head.basePacks.length packs headBase, c.Described pack := by
    intro pack hpack
    cases headBase with
    | some rebased => cases hpack
    | none =>
        have hmem := List.mem_of_mem_drop (show pack ∈ packs.drop _ from hpack)
        exact hhead.packSet.described pack (hkept rfl ▸ hmem)
  dsimp only at hown
  rw [hcount] at hown
  obtain ⟨installed, hindexes, hcomplete⟩ := fullOwnHistory_ok hgit hstorage hdescribed hown
  have hentries : (c.manifest manifest).packs =
      fullEntries packs (levels.flatMap HistoryLevel.packs) := by
    rw [hstorage.putManifest hput]
    rfl
  exact ownHistoryOk_of_entries hentries hkept hindexes hcomplete

/-- Whichever Head a chain of builds published, and whichever base a Full on it is built against: the
own history the Full publishes holds, with the base's history and the levels it indexes, everything
the commit leads to, and each index is of a Head level in that Full's manifest. -/
theorem own_history_complete {closure : String → Set String} {events : List PackEvent}
    {published : Published} {head : HeadResult} {previous : List HistoryLevel}
    {ownBase : Option String} {maxLevels rebaseBytes : Nat} {full : FullResult} {own : OwnHistory}
    (hrun : Run (PackBuild c child closure) Published.empty events published)
    (hhead : head ∈ published.heads) (hgit : Git.OwnOk c child git) (hstorage : storage.Ok c)
    (h : buildFullResult git storage commit head previous ownBase maxLevels rebaseBytes = .ok full)
    (hown : full.ownHistory = some own) :
    full.clonepack.commit = commit ∧ OwnHistoryOk c child head full own :=
  ⟨buildFullResult_commit h,
    buildFullResult_ownHistory hgit hstorage ((HeadsOk.run hrun).heads head hhead) h hown⟩

/-! ## A second commit

The Head of a first commit, a level on it for a second, and the Full of the second against the first.
All of the second's own history is in the level. -/

section SecondCommit

def secondCommit : String := "2222222222222222222222222222222222222222"

/-- The idx of a pack of the second commit alone. -/
def secondIdx : Bytes :=
  idxMagic ++ (List.range 256).flatMap (fun i => [0, 0, 0, if i < 0x22 then 0 else 1]) ++
    List.replicate 20 0x22

def secondChild (a b : String) : Prop :=
  a = firstCommit ∧ b = emptyTree ∨ a = secondCommit ∧ (b = emptyTree ∨ b = firstCommit)

def secondClosure (commit : String) : Set String :=
  {id | commit ∈ [firstCommit, secondCommit] ∧ id ∈ [commit, emptyTree]}

def levelPack : SizedPack := ⟨"level.pack", 44, "level.idx", 1100⟩

def secondHistory : SizedPack := ⟨"second.pack", 240, "second.idx", 1140⟩

def secondHeadManifest : ClonepackManifest :=
  makeManifest secondCommit (some firstCommit) [] ⟨"table", 60⟩ none
    [packEntry headPack false (some 0), packEntry levelPack false none] none
    (some ⟨"idx.bundle", firstIdx.length⟩)

def secondFullManifest : ClonepackManifest :=
  makeManifest secondCommit (some firstCommit) [] ⟨"table", 60⟩ none
    [packEntry headPack false none, packEntry levelPack false none,
      packEntry secondHistory true none] none none

def secondObjects (pack : String) : List String :=
  if pack = "head.pack" then [firstCommit, emptyTree]
  else if pack = "level.pack" then [secondCommit]
  else [secondCommit, firstCommit, emptyTree]

def secondContents : Contents where
  bytes hash := if hash = "level.idx" then secondIdx else firstIdx
  objects pack := {id | id ∈ secondObjects pack}
  manifest hash := if hash = "head.manifest" then firstHeadManifest
    else if hash = "second.manifest" then secondHeadManifest else secondFullManifest

def secondGit : Git where
  listHeadObjects commit := if commit ∈ [firstCommit, secondCommit] then .ok [commit, emptyTree]
    else .error "unknown revision"
  objectSizes _ := .ok []
  packObjectsUndeltified oids := if oids = [firstCommit, emptyTree] then .ok [headPack]
    else if oids = [secondCommit] then .ok [levelPack] else .error "unknown object"
  fetchedHistoryPack _ := .ok none
  packObjectsRange tip exclude := if tip = secondCommit ∧ exclude = none then .ok [secondHistory]
    else .error "unknown revision"
  isAncestor commit of := .ok (decide (commit = firstCommit ∧ of = secondCommit))
  revListObjects tip exclude := if tip = secondCommit ∧ exclude = firstCommit then .ok [secondCommit]
    else .error "unknown revision"
  packObjectsListed _ := .error "unknown object"

def secondStorage : Storage where
  get hash := if hash = "level.idx" then .ok secondIdx else .ok firstIdx
  put bytes := if bytes = firstIdx then .ok "idx.bundle" else .error "disk full"
  getManifest hash := if hash = "head.manifest" then .ok firstHeadManifest
    else if hash = "second.manifest" then .ok secondHeadManifest else .error "not found"
  putManifest manifest := if manifest = firstHeadManifest then .ok "head.manifest"
    else if manifest = secondHeadManifest then .ok "second.manifest"
    else if manifest = secondFullManifest then .ok "full.manifest" else .error "disk full"

set_option maxRecDepth 10000 in
theorem secondIdx_ids : idxObjectIds secondIdx = .ok [secondCommit] := by
  decide

theorem secondStorage_ok : secondStorage.Ok secondContents where
  get := by
    intro hash bytes h
    simp only [secondStorage] at h
    split at h
    · next hhash =>
        rw [← Except.ok.inj h, hhash]
        rfl
    · next hhash =>
        rw [← Except.ok.inj h]
        exact (if_neg hhash).symm
  put := by
    intro bytes hash h
    simp only [secondStorage] at h
    split at h
    · next hbytes =>
        rw [← Except.ok.inj h, hbytes]
        rfl
    · cases h
  put_ne := by
    intro bytes hash h
    simp only [secondStorage] at h
    split at h
    · rw [← Except.ok.inj h]
      decide
    · cases h
  getManifest := by
    intro hash manifest h
    simp only [secondStorage] at h
    split at h
    · next hhash =>
        rw [← Except.ok.inj h, hhash]
        rfl
    · split at h
      · next hhash =>
          rw [← Except.ok.inj h, hhash]
          rfl
      · cases h
  putManifest := by
    intro manifest hash h
    simp only [secondStorage] at h
    split at h
    · next hmanifest => rw [← Except.ok.inj h, hmanifest]; rfl
    · split at h
      · next hmanifest => rw [← Except.ok.inj h, hmanifest]; rfl
      · split at h
        · next hmanifest => rw [← Except.ok.inj h, hmanifest]; rfl
        · cases h

theorem wrote_second {pack : SizedPack} (hlen : emptyPackLen < pack.packLen)
    (hids : idxObjectIds (secondContents.bytes pack.idx) = .ok (secondObjects pack.pack)) :
    secondContents.Wrote [pack] {id | id ∈ secondObjects pack.pack} where
  packed_eq := by
    ext id
    simp only [mem_packed, List.mem_singleton, exists_eq_left]
    rfl
  described := by
    intro p hp
    obtain rfl := List.mem_singleton.mp hp
    exact ⟨_, hids, fun id => Iff.rfl⟩
  empty := by
    intro p hp hempty
    obtain rfl := List.mem_singleton.mp hp
    omega

theorem secondGit_headOk : secondGit.HeadOk secondContents secondClosure where
  nodup := by
    intro commit oids h
    simp only [secondGit] at h
    split at h
    · next hcommit =>
        obtain rfl := Except.ok.inj h
        rcases List.mem_pair.mp hcommit with rfl | rfl <;> decide
    · cases h
  mem_closure := by
    intro commit oids h id
    simp only [secondGit] at h
    split at h
    · next hcommit =>
        obtain rfl := Except.ok.inj h
        exact ⟨fun hid => ⟨hcommit, hid⟩, fun hid => hid.2⟩
    · cases h
  wrote := by
    intro oids packs h
    simp only [secondGit] at h
    split at h
    · next hoids =>
        rw [← Except.ok.inj h, hoids]
        exact @wrote_second headPack (by decide) firstIdx_ids
    · split at h
      · next hoids =>
          rw [← Except.ok.inj h, hoids]
          exact @wrote_second levelPack (by decide) secondIdx_ids
      · cases h

theorem secondGit_ownOk : Git.OwnOk secondContents secondChild secondGit where
  ancestor := by
    intro commit of h
    have hdecide := of_decide_eq_true (Except.ok.inj h)
    rw [hdecide.1, hdecide.2]
    exact .single (.inr ⟨rfl, .inr rfl⟩)
  listed := by
    intro tip exclude ids h id hid
    simp only [secondGit] at h
    split at h
    · next hrange =>
        rw [← Except.ok.inj h, hrange.2]
        rw [hrange.1] at hid
        -- all that the second commit leads to but itself, the first leads to
        rcases Relation.ReflTransGen.cases_head hid with rfl | ⟨next, hnext, hid⟩
        · exact .inr (List.mem_singleton.mpr rfl)
        · refine .inl ?_
          rcases hnext with ⟨hfirst, _⟩ | ⟨_, rfl | rfl⟩
          · exact absurd hfirst (by decide)
          · exact reach_subset (.single (.inl ⟨rfl, rfl⟩)) hid
          · exact hid
    · cases h
  wrote := by
    intro oids packs h
    cases h

def secondHead : HeadResult where
  clonepack := ⟨"second.manifest", "table", "", "", "idx.bundle", secondCommit⟩
  parentCommit := some firstCommit
  packs := [⟨"head.pack", "head.idx"⟩, ⟨"level.pack", "level.idx"⟩]
  baseCommit := firstCommit
  basePacks := [headPack]
  levels := [levelPack]

def secondOwn : OwnHistory := ⟨firstCommit, [], [1]⟩

def secondFull : FullResult where
  clonepack := ⟨"full.manifest", "table", "", "", "", secondCommit⟩
  packs := [⟨"head.pack", "head.idx"⟩, ⟨"level.pack", "level.idx"⟩, ⟨"second.pack", "second.idx"⟩]
  historyLevels := [⟨secondCommit, [secondHistory]⟩]
  headBase := none
  ownHistory := some secondOwn

set_option maxRecDepth 10000 in
theorem secondHead_built :
    buildHeadResult secondGit secondStorage firstCommit none none
        (.ok ⟨"table", "", ⟨"table", 60⟩, none, 60⟩) (fun _ => .ok (none, "")) = .ok firstHead ∧
      buildHeadResult secondGit secondStorage secondCommit (some firstCommit)
        (some ⟨firstCommit, [headPack], []⟩) (.ok ⟨"table", "", ⟨"table", 60⟩, none, 60⟩)
        (fun _ => .ok (none, "")) = .ok secondHead := by
  decide

set_option maxRecDepth 10000 in
theorem secondFull_built : buildFullResult secondGit secondStorage secondCommit secondHead []
    (some firstCommit) 16 (128 * 1024 * 1024) = .ok secondFull := by
  decide

theorem second_run : Run (PackBuild secondContents secondChild secondClosure) Published.empty
    [.head firstCommit, .head secondCommit] ⟨[secondHead, firstHead], []⟩ := by
  have hfirst : PackBuild secondContents secondChild secondClosure Published.empty
      (.head firstCommit) ⟨[firstHead], []⟩ :=
    .head secondGit_headOk secondStorage_ok (by simp) secondHead_built.1
  have hsecond : PackBuild secondContents secondChild secondClosure ⟨[firstHead], []⟩
      (.head secondCommit) ⟨[secondHead, firstHead], []⟩ :=
    .head secondGit_headOk secondStorage_ok (by simp [Published.bases, firstHead])
      secondHead_built.2
  exact (Run.nil.snoc hfirst).snoc hsecond

theorem second_own_history :
    secondFull.ownHistory = some secondOwn ∧ secondFull.clonepack.commit = secondCommit ∧
      OwnHistoryOk secondContents secondChild secondHead secondFull secondOwn :=
  ⟨rfl, own_history_complete second_run List.mem_cons_self secondGit_ownOk secondStorage_ok
    secondFull_built rfl⟩

end SecondCommit

end Ripclone.Server
