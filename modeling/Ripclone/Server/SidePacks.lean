import Ripclone.Server.Refs

/-!
# The side pack completes every ref

A published `RepoBranches` promises a full clone that holds its base every branch and tag: whatever
they reach is in the base's history or in a side pack layer. `Complete` is that promise as a
publish keeps it. The layers answer for the side tips against the *side base*, the commit the newest
layer left out the history of, and the side base is in the base's history.

A layer is only as good as the tips it was told the layers below complete. The hashes carry that: a
file accepted by `readSideTips` lists exactly the tips of the previous side pack, whatever the file
went through.
-/

namespace Ripclone.Server

open Ripclone.Library Ripclone.Pack

variable {objects : String → Set String} {child : String → String → Prop} {hash : String → String}
  {calls : RefsCalls} {refs : MirrorRefs}

/-- Every object the layers hold. -/
def sidePacked (objects : String → Set String) (packs : List SidePack) : Set String :=
  held (fun side => objects side.pack) packs

/-- The layers hold what the tips reach and the side base's history lacks. -/
def Completes (objects : String → Set String) (child : String → String → Prop) (tips : List String)
    (sideBase : String) (packs : List SidePack) : Prop :=
  ReachAny child {id | id ∈ tips} ⊆ Reach child sideBase ∪ sidePacked objects packs

/-- `branches` are published for the listing `refs`, with a side pack that completes it. -/
structure Complete (objects : String → Set String) (child : String → String → Prop)
    (hash : String → String) (branches : RepoBranches) (refs : MirrorRefs) : Prop where
  once : refs.DefaultOnce
  refsHash : branches.refsHash = refs.refsHash hash
  base : branches.base = refs.base
  sideTips : branches.sideTips = refs.sideTipsHash hash
  side : ∀ sideBase ∈ branches.sideBase,
    Completes objects child refs.sideTips sideBase branches.sidePacks
  forward : ∀ base ∈ branches.base, ∃ sideBase ∈ branches.sideBase, sideBase ∈ Reach child base
  layers : branches.sidePacks.length ≤ sideLayers

/-! ## Building layers -/

theorem sidePacked_append {packs rest : List SidePack} :
    sidePacked objects (packs ++ rest) = sidePacked objects packs ∪ sidePacked objects rest :=
  held_append

@[simp] theorem sidePacked_nil : sidePacked objects [] = ∅ := by
  ext id
  simp [sidePacked, held]

/-- A layer holds what the side tips reach beyond the base and the older tips. -/
theorem sidePack_ok {older : List String} {base : String} {layer : Option SidePack}
    (hcalls : calls.Ok objects child) (hbase : refs.base = some base)
    (h : sidePack calls refs older = .ok layer) :
    ReachAny child {id | id ∈ refs.sideTips} ⊆
      Reach child base ∪ ReachAny child {id | id ∈ older} ∪ sidePacked objects layer.toList := by
  simp only [sidePack, hbase] at h
  rintro id ⟨tip, htip, hid⟩
  -- only tips that are neither the base nor an older tip are asked for
  by_cases hskip : tip = base ∨ tip ∈ older
  · rcases hskip with rfl | holder
    · exact .inl (.inl hid)
    · exact .inl (.inr (mem_reachAny holder hid))
  have hasked : tip ∈ refs.sideTips.filter fun id => decide (id ≠ base ∧ id ∉ older) :=
    List.mem_filter.mpr ⟨htip, by simpa [not_or] using hskip⟩
  split at h
  · next hempty =>
      rw [List.isEmpty_iff.mp hempty] at hasked
      cases hasked
  · obtain ⟨pack, hpack, hlayer⟩ := bind_eq_ok.mp h
    rw [packObjectsExcluding] at hpack
    split at hpack
    · by_cases hold : id ∈ ReachAny child {id | id ∈ base :: older}
      · obtain ⟨excluded, hexcluded, hid⟩ := hold
        rcases List.mem_cons.mp hexcluded with rfl | holder
        · exact .inl (.inl hid)
        · exact .inl (.inr (mem_reachAny holder hid))
      · have hmem : id ∈ objects pack.pack := by
          rw [hcalls.packed hpack]
          exact ⟨mem_reachAny hasked hid, hold⟩
        obtain rfl := pure_eq_ok.mp hlayer
        split
        · next hlen =>
            rw [hcalls.empty hpack hlen] at hmem
            cases hmem
        · exact .inr ⟨pack, by simp, hmem⟩
    · cases hpack

/-- A layer above layers that complete the older tips completes the listing's, against the base. -/
theorem completes_layer {older : List String} {base sideBase : String} {packs : List SidePack}
    {layer : Option SidePack} (hcalls : calls.Ok objects child) (hbase : refs.base = some base)
    (hforward : sideBase ∈ Reach child base) (hbelow : Completes objects child older sideBase packs)
    (h : sidePack calls refs older = .ok layer) :
    Completes objects child refs.sideTips base (packs ++ layer.toList) := by
  intro id hid
  rw [sidePacked_append]
  rcases sidePack_ok hcalls hbase h hid with (hid | hid) | hid
  · exact .inl hid
  · rcases hbelow hid with hid | hid
    · exact .inl (reach_subset hforward hid)
    · exact .inr (.inl hid)
  · exact .inr (.inr hid)

/-- What the side base and the layers of a publish have to be for its listing. -/
structure LayersOk (objects : String → Set String) (child : String → String → Prop)
    (refs : MirrorRefs) (sideBase : Option String) (packs : List SidePack) : Prop where
  side : ∀ base ∈ sideBase, Completes objects child refs.sideTips base packs
  forward : ∀ base ∈ refs.base, ∃ old ∈ sideBase, old ∈ Reach child base
  layers : packs.length ≤ sideLayers

theorem wholeSidePack_ok {sideBase : Option String} {packs : List SidePack}
    (hcalls : calls.Ok objects child) (h : wholeSidePack calls refs = .ok (sideBase, packs)) :
    LayersOk objects child refs sideBase packs := by
  obtain ⟨layer, hlayer, hresult⟩ := bind_eq_ok.mp h
  obtain ⟨rfl, rfl⟩ := Prod.mk.inj (pure_eq_ok.mp hresult)
  refine ⟨?_, fun base hbase => ⟨base, hbase, mem_reach_self⟩, ?_⟩
  · intro base hbase
    have hnone : Completes objects child [] base [] := by
      rintro id ⟨tip, htip, _⟩
      cases htip
    exact completes_layer hcalls hbase mem_reach_self hnone hlayer
  · cases layer <;> simp [sideLayers]

/-- A file that is accepted lists the side tips of the previous side pack. -/
theorem readSideTips_eq {file : Option String} {previous : RepoBranches} {older : List String}
    (hinj : Function.Injective hash) (hsideTips : previous.sideTips = refs.sideTipsHash hash)
    (hread : readSideTips hash file previous.sideTips = some older) : older = refs.sideTips := by
  cases file with
  | none => cases hread
  | some listed =>
      simp only [readSideTips] at hread
      split at hread
      · next hhash =>
          rw [← Option.some.inj hread]
          exact textLines_of_sideTipsHash hinj (hhash.trans hsideTips)
      · cases hread

/-- Layers on top of a previous side pack, given that the default branch moved forward from it. -/
theorem sidePackLayers_ok {file : Option String} {previous : RepoBranches} {refs' : MirrorRefs}
    {sideBase : Option String} {packs : List SidePack} (hinj : Function.Injective hash)
    (hcalls : calls.Ok objects child) (hsideTips : previous.sideTips = refs'.sideTipsHash hash)
    (hprevious : LayersOk objects child refs' previous.sideBase previous.sidePacks)
    (hforward : ∀ base ∈ refs.base, ∃ old ∈ previous.sideBase, old ∈ Reach child base)
    (h : sidePackLayers hash calls file refs (some previous) = .ok (sideBase, packs)) :
    LayersOk objects child refs sideBase packs := by
  simp only [sidePackLayers] at h
  split at h
  · next htips =>
      -- the refs the side pack completes are the same
      obtain ⟨rfl, rfl⟩ := Prod.mk.inj (pure_eq_ok.mp h)
      have hsame : refs.sideTips = refs'.sideTips :=
        sideTips_eq_of_hash hinj (htips.symm.trans hsideTips)
      exact ⟨fun base hbase => hsame ▸ hprevious.side base hbase, hforward, hprevious.layers⟩
  · split at h
    · next hlen =>
        split at h
        · exact wholeSidePack_ok hcalls h
        · next older hread =>
            split at h
            · next layer hlayer =>
                obtain ⟨rfl, rfl⟩ := Prod.mk.inj (pure_eq_ok.mp h)
                have holder := readSideTips_eq hinj hsideTips hread
                refine ⟨?_, fun base hbase => ⟨base, hbase, mem_reach_self⟩, ?_⟩
                · intro base hbase
                  obtain ⟨old, hold, hreach⟩ := hforward base hbase
                  exact completes_layer hcalls hbase hreach
                    (holder ▸ hprevious.side old hold) hlayer
                · have hone : layer.toList.length ≤ 1 := by cases layer <;> simp
                  rw [List.length_append]
                  omega
            · exact wholeSidePack_ok hcalls h
    · exact wholeSidePack_ok hcalls h

theorem movedForward_ok {previous : RepoBranches} (hcalls : calls.Ok objects child)
    (h : movedForward calls (some previous) refs.base = .ok true) :
    ∀ base ∈ refs.base, ∃ old ∈ previous.sideBase, old ∈ Reach child base := by
  intro base hbase
  simp only [movedForward, Option.bind_some, Option.mem_def.mp hbase] at h
  cases hside : previous.sideBase with
  | none => simp [hside, pure_eq_ok] at h
  | some old =>
      rw [hside] at h
      exact ⟨old, rfl, hcalls.ancestor h⟩

/-- A refresh that publishes a listing completes it, on top of any branches published before. -/
theorem publishBranches_complete {file file' : Option String} {previous : Option RepoBranches}
    {tags : PublishedTags} {branches : RepoBranches} (hinj : Function.Injective hash)
    (hcalls : calls.Ok objects child) (honce : refs.DefaultOnce)
    (hprevious : ∀ b ∈ previous, ∃ refs', Complete objects child hash b refs')
    (h : publishBranches hash calls file refs previous tags = .ok (branches, file')) :
    Complete objects child hash branches refs := by
  simp only [publishBranches, bind_eq_ok, pure_eq_ok, Prod.mk.injEq] at h
  obtain ⟨⟨artifact, len⟩, _, forward, hforward, ⟨sideBase, sidePacks⟩, hlayers, rfl, _⟩ := h
  have hok : LayersOk objects child refs sideBase sidePacks := by
    cases previous with
    | none => exact wholeSidePack_ok hcalls hlayers
    | some previous =>
        cases forward with
        | false => exact wholeSidePack_ok hcalls hlayers
        | true =>
            obtain ⟨refs', hcomplete⟩ := hprevious previous rfl
            refine sidePackLayers_ok hinj hcalls hcomplete.sideTips
              ⟨hcomplete.side, ?_, hcomplete.layers⟩ (movedForward_ok hcalls hforward) hlayers
            exact hcomplete.base ▸ hcomplete.forward
  exact ⟨honce, rfl, rfl, rfl, hok.side, hok.forward, hok.layers⟩

/-! ## Runs -/

/-- Every `RepoBranches` of the state is complete for some listing. -/
def RefsState.AllComplete (objects : String → Set String) (child : String → String → Prop)
    (hash : String → String) (s : RefsState) : Prop :=
  (∀ row ∈ s.stored, ∀ b ∈ row.branches.toList ++ row.ready.toList,
    ∃ refs, Complete objects child hash b refs) ∧
  ∀ b ∈ s.built, ∃ refs, Complete objects child hash b refs

theorem builtBranches_complete {stored : RepoRefs} {file file' : Option String}
    {branches : RepoBranches} (hinj : Function.Injective hash) (hcalls : calls.Ok objects child)
    (honce : refs.DefaultOnce) (hstored : ∀ b ∈ stored.branches, ∃ refs', Complete objects child hash b refs')
    (h : builtBranches hash calls stored file refs = .ok (branches, file')) :
    ∃ refs', Complete objects child hash branches refs' := by
  simp only [builtBranches] at h
  split at h
  · next previous hprevious =>
      obtain ⟨rfl, _⟩ := Prod.mk.inj (pure_eq_ok.mp h)
      exact hstored _ (Option.filter_eq_some_iff.mp hprevious).1
  · obtain ⟨tags, _, h⟩ := bind_eq_ok.mp h
    exact ⟨refs, publishBranches_complete hinj hcalls honce hstored h⟩

/-- A publish writes branches it was given or the row had. -/
theorem mem_publishedRow {stored : Option RepoRefs} {branches : Option RepoBranches}
    {row : RepoRefs} {b : RepoBranches}
    (h : publishedRow hash calls stored refs branches = .ok row)
    (hb : b ∈ row.branches.toList ++ row.ready.toList) :
    b ∈ branches ∨ ∃ old ∈ stored, b ∈ old.branches.toList ++ old.ready.toList := by
  obtain ⟨tagged, htagged, h⟩ := bind_eq_ok.mp h
  have hkept : tagged.branches = (stored.getD RepoRefs.default).branches ∧
      tagged.ready = (stored.getD RepoRefs.default).ready := by
    simp only [rowTags] at htagged
    split at htagged
    · split at htagged
      · obtain rfl := pure_eq_ok.mp htagged
        exact ⟨rfl, rfl⟩
      · obtain ⟨tags, _, htagged⟩ := bind_eq_ok.mp htagged
        obtain rfl := pure_eq_ok.mp htagged
        exact ⟨rfl, rfl⟩
    · obtain rfl := pure_eq_ok.mp htagged
      exact ⟨rfl, rfl⟩
  have hold : b ∈ tagged.branches.toList ++ tagged.ready.toList →
      ∃ old ∈ stored, b ∈ old.branches.toList ++ old.ready.toList := by
    intro hb
    rw [hkept.1, hkept.2] at hb
    cases stored with
    | none => simp [RepoRefs.default] at hb
    | some old => exact ⟨old, rfl, hb⟩
  split at h
  · obtain rfl := pure_eq_ok.mp h
    exact .inr (hold hb)
  · obtain ⟨ready, _, h⟩ := bind_eq_ok.mp h
    obtain rfl := pure_eq_ok.mp h
    simp only [List.mem_append, Option.mem_toList, Option.mem_def] at hb hold ⊢
    rcases hb with hb | hb
    · exact .inl hb
    · refine .inr (hold ?_)
      cases ready with
      | false => exact .inr hb
      | true => exact .inl hb

/-- The listing a refresh builds branches for has one branch of the default branch's name. -/
def RefsEvent.DefaultOnce : RefsEvent → Prop
  | .build refs => refs.DefaultOnce
  | _ => True

theorem RefsStep.allComplete {s s' : RefsState} {e : RefsEvent} (hinj : Function.Injective hash)
    (honce : e.DefaultOnce) (hs : s.AllComplete objects child hash) (hstep : RefsStep objects child hash s e s') :
    s'.AllComplete objects child hash := by
  cases hstep with
  | @build calls refs branches file hcalls h =>
      refine ⟨hs.1, fun b hb => ?_⟩
      rcases List.mem_cons.mp hb with rfl | hb
      · refine builtBranches_complete hinj hcalls honce (fun b hb => ?_) h
        cases hstored : s.stored with
        | none => simp [hstored, RepoRefs.default] at hb
        | some row =>
            rw [hstored] at hb
            exact hs.1 row hstored b (List.mem_append_left _ (Option.mem_toList.mpr hb))
      · exact hs.2 b hb
  | publish _ hbuilt h =>
      refine ⟨fun row hrow b hb => ?_, hs.2⟩
      obtain rfl := Option.some.inj hrow
      rcases mem_publishedRow h hb with hb | ⟨old, hold, hb⟩
      · exact hs.2 b (hbuilt b hb)
      · exact hs.1 old hold b hb
  | purge => exact ⟨fun row hrow => (Option.not_mem_none row hrow).elim, hs.2⟩
  | file => exact hs

/-- Objects of listed refs, given a complete publish. -/
theorem Complete.listed_subset {branches : RepoBranches}
    (h : Complete objects child hash branches refs) {base : String} (hbase : branches.base = some base) :
    ReachAny child {id | id ∈ refs.listed} ⊆
      Reach child base ∪ sidePacked objects branches.sidePacks := by
  obtain ⟨sideBase, hside, hforward⟩ := h.forward base hbase
  rintro id ⟨tip, htip, hid⟩
  rcases mem_sideTips_or_base h.once htip with htip | hdefault
  · rcases h.side sideBase hside (mem_reachAny htip hid) with hid | hid
    · exact .inl (reach_subset hforward hid)
    · exact .inr hid
  · rw [← h.base, hbase] at hdefault
    exact .inl (Option.some.inj hdefault ▸ hid)

/-- After every run of refreshes, publishes and purges, whatever the mirror's file held at each of
them and as long as no listing has the default branch's name twice, the branches the row names and
the ones it keeps as ready are those of a listing. Every object its refs reach is in the base's
history or in a side pack, the side base is in the base's history, and the layers are few. -/
theorem published_refs_complete (hinj : Function.Injective hash) {es : List RefsEvent}
    {s : RefsState} (hrun : Run (RefsStep objects child hash) RefsState.init es s)
    (honce : ∀ e ∈ es, e.DefaultOnce) {row : RepoRefs} (hrow : s.stored = some row)
    {branches : RepoBranches} (hbranches : branches ∈ row.branches.toList ++ row.ready.toList)
    {base : String} (hbase : branches.base = some base) :
    (∃ refs : MirrorRefs, branches.refsHash = refs.refsHash hash) ∧
    (∀ refs : MirrorRefs, branches.refsHash = refs.refsHash hash → refs.base = some base ∧
      ReachAny child {id | id ∈ refs.listed} ⊆
        Reach child base ∪ sidePacked objects branches.sidePacks) ∧
    (∃ sideBase, branches.sideBase = some sideBase ∧ sideBase ∈ Reach child base) ∧
    branches.sidePacks.length ≤ sideLayers := by
  have hall : s.AllComplete objects child hash := by
    refine Run.invariant ?_ (fun honce hs hstep => hstep.allComplete hinj honce hs) hrun honce
    exact ⟨fun row hrow => (Option.not_mem_none row hrow).elim,
      fun b hb => (List.not_mem_nil hb).elim⟩
  obtain ⟨refs, hcomplete⟩ := hall.1 row hrow branches hbranches
  refine ⟨⟨refs, hcomplete.refsHash⟩, fun refs' hhash => ?_, hcomplete.forward base hbase,
    hcomplete.layers⟩
  obtain rfl := refsHash_inj hinj (hcomplete.refsHash.symm.trans hhash)
  exact ⟨hcomplete.base ▸ hbase, hcomplete.listed_subset hbase⟩

/-! ## A first refresh

Two branches, of two commits that share nothing: the side pack holds the second one. -/

section FirstRefresh

def mainTip : String := "aaaaaaaaaaaaaaaaaaaaaaaaaaaaaaaaaaaaaaaa"

def sideTip : String := "bbbbbbbbbbbbbbbbbbbbbbbbbbbbbbbbbbbbbbbb"

theorem mainTip_ok : validateObjectId mainTip = true := by decide

theorem sideTip_ok : validateObjectId sideTip = true := by decide

theorem noTags_ok : ∀ t ∈ ([] : List (String × String)),
    validateTagName t.1 = .ok () ∧ validateObjectId t.2 = true := by
  simp

set_option maxRecDepth 10000 in
def firstRefs : MirrorRefs where
  defaultBranch := some "main"
  branches := [("main", mainTip), ("side", sideTip)]
  tags := []
  branches_ok := by decide
  tags_ok := noTags_ok
  default_listed := by simp

def firstSide : SidePack := ⟨"side.pack", 100, "side.idx", 1100⟩

/-- What each pack holds. -/
def firstPacked (hash : String) : Set String := if hash = "side.pack" then {sideTip} else ∅

def firstRefsCalls : RefsCalls where
  isAncestor := fun _ _ => .ok false
  packObjects := fun tips excluded =>
    if tips = [sideTip] ∧ excluded = [mainTip] then .ok firstSide else .error "pack-objects (side)"
  putBranches := fun _ => .ok ("branches", 90)
  putTags := fun _ => .ok ("tags", 20)
  fullReady := fun _ => .ok false
  writesSideTips := true

theorem firstRefs_base : firstRefs.base = some mainTip := by decide

theorem firstRefs_sideTips : firstRefs.sideTips = [sideTip] := by
  rw [MirrorRefs.sideTips]
  rw [show (((firstRefs.branches.filter fun b => some b.1 ≠ firstRefs.defaultBranch) ++
    firstRefs.tags).map Prod.snd) = [sideTip] by decide]
  simp

theorem reach_alone (a : String) : Reach (fun _ _ => False) a = {a} := by
  ext b
  constructor
  · rintro (_ | ⟨_, hfalse⟩)
    · rfl
    · exact hfalse.elim
  · rintro rfl
    exact mem_reach_self

theorem firstRefsCalls_ok : firstRefsCalls.Ok firstPacked (fun _ _ => False) where
  ancestor := by
    intro commit of h
    cases h
  packed := by
    intro tips excluded pack h
    simp only [firstRefsCalls] at h
    split at h
    · next hasked =>
        obtain rfl := Except.ok.inj h
        obtain ⟨rfl, rfl⟩ := hasked
        ext id
        simp [firstPacked, firstSide, ReachAny, reach_alone]
        rintro rfl
        decide
    · cases h
  empty := by
    intro tips excluded pack h hlen
    simp only [firstRefsCalls] at h
    split at h
    · obtain rfl := Except.ok.inj h
      exact absurd hlen (by decide)
    · cases h

def firstBranches : RepoBranches where
  artifact := "branches"
  len := 90
  refsHash := firstRefs.refsHash id
  defaultBranch := some "main"
  base := some mainTip
  sideBase := some mainTip
  sideTips := firstRefs.sideTipsHash id
  sidePacks := [firstSide]
  tags := ⟨"", 0, 0, ""⟩

def firstRow : RepoRefs := ⟨"", 0, 0, "", some firstBranches, none⟩

theorem firstSide_built : wholeSidePack firstRefsCalls firstRefs = .ok (some mainTip, [firstSide]) := by
  have hlayer : sidePack firstRefsCalls firstRefs [] = .ok (some firstSide) := by
    simp only [sidePack, firstRefs_base, firstRefs_sideTips]
    decide
  rw [wholeSidePack, hlayer, firstRefs_base]
  rfl

theorem firstBranches_built :
    builtBranches id firstRefsCalls RepoRefs.default none firstRefs =
      .ok (firstBranches, some firstRefs.sideTipsText) := by
  show publishBranches id firstRefsCalls none firstRefs none ⟨"", 0, 0, ""⟩ = _
  simp only [publishBranches, sidePackLayers, Option.filter_none, firstSide_built,
    firstRefs_base]
  rfl

theorem firstRow_published :
    publishedRow id firstRefsCalls none firstRefs (some firstBranches) = .ok firstRow := rfl

/-- The first refresh builds the branches and publishes them. -/
theorem first_refresh : Run (RefsStep firstPacked (fun _ _ => False) id) RefsState.init
    [.build firstRefs, .publish firstRefs]
    ⟨some firstRow, some firstRefs.sideTipsText, [firstBranches]⟩ := by
  have hbuild : RefsStep firstPacked (fun _ _ => False) id RefsState.init (.build firstRefs)
      ⟨none, some firstRefs.sideTipsText, [firstBranches]⟩ :=
    .build firstRefsCalls_ok firstBranches_built
  exact (Run.nil.snoc hbuild).snoc (.publish firstRefsCalls_ok (by simp) firstRow_published)

theorem firstRefs_defaultOnce : firstRefs.DefaultOnce := by
  unfold MirrorRefs.DefaultOnce
  decide

theorem first_refresh_complete :
    sideTip ∈ Reach (fun _ _ => False) mainTip ∪ sidePacked firstPacked firstBranches.sidePacks ∧
      firstBranches.sidePacks.length ≤ sideLayers := by
  have hnamed : firstBranches ∈ firstRow.branches.toList ++ firstRow.ready.toList := by
    simp [firstRow]
  have hbase : firstBranches.base = some mainTip := rfl
  have honce : ∀ e ∈ [RefsEvent.build firstRefs, .publish firstRefs], e.DefaultOnce := by
    simp [RefsEvent.DefaultOnce, firstRefs_defaultOnce]
  obtain ⟨_, hlisted, _, hlayers⟩ :=
    published_refs_complete Function.injective_id first_refresh honce rfl hnamed hbase
  refine ⟨(hlisted firstRefs rfl).2 (mem_reachAny (a := sideTip) ?_ mem_reach_self), hlayers⟩
  simp [MirrorRefs.listed, firstRefs]

end FirstRefresh

/-! ## A default branch's name read twice

Two branches whose names are the bytes `fe` and `ff`. Neither byte is UTF-8, so both read as U+FFFD,
and so does the branch that `HEAD` names. Both are left out of the side tips as the default branch,
and only one of them is the base. -/

section ReadTwice

/-- A branch that names a commit. -/
def namedBytes (name : List UInt8) (id : String) (h : validateObjectId id = true) : GitRef where
  name := name
  target := some id
  target_ok := by simpa using h

def twiceRefs : MirrorRefs :=
  MirrorRefs.read (some [0xef, 0xbf, 0xbd])
    [namedBytes [0xfe] mainTip mainTip_ok, namedBytes [0xff] sideTip sideTip_ok] []

theorem twiceRefs_branches : twiceRefs.branches = [("\ufffd", mainTip), ("\ufffd", sideTip)] := by
  show List.mergeSort _ _ = _
  have hlisted : ([namedBytes [0xfe] mainTip mainTip_ok, namedBytes [0xff] sideTip
      sideTip_ok].filterMap fun ref =>
      let name := Utf8.lossy ref.name
      if validateCheckoutName name = .ok () then ref.target.map fun id => (name, id) else none) =
      [("\ufffd", mainTip), ("\ufffd", sideTip)] := by
    decide
  rw [hlisted]
  exact List.mergeSort_of_pairwise (by decide)

theorem twiceRefs_default : twiceRefs.defaultBranch = some "\ufffd" := by
  have hread : twiceRefs.defaultBranch =
      (some (Utf8.lossy [0xef, 0xbf, 0xbd])).filter fun name =>
        twiceRefs.branches.any fun b => b.1 = name := rfl
  rw [hread, twiceRefs_branches]
  decide

theorem twiceRefs_base : twiceRefs.base = some mainTip := by
  rw [MirrorRefs.base, twiceRefs_default, twiceRefs_branches]
  decide

theorem twiceRefs_tags : twiceRefs.tags = [] := by
  show List.mergeSort _ _ = _
  simp

theorem twiceRefs_sideTips : twiceRefs.sideTips = [] := by
  rw [MirrorRefs.sideTips, twiceRefs_default, twiceRefs_branches, twiceRefs_tags]
  simp

def twiceBranches : RepoBranches where
  artifact := "branches"
  len := 90
  refsHash := twiceRefs.refsHash id
  defaultBranch := some "\ufffd"
  base := some mainTip
  sideBase := some mainTip
  sideTips := twiceRefs.sideTipsHash id
  sidePacks := []
  tags := ⟨"", 0, 0, ""⟩

theorem twiceRefs_tagsHash : twiceRefs.tagsHash id = "" := by
  rw [MirrorRefs.tagsHash, twiceRefs_tags]
  rfl

theorem twiceBranches_built :
    builtBranches id firstRefsCalls RepoRefs.default none twiceRefs =
      .ok (twiceBranches, some twiceRefs.sideTipsText) := by
  have hwhole : wholeSidePack firstRefsCalls twiceRefs = .ok (some mainTip, []) := by
    simp only [wholeSidePack, sidePack, twiceRefs_base, twiceRefs_sideTips]
    rfl
  have htags : tagsFor id firstRefsCalls RepoRefs.default twiceRefs = .ok ⟨"", 0, 0, ""⟩ := by
    rw [tagsFor, twiceRefs_tagsHash]
    rfl
  show (tagsFor id firstRefsCalls RepoRefs.default twiceRefs >>= fun tags =>
    publishBranches id firstRefsCalls none twiceRefs none tags) = _
  rw [htags]
  show publishBranches id firstRefsCalls none twiceRefs none _ = _
  simp only [publishBranches, sidePackLayers, Option.filter_none, hwhole, twiceRefs_base,
    twiceRefs_default]
  rfl

theorem twiceRow_published :
    publishedRow id firstRefsCalls none twiceRefs (some twiceBranches) =
      .ok ⟨"", 0, 0, "", some twiceBranches, none⟩ := by
  have htags : rowTags id firstRefsCalls none twiceRefs (some twiceBranches) =
      .ok RepoRefs.default := by
    simp only [rowTags, twiceRefs_tagsHash]
    rfl
  rw [publishedRow, htags]
  rfl

theorem twice_refresh : Run (RefsStep firstPacked (fun _ _ => False) id) RefsState.init
    [.build twiceRefs, .publish twiceRefs]
    ⟨some ⟨"", 0, 0, "", some twiceBranches, none⟩, some twiceRefs.sideTipsText,
      [twiceBranches]⟩ := by
  have hbuild : RefsStep firstPacked (fun _ _ => False) id RefsState.init (.build twiceRefs)
      ⟨none, some twiceRefs.sideTipsText, [twiceBranches]⟩ :=
    .build firstRefsCalls_ok twiceBranches_built
  exact (Run.nil.snoc hbuild).snoc (.publish firstRefsCalls_ok (by simp) twiceRow_published)

/-- The refresh publishes branches whose listing names a commit that is neither in the base's
history nor in a side pack. -/
theorem default_read_twice_incomplete :
    ∃ s row, Run (RefsStep firstPacked (fun _ _ => False) id) RefsState.init
        [.build twiceRefs, .publish twiceRefs] s ∧
      s.stored = some row ∧ row.branches = some twiceBranches ∧
      twiceBranches.base = some mainTip ∧ twiceBranches.refsHash = twiceRefs.refsHash id ∧
      sideTip ∈ twiceRefs.listed ∧
      sideTip ∉ Reach (fun _ _ => False) mainTip ∪
        sidePacked firstPacked twiceBranches.sidePacks := by
  refine ⟨_, _, twice_refresh, rfl, rfl, rfl, rfl, ?_, ?_⟩
  · simp [MirrorRefs.listed, twiceRefs_branches]
  · rw [reach_alone]
    simp [twiceBranches]
    decide

end ReadTwice

end Ripclone.Server
