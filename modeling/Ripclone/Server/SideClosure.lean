import Ripclone.Server.SidePacks

/-!
# What a side pack layer holds comes with its history

A layer holds what some tips reach, less what others do. So whatever it holds leads only to what the
layers hold and to the side base's history. This needs no more than the hash of the side tips to be
right: it does not matter which refs the listing has, nor whether they were read well.
-/

namespace Ripclone.Server

open Ripclone.Library Ripclone.Pack

variable {objects : String → Set String} {child : String → String → Prop} {hash : String → String}
  {calls : RefsCalls} {refs : MirrorRefs}

/-- The layers are closed over the side base's history. -/
def SideClosed (objects : String → Set String) (child : String → String → Prop)
    (sideBase : Option String) (packs : List SidePack) : Prop :=
  ClosedOver child (ReachOpt child sideBase) (sidePacked objects packs)

/-- `branches` are published for the listing `refs`, with layers that answer for its side tips. -/
structure Layered (objects : String → Set String) (child : String → String → Prop)
    (hash : String → String) (branches : RepoBranches) (refs : MirrorRefs) : Prop where
  refsHash : branches.refsHash = refs.refsHash hash
  base : branches.base = refs.base
  sideTips : branches.sideTips = refs.sideTipsHash hash
  layers : LayersOk objects child refs branches.sideBase branches.sidePacks
  closed : SideClosed objects child branches.sideBase branches.sidePacks

theorem reachAny_cons (a : String) (rest : List String) :
    ReachAny child {id | id ∈ a :: rest} = Reach child a ∪ ReachAny child {id | id ∈ rest} := by
  ext id
  constructor
  · rintro ⟨tip, htip, hid⟩
    rcases List.mem_cons.mp htip with rfl | htip
    · exact .inl hid
    · exact .inr ⟨tip, htip, hid⟩
  · rintro (hid | ⟨tip, htip, hid⟩)
    · exact ⟨a, List.mem_cons_self, hid⟩
    · exact ⟨tip, List.mem_cons_of_mem _ htip, hid⟩

/-- A layer is closed over the base and the older tips. -/
theorem sidePack_closed {older : List String} {base : String} {layer : Option SidePack}
    (hcalls : calls.Ok objects child) (hbase : refs.base = some base)
    (h : sidePack calls refs older = .ok layer) :
    ClosedOver child (Reach child base ∪ ReachAny child {id | id ∈ older})
      (sidePacked objects layer.toList) := by
  have hnone : ClosedOver child (Reach child base ∪ ReachAny child {id | id ∈ older})
      (sidePacked objects (none : Option SidePack).toList) := by
    rintro id ⟨side, hside, _⟩
    cases hside
  simp only [sidePack, hbase] at h
  split at h
  · obtain rfl := pure_eq_ok.mp h
    exact hnone
  · obtain ⟨pack, hpack, hlayer⟩ := bind_eq_ok.mp h
    rw [packObjectsExcluding] at hpack
    split at hpack
    · obtain rfl := pure_eq_ok.mp hlayer
      split
      · exact hnone
      · have hheld : sidePacked objects (some pack).toList = objects pack.pack := by
          ext id
          simp [sidePacked, held]
        rw [hheld, hcalls.packed hpack, ← reachAny_cons]
        exact closedOver_range _ _
    · cases hpack

theorem wholeSidePack_closed {sideBase : Option String} {packs : List SidePack}
    (hcalls : calls.Ok objects child) (h : wholeSidePack calls refs = .ok (sideBase, packs)) :
    SideClosed objects child sideBase packs := by
  obtain ⟨layer, hlayer, hresult⟩ := bind_eq_ok.mp h
  obtain ⟨rfl, rfl⟩ := Prod.mk.inj (pure_eq_ok.mp hresult)
  cases hbase : refs.base with
  | none =>
      simp only [sidePack, hbase] at hlayer
      obtain rfl := pure_eq_ok.mp hlayer
      rintro id ⟨side, hside, _⟩
      cases hside
  | some base =>
      refine (sidePack_closed hcalls hbase hlayer).mono ?_
      rintro id (hid | ⟨tip, htip, _⟩)
      · exact .inl hid
      · cases htip

/-- A layer more is closed over the new side base, whose history has the old one's. -/
theorem sidePackLayers_closed {file : Option String} {previous : RepoBranches} {refs' : MirrorRefs}
    {base old : String} {sideBase : Option String} {packs : List SidePack}
    (hinj : Function.Injective hash) (hcalls : calls.Ok objects child)
    (hprevious : Layered objects child hash previous refs') (hbase : refs.base = some base)
    (hold : previous.sideBase = some old) (hreach : old ∈ Reach child base)
    (h : sidePackLayers hash calls file refs (some previous) = .ok (sideBase, packs)) :
    SideClosed objects child sideBase packs := by
  simp only [sidePackLayers] at h
  split at h
  · obtain ⟨rfl, rfl⟩ := Prod.mk.inj (pure_eq_ok.mp h)
    exact hprevious.closed
  · split at h
    · split at h
      · exact wholeSidePack_closed hcalls h
      · next older hread =>
          split at h
          · next layer hlayer =>
              obtain ⟨rfl, rfl⟩ := Prod.mk.inj (pure_eq_ok.mp h)
              have hbelow : Completes objects child older old previous.sidePacks :=
                readSideTips_eq hinj hprevious.sideTips hread ▸ hprevious.layers.side old hold
              have hclosed := hprevious.closed
              rw [SideClosed, hold] at hclosed
              have hfirst : ClosedOver child (Reach child base)
                  (sidePacked objects previous.sidePacks) :=
                hclosed.mono fun id hid => .inl (reach_subset hreach hid)
              rw [SideClosed, hbase, sidePacked_append]
              refine hfirst.extend ((sidePack_closed hcalls hbase hlayer).mono ?_)
              -- what the older tips reach is in the layers below or the base's history
              rintro id (hid | hid)
              · exact .inl (.inl hid)
              · rcases hbelow hid with hid | hid
                · exact .inl (.inl (reach_subset hreach hid))
                · exact .inl (.inr hid)
          · exact wholeSidePack_closed hcalls h
    · exact wholeSidePack_closed hcalls h

theorem publishBranches_layered {file file' : Option String} {previous : Option RepoBranches}
    {tags : PublishedTags} {branches : RepoBranches} (hinj : Function.Injective hash)
    (hcalls : calls.Ok objects child)
    (hprevious : ∀ b ∈ previous, ∃ refs', Layered objects child hash b refs')
    (h : publishBranches hash calls file refs previous tags = .ok (branches, file')) :
    Layered objects child hash branches refs := by
  simp only [publishBranches, bind_eq_ok, pure_eq_ok, Prod.mk.injEq] at h
  obtain ⟨⟨artifact, len⟩, _, forward, hforward, ⟨sideBase, sidePacks⟩, hlayers, rfl, _⟩ := h
  have hwhole : wholeSidePack calls refs = .ok (sideBase, sidePacks) →
      LayersOk objects child refs sideBase sidePacks ∧ SideClosed objects child sideBase sidePacks :=
    fun hwhole => ⟨wholeSidePack_ok hcalls hwhole, wholeSidePack_closed hcalls hwhole⟩
  have hok : LayersOk objects child refs sideBase sidePacks ∧
      SideClosed objects child sideBase sidePacks := by
    cases previous with
    | none => exact hwhole hlayers
    | some previous =>
        cases forward with
        | false => exact hwhole hlayers
        | true =>
            obtain ⟨refs', hlayered⟩ := hprevious previous rfl
            have hmoved := movedForward_ok hcalls hforward
            refine ⟨sidePackLayers_ok hinj hcalls hlayered.sideTips hlayered.layers hmoved hlayers,
              ?_⟩
            cases hbase : refs.base with
            | none =>
                -- without a default branch nothing moved forward
                rw [hbase] at hforward
                cases hside : previous.sideBase <;>
                  simp [movedForward, hside, pure_eq_ok] at hforward
            | some base =>
                obtain ⟨old, hold, hreach⟩ := hmoved base hbase
                exact sidePackLayers_closed hinj hcalls hlayered hbase hold hreach hlayers
  exact ⟨rfl, rfl, rfl, hok.1, hok.2⟩

theorem builtBranches_layered {stored : RepoRefs} {file file' : Option String}
    {branches : RepoBranches} (hinj : Function.Injective hash) (hcalls : calls.Ok objects child)
    (hstored : ∀ b ∈ stored.branches, ∃ refs', Layered objects child hash b refs')
    (h : builtBranches hash calls stored file refs = .ok (branches, file')) :
    Layered objects child hash branches refs := by
  simp only [builtBranches] at h
  split at h
  · next previous hprevious =>
      obtain ⟨rfl, _⟩ := Prod.mk.inj (pure_eq_ok.mp h)
      obtain ⟨hmem, hhash⟩ := Option.filter_eq_some_iff.mp hprevious
      obtain ⟨refs', hlayered⟩ := hstored _ hmem
      -- one hash, one listing
      obtain rfl := refsHash_inj hinj (hlayered.refsHash.symm.trans (of_decide_eq_true hhash))
      exact hlayered
  · obtain ⟨tags, _, h⟩ := bind_eq_ok.mp h
    exact publishBranches_layered hinj hcalls hstored h

/-! ## Runs -/

/-- A refresh stores the artifact of the listing it builds branches for. -/
def StoresListing (listing : String → Branches) (hash : String → String) (e : RefsEvent)
    (s : RefsState) : Prop :=
  ∀ refs, e = .build refs → ∀ b ∈ s.built, b.refsHash = refs.refsHash hash →
    listing b.artifact = refs.build

/-- A step of a repository's refs whose artifacts are read back as they were stored. -/
def PublishStep (objects : String → Set String) (child : String → String → Prop)
    (hash : String → String) (listing : String → Branches) (s : RefsState) (e : RefsEvent)
    (s' : RefsState) : Prop :=
  RefsStep objects child hash s e s' ∧ StoresListing listing hash e s'

/-- The branches are layered for the listing their artifact holds. -/
def Named (objects : String → Set String) (child : String → String → Prop)
    (hash : String → String) (listing : String → Branches) (b : RepoBranches) : Prop :=
  ∃ refs, Layered objects child hash b refs ∧ listing b.artifact = refs.build

def RefsState.AllLayered (objects : String → Set String) (child : String → String → Prop)
    (hash : String → String) (listing : String → Branches) (s : RefsState) : Prop :=
  (∀ row ∈ s.stored, ∀ b ∈ row.branches.toList ++ row.ready.toList,
    Named objects child hash listing b) ∧
  ∀ b ∈ s.built, Named objects child hash listing b

variable {listing : String → Branches}

theorem PublishStep.allLayered {s s' : RefsState} {e : RefsEvent} (hinj : Function.Injective hash)
    (hs : s.AllLayered objects child hash listing)
    (hstep : PublishStep objects child hash listing s e s') :
    s'.AllLayered objects child hash listing := by
  obtain ⟨hstep, hstores⟩ := hstep
  cases hstep with
  | @build calls refs branches file hcalls h =>
      refine ⟨hs.1, fun b hb => ?_⟩
      rcases List.mem_cons.mp hb with rfl | hb
      · have hlayered : Layered objects child hash b refs := by
          refine builtBranches_layered hinj hcalls (fun b hb => ?_) h
          cases hstored : s.stored with
          | none => simp [hstored, RepoRefs.default] at hb
          | some row =>
              rw [hstored] at hb
              obtain ⟨refs', hlayered, _⟩ :=
                hs.1 row hstored b (List.mem_append_left _ (Option.mem_toList.mpr hb))
              exact ⟨refs', hlayered⟩
        exact ⟨refs, hlayered, hstores refs rfl b List.mem_cons_self hlayered.refsHash⟩
      · exact hs.2 b hb
  | publish _ hbuilt h =>
      refine ⟨fun row hrow b hb => ?_, hs.2⟩
      obtain rfl := Option.some.inj hrow
      rcases mem_publishedRow h hb with hb | ⟨old, hold, hb⟩
      · exact hs.2 b (hbuilt b hb)
      · exact hs.1 old hold b hb
  | purge => exact ⟨fun row hrow => (Option.not_mem_none row hrow).elim, hs.2⟩
  | file => exact hs

/-- In every run, whatever branches the row names are layered for the listing their artifact
holds. -/
theorem published_named (hinj : Function.Injective hash) {es : List RefsEvent} {s : RefsState}
    (hrun : Run (PublishStep objects child hash listing) RefsState.init es s) :
    s.AllLayered objects child hash listing := by
  have hinit : RefsState.init.AllLayered objects child hash listing :=
    ⟨fun row hrow => (Option.not_mem_none row hrow).elim, fun b hb => (List.not_mem_nil hb).elim⟩
  exact Run.invariant_history hinit (fun _ hs hstep => hstep.allLayered hinj hs) hrun

end Ripclone.Server
