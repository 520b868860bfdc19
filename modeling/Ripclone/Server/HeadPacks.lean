import Ripclone.Library.Run
import Ripclone.Server.Builder

/-!
# Head packs stay disjoint and complete

A client writes the worktree by parsing every Head pack, so an object in two of them is a file
written twice and one in none of them a file that is missing. Head packs change in three ways: a
Head adds a level to the packs of an earlier one, a Full folds levels into a new base, and either
falls back to packing the closure afresh. `PackSet` and the closure being covered survive each of
them, in any order.
-/

namespace Ripclone.Server

open Ripclone.Library Ripclone.Pack

variable {c : Contents} {closure : String → Set String} {git : Git} {storage : Storage}
  {commit : String}

/-! ## Levels -/

/-- The ids of each pack's idx, one after the other, are the objects of the packs. -/
theorem mem_idx_ids {packs : List SizedPack} {parts : List (List String)}
    (hdescribed : ∀ pack ∈ packs, c.Described pack)
    (hparts : List.Forall₂ (fun pack part => idxObjectIds (c.bytes pack.idx) = .ok part)
      packs parts) :
    ∀ id, id ∈ parts.flatten ↔ id ∈ c.packed packs := by
  induction hparts with
  | nil => simp
  | @cons pack part packs parts hpart hrest ih =>
      obtain ⟨listed, hlisted, hobjects⟩ := hdescribed pack List.mem_cons_self
      have hsame : part = listed := Except.ok.inj (hpart.symm.trans hlisted)
      have htail := ih (fun p hp => hdescribed p (List.mem_cons_of_mem _ hp))
      intro id
      rw [List.flatten_cons, List.mem_append, htail, hsame, hobjects, ← List.singleton_append,
        packed_append, Set.mem_union]
      simp [mem_packed]

theorem objectsOf_ok (hstorage : storage.Ok c) {packs : List SizedPack} {ids : List String}
    (hdescribed : ∀ pack ∈ packs, c.Described pack) (h : objectsOf storage packs = .ok ids) :
    ∀ id, id ∈ ids ↔ id ∈ c.packed packs := by
  obtain ⟨idxs, hidxs, h⟩ := bind_eq_ok.mp h
  obtain ⟨parts, hparts, h⟩ := bind_eq_ok.mp h
  obtain rfl := pure_eq_ok.mp h
  rw [getAllCached_ok hstorage hidxs, List.map_map, mapM_eq_ok, List.forall₂_map_left_iff]
    at hparts
  exact mem_idx_ids hdescribed hparts

theorem headLevel_ok (hgit : git.HeadOk c closure) (hstorage : storage.Ok c) {base : HeadBase}
    {level : List SizedPack} (hbase : c.PackSet (base.packs ++ base.levels))
    (h : headLevel git storage commit base = .ok level) :
    c.PackSet (base.packs ++ (base.levels ++ level)) ∧
      closure commit ⊆ c.packed (base.packs ++ (base.levels ++ level)) := by
  obtain ⟨haveIds, hhave, h⟩ := bind_eq_ok.mp h
  obtain ⟨oids, hoids, h⟩ := bind_eq_ok.mp h
  obtain ⟨hnodup, hclosure⟩ := headClosure_ok hgit hoids
  obtain ⟨hlevel, hmem⟩ := buildPacksFromOids_ok hgit (hnodup.filter _) h
  have hids := objectsOf_ok hstorage hbase.described hhave
  have hnew : ∀ id, id ∈ c.packed level ↔
      id ∈ closure commit ∧ id ∉ c.packed (base.packs ++ base.levels) := by
    intro id
    rw [hmem, List.mem_filter, hclosure, ← hids]
    simp
  rw [← List.append_assoc]
  refine ⟨hbase.append hlevel ?_, ?_⟩
  · rw [Set.disjoint_left]
    intro id hold hid
    exact ((hnew id).mp hid).2 hold
  · intro id hid
    rw [packed_append, Set.mem_union]
    by_cases hold : id ∈ c.packed (base.packs ++ base.levels)
    · exact .inl hold
    · exact .inr ((hnew id).mpr ⟨hid, hold⟩)

theorem buildHeadPacks_ok (hgit : git.HeadOk c closure) {packs : List SizedPack} {target : Nat}
    (h : buildHeadPacks git commit target = .ok packs) :
    c.PackSet packs ∧ closure commit ⊆ c.packed packs := by
  obtain ⟨oids, hoids, h⟩ := bind_eq_ok.mp h
  obtain ⟨hnodup, hclosure⟩ := headClosure_ok hgit hoids
  obtain ⟨hset, hmem⟩ := buildPacksFromOids_ok hgit hnodup h
  exact ⟨hset, fun id hid => (hmem id).mpr ((hclosure id).mpr hid)⟩

/-- Whichever way a Head was built, its packs are its base and levels, they share no object, and
they hold the closure. -/
theorem headBuild_ok (hgit : git.HeadOk c closure) (hstorage : storage.Ok c)
    {base : Option HeadBase} {built : HeadBuild}
    (hbase : ∀ b ∈ base, c.PackSet (b.packs ++ b.levels))
    (h : headBuild git storage commit base = .ok built) :
    built.allPacks = built.basePacks ++ built.levels ∧ c.PackSet built.allPacks ∧
      closure commit ⊆ c.packed built.allPacks := by
  simp only [headBuild] at h
  split at h
  · next b level hleveled =>
      obtain rfl := pure_eq_ok.mp h
      obtain ⟨b', hb', hmatch⟩ := Option.bind_eq_some_iff.mp hleveled
      have hmem : b' ∈ base := (Option.filter_eq_some_iff.mp hb').1
      split at hmatch
      · next level' hlevel =>
          obtain ⟨rfl, rfl⟩ := Prod.mk.inj (Option.some.inj hmatch)
          exact ⟨rfl, headLevel_ok hgit hstorage (hbase b' hmem) hlevel⟩
      · cases hmatch
  · obtain ⟨packs, hpacks, h⟩ := bind_eq_ok.mp h
    obtain rfl := pure_eq_ok.mp h
    exact ⟨(List.append_nil _).symm, buildHeadPacks_ok hgit hpacks⟩

/-! ## Manifests -/

theorem bundledEntries_ok (offset : Nat) (packs : List (SizedPack × Bytes)) :
    (bundledEntries offset packs).1.map PackEntry.sized = packs.map Prod.fst ∧
      ∀ entry ∈ (bundledEntries offset packs).1, entry.historyOnly = false := by
  induction packs generalizing offset with
  | nil => simp [bundledEntries]
  | cons pack rest ih =>
      obtain ⟨pack, idx⟩ := pack
      have hrest := ih (offset + idx.length)
      simp only [bundledEntries, List.map_cons, List.forall_mem_cons]
      exact ⟨by rw [hrest.1]; rfl, rfl, hrest.2⟩

/-- The entries are of the packs, in order, and all of them are Head packs. -/
theorem assembleHeadPacks_ok {packs : List SizedPack} {bundled : Nat} {entries : List PackEntry}
    {bundle : Option ChunkRef} {hash : String}
    (h : assembleHeadPacks storage packs bundled = .ok (entries, bundle, hash)) :
    entries.map PackEntry.sized = packs ∧ ∀ entry ∈ entries, entry.historyOnly = false := by
  have hlevels : ((packs.drop bundled).map fun pack => packEntry pack false none).map
      PackEntry.sized = packs.drop bundled := by
    rw [List.map_map]
    exact List.map_id _
  have hlevelsHead : ∀ entry ∈ (packs.drop bundled).map fun pack => packEntry pack false none,
      entry.historyOnly = false := by
    intro entry hentry
    obtain ⟨pack, _, rfl⟩ := List.mem_map.mp hentry
    rfl
  simp only [assembleHeadPacks] at h
  split at h
  · next hempty =>
      obtain ⟨rfl, _⟩ := Prod.mk.inj (pure_eq_ok.mp h)
      have htake : packs.take bundled = [] := List.isEmpty_iff.mp hempty
      refine ⟨?_, hlevelsHead⟩
      rw [hlevels]
      conv_rhs => rw [← List.take_append_drop bundled packs, htake, List.nil_append]
  · obtain ⟨idxs, hidxs, h⟩ := bind_eq_ok.mp h
    obtain ⟨stored, _, h⟩ := bind_eq_ok.mp h
    obtain ⟨rfl, _⟩ := Prod.mk.inj (pure_eq_ok.mp h)
    have hlen : (packs.take bundled).length = idxs.length := by
      simpa using (mapM_eq_ok.mp hidxs).length_eq
    obtain ⟨hsized, hhead⟩ := bundledEntries_ok 0 ((packs.take bundled).zip idxs)
    refine ⟨?_, ?_⟩
    · rw [List.map_append, hsized, hlevels, List.map_fst_zip (Nat.le_of_eq hlen),
        List.take_append_drop]
    · intro entry hentry
      rcases List.mem_append.mp hentry with hentry | hentry
      · exact hhead entry hentry
      · exact hlevelsHead entry hentry

theorem headPacks_eq_packTuples {manifest : ClonepackManifest}
    (h : ∀ entry ∈ manifest.packs, entry.historyOnly = false) :
    manifest.headPacks = manifest.packTuples := by
  rw [ClonepackManifest.headPacks, List.filter_eq_self.mpr (fun entry hentry => by
    simp [h entry hentry])]
  rfl

/-! ## Rebase -/

/-- The kept packs are some of the base's, and the ids collected with them are their objects. -/
theorem keptPacks_ok {live ids : List String} {base kept : List SizedPack}
    (hdescribed : ∀ pack ∈ base, c.Described pack)
    (h : keptPacks live (base.zip (base.map fun pack => c.bytes pack.idx)) = .ok (kept, ids)) :
    kept.Sublist base ∧ ∀ id, id ∈ ids ↔ id ∈ c.packed kept := by
  induction base generalizing kept ids with
  | nil =>
      obtain ⟨rfl, rfl⟩ := Prod.mk.inj (pure_eq_ok.mp h)
      simp
  | cons pack base ih =>
      rw [List.map_cons, List.zip_cons_cons, keptPacks] at h
      obtain ⟨objects, hobjects, h⟩ := bind_eq_ok.mp h
      obtain ⟨⟨kept', ids'⟩, hrest, h⟩ := bind_eq_ok.mp h
      obtain ⟨hsub, hids⟩ := ih (fun p hp => hdescribed p (List.mem_cons_of_mem _ hp)) hrest
      dsimp only at h
      split at h
      · obtain ⟨rfl, rfl⟩ := Prod.mk.inj (pure_eq_ok.mp h)
        obtain ⟨listed, hlisted, hpack⟩ := hdescribed pack List.mem_cons_self
        have hsame : objects.map Prod.fst = listed :=
          Except.ok.inj ((idxObjectSizes_ids hobjects).symm.trans hlisted)
        refine ⟨hsub.cons_cons pack, ?_⟩
        intro id
        rw [List.mem_append, hsame, hpack, hids, ← List.singleton_append, packed_append,
          Set.mem_union]
        simp [mem_packed]
      · obtain ⟨rfl, rfl⟩ := Prod.mk.inj (pure_eq_ok.mp h)
        exact ⟨hsub.cons pack, hids⟩

theorem rebaseHeadPacks_ok (hgit : git.HeadOk c closure) {base packs : List SizedPack}
    {target kept : Nat} (hbase : c.PackSet base)
    (h : rebaseHeadPacks git commit (base.zip (base.map fun pack => c.bytes pack.idx)) target =
      .ok (packs, kept)) :
    c.PackSet packs ∧ closure commit ⊆ c.packed packs := by
  obtain ⟨oids, hoids, h⟩ := bind_eq_ok.mp h
  obtain ⟨⟨keptPacks, keptIds⟩, hkept, h⟩ := bind_eq_ok.mp h
  obtain ⟨built, hbuilt, h⟩ := bind_eq_ok.mp h
  obtain ⟨rfl, _⟩ := Prod.mk.inj (pure_eq_ok.mp h)
  obtain ⟨hnodup, hclosure⟩ := headClosure_ok hgit hoids
  obtain ⟨hsub, hids⟩ := keptPacks_ok hbase.described hkept
  obtain ⟨hset, hmem⟩ := buildPacksFromOids_ok hgit (hnodup.filter _) hbuilt
  have hrest : ∀ id, id ∈ c.packed built ↔ id ∈ closure commit ∧ id ∉ c.packed keptPacks := by
    intro id
    rw [hmem, List.mem_filter, hclosure, ← hids]
    simp
  refine ⟨(hbase.sublist hsub).append hset ?_, ?_⟩
  · rw [Set.disjoint_left]
    intro id hold hid
    exact ((hrest id).mp hid).2 hold
  · intro id hid
    rw [packed_append, Set.mem_union]
    by_cases hold : id ∈ c.packed keptPacks
    · exact .inl hold
    · exact .inr ((hrest id).mpr ⟨hid, hold⟩)

theorem rebase_ok (hgit : git.HeadOk c closure) (hstorage : storage.Ok c)
    {base packs : List SizedPack} {kept : Nat} (hbase : c.PackSet base)
    (h : rebase git storage commit base = .ok (packs, kept)) :
    c.PackSet packs ∧ closure commit ⊆ c.packed packs := by
  unfold rebase at h
  split at h
  · next idxs hidxs =>
      rw [getAllCached_ok hstorage hidxs, List.map_map] at h
      exact rebaseHeadPacks_ok hgit hbase h
  · obtain ⟨built, hbuilt, h⟩ := bind_eq_ok.mp h
    obtain ⟨rfl, _⟩ := Prod.mk.inj (pure_eq_ok.mp h)
    exact buildHeadPacks_ok hgit hbuilt

/-! ## Published results -/

/-- What a published Head promises: its manifest lists its base and levels, which share no object and
hold the closure. -/
structure HeadOk (c : Contents) (closure : String → Set String) (head : HeadResult) : Prop where
  packTuples : (c.manifest head.clonepack.manifest).packTuples = head.basePacks ++ head.levels
  headPacks : (c.manifest head.clonepack.manifest).headPacks = head.basePacks ++ head.levels
  packs_eq : head.packs = packArtifactsOf (head.basePacks ++ head.levels)
  packSet : c.PackSet (head.basePacks ++ head.levels)
  complete : closure head.clonepack.commit ⊆ c.packed (head.basePacks ++ head.levels)

/-- What a published Full promises of its Head packs, and of the base later Heads build on. -/
structure FullHeadOk (c : Contents) (closure : String → Set String) (full : FullResult) : Prop where
  packSet : c.PackSet (c.manifest full.clonepack.manifest).headPacks
  complete : closure full.clonepack.commit ⊆
    c.packed (c.manifest full.clonepack.manifest).headPacks
  headBase : ∀ base ∈ full.headBase, c.PackSet (base.packs ++ base.levels)

theorem buildHeadResult_ok (hgit : git.HeadOk c closure) (hstorage : storage.Ok c)
    {parent : Option String} {base : Option HeadBase} {table : Except String StoredTable}
    {midx : List SizedPack → Except String (Option ChunkRef × String)} {head : HeadResult}
    (hbase : ∀ b ∈ base, c.PackSet (b.packs ++ b.levels))
    (h : buildHeadResult git storage commit parent base table midx = .ok head) :
    HeadOk c closure head ∧ head.clonepack.commit = commit := by
  obtain ⟨built, hbuilt, h⟩ := bind_eq_ok.mp h
  obtain ⟨stored, _, h⟩ := bind_eq_ok.mp h
  obtain ⟨⟨entries, bundleRef, bundle⟩, hentries, h⟩ := bind_eq_ok.mp h
  obtain ⟨⟨midxRef, midxHash⟩, _, h⟩ := bind_eq_ok.mp h
  obtain ⟨manifest, hmanifest, h⟩ := bind_eq_ok.mp h
  obtain rfl := pure_eq_ok.mp h
  obtain ⟨hall, hset, hcomplete⟩ := headBuild_ok hgit hstorage hbase hbuilt
  obtain ⟨hsized, hhead⟩ := assembleHeadPacks_ok hentries
  have htuples : (c.manifest manifest).packTuples = built.basePacks ++ built.levels := by
    rw [hstorage.putManifest hmanifest, ← hall]
    exact hsized
  refine ⟨⟨htuples, ?_, congrArg packArtifactsOf hall, hall ▸ hset, hall ▸ hcomplete⟩, rfl⟩
  rw [← htuples]
  refine headPacks_eq_packTuples ?_
  rw [hstorage.putManifest hmanifest]
  exact hhead

theorem fullHeadPacks_ok (hgit : git.HeadOk c closure) (hstorage : storage.Ok c)
    {head : HeadResult} {packs : List SizedPack} {headBase : Option HeadBase} {rebaseBytes : Nat}
    (hhead : HeadOk c closure head) (hcommit : head.clonepack.commit = commit)
    (h : fullHeadPacks git storage commit head (head.basePacks ++ head.levels) rebaseBytes =
      .ok (packs, headBase)) :
    c.PackSet packs ∧ closure commit ⊆ c.packed packs ∧
      ∀ base ∈ headBase, c.PackSet (base.packs ++ base.levels) := by
  simp only [fullHeadPacks] at h
  split at h
  · obtain ⟨⟨rebased, kept⟩, hrebased, h⟩ := bind_eq_ok.mp h
    obtain ⟨rfl, rfl⟩ := Prod.mk.inj (pure_eq_ok.mp h)
    have hbase := hhead.packSet.sublist (List.take_sublist
      (min head.basePacks.length (head.basePacks ++ head.levels).length) _)
    obtain ⟨hset, hcomplete⟩ := rebase_ok hgit hstorage hbase hrebased
    refine ⟨hset, hcomplete, ?_⟩
    intro base hbase
    obtain rfl := Option.some.inj hbase
    simpa using hset
  · obtain ⟨rfl, rfl⟩ := Prod.mk.inj (pure_eq_ok.mp h)
    exact ⟨hhead.packSet, hcommit ▸ hhead.complete, by simp⟩

theorem buildFullResult_headOk (hgit : git.HeadOk c closure) (hstorage : storage.Ok c)
    {head : HeadResult} {levels : List HistoryLevel} {ownBase : Option String}
    {maxLevels rebaseBytes : Nat} {full : FullResult} (hhead : HeadOk c closure head)
    (h : buildFullResult git storage commit head levels ownBase maxLevels rebaseBytes = .ok full) :
    FullHeadOk c closure full := by
  obtain ⟨headManifest, hmanifest, h⟩ := bind_eq_ok.mp h
  obtain ⟨hident, h⟩ := ite_throw_eq_ok.mp h
  obtain ⟨⟨levels', built⟩, _, h⟩ := bind_eq_ok.mp h
  obtain ⟨⟨packs, headBase⟩, hpacks, h⟩ := bind_eq_ok.mp h
  obtain ⟨manifest, hput, h⟩ := bind_eq_ok.mp h
  obtain rfl := pure_eq_ok.mp h
  rw [not_or, not_not, not_not] at hident
  rw [hstorage.getManifest hmanifest, hhead.packTuples] at hpacks
  obtain ⟨hset, hcomplete, hbase⟩ := fullHeadPacks_ok hgit hstorage hhead hident.2 hpacks
  have hheadPacks : (c.manifest manifest).headPacks = packs := by
    rw [hstorage.putManifest hput]
    simp [ClonepackManifest.headPacks, makeManifest, List.filter_map, Function.comp_def]
  refine ⟨?_, ?_, hbase⟩
  · show c.PackSet (c.manifest manifest).headPacks
    rw [hheadPacks]
    exact hset
  · show closure commit ⊆ c.packed (c.manifest manifest).headPacks
    rw [hheadPacks]
    exact hcomplete

end Ripclone.Server
