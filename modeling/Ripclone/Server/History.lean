import Ripclone.Pack.Levels
import Ripclone.Server.Builder

/-!
# History levels stay complete

A Full's levels are those of an ancestor's Full with the commit's own range sealed on top, compacted
back under the limit. A range that is empty seals nothing, and a tail that cannot be listed starts
over with the whole history. Along any chain of such builds the levels hold everything the commit
leads to.
-/

namespace Ripclone.Server

open Ripclone.Library Ripclone.Pack

variable {c : Contents} {child : String → String → Prop} {git : Git} {commit : String}
  {previous levels result : List HistoryLevel} {tail newPacks : List SizedPack} {maxLevels : Nat}

/-- The levels a build may start from: they hold ranges, and they end at an ancestor. -/
structure StartsFrom (c : Contents) (child : String → String → Prop) (commit : String)
    (levels : List HistoryLevel) : Prop where
  levelsOk : LevelsOk c child levels
  ancestor : ∀ tip ∈ sealedTip levels, tip ∈ Reach child commit

theorem startsFrom_nil : StartsFrom c child commit [] where
  levelsOk := trivial
  ancestor := by simp [sealedTip, lastTip]

/-- The levels of a build of an ancestor. -/
theorem StartsFrom.of_ancestor {base : String} (h : StartsFrom c child base levels)
    (hbase : base ∈ Reach child commit) : StartsFrom c child commit levels where
  levelsOk := h.levelsOk
  ancestor := fun tip htip => reach_subset hbase (h.ancestor tip htip)

theorem historyTail_ok (hgit : git.HistoryOk c child) (hprevious : StartsFrom c child commit previous)
    (h : historyTail git commit previous = .ok (levels, tail)) :
    (levels = previous ∨ levels = []) ∧ StartsFrom c child commit levels ∧
      Reach child commit \ ReachOpt child (sealedTip levels) ⊆ c.packed tail := by
  unfold historyTail at h
  rw [← sealedTip_eq_getLast] at h
  split at h
  · next hnone =>
      obtain ⟨built, hbuilt, h⟩ := bind_eq_ok.mp h
      obtain ⟨rfl, rfl⟩ := Prod.mk.inj (pure_eq_ok.mp h)
      refine ⟨.inl rfl, hprevious, ?_⟩
      rw [hnone]
      exact buildHistoryRange_ok hgit hbuilt
  · next tip htip =>
      split at h
      · next built hbuilt =>
          obtain ⟨rfl, rfl⟩ := Prod.mk.inj (pure_eq_ok.mp h)
          refine ⟨.inl rfl, hprevious, ?_⟩
          rw [htip]
          exact buildHistoryRange_ok hgit hbuilt
      · obtain ⟨built, hbuilt, h⟩ := bind_eq_ok.mp h
        obtain ⟨rfl, rfl⟩ := Prod.mk.inj (pure_eq_ok.mp h)
        exact ⟨.inr rfl, startsFrom_nil, buildHistoryRange_ok hgit hbuilt⟩

/-- What a build publishes as history levels: nothing the commit leads to is past their end. -/
structure HistoryOk (c : Contents) (child : String → String → Prop) (commit : String)
    (levels : List HistoryLevel) : Prop extends StartsFrom c child commit levels where
  reach_sealed : Reach child commit ⊆ ReachOpt child (sealedTip levels)

theorem held_levels : held (fun level : HistoryLevel => c.packed level.packs) levels =
    c.packed (levels.flatMap HistoryLevel.packs) := by
  ext id
  constructor
  · rintro ⟨level, hlevel, pack, hpack, hid⟩
    exact ⟨pack, List.mem_flatMap.mpr ⟨level, hlevel, hpack⟩, hid⟩
  · rintro ⟨pack, hpack, hid⟩
    obtain ⟨level, hlevel, hpack⟩ := List.mem_flatMap.mp hpack
    exact ⟨level, hlevel, pack, hpack, hid⟩

/-- The packs of the levels hold everything the commit leads to. -/
theorem HistoryOk.complete (h : HistoryOk c child commit levels) :
    Reach child commit ⊆ c.packed (levels.flatMap HistoryLevel.packs) := by
  intro id hid
  rw [← held_levels]
  rcases h.levelsOk.reach_last (h.reach_sealed hid) with hstart | hheld
  · exact absurd hstart (Set.notMem_empty id)
  · exact hheld

/-- Sealing: the levels with the commit's range on top, or as they were when it is empty. -/
theorem seal_ok (hlevels : StartsFrom c child commit levels)
    (htail : Reach child commit \ ReachOpt child (sealedTip levels) ⊆ c.packed tail) :
    HistoryOk c child commit
        (if sealedTip levels ≠ some commit ∧ !tail.isEmpty then levels ++ [⟨commit, tail⟩]
          else levels) ∧
      ((Reach child commit \ ReachOpt child (sealedTip levels)).Nonempty →
        sealedTip (if sealedTip levels ≠ some commit ∧ !tail.isEmpty then
          levels ++ [⟨commit, tail⟩] else levels) = some commit) := by
  split
  · have htip : sealedTip (levels ++ [⟨commit, tail⟩]) = some commit := by
      simp only [sealedTip, lastTip_append, lastTip]
    have hstarts : StartsFrom c child commit (levels ++ [⟨commit, tail⟩]) := by
      refine ⟨holdsRanges_append.mpr ⟨hlevels.levelsOk, hlevels.ancestor, htail, trivial⟩, ?_⟩
      rw [htip]
      intro tip heq
      obtain rfl := Option.some.inj heq
      exact mem_reach_self
    refine ⟨⟨hstarts, ?_⟩, fun _ => htip⟩
    rw [htip]
    exact subset_rfl
  · next hnot =>
      -- Nothing to seal: the range is empty, or the levels end at the commit already.
      have hempty : Reach child commit ⊆ ReachOpt child (sealedTip levels) := by
        intro id hid
        by_contra hout
        by_cases htip : sealedTip levels = some commit
        · rw [htip] at hout
          exact hout hid
        · have hnil : tail = [] := by
            simpa [htip] using hnot
          have hpacked := htail ⟨hid, hout⟩
          rw [hnil, packed_nil] at hpacked
          exact hpacked
      refine ⟨⟨hlevels, hempty⟩, ?_⟩
      rintro ⟨id, hid, hout⟩
      exact absurd (hempty hid) hout

theorem buildHistory_ok (hgit : git.HistoryOk c child)
    (hprevious : StartsFrom c child commit previous)
    (h : buildHistory git commit previous maxLevels = .ok (result, newPacks)) :
    HistoryOk c child commit result ∧
      ((Reach child commit \ ReachOpt child (sealedTip previous)).Nonempty →
        sealedTip result = some commit) ∧
      result.length ≤ max 1 maxLevels := by
  obtain ⟨⟨levels, tail⟩, htail, h⟩ := bind_eq_ok.mp h
  obtain ⟨hsame, hstarts, hrange⟩ := historyTail_ok hgit hprevious htail
  simp only [sealAndCompact, ← sealedTip_eq_getLast] at h
  obtain ⟨hhistory, hsealed⟩ := seal_ok hstarts hrange
  set sealedLevels := if sealedTip levels ≠ some commit ∧ !tail.isEmpty then
    levels ++ [⟨commit, tail⟩] else levels
  -- A build that started over has the whole history for its range.
  have hnonempty : (Reach child commit \ ReachOpt child (sealedTip previous)).Nonempty →
      (Reach child commit \ ReachOpt child (sealedTip levels)).Nonempty := by
    rcases hsame with rfl | rfl
    · exact id
    · exact fun _ => ⟨commit, mem_reach_self, Set.notMem_empty commit⟩
  split at h
  · obtain ⟨⟨compacted, packs⟩, hcompacted, h⟩ := bind_eq_ok.mp h
    obtain ⟨rfl, _⟩ := Prod.mk.inj (pure_eq_ok.mp h)
    have htip := sealedTip_compactLevels hcompacted
    refine ⟨⟨⟨LevelsOk.compactLevels hcompacted hgit hhistory.levelsOk, ?_⟩, ?_⟩, ?_,
      length_compactLevels hcompacted⟩
    · rw [htip]
      exact hhistory.ancestor
    · rw [htip]
      exact hhistory.reach_sealed
    · rw [htip]
      exact fun hrange => hsealed (hnonempty hrange)
  · next hfew =>
      obtain ⟨rfl, _⟩ := Prod.mk.inj (pure_eq_ok.mp h)
      exact ⟨hhistory, fun hrange => hsealed (hnonempty hrange), by omega⟩

theorem buildFullResult_commit {storage : Storage} {head : HeadResult} {ownBase : Option String}
    {rebaseBytes : Nat} {full : FullResult}
    (h : buildFullResult git storage commit head previous ownBase maxLevels rebaseBytes = .ok full) :
    full.clonepack.commit = commit := by
  obtain ⟨headManifest, _, h⟩ := bind_eq_ok.mp h
  obtain ⟨_, h⟩ := ite_throw_eq_ok.mp h
  obtain ⟨⟨levels, newPacks⟩, _, h⟩ := bind_eq_ok.mp h
  obtain ⟨⟨packs, headBase⟩, _, h⟩ := bind_eq_ok.mp h
  obtain ⟨manifest, _, h⟩ := bind_eq_ok.mp h
  obtain rfl := pure_eq_ok.mp h
  rfl

/-- The levels a Full publishes are those its history build returned. -/
theorem buildFullResult_history {storage : Storage} {head : HeadResult} {ownBase : Option String}
    {rebaseBytes : Nat} {full : FullResult}
    (h : buildFullResult git storage commit head previous ownBase maxLevels rebaseBytes = .ok full) :
    ∃ newPacks, buildHistory git commit previous maxLevels = .ok (full.historyLevels, newPacks) := by
  obtain ⟨headManifest, _, h⟩ := bind_eq_ok.mp h
  obtain ⟨_, h⟩ := ite_throw_eq_ok.mp h
  obtain ⟨⟨levels, newPacks⟩, hlevels, h⟩ := bind_eq_ok.mp h
  obtain ⟨⟨packs, headBase⟩, _, h⟩ := bind_eq_ok.mp h
  obtain ⟨manifest, _, h⟩ := bind_eq_ok.mp h
  obtain rfl := pure_eq_ok.mp h
  exact ⟨newPacks, hlevels⟩

end Ripclone.Server
