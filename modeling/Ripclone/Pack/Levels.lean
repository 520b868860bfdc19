import Ripclone.Pack.Contents

/-!
# Compaction of history levels

Levels hold the ranges between their tips, oldest first. Compaction replaces neighbours by one level
over their joint range until few enough are left. What it keeps is that the levels hold ranges and
end at the same tip, so they hold the same history; what it leaves alone it leaves as it was.
-/

namespace Ripclone.Pack

open Ripclone.Library

/-- The levels hold the ranges between their tips. -/
def LevelsOk (c : Contents) (child : String → String → Prop) (levels : List HistoryLevel) : Prop :=
  HoldsRanges child HistoryLevel.tipCommit (fun level => c.packed level.packs) none levels

/-- The tip the levels are sealed at. -/
def sealedTip (levels : List HistoryLevel) : Option String :=
  lastTip HistoryLevel.tipCommit none levels

/-- A level stands for a group of neighbours: it ends where they end, and for a group of one it is
that one. -/
def StandsFor (group : List HistoryLevel) (level : HistoryLevel) : Prop :=
  (group.getLast?).map HistoryLevel.tipCommit = some level.tipCommit ∧
    (group.length = 1 → group = [level])

/-- The levels of `result` stand for groups of neighbours that together are `levels`. -/
def Compacts (levels result : List HistoryLevel) : Prop :=
  ∃ groups : List (List HistoryLevel), groups.flatten = levels ∧
    List.Forall₂ StandsFor groups result

variable {c : Contents} {child : String → String → Prop} {git : Git}
  {levels result : List HistoryLevel} {newPacks packs : List SizedPack} {maxLevels : Nat}

theorem sealedTip_eq_getLast : sealedTip levels = (levels.getLast?).map HistoryLevel.tipCommit := by
  cases levels with
  | nil => rfl
  | cons level rest =>
      rw [sealedTip, lastTip_eq_getLast (List.cons_ne_nil level rest), List.getLast?_cons]
      simp [List.getLast_eq_getLastD]

/-! ## Ranges git packs -/

/-- The packs of a range hold it, whether git walked it or the fetched pack stood in for it. -/
theorem buildHistoryRange_ok (hgit : git.HistoryOk c child) {tip : String}
    {exclude : Option String} (h : buildHistoryRange git tip exclude = .ok packs) :
    Reach child tip \ ReachOpt child exclude ⊆ c.packed packs := by
  obtain ⟨fetched, hfetched, h⟩ := bind_eq_ok.mp h
  cases fetched with
  | some pack =>
      obtain rfl := pure_eq_ok.mp h
      have hpack : git.fetchedHistoryPack tip = .ok (some pack) := by
        unfold fetchedFor at hfetched
        split at hfetched
        · exact hfetched
        · simp at hfetched
      obtain ⟨hwhole, hempty⟩ := hgit.fetched hpack
      intro id hid
      refine ⟨pack, ?_, hwhole hid.1⟩
      simp only [storePacksFromDir, List.mem_filter, List.mem_singleton, decide_eq_true_eq,
        true_and]
      by_contra hlen
      have hnone : id ∈ c.objects pack.pack := hwhole hid.1
      rw [hempty (by omega)] at hnone
      exact hnone
  | none =>
      obtain ⟨written, hwritten, h⟩ := bind_eq_ok.mp h
      obtain rfl := pure_eq_ok.mp h
      rw [packed_storePacksFromDir (hgit.wrote hwritten)]

/-! ## The pair that is merged -/

theorem foldl_smallest_lt {n : Nat} (sizes : Nat → Nat) (is : List Nat) (best : Nat × Nat)
    (hbest : best.1 < n) (his : ∀ i ∈ is, i < n) :
    (is.foldl (fun best i => if sizes i < best.2 then (i, sizes i) else best) best).1 < n := by
  induction is generalizing best with
  | nil => exact hbest
  | cons i is ih =>
      rw [List.foldl_cons]
      refine ih _ ?_ (fun j hj => his j (List.mem_cons_of_mem _ hj))
      split
      · exact his i List.mem_cons_self
      · exact hbest

/-- There is a level after the smallest pair's first. -/
theorem smallestPair_lt (h : 2 ≤ levels.length) : smallestPair levels + 1 < levels.length := by
  have hlt : smallestPair levels < levels.length - 1 := by
    refine foldl_smallest_lt (pairBytes levels) _ _ ?_ ?_
    · show 0 < levels.length - 1
      omega
    · intro i hi
      exact List.mem_range.mp hi
  omega

theorem startBefore_eq {best : Nat} (h : best ≤ levels.length) :
    startBefore levels best = sealedTip (levels.take best) := by
  rw [sealedTip_eq_getLast]
  cases best with
  | zero => simp [startBefore]
  | succ best =>
      have hlt : best < levels.length := h
      simp [startBefore, List.getLast?_take, List.getElem?_eq_getElem hlt]

/-- The levels around the pair at `best`. -/
theorem split_pair {best : Nat} (h : best + 1 < levels.length) :
    ∃ first second, levels[best + 1]? = some second ∧
      levels = levels.take best ++ first :: second :: levels.drop (best + 2) := by
  have hbest : best < levels.length := by omega
  refine ⟨levels[best], levels[best + 1], List.getElem?_eq_getElem h, ?_⟩
  conv_lhs => rw [← List.take_append_drop best levels]
  rw [List.drop_eq_getElem_cons hbest, List.drop_eq_getElem_cons h]

/-- One merge: the pair becomes one level that ends where it ended, and nothing else changes. -/
theorem mergePair_cases {best : Nat} (hbest : best + 1 < levels.length)
    (h : mergePair git levels best = .ok (result, packs)) :
    ∃ first second, levels = levels.take best ++ first :: second :: levels.drop (best + 2) ∧
      result = levels.take best ++ ⟨second.tipCommit, packs⟩ :: levels.drop (best + 2) ∧
      buildHistoryRange git second.tipCommit (sealedTip (levels.take best)) = .ok packs := by
  obtain ⟨first, second, hsecond, hlevels⟩ := split_pair hbest
  rw [mergePair, hsecond] at h
  obtain ⟨built, hbuilt, h⟩ := bind_eq_ok.mp h
  obtain ⟨rfl, rfl⟩ := Prod.mk.inj (pure_eq_ok.mp h)
  rw [startBefore_eq (by omega)] at hbuilt
  exact ⟨first, second, hlevels, rfl, hbuilt⟩

/-! ## What a merge keeps -/

theorem LevelsOk.mergePair (hgit : git.HistoryOk c child) (hlevels : LevelsOk c child levels)
    {best : Nat} (hbest : best + 1 < levels.length)
    (h : mergePair git levels best = .ok (result, packs)) : LevelsOk c child result := by
  obtain ⟨first, second, hsplit, rfl, hbuilt⟩ := mergePair_cases hbest h
  unfold LevelsOk at hlevels
  rw [hsplit] at hlevels
  exact hlevels.merge rfl (buildHistoryRange_ok hgit hbuilt)

theorem sealedTip_mergePair {best : Nat} (hbest : best + 1 < levels.length)
    (h : mergePair git levels best = .ok (result, packs)) :
    sealedTip result = sealedTip levels := by
  obtain ⟨first, second, hsplit, rfl, _⟩ := mergePair_cases hbest h
  conv_rhs => rw [hsplit]
  simp only [sealedTip, lastTip_append, lastTip]

theorem length_mergePair {best : Nat} (hbest : best + 1 < levels.length)
    (h : mergePair git levels best = .ok (result, packs)) :
    result.length + 1 = levels.length := by
  obtain ⟨first, second, _, rfl, _⟩ := mergePair_cases hbest h
  simp only [List.length_append, List.length_take, List.length_cons, List.length_drop]
  omega

theorem Compacts.refl (levels : List HistoryLevel) : Compacts levels levels := by
  refine ⟨levels.map fun level => [level], ?_, ?_⟩
  · rw [← List.flatMap_def]
    exact List.flatMap_singleton' levels
  · rw [List.forall₂_map_left_iff, List.forall₂_same]
    intro level _
    exact ⟨rfl, fun _ => rfl⟩

/-- Merging two neighbours merges their groups. -/
theorem Compacts.mergePair {old : List HistoryLevel} (hold : Compacts old levels) {best : Nat}
    (hbest : best + 1 < levels.length)
    (h : mergePair git levels best = .ok (result, packs)) : Compacts old result := by
  obtain ⟨first, second, hsplit, rfl, _⟩ := mergePair_cases hbest h
  obtain ⟨groups, hflat, hgroups⟩ := hold
  rw [hsplit] at hgroups
  have hbefore := List.forall₂_take_append _ _ _ hgroups
  have hrest := List.forall₂_drop_append _ _ _ hgroups
  obtain ⟨g₁, rest, hfirst, hrest, hdrop⟩ := List.forall₂_cons_right_iff.mp hrest
  obtain ⟨g₂, after, hsecond, hafter, rfl⟩ := List.forall₂_cons_right_iff.mp hrest
  refine ⟨groups.take (levels.take best).length ++ (g₁ ++ g₂) :: after, ?_, ?_⟩
  · conv_rhs => rw [← hflat, ← List.take_append_drop (levels.take best).length groups, hdrop]
    simp
  · refine List.rel_append hbefore (.cons ⟨?_, ?_⟩ hafter)
    · obtain ⟨last, hlast, htip⟩ := Option.map_eq_some_iff.mp hsecond.1
      rw [List.getLast?_append, hlast]
      exact congrArg some htip
    · -- Two groups that are not empty make one of two levels or more.
      intro hlen
      have hne : ∀ {group level}, StandsFor group level → 1 ≤ group.length := by
        rintro (_ | ⟨_, _⟩) level ⟨htip, _⟩
        · cases htip
        · simp
      have h₁ := hne hfirst
      have h₂ := hne hsecond
      rw [List.length_append] at hlen
      omega

/-! ## The loop -/

/-- What every merge keeps, the loop keeps. -/
theorem compactLoop_induction {I : List HistoryLevel → Prop} {fuel : Nat} {before : List SizedPack}
    (hmerge : ∀ {levels result best packs}, best + 1 < levels.length →
      mergePair git levels best = .ok (result, packs) → I levels → I result)
    (hlevels : I levels)
    (h : compactLoop git maxLevels fuel levels before = .ok (result, newPacks)) : I result := by
  induction fuel generalizing levels before with
  | zero =>
      obtain ⟨rfl, _⟩ := Prod.mk.inj (pure_eq_ok.mp h)
      exact hlevels
  | succ fuel ih =>
      rw [compactLoop] at h
      split at h
      · next hcond =>
          obtain ⟨⟨merged, packs⟩, hmerged, h⟩ := bind_eq_ok.mp h
          exact ih (hmerge (smallestPair_lt hcond.2) hmerged hlevels) h
      · obtain ⟨rfl, _⟩ := Prod.mk.inj (pure_eq_ok.mp h)
        exact hlevels

/-- With fuel for every level the loop ends where its condition is false. -/
theorem length_compactLoop {fuel : Nat} {before : List SizedPack} (hfuel : levels.length ≤ fuel)
    (h : compactLoop git maxLevels fuel levels before = .ok (result, newPacks)) :
    result.length ≤ max 1 maxLevels := by
  induction fuel generalizing levels before with
  | zero =>
      obtain ⟨rfl, _⟩ := Prod.mk.inj (pure_eq_ok.mp h)
      omega
  | succ fuel ih =>
      rw [compactLoop] at h
      split at h
      · next hcond =>
          obtain ⟨⟨merged, packs⟩, hmerged, h⟩ := bind_eq_ok.mp h
          have hlen := length_mergePair (smallestPair_lt hcond.2) hmerged
          exact ih (by omega) h
      · next hcond =>
          obtain ⟨rfl, _⟩ := Prod.mk.inj (pure_eq_ok.mp h)
          rw [not_and_or] at hcond
          omega

section Compacted

variable (h : compactLevels git levels maxLevels = .ok (result, newPacks))
include h

theorem length_compactLevels : result.length ≤ max 1 maxLevels := length_compactLoop le_rfl h

/-- Levels that are not merged are left as they were. -/
theorem compacts_compactLevels : Compacts levels result :=
  compactLoop_induction (fun hbest hmerged hold => hold.mergePair hbest hmerged)
    (Compacts.refl levels) h

theorem sealedTip_compactLevels : sealedTip result = sealedTip levels :=
  compactLoop_induction (I := fun merged => sealedTip merged = sealedTip levels)
    (fun hbest hmerged htip => (sealedTip_mergePair hbest hmerged).trans htip) rfl h

theorem LevelsOk.compactLevels (hgit : git.HistoryOk c child) (hlevels : LevelsOk c child levels) :
    LevelsOk c child result :=
  compactLoop_induction (fun hbest hmerged hok => hok.mergePair hgit hbest hmerged) hlevels h

end Compacted

/-- The loop ends by itself: further rounds change nothing. -/
theorem compactLoop_fuel {fuel : Nat} (before : List SizedPack) (hfuel : levels.length ≤ fuel) :
    compactLoop git maxLevels fuel levels before =
      compactLoop git maxLevels levels.length levels before := by
  induction hn : levels.length generalizing levels fuel before with
  | zero =>
      cases fuel with
      | zero => rfl
      | succ fuel =>
          simp only [compactLoop]
          rw [if_neg (by omega)]
  | succ n ih =>
      obtain ⟨fuel, rfl⟩ : ∃ fuel', fuel = fuel' + 1 := ⟨fuel - 1, by omega⟩
      rw [compactLoop, compactLoop]
      split
      · next hcond =>
          cases hmerged : mergePair git levels (smallestPair levels) with
          | error e => rfl
          | ok merged =>
              obtain ⟨merged, packs⟩ := merged
              have hlen := length_mergePair (smallestPair_lt hcond.2) hmerged
              have hn' : merged.length = n := by omega
              show compactLoop git maxLevels fuel merged (before ++ packs) =
                compactLoop git maxLevels n merged (before ++ packs)
              exact ih (before ++ packs) (by omega) hn'
      · rfl

end Ripclone.Pack
