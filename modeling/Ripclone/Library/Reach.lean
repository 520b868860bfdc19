import Mathlib.Logic.Relation
import Mathlib.Data.Set.Lattice

/-!
# Reachability in an object graph, and ranges of it

Objects refer to other objects. `Reach child a` is everything an object leads to, itself included,
and `ReachAny` the same from a set of tips. On commits reachability is the ancestor relation.

The second half is about storing the reachable objects of a tip in pieces. A list of pieces, oldest
first, holds *ranges* when each piece has a tip that leads to the one before it and holds what that
tip leads to and the one before it does not. Such a list holds everything its last tip leads to
(`HoldsRanges.reach_last`), it may be extended at the end, and neighbouring pieces may be replaced by
one piece over their joint range (`HoldsRanges.merge`).
-/

namespace Ripclone.Library

variable {α : Type*} {child : α → α → Prop} {a b : α}

/-! ## Reachability -/

/-- The objects `a` leads to, `a` included. -/
def Reach (child : α → α → Prop) (a : α) : Set α := {b | Relation.ReflTransGen child a b}

/-- The objects some tip leads to. -/
def ReachAny (child : α → α → Prop) (tips : Set α) : Set α := {b | ∃ a ∈ tips, b ∈ Reach child a}

theorem mem_reach_self : a ∈ Reach child a := Relation.ReflTransGen.refl

theorem reach_subset (h : b ∈ Reach child a) : Reach child b ⊆ Reach child a := by
  intro c hc
  exact Relation.ReflTransGen.trans h hc

theorem mem_reachAny {tips : Set α} (ha : a ∈ tips) (h : b ∈ Reach child a) :
    b ∈ ReachAny child tips := ⟨a, ha, h⟩

/-! ## Closed sets

A set of objects is *closed over* another one when all its members lead to is in one of the two. -/

def ClosedOver (child : α → α → Prop) (under objects : Set α) : Prop :=
  ∀ a ∈ objects, Reach child a ⊆ under ∪ objects

section ClosedOver

variable {under under' objects objects' : Set α}

theorem ClosedOver.mono (h : ClosedOver child under objects) (hsub : under ⊆ under' ∪ objects) :
    ClosedOver child under' objects := by
  intro a ha b hb
  rcases h a ha hb with hb | hb
  · exact hsub hb
  · exact .inr hb

theorem ClosedOver.union (h : ClosedOver child under objects)
    (h' : ClosedOver child under objects') : ClosedOver child under (objects ∪ objects') := by
  rintro a (ha | ha) b hb
  · rcases h a ha hb with hb | hb
    · exact .inl hb
    · exact .inr (.inl hb)
  · rcases h' a ha hb with hb | hb
    · exact .inl hb
    · exact .inr (.inr hb)

/-- A set closed over what is closed itself. -/
theorem ClosedOver.extend (h : ClosedOver child under objects)
    (h' : ClosedOver child (under ∪ objects) objects') :
    ClosedOver child under (objects ∪ objects') := by
  rintro a (ha | ha) b hb
  · rcases h a ha hb with hb | hb
    · exact .inl hb
    · exact .inr (.inl hb)
  · rcases h' a ha hb with (hb | hb) | hb
    · exact .inl hb
    · exact .inr (.inl hb)
    · exact .inr (.inr hb)

/-- What tips lead to is closed over whatever part of it is left out. -/
theorem closedOver_range (tips excluded : Set α) :
    ClosedOver child (ReachAny child excluded) (ReachAny child tips \ ReachAny child excluded) := by
  rintro a ⟨⟨tip, htip, ha⟩, _⟩ b hb
  by_cases hexcluded : b ∈ ReachAny child excluded
  · exact .inl hexcluded
  · exact .inr ⟨mem_reachAny htip (reach_subset ha hb), hexcluded⟩

theorem closedOver_reach (a : α) : ClosedOver child ∅ (Reach child a) :=
  fun _ hb _ hc => .inr (reach_subset hb hc)

end ClosedOver

/-! ## Ranges -/

/-- What an optional tip leads to. -/
def ReachOpt (child : α → α → Prop) : Option α → Set α
  | none => ∅
  | some a => Reach child a

section Ranges

variable {ι : Type*} (child) (tip : ι → α) (objects : ι → Set α)

/-- The pieces hold the ranges between their tips, the first one from `start` on. -/
def HoldsRanges : Option α → List ι → Prop
  | _, [] => True
  | start, piece :: rest =>
    (∀ a ∈ start, a ∈ Reach child (tip piece)) ∧
    Reach child (tip piece) \ ReachOpt child start ⊆ objects piece ∧
    HoldsRanges (some (tip piece)) rest

/-- The tip the pieces end at. -/
def lastTip (start : Option α) : List ι → Option α
  | [] => start
  | piece :: rest => lastTip (some (tip piece)) rest

/-- Everything the pieces hold. -/
def held (pieces : List ι) : Set α := {b | ∃ piece ∈ pieces, b ∈ objects piece}

variable {child tip objects} {start : Option α} {piece : ι} {pieces rest : List ι}

theorem lastTip_append (pieces rest : List ι) :
    lastTip tip start (pieces ++ rest) = lastTip tip (lastTip tip start pieces) rest := by
  induction pieces generalizing start with
  | nil => rfl
  | cons piece pieces ih => exact ih

theorem lastTip_eq_getLast (h : pieces ≠ []) :
    lastTip tip start pieces = some (tip (pieces.getLast h)) := by
  induction pieces generalizing start with
  | nil => exact absurd rfl h
  | cons piece rest ih =>
      cases rest with
      | nil => rfl
      | cons next rest =>
          show lastTip tip (some (tip piece)) (next :: rest) = _
          rw [ih (List.cons_ne_nil next rest)]
          rfl

theorem holdsRanges_append : HoldsRanges child tip objects start (pieces ++ rest) ↔
    HoldsRanges child tip objects start pieces ∧
      HoldsRanges child tip objects (lastTip tip start pieces) rest := by
  induction pieces generalizing start with
  | nil => simp [HoldsRanges, lastTip]
  | cons piece pieces ih =>
      simp only [List.cons_append, HoldsRanges, lastTip, ih, and_assoc]

theorem held_append : held objects (pieces ++ rest) = held objects pieces ∪ held objects rest := by
  ext b
  simp only [held, List.mem_append, Set.mem_ofPred_eq, Set.mem_union]
  constructor
  · rintro ⟨piece, hpiece | hpiece, hb⟩
    · exact .inl ⟨piece, hpiece, hb⟩
    · exact .inr ⟨piece, hpiece, hb⟩
  · rintro (⟨piece, hpiece, hb⟩ | ⟨piece, hpiece, hb⟩)
    · exact ⟨piece, .inl hpiece, hb⟩
    · exact ⟨piece, .inr hpiece, hb⟩

/-- Ranges one after the other add up: what the last tip leads to is held, or the start led to
it. -/
theorem HoldsRanges.reach_last (h : HoldsRanges child tip objects start pieces) :
    ReachOpt child (lastTip tip start pieces) ⊆ ReachOpt child start ∪ held objects pieces := by
  induction pieces generalizing start with
  | nil => exact Set.subset_union_left
  | cons piece rest ih =>
      intro b hb
      rcases ih h.2.2 hb with hpiece | ⟨later, hlater, hb⟩
      · by_cases hstart : b ∈ ReachOpt child start
        · exact .inl hstart
        · exact .inr ⟨piece, List.mem_cons_self, h.2.1 ⟨hpiece, hstart⟩⟩
      · exact .inr ⟨later, List.mem_cons_of_mem _ hlater, hb⟩

/-- Two neighbours may be replaced by one piece with the later tip that holds their joint range. -/
theorem HoldsRanges.merge {first second merged : ι}
    (h : HoldsRanges child tip objects start (pieces ++ first :: second :: rest))
    (htip : tip merged = tip second)
    (hrange : Reach child (tip second) \ ReachOpt child (lastTip tip start pieces) ⊆
      objects merged) :
    HoldsRanges child tip objects start (pieces ++ merged :: rest) := by
  rw [holdsRanges_append] at h ⊢
  obtain ⟨hpieces, hfirst, _, hsecond, _, hrest⟩ := h
  refine ⟨hpieces, ?_, ?_, htip ▸ hrest⟩
  · intro a ha
    rw [htip]
    exact reach_subset (hsecond _ rfl) (hfirst a ha)
  · rw [htip]
    exact hrange

end Ranges

end Ripclone.Library
