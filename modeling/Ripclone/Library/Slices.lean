import Mathlib.Data.List.Basic
import Mathlib.Data.List.Forall2
import Mathlib.Data.List.TakeDrop

/-!
# Slices of a list, and tilings of a range

`slice xs a b` is the part of a list from position `a` up to `b`. Neighbouring slices join, and a
slice of a slice is a slice. `Tiles a b spans` says that the spans, one after the other, make up the
range from `a` to `b`; the slices of a tiling make up the slice of its range.
-/

namespace Ripclone.Library

variable {α : Type*} {xs ys : List α} {a b c : Nat}

/-- The elements from position `a` up to `b`. -/
def slice (xs : List α) (a b : Nat) : List α := (xs.drop a).take (b - a)

theorem length_slice (h : b ≤ xs.length) : (slice xs a b).length = b - a := by
  rw [slice, List.length_take, List.length_drop]
  omega

theorem slice_self : slice xs a a = [] := by
  rw [slice, Nat.sub_self, List.take_zero]

theorem slice_eq_nil (h : b ≤ a) : slice xs a b = [] := by
  rw [slice, Nat.sub_eq_zero_of_le h, List.take_zero]

theorem slice_all (h : b = xs.length) : slice xs 0 b = xs := by
  rw [slice, List.drop_zero, Nat.sub_zero, h, List.take_length]

theorem slice_append (hab : a ≤ b) (hbc : b ≤ c) :
    slice xs a b ++ slice xs b c = slice xs a c := by
  have hsplit : c - a = (b - a) + (c - b) := by omega
  rw [slice, slice, slice, hsplit, List.take_add, List.drop_drop]
  congr 3
  omega

/-- What two neighbouring ranges have of a third one, together. -/
theorem slice_clip (xs : List α) {i j : Nat} (hab : a ≤ b) (hbc : b ≤ c) :
    slice xs (max i a) (min j b) ++ slice xs (max i b) (min j c) =
      slice xs (max i a) (min j c) := by
  by_cases hi : b ≤ i
  · rw [slice_eq_nil (by omega), List.nil_append]
    congr 1
    omega
  · by_cases hj : j ≤ b
    · rw [slice_eq_nil (show min j c ≤ max i b by omega), List.append_nil]
      congr 1
      omega
    · rw [show min j b = b by omega, show max i b = b by omega]
      exact slice_append (by omega) (by omega)

/-- A slice of a slice. -/
theorem slice_slice {i j : Nat} (h : a + j ≤ b) :
    slice (slice xs a b) i j = slice xs (a + i) (a + j) := by
  rw [slice, slice, slice, List.drop_take, List.take_take, List.drop_drop]
  congr 1
  omega

theorem slice_append_left (h : b ≤ xs.length) : slice (xs ++ ys) a b = slice xs a b := by
  rw [slice, slice]
  by_cases hab : a ≤ b
  · rw [List.drop_append_of_le_length (by omega), List.take_append_of_le_length]
    rw [List.length_drop]
    omega
  · rw [show b - a = 0 by omega, List.take_zero, List.take_zero]

theorem slice_append_right (h : xs.length ≤ a) :
    slice (xs ++ ys) a b = slice ys (a - xs.length) (b - xs.length) := by
  rw [slice, slice, List.drop_append, List.drop_eq_nil_of_le h, List.nil_append]
  congr 1
  omega

/-- The last of three lists put together, seen from its place. -/
theorem slice_middle {zs : List α} :
    slice (xs ++ (ys ++ zs)) xs.length (xs.length + ys.length) = ys := by
  rw [slice_append_right (Nat.le_refl _), Nat.sub_self, Nat.add_sub_cancel_left,
    slice_append_left (Nat.le_refl _), slice_all rfl]

/-! ## Tilings -/

/-- The spans follow one another from `a` to `b`. -/
def Tiles : Nat → Nat → List (Nat × Nat) → Prop
  | a, b, [] => a = b
  | a, b, span :: rest => span.1 = a ∧ a ≤ span.2 ∧ Tiles span.2 b rest

section Tiles

variable {spans rest : List (Nat × Nat)} {span : Nat × Nat}

theorem Tiles.le (h : Tiles a b spans) : a ≤ b := by
  induction spans generalizing a with
  | nil => exact Nat.le_of_eq h
  | cons span rest ih => exact Nat.le_trans h.2.1 (ih h.2.2)

theorem Tiles.append (h : Tiles a b spans) (h' : Tiles b c rest) : Tiles a c (spans ++ rest) := by
  induction spans generalizing a with
  | nil => exact (show a = b from h) ▸ h'
  | cons span spans ih => exact ⟨h.1, h.2.1, ih h.2.2⟩

theorem tiles_singleton (h : a ≤ b) : Tiles a b [(a, b)] := ⟨rfl, h, rfl⟩

/-- The spans of a tiling lie in its range. -/
theorem Tiles.mem (h : Tiles a b spans) (hspan : span ∈ spans) :
    a ≤ span.1 ∧ span.1 ≤ span.2 ∧ span.2 ≤ b := by
  induction spans generalizing a with
  | nil => cases hspan
  | cons first rest ih =>
      obtain ⟨hfirst, hle, hrest⟩ := h
      rcases List.mem_cons.mp hspan with rfl | hspan
      · exact ⟨Nat.le_of_eq hfirst.symm, hfirst ▸ hle, hrest.le⟩
      · obtain ⟨h₁, h₂, h₃⟩ := ih hrest hspan
        exact ⟨Nat.le_trans hle h₁, h₂, h₃⟩

/-- The slices of a tiling, put together, are the slice of its range. -/
theorem Tiles.flatMap_slice (h : Tiles a b spans) :
    (spans.flatMap fun span => slice xs span.1 span.2) = slice xs a b := by
  induction spans generalizing a with
  | nil =>
      have : a = b := h
      rw [this, slice_self, List.flatMap_nil]
  | cons span rest ih =>
      obtain ⟨hfirst, hle, hrest⟩ := h
      rw [List.flatMap_cons, ih hrest, hfirst, slice_append hle hrest.le]

/-- Every place of a tiling's range is in just one of its spans. -/
theorem Tiles.existsUnique {α : Type} {f : α → Nat × Nat} {xs : List α} {i : Nat}
    (h : Tiles a b (xs.map f)) (ha : a ≤ i) (hb : i < b) :
    ∃! x, x ∈ xs ∧ (f x).1 ≤ i ∧ i < (f x).2 := by
  induction xs generalizing a with
  | nil =>
      have : a = b := h
      omega
  | cons x xs ih =>
      obtain ⟨hfirst, hle, hrest⟩ := h
      by_cases hi : i < (f x).2
      · refine ⟨x, ⟨List.mem_cons_self, hfirst ▸ ha, hi⟩, ?_⟩
        rintro y ⟨hy, hstart, _⟩
        rcases List.mem_cons.mp hy with rfl | hy
        · rfl
        · have := (hrest.mem (List.mem_map_of_mem hy)).1
          omega
      · obtain ⟨y, ⟨hy, hin⟩, hunique⟩ := ih hrest (Nat.le_of_not_lt hi)
        refine ⟨y, ⟨List.mem_cons_of_mem _ hy, hin⟩, ?_⟩
        rintro z ⟨hz, hinz⟩
        rcases List.mem_cons.mp hz with rfl | hz
        · exact absurd hinz.2 hi
        · exact hunique z ⟨hz, hinz⟩

/-- Moving a tiling. -/
theorem Tiles.shift {d : Nat} (h : Tiles a b spans) :
    Tiles (d + a) (d + b) (spans.map fun span => (d + span.1, d + span.2)) := by
  induction spans generalizing a with
  | nil =>
      have : a = b := h
      exact congrArg (d + ·) this
  | cons span rest ih =>
      obtain ⟨hfirst, hle, hrest⟩ := h
      exact ⟨congrArg (d + ·) hfirst, Nat.add_le_add_left hle d, ih hrest⟩

/-! ## Weaves -/

/-- The spans of two lists, each in its order, follow one another up to `b`. Those of the first list
are not empty. -/
inductive Weaves (b : Nat) : Nat → List (Nat × Nat) → List (Nat × Nat) → Prop
  | nil : Weaves b b [] []
  | left {a m : Nat} {xs ys : List (Nat × Nat)} :
      a < m → Weaves b m xs ys → Weaves b a ((a, m) :: xs) ys
  | right {a m : Nat} {xs ys : List (Nat × Nat)} :
      a ≤ m → Weaves b m xs ys → Weaves b a xs ((a, m) :: ys)

/-- The two lists together are a tiling. -/
theorem Weaves.tiles {xs ys : List (Nat × Nat)} (h : Weaves b a xs ys) :
    ∃ spans, spans.Perm (xs ++ ys) ∧ Tiles a b spans := by
  induction h with
  | nil => exact ⟨[], .refl _, rfl⟩
  | left hlt _ ih =>
      obtain ⟨spans, hperm, htiles⟩ := ih
      exact ⟨_ :: spans, hperm.cons _, rfl, Nat.le_of_lt hlt, htiles⟩
  | right hle _ ih =>
      obtain ⟨spans, hperm, htiles⟩ := ih
      exact ⟨_ :: spans, (hperm.cons _).trans List.perm_middle.symm, rfl, hle, htiles⟩

/-- A tiling in front. -/
theorem Weaves.append_right {xs ys : List (Nat × Nat)} (h : Weaves c b xs ys)
    (hspans : Tiles a b spans) : Weaves c a xs (spans ++ ys) := by
  induction spans generalizing a with
  | nil => exact (show a = b from hspans) ▸ h
  | cons span rest ih =>
      obtain ⟨rfl, hle, hrest⟩ := hspans
      exact .right hle (ih hrest)

theorem Weaves.le_left {x : Nat × Nat} {xs ys : List (Nat × Nat)} (h : Weaves b a (x :: xs) ys) :
    a ≤ x.1 := by
  generalize hzs : x :: xs = zs at h
  induction h with
  | nil => cases hzs
  | left _ _ _ =>
      obtain ⟨rfl, _⟩ := List.cons.inj hzs
      exact Nat.le_refl _
  | right hle _ ih => exact Nat.le_trans hle (ih hzs)

theorem Weaves.le_right {y : Nat × Nat} {xs ys : List (Nat × Nat)} (h : Weaves b a xs (y :: ys)) :
    a ≤ y.1 := by
  generalize hzs : y :: ys = zs at h
  induction h with
  | nil => cases hzs
  | left hlt _ ih => exact Nat.le_trans (Nat.le_of_lt hlt) (ih hzs)
  | right _ _ _ =>
      obtain ⟨rfl, _⟩ := List.cons.inj hzs
      exact Nat.le_refl _

/-- The next span is one of the first list when it starts before the second list's first one. -/
theorem Weaves.next_left {x : Nat × Nat} {xs ys : List (Nat × Nat)} (h : Weaves b a (x :: xs) ys)
    (hys : ∀ y, ys.head? = some y → x.1 < y.1) : x.1 = a ∧ a < x.2 ∧ Weaves b x.2 xs ys := by
  cases h with
  | left hlt hrest => exact ⟨rfl, hlt, hrest⟩
  | right hle hrest =>
      have := hys _ rfl
      have := hrest.le_left
      omega

/-- The next span is the second list's first one when it does not start after the first list's. -/
theorem Weaves.next_right {y : Nat × Nat} {xs ys : List (Nat × Nat)} (h : Weaves b a xs (y :: ys))
    (hxs : ∀ x, xs.head? = some x → y.1 ≤ x.1) : y.1 = a ∧ a ≤ y.2 ∧ Weaves b y.2 xs ys := by
  cases h with
  | left hlt hrest =>
      have := hxs _ rfl
      have := hrest.le_right
      omega
  | right hle hrest => exact ⟨rfl, hle, hrest⟩

/-- A span of the second list may be tiled. -/
theorem Weaves.replace {xs ys front : List (Nat × Nat)} (h : Weaves b a xs (front ++ span :: ys))
    (hspans : Tiles span.1 span.2 spans) : Weaves b a xs (front ++ (spans ++ ys)) := by
  generalize hzs : front ++ span :: ys = zs at h
  induction h generalizing front with
  | nil => simp at hzs
  | left hlt _ ih => exact .left hlt (ih hzs)
  | right hle hrest ih =>
      cases front with
      | nil =>
          obtain ⟨rfl, rfl⟩ := List.cons.inj hzs
          exact hrest.append_right hspans
      | cons first front =>
          obtain ⟨rfl, htail⟩ := List.cons.inj hzs
          exact .right hle (ih htail)

/-- Spans of the second list may be tiled, one after the other. -/
theorem Weaves.refine {xs ys gaps : List (Nat × Nat)} (front : List (Nat × Nat)) {tilings : List (List (Nat × Nat))}
    (h : Weaves b a xs (front ++ (gaps ++ ys)))
    (htilings : List.Forall₂ (fun gap spans => Tiles gap.1 gap.2 spans) gaps tilings) :
    Weaves b a xs (front ++ (tilings.flatten ++ ys)) := by
  induction htilings generalizing front with
  | nil => exact h
  | @cons gap spans gaps tilings htiles _ ih =>
      have hfirst := h.replace htiles
      rw [← List.append_assoc] at hfirst
      have hrest := ih _ hfirst
      rwa [List.flatten_cons, List.append_assoc, ← List.append_assoc front]

/-! ## Parts of a list -/

/-- Where each of the parts is when they are put one after the other, the first one at `pos`. -/
def spansFrom (pos : Nat) : List (List α) → List (Nat × Nat)
  | [] => []
  | part :: rest => (pos, pos + part.length) :: spansFrom (pos + part.length) rest

@[simp] theorem length_spansFrom (pos : Nat) (parts : List (List α)) :
    (spansFrom pos parts).length = parts.length := by
  induction parts generalizing pos with
  | nil => rfl
  | cons part rest ih => rw [spansFrom, List.length_cons, List.length_cons, ih]

theorem drop_spansFrom (pos k : Nat) (parts : List (List α)) :
    (spansFrom pos parts).drop k =
      spansFrom (pos + (parts.take k).flatten.length) (parts.drop k) := by
  induction parts generalizing pos k with
  | nil => simp [spansFrom]
  | cons part rest ih =>
      cases k with
      | zero => simp
      | succ k =>
          rw [spansFrom, List.drop_succ_cons, ih, List.take_succ_cons, List.flatten_cons,
            List.length_append, Nat.add_assoc, List.drop_succ_cons]

theorem take_spansFrom (pos k : Nat) (parts : List (List α)) :
    spansFrom pos (parts.take k) = (spansFrom pos parts).take k := by
  induction parts generalizing pos k with
  | nil => simp [spansFrom]
  | cons part rest ih =>
      cases k with
      | zero => rfl
      | succ k => rw [List.take_succ_cons, spansFrom, spansFrom, List.take_succ_cons, ih]

theorem spansFrom_concat (pos : Nat) (parts : List (List α)) (part : List α) :
    spansFrom pos (parts ++ [part]) = spansFrom pos parts ++
      [(pos + parts.flatten.length, pos + parts.flatten.length + part.length)] := by
  induction parts generalizing pos with
  | nil => rfl
  | cons first parts ih =>
      rw [List.cons_append, spansFrom, spansFrom, ih, List.flatten_cons, List.length_append,
        Nat.add_assoc pos]
      rfl

/-- The last part ends where all of them do. -/
theorem getLast?_spansFrom {pos : Nat} {parts : List (List α)} {span : Nat × Nat}
    (h : (spansFrom pos parts).getLast? = some span) : span.2 = pos + parts.flatten.length := by
  induction parts generalizing pos with
  | nil => cases h
  | cons part rest ih =>
      rw [List.flatten_cons, List.length_append, ← Nat.add_assoc]
      cases rest with
      | nil =>
          obtain rfl := Option.some.inj h
          rfl
      | cons next rest =>
          rw [spansFrom, spansFrom, List.getLast?_cons_cons] at h
          exact ih h

theorem tiles_spansFrom (pos : Nat) (parts : List (List α)) :
    Tiles pos (pos + parts.flatten.length) (spansFrom pos parts) := by
  induction parts generalizing pos with
  | nil => rfl
  | cons part rest ih =>
      rw [List.flatten_cons, List.length_append, ← Nat.add_assoc]
      exact ⟨rfl, Nat.le_add_right _ _, ih _⟩

/-- The slices of a tiling are at its spans. -/
theorem Tiles.spansFrom_slices (h : Tiles a b spans) (hb : b ≤ xs.length) :
    spansFrom a (spans.map fun span => slice xs span.1 span.2) = spans := by
  induction spans generalizing a with
  | nil => rfl
  | cons span rest ih =>
      obtain ⟨hfirst, hle, hrest⟩ := h
      have hend : a + (slice xs span.1 span.2).length = span.2 := by
        rw [length_slice (Nat.le_trans hrest.le hb), hfirst, Nat.add_sub_cancel' hle]
      rw [List.map_cons, spansFrom, hend, ih hrest, ← hfirst]

theorem slice_spansFrom_append {before : List α} {pos : Nat} {parts : List (List α)}
    (hpos : before.length = pos) :
    List.Forall₂ (fun span part => slice (before ++ parts.flatten) span.1 span.2 = part)
      (spansFrom pos parts) parts := by
  induction parts generalizing before pos with
  | nil => exact .nil
  | cons part rest ih =>
      subst hpos
      refine .cons slice_middle ?_
      rw [List.flatten_cons, ← List.append_assoc]
      exact ih List.length_append

/-- The slice at a part's place is the part. -/
theorem slice_spansFrom (parts : List (List α)) :
    List.Forall₂ (fun span part => slice parts.flatten span.1 span.2 = part)
      (spansFrom 0 parts) parts :=
  slice_spansFrom_append List.length_nil

end Tiles

end Ripclone.Library
