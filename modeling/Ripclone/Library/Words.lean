import Mathlib.Algebra.GroupWithZero.Nat
import Mathlib.Data.List.Basic

/-!
# Numbers as bytes

Numbers of a fixed width, the most significant byte first, and lists cut into runs of one length.
-/

namespace Ripclone.Library

variable {α : Type*}

/-! ## Words -/

/-- The low `8 * width` bits. -/
def beBytes : Nat → Nat → List UInt8
  | 0, _ => []
  | width + 1, n => beBytes width (n / 256) ++ [UInt8.ofNat (n % 256)]

def ofBe (bytes : List UInt8) : Nat := bytes.foldl (fun n b => n * 256 + b.toNat) 0

@[simp] theorem length_beBytes (width n : Nat) : (beBytes width n).length = width := by
  induction width generalizing n with
  | zero => rfl
  | succ width ih => rw [beBytes, List.length_append, ih, List.length_singleton]

theorem toNat_ofNat_mod (n : Nat) : (UInt8.ofNat (n % 256)).toNat = n % 256 := by
  simp

theorem ofBe_beBytes {width n : Nat} (h : n < 256 ^ width) : ofBe (beBytes width n) = n := by
  induction width generalizing n with
  | zero =>
      have : n = 0 := by simpa using h
      rw [this]
      rfl
  | succ width ih =>
      have hdiv : n / 256 < 256 ^ width := by
        rw [Nat.div_lt_iff_lt_mul (by decide), ← Nat.pow_succ]
        exact h
      have hread := ih hdiv
      unfold ofBe at hread
      rw [beBytes, ofBe, List.foldl_append, hread, List.foldl_cons, List.foldl_nil, toNat_ofNat_mod]
      omega

/-! ## Tables of words -/

section Tables

variable {β : Type*} {f : α → List β} {width : Nat} (hwidth : ∀ x, (f x).length = width)

include hwidth

theorem length_flatMap_width (xs : List α) : (xs.flatMap f).length = xs.length * width := by
  induction xs with
  | nil => simp
  | cons x xs ih =>
      rw [List.flatMap_cons, List.length_append, hwidth, ih, List.length_cons, Nat.succ_mul,
        Nat.add_comm]

/-- The entry at `i`. -/
theorem take_drop_flatMap {xs : List α} {i : Nat} {x : α} (h : xs[i]? = some x) :
    ((xs.flatMap f).drop (i * width)).take width = f x := by
  induction xs generalizing i with
  | nil => cases h
  | cons first xs ih =>
      rw [List.flatMap_cons]
      cases i with
      | zero =>
          obtain rfl := Option.some.inj h
          rw [Nat.zero_mul, List.drop_zero, ← hwidth first, List.take_left]
      | succ i =>
          rw [Nat.succ_mul, Nat.add_comm, ← List.drop_drop]
          conv_lhs => rw [← hwidth first, List.drop_left, hwidth first]
          exact ih h

end Tables

/-! ## Runs of one length -/

/-- The list in runs of `n`, the last one of what is left. -/
def chunks (n : Nat) (xs : List α) : List (List α) :=
  if n = 0 ∨ xs = [] then []
  else xs.take n :: chunks n (xs.drop n)
termination_by xs.length
decreasing_by
  rename_i h
  rw [not_or] at h
  have := List.length_pos_iff.mpr h.2
  rw [List.length_drop]
  omega

variable {n : Nat} {xs : List α}

theorem chunks_eq_nil (hn : 0 < n) : chunks n xs = [] ↔ xs = [] := by
  rw [chunks]
  split
  · next h => exact ⟨fun _ => h.resolve_left (by omega), fun _ => rfl⟩
  · next h => exact ⟨fun hcons => (List.cons_ne_nil _ _ hcons).elim, fun hxs => (h (.inr hxs)).elim⟩

theorem flatten_chunks (hn : 0 < n) : (chunks n xs).flatten = xs := by
  fun_induction chunks n xs with
  | case1 xs h => rw [h.resolve_left (by omega), List.flatten_nil]
  | case2 xs h ih => rw [List.flatten_cons, ih, List.take_append_drop]

theorem length_le_of_mem_chunks {run : List α} (h : run ∈ chunks n xs) : run.length ≤ n := by
  fun_induction chunks n xs with
  | case1 xs _ => cases h
  | case2 xs _ ih =>
      rcases List.mem_cons.mp h with rfl | h
      · exact List.length_take_le _ _
      · exact ih h

end Ripclone.Library
