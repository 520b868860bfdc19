import Mathlib.Algebra.GroupWithZero.Nat
import Mathlib.Data.List.Forall2

/-!
# Computations that succeed

Inversion rules for fallible computations in `Except`: what must have happened for a `do` block to
return a value. Proofs peel a computation apart with `obtain` from `bind_eq_ok`, one step at a time,
and never unfold the monad.
-/

namespace Ripclone.Library

variable {ε α β : Type}

theorem bind_eq_ok {x : Except ε α} {f : α → Except ε β} {b : β} :
    (x >>= f) = .ok b ↔ ∃ a, x = .ok a ∧ f a = .ok b := by
  cases x with
  | error e => simp [bind, Except.bind]
  | ok a => simp [bind, Except.bind]

/-- A check in front of a computation. -/
theorem bind_unit_eq_ok {x : Except ε Unit} {f : Unit → Except ε β} {b : β} :
    (x >>= f) = .ok b ↔ x = .ok () ∧ f () = .ok b := by
  rw [bind_eq_ok]
  exact ⟨fun ⟨(), h⟩ => h, fun h => ⟨(), h⟩⟩

@[simp] theorem pure_eq_ok {a b : α} : (pure a : Except ε α) = .ok b ↔ a = b := by
  simp [pure, Except.pure]

@[simp] theorem throw_eq_ok {e : ε} {b : α} : (throw e : Except ε α) = .ok b ↔ False := by
  simp [throw, throwThe, MonadExceptOf.throw]

/-- A guard that raises was not taken. -/
@[simp] theorem ite_throw_eq_ok {p : Prop} [Decidable p] {e : ε} {x : Except ε α} {b : α} :
    (if p then throw e else x) = .ok b ↔ ¬p ∧ x = .ok b := by
  by_cases h : p <;> simp [h]

theorem mapError_eq_ok {ε' : Type} {f : ε → ε'} {x : Except ε α} {b : α} :
    x.mapError f = .ok b ↔ x = .ok b := by
  cases x <;> simp [Except.mapError]

theorem toOption_eq_some {x : Except ε α} {a : α} : x.toOption = some a ↔ x = .ok a := by
  cases x <;> simp [Except.toOption]

/-- A loop over a list succeeded at every element, in order. -/
theorem mapM_eq_ok {f : α → Except ε β} {xs : List α} {ys : List β} :
    xs.mapM f = .ok ys ↔ List.Forall₂ (fun x y => f x = .ok y) xs ys := by
  induction xs generalizing ys with
  | nil => rw [List.mapM_nil, pure_eq_ok, List.forall₂_nil_left_iff, eq_comm]
  | cons x xs ih =>
      rw [List.mapM_cons, bind_eq_ok, List.forall₂_cons_left_iff]
      constructor
      · rintro ⟨y, hy, h⟩
        obtain ⟨ys', hys, h⟩ := bind_eq_ok.mp h
        exact ⟨y, ys', hy, ih.mp hys, (pure_eq_ok.mp h).symm⟩
      · rintro ⟨y, ys', hy, hys, rfl⟩
        exact ⟨y, hy, bind_eq_ok.mpr ⟨ys', ih.mpr hys, rfl⟩⟩

/-- What every step keeps, a fold that goes through keeps. -/
theorem foldlM_invariant {I : β → Prop} {step : β → α → Except ε β} {xs : List α} {b b' : β}
    (hstep : ∀ b x b', I b → step b x = .ok b' → I b') (hstart : I b)
    (h : xs.foldlM step b = .ok b') : I b' := by
  induction xs generalizing b with
  | nil =>
      cases h
      exact hstart
  | cons x xs ih =>
      rw [List.foldlM_cons] at h
      obtain ⟨next, hnext, hrest⟩ := bind_eq_ok.mp h
      exact ih (hstep b x next hstart hnext) hrest

theorem exists_forall₂ {R : α → β → Prop} {xs : List α} (h : ∀ x ∈ xs, ∃ y, R x y) :
    ∃ ys, List.Forall₂ R xs ys := by
  induction xs with
  | nil => exact ⟨[], .nil⟩
  | cons x xs ih =>
      obtain ⟨⟨y, hy⟩, hrest⟩ := List.forall_mem_cons.mp h
      obtain ⟨ys, hys⟩ := ih hrest
      exact ⟨y :: ys, .cons hy hys⟩

theorem forall₂_getElem? {R : α → β → Prop} {xs : List α} {ys : List β} {k : Nat} {x : α}
    (h : List.Forall₂ R xs ys) (hx : xs[k]? = some x) : ∃ y, ys[k]? = some y ∧ R x y := by
  induction h generalizing k with
  | nil => simp at hx
  | cons hhead _ ih =>
      cases k with
      | zero => exact ⟨_, rfl, by simpa using Option.some.inj hx ▸ hhead⟩
      | succ k => exact ih hx

theorem forall₂_mem {R : α → β → Prop} {xs : List α} {ys : List β} {x : α}
    (h : List.Forall₂ R xs ys) (hx : x ∈ xs) : ∃ y ∈ ys, R x y := by
  obtain ⟨k, hk⟩ := List.mem_iff_getElem?.mp hx
  obtain ⟨y, hy, hxy⟩ := forall₂_getElem? h hk
  exact ⟨y, List.mem_of_getElem? hy, hxy⟩

/-- What holds of each result of a loop, and what the results have in common with the elements. -/
theorem forall₂_map_eq {γ : Type} {R : α → β → Prop} {P : β → Prop} {f : α → γ} {g : β → γ}
    {xs : List α} {ys : List β} (h : List.Forall₂ R xs ys)
    (hR : ∀ x ∈ xs, ∀ y, R x y → g y = f x ∧ P y) : ys.map g = xs.map f ∧ ∀ y ∈ ys, P y := by
  induction h with
  | nil => exact ⟨rfl, by simp⟩
  | @cons x y xs ys hxy _ ih =>
      obtain ⟨hmap, hrest⟩ := ih fun x hx => hR x (List.mem_cons_of_mem _ hx)
      obtain ⟨heq, hy⟩ := hR x List.mem_cons_self y hxy
      exact ⟨by rw [List.map_cons, List.map_cons, heq, hmap], List.forall_mem_cons.mpr ⟨hy, hrest⟩⟩

/-- Addition of 64-bit numbers, with `error` for a sum that is none. -/
def checkedAdd (a b : Nat) (error : ε) : Except ε Nat :=
  if a + b < 2 ^ 64 then .ok (a + b) else .error error

theorem checkedAdd_ok {a b : Nat} {error : ε} (h : a + b < 2 ^ 64) :
    checkedAdd a b error = .ok (a + b) := if_pos h

theorem checkedAdd_eq_ok {a b c : Nat} {error : ε} (h : checkedAdd a b error = .ok c) :
    a + b = c := by
  unfold checkedAdd at h
  split at h
  · exact Except.ok.inj h
  · cases h

theorem checkedAdd_lt {a b c : Nat} {error : ε} (h : checkedAdd a b error = .ok c) : c < 2 ^ 64 := by
  unfold checkedAdd at h
  split at h
  · next hlt => exact Except.ok.inj h ▸ hlt
  · cases h

end Ripclone.Library
