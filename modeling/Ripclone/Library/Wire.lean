import Mathlib.Data.List.Basic
import Mathlib.Logic.Function.Basic
import Mathlib.Logic.Nontrivial.Defs

/-!
# A tagged wire format

Messages as bytes: a message is its fields in order of their numbers, a field is a tag byte and a
value, and a value is a base-128 number or a length and that many bytes. A field that holds its
default is left out, so a message's bytes say nothing about where it ends; inside another message
its length stands before it.

An encoding is `Delimited` when what follows it can be told from it, which is what makes fields one
after the other readable. From it, `repeated_inj` takes a message apart field by field.
-/

namespace Ripclone.Library.Wire

variable {α β : Type*}

/-- Seven bits a byte, the low ones first; every byte but the last has its top bit set. -/
def varint (n : Nat) : List UInt8 :=
  if n < 128 then [UInt8.ofNat n] else UInt8.ofNat (n % 128 + 128) :: varint (n / 128)

/-- A length and that many bytes. -/
def sized (payload : List UInt8) : List UInt8 := varint payload.length ++ payload

/-- A field that may occur any number of times. -/
def repeated (tag : UInt8) (enc : α → List UInt8) (xs : List α) : List UInt8 :=
  xs.flatMap fun x => tag :: enc x

/-- A value, unless it is the default. -/
def present [DecidableEq α] (default value : α) : List α := if value = default then [] else [value]

/-- Where an encoded value ends is seen from its encoding. -/
def Delimited (enc : α → List β) : Prop :=
  ∀ (a b : α) (r s : List β), enc a ++ r = enc b ++ s → a = b ∧ r = s

theorem Delimited.injective {enc : α → List β} (h : Delimited enc) :
    Function.Injective enc := by
  intro a b hab
  exact (h a b [] [] (by rw [hab])).1

theorem toNat_ofNat {n : Nat} (h : n < 256) : (UInt8.ofNat n).toNat = n := by
  simp [Nat.mod_eq_of_lt h]

theorem varint_ne_nil (n : Nat) : varint n ≠ [] := by
  rw [varint]
  split <;> simp

theorem varint_delimited : Delimited varint := by
  intro a
  induction a using Nat.strongRecOn with
  | ind a ih =>
    intro b r s h
    -- the first bytes agree, and their top bits say whether more follow
    rw [varint.eq_def a, varint.eq_def b] at h
    by_cases ha : a < 128
    · by_cases hb : b < 128
      · rw [if_pos ha, if_pos hb, List.singleton_append, List.singleton_append] at h
        obtain ⟨hhead, hrest⟩ := List.cons.inj h
        have := congrArg UInt8.toNat hhead
        rw [toNat_ofNat (by omega), toNat_ofNat (by omega)] at this
        exact ⟨this, hrest⟩
      · rw [if_pos ha, if_neg hb, List.singleton_append, List.cons_append] at h
        have := congrArg UInt8.toNat (List.cons.inj h).1
        rw [toNat_ofNat (by omega), toNat_ofNat (by omega)] at this
        omega
    · by_cases hb : b < 128
      · rw [if_neg ha, if_pos hb, List.singleton_append, List.cons_append] at h
        have := congrArg UInt8.toNat (List.cons.inj h).1
        rw [toNat_ofNat (by omega), toNat_ofNat (by omega)] at this
        omega
      · rw [if_neg ha, if_neg hb, List.cons_append, List.cons_append] at h
        obtain ⟨hhead, hrest⟩ := List.cons.inj h
        have := congrArg UInt8.toNat hhead
        rw [toNat_ofNat (by omega), toNat_ofNat (by omega)] at this
        obtain ⟨hdiv, hrest⟩ := ih (a / 128) (by omega) _ _ _ hrest
        exact ⟨by omega, hrest⟩

/-- A length in front makes any encoding delimited. -/
theorem sized_delimited {enc : α → List UInt8} (h : Function.Injective enc) :
    Delimited fun a => sized (enc a) := by
  intro a b r s hab
  simp only [sized, List.append_assoc] at hab
  obtain ⟨hlen, hrest⟩ := varint_delimited _ _ _ _ hab
  obtain ⟨hpayload, hrest⟩ := List.append_inj hrest hlen
  exact ⟨h hpayload, hrest⟩

section Repeated

variable {enc : α → List UInt8} {tag : UInt8} {xs ys : List α} {r s : List UInt8}

theorem head?_repeated_append {tag' : UInt8} (htag : tag ≠ tag') (hr : r.head? ≠ some tag') :
    (repeated tag enc xs ++ r).head? ≠ some tag' := by
  cases xs with
  | nil => exact hr
  | cons x xs => simpa [repeated] using htag

theorem head?_repeated {tag' : UInt8} (htag : tag ≠ tag') :
    (repeated tag enc xs).head? ≠ some tag' := by
  rw [← List.append_nil (repeated tag enc xs)]
  exact head?_repeated_append htag (by simp)

/-- The values of a field, and where the next field starts, are seen from the bytes. -/
theorem repeated_inj (henc : Delimited enc) (hr : r.head? ≠ some tag) (hs : s.head? ≠ some tag)
    (h : repeated tag enc xs ++ r = repeated tag enc ys ++ s) : xs = ys ∧ r = s := by
  induction xs generalizing ys with
  | nil =>
      cases ys with
      | nil => exact ⟨rfl, h⟩
      | cons y ys =>
          refine absurd ?_ hr
          rw [show r = _ from h]
          rfl
  | cons x xs ih =>
      cases ys with
      | nil =>
          refine absurd ?_ hs
          rw [show s = _ from h.symm]
          rfl
      | cons y ys =>
          have h : tag :: (enc x ++ (repeated tag enc xs ++ r)) =
              tag :: (enc y ++ (repeated tag enc ys ++ s)) := by
            simpa [repeated] using h
          obtain ⟨rfl, hrest⟩ := henc _ _ _ _ (List.cons.inj h).2
          obtain ⟨rfl, hr⟩ := ih hrest
          exact ⟨rfl, hr⟩

/-- The same for the last field of a message. -/
theorem repeated_inj_last (henc : Delimited enc)
    (h : repeated tag enc xs = repeated tag enc ys) : xs = ys := by
  have hnil : ([] : List UInt8).head? ≠ some tag := by simp
  exact (repeated_inj henc hnil hnil (congrArg (· ++ []) h)).1

theorem length_repeated {size : Nat} (hsize : ∀ x ∈ xs, size ≤ (enc x).length) :
    xs.length * (size + 1) ≤ (repeated tag enc xs).length := by
  induction xs with
  | nil => simp [repeated]
  | cons x xs ih =>
      have hx := hsize x List.mem_cons_self
      have hxs := ih fun x hx => hsize x (List.mem_cons_of_mem _ hx)
      have hcons : (repeated tag enc (x :: xs)).length =
          (enc x).length + 1 + (repeated tag enc xs).length := by
        rw [repeated, List.flatMap_cons, List.length_append, List.length_cons]
        rfl
      rw [hcons, List.length_cons, Nat.succ_mul]
      omega

end Repeated

/-- Only a type of one value has a delimited encoding of nothing. -/
theorem Delimited.ne_nil [Nontrivial α] {enc : α → List β} (h : Delimited enc) (a : α) :
    enc a ≠ [] := by
  intro hnil
  obtain ⟨b, hb⟩ := exists_ne a
  exact hb (h a b (enc b) [] (by rw [hnil, List.nil_append, List.append_nil])).1.symm

/-- Values one after the other, each of at least a byte. -/
theorem flatMap_injective {enc : α → List β} (henc : Delimited enc)
    (hne : ∀ x, enc x ≠ []) : Function.Injective fun xs : List α => xs.flatMap enc := by
  intro xs ys h
  induction xs generalizing ys with
  | nil =>
      cases ys with
      | nil => rfl
      | cons y ys =>
          simp only [List.flatMap_nil, List.flatMap_cons] at h
          exact absurd (List.append_eq_nil_iff.mp h.symm).1 (hne y)
  | cons x xs ih =>
      cases ys with
      | nil =>
          simp only [List.flatMap_nil, List.flatMap_cons] at h
          exact absurd (List.append_eq_nil_iff.mp h).1 (hne x)
      | cons y ys =>
          simp only [List.flatMap_cons] at h
          obtain ⟨rfl, hrest⟩ := henc _ _ _ _ h
          rw [ih hrest]

theorem present_injective [DecidableEq α] {default a b : α}
    (h : present default a = present default b) : a = b := by
  unfold present at h
  split at h <;> split at h <;> simp_all

end Ripclone.Library.Wire
