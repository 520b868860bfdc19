import Mathlib.Data.List.Basic

/-!
# Base64

Three bytes are written as four digits of six bits each. What is left at the end is written with as many
digits as it needs and filled up to four characters.
-/

namespace Ripclone.Library.Base64

def alphabet : List Char :=
  "ABCDEFGHIJKLMNOPQRSTUVWXYZabcdefghijklmnopqrstuvwxyz0123456789+/".toList

def digit (value : Nat) : Char := alphabet.getD value 'A'

def encode : List UInt8 → List Char
  | [] => []
  | [a] => [digit (a.toNat / 4), digit (a.toNat % 4 * 16), '=', '=']
  | [a, b] =>
    [digit (a.toNat / 4), digit (a.toNat % 4 * 16 + b.toNat / 16), digit (b.toNat % 16 * 4), '=']
  | a :: b :: c :: rest =>
    digit (a.toNat / 4) :: digit (a.toNat % 4 * 16 + b.toNat / 16) ::
      digit (b.toNat % 16 * 4 + c.toNat / 64) :: digit (c.toNat % 64) :: encode rest

theorem digit_mem (value : Nat) : digit value ∈ alphabet := by
  rw [digit, List.getD_eq_getElem?_getD]
  cases hget : alphabet[value]? with
  | none => decide
  | some c => exact List.mem_of_getElem? hget

/-- A text in Base64 has only digits and the sign that fills it up. -/
theorem mem_encode {c : Char} (bytes : List UInt8) (h : c ∈ encode bytes) : c ∈ alphabet ∨ c = '=' := by
  induction bytes using encode.induct with
  | case1 => cases h
  | case2 a =>
      simp only [encode, List.mem_cons, List.not_mem_nil, or_false] at h
      rcases h with rfl | rfl | rfl | rfl
      · exact .inl (digit_mem _)
      · exact .inl (digit_mem _)
      · exact .inr rfl
      · exact .inr rfl
  | case3 a b =>
      simp only [encode, List.mem_cons, List.not_mem_nil, or_false] at h
      rcases h with rfl | rfl | rfl | rfl
      · exact .inl (digit_mem _)
      · exact .inl (digit_mem _)
      · exact .inl (digit_mem _)
      · exact .inr rfl
  | case4 a b d rest ih =>
      simp only [encode, List.mem_cons] at h
      rcases h with rfl | rfl | rfl | rfl | hrest
      · exact .inl (digit_mem _)
      · exact .inl (digit_mem _)
      · exact .inl (digit_mem _)
      · exact .inl (digit_mem _)
      · exact ih hrest

end Ripclone.Library.Base64
