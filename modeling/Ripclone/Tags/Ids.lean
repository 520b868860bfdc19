import Ripclone.Library.Utf8
import Ripclone.Pack.Idx

/-!
# Object ids

A SHA-1 object id as bytes, and as the text of 40 lowercase hex digits that refs and tag objects have.
-/

namespace Ripclone.Tags

open Ripclone.Library Ripclone.Pack

/-- A SHA-1 object id. -/
abbrev Id := {bytes : Bytes // bytes.length = 20}

def Id.hex (id : Id) : String := hexEncode id.1

def nibble (byte : UInt8) : Option Nat :=
  if 0x30 ≤ byte ∧ byte ≤ 0x39 then some (byte.toNat - 0x30)
  else if 0x61 ≤ byte ∧ byte ≤ 0x66 then some (byte.toNat - 0x61 + 10)
  else none

/-- A byte for every two digits. -/
def hexPairs : Bytes → Option Bytes
  | high :: low :: rest => do
    let h ← nibble high
    let l ← nibble low
    let bytes ← hexPairs rest
    return UInt8.ofNat (h * 16 + l) :: bytes
  | _ => some []

theorem length_hexPairs {digits bytes : Bytes} (h : hexPairs digits = some bytes) :
    bytes.length = digits.length / 2 := by
  induction digits using hexPairs.induct generalizing bytes with
  | case1 high low rest ih =>
      simp only [hexPairs, Option.bind_eq_bind, Option.bind_eq_some_iff, Option.pure_def,
        Option.some.injEq] at h
      obtain ⟨_, _, _, _, later, hlater, rfl⟩ := h
      rw [List.length_cons, ih hlater, List.length_cons, List.length_cons]
      omega
  | case2 digits hshort =>
      cases digits with
      | nil =>
          obtain rfl := Option.some.inj h
          rfl
      | cons high rest =>
          cases rest with
          | nil =>
              obtain rfl := Option.some.inj h
              show 0 = 1 / 2
              decide
          | cons low rest => exact absurd rfl (hshort high low rest)

/-- The id that a text is. -/
def parseId (hex : String) : Option Id :=
  if h : (Utf8.encode hex).length = 40 then
    (hexPairs (Utf8.encode hex)).attach.map fun ⟨bytes, hbytes⟩ =>
      ⟨bytes, by rw [length_hexPairs hbytes, h]⟩
  else none

theorem parseId_eq_some {hex : String} {id : Id} :
    parseId hex = some id ↔
      (Utf8.encode hex).length = 40 ∧ hexPairs (Utf8.encode hex) = some id.1 := by
  unfold parseId
  split
  · next h =>
      simp only [h, true_and, Option.map_eq_some_iff]
      constructor
      · rintro ⟨⟨bytes, hbytes⟩, _, rfl⟩
        exact hbytes
      · intro hid
        exact ⟨⟨id.1, hid⟩, by simp [hid], rfl⟩
  · next h => simp [h]

/-! ## Texts of ids -/

/-- The digits of a byte. -/
def hexDigits (b : UInt8) : Bytes :=
  Utf8.encode (String.ofList [hexDigit (b.toNat / 16), hexDigit (b.toNat % 16)])

/-- A digit is one byte. -/
def digitByte (n : Nat) : UInt8 := UInt8.ofNat (hexDigit n).toNat

theorem nibble_digitByte : ∀ n < 16, String.utf8EncodeChar (hexDigit n) = [digitByte n] ∧
    nibble (digitByte n) = some n := by
  decide

theorem encode_hexEncode (bytes : Bytes) : Utf8.encode (hexEncode bytes) = bytes.flatMap hexDigits := by
  induction bytes with
  | nil => rfl
  | cons b rest ih =>
      rw [hexEncode, List.flatMap_cons, Utf8.encode_ofList_append, List.flatMap_cons]
      exact congrArg _ ih

theorem hexPairs_hexDigits (bytes : Bytes) : hexPairs (bytes.flatMap hexDigits) = some bytes ∧
    (bytes.flatMap hexDigits).length = 2 * bytes.length := by
  induction bytes with
  | nil => exact ⟨rfl, rfl⟩
  | cons b rest ih =>
      have hb := b.toNat_lt
      obtain ⟨hhigh, hhighValue⟩ := nibble_digitByte (b.toNat / 16) (by omega)
      obtain ⟨hlow, hlowValue⟩ := nibble_digitByte (b.toNat % 16) (Nat.mod_lt _ (by decide))
      have hdigits : hexDigits b = [digitByte (b.toNat / 16), digitByte (b.toNat % 16)] := by
        rw [hexDigits, Utf8.encode, String.toList_ofList, List.flatMap_cons, List.flatMap_cons, hhigh,
          hlow]
        rfl
      have hbyte : UInt8.ofNat (b.toNat / 16 * 16 + b.toNat % 16) = b := by
        rw [Nat.div_add_mod']
        exact UInt8.ofNat_toNat
      rw [List.flatMap_cons, hdigits, List.cons_append, List.singleton_append, List.length_cons,
        List.length_cons, List.length_cons, ih.2]
      refine ⟨?_, by omega⟩
      rw [hexPairs, hhighValue, hlowValue, ih.1]
      exact congrArg (fun byte => some (byte :: rest)) hbyte

/-- The text of an id is read as the id. -/
@[simp] theorem parseId_hex (id : Id) : parseId id.hex = some id := by
  have hpairs := hexPairs_hexDigits id.1
  rw [parseId_eq_some, Id.hex, encode_hexEncode, hpairs.2, id.2]
  exact ⟨rfl, hpairs.1⟩

theorem Id.hex_injective : Function.Injective Id.hex := by
  intro a b h
  have := congrArg parseId h
  rw [parseId_hex, parseId_hex] at this
  exact Option.some.inj this

theorem Id.hex_ne_empty (id : Id) : id.hex ≠ "" := by
  intro h
  have := parseId_hex id
  rw [h] at this
  cases this

end Ripclone.Tags
