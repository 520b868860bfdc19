import Mathlib.Data.List.Sort
import Ripclone.Library.Result
import Ripclone.Results

/-!
# Version 2 pack idx files

The parts of an idx file the builders read: the object ids, and from the offsets the bytes each
object takes in its pack. An idx is an 8 byte header, 256 fanout words, the 20 byte ids, a CRC word
an object, an offset word an object, and 8 byte offsets for the packs that need them. Words are
big-endian.
-/

namespace Ripclone.Pack

open Ripclone.Library

/-! ## Bytes and words -/

def hexDigit (n : Nat) : Char := Char.ofNat (if n < 10 then 48 + n else 87 + n)

def hexEncode (bytes : Bytes) : String :=
  String.ofList (bytes.flatMap fun b => [hexDigit (b.toNat / 16), hexDigit (b.toNat % 16)])

def fromBeBytes (bytes : Bytes) : Nat := bytes.foldl (fun n b => n * 256 + b.toNat) 0

/-- `bytes.get(start..start + len)`, with `error` for a range out of bounds. -/
def getRange (bytes : Bytes) (start len : Nat) (error : String) : Except String Bytes :=
  if start + len ≤ bytes.length then .ok ((bytes.drop start).take len) else .error error

theorem getRange_eq_ok {bytes found : Bytes} {start len : Nat} {error : String}
    (h : getRange bytes start len error = .ok found) : (bytes.drop start).take len = found := by
  unfold getRange at h
  split at h
  · exact Except.ok.inj h
  · cases h

theorem length_of_getRange {bytes found : Bytes} {start len : Nat} {error : String}
    (h : getRange bytes start len error = .ok found) : found.length = len := by
  rw [← getRange_eq_ok h, List.length_take, List.length_drop]
  unfold getRange at h
  split at h
  · omega
  · cases h

/-! ## Ids and sizes -/

def idxMagic : Bytes := [0xff, 0x74, 0x4f, 0x63, 0, 0, 0, 2]

/-- Where the ids start: after the header and the fanout. -/
def idxNamesAt : Nat := 8 + 256 * 4

/-- The object ids, in hex. -/
def idxObjectIds (idx : Bytes) : Except String (List String) :=
  if idxNamesAt ≤ idx.length ∧ idx.take 8 = idxMagic then do
    let count := fromBeBytes ((idx.drop (idxNamesAt - 4)).take 4)
    let names ← getRange idx idxNamesAt (count * 20) "pack idx is shorter than its object count"
    return (List.range count).map fun i => hexEncode ((names.drop (i * 20)).take 20)
  else throw "not a version 2 pack idx"

/-- The offset word of the `i`-th object, or the 8 byte offset it points to. -/
def idxOffset (idx : Bytes) (count i : Nat) : Except String Nat := do
  let offsetsAt := idxNamesAt + count * (20 + 4)
  let largeAt := offsetsAt + count * 4
  let word ← getRange idx (offsetsAt + i * 4) 4 "pack idx is shorter than its offsets"
  let word := fromBeBytes word
  if word < 2 ^ 31 then return word
  else
    let large ← getRange idx (largeAt + (word - 2 ^ 31) * 8) 8
      "pack idx is shorter than its large offsets"
    return fromBeBytes large

/-- The distance from each object, in ascending order of offset, to the next one or to the end. -/
def idxDistances (packEnd : Nat) : List (Nat × Nat) → Except String (List (Nat × Nat))
  | [] => return []
  | (i, offset) :: rest => do
    let next := match rest with
      | [] => packEnd
      | (_, next) :: _ => next
    if next < offset then throw "pack idx offset is past the end of its pack"
    else
      let distances ← idxDistances packEnd rest
      return (i, next - offset) :: distances

/-- `sizes[i] = …` for each distance. -/
def setSizes (distances : List (Nat × Nat)) (sizes : List Nat) : List Nat :=
  distances.foldl (fun sizes d => sizes.set d.1 d.2) sizes

/-- The object ids with the bytes each object takes in its pack, `packLen` long. -/
def idxObjectSizes (idx : Bytes) (packLen : Nat) : Except String (List (String × Nat)) := do
  let ids ← idxObjectIds idx
  let count := ids.length
  let offsets ← (List.range count).mapM (idxOffset idx count)
  if packLen < 20 then throw "pack is shorter than its checksum"
  else
    let order := (List.zip (List.range count) offsets).mergeSort fun a b => decide (a.2 ≤ b.2)
    let distances ← idxDistances (packLen - 20) order
    return ids.zip (setSizes distances (List.replicate count 0))

/-- Where the next object starts, or the pack's objects end. -/
def nextOffset (packEnd : Nat) (rest : List (Nat × Nat)) : Nat :=
  (rest.head?.map Prod.snd).getD packEnd

theorem idxDistances_cons (packEnd i offset : Nat) (rest : List (Nat × Nat)) :
    idxDistances packEnd ((i, offset) :: rest) =
      if nextOffset packEnd rest < offset then throw "pack idx offset is past the end of its pack"
      else do
        let distances ← idxDistances packEnd rest
        return (i, nextOffset packEnd rest - offset) :: distances := by
  cases rest <;> rfl

theorem length_setSizes (distances : List (Nat × Nat)) (sizes : List Nat) :
    (setSizes distances sizes).length = sizes.length := by
  induction distances generalizing sizes with
  | nil => rfl
  | cons d distances ih => rw [setSizes, List.foldl_cons, ← setSizes, ih, List.length_set]

/-- What `idxObjectSizes` lists are the ids of the idx, in its order. -/
theorem idxObjectSizes_ids {idx : Bytes} {packLen : Nat} {objects : List (String × Nat)}
    (h : idxObjectSizes idx packLen = .ok objects) :
    idxObjectIds idx = .ok (objects.map Prod.fst) := by
  obtain ⟨ids, hids, h⟩ := bind_eq_ok.mp h
  obtain ⟨offsets, _, h⟩ := bind_eq_ok.mp h
  obtain ⟨_, h⟩ := ite_throw_eq_ok.mp h
  obtain ⟨distances, _, h⟩ := bind_eq_ok.mp h
  rw [← pure_eq_ok.mp h, hids, List.map_fst_zip]
  rw [length_setSizes, List.length_replicate]

end Ripclone.Pack
