import Mathlib.Data.List.Induction
import Mathlib.Data.Nat.Bitwise
import Ripclone.Library.Machine
import Ripclone.Pack.Idx

/-!
# Object sizes, in machine arithmetic

`idxObjectSizes` is on numbers without a width. `idxObjectSizesChecked` is the same function with the
indexing, the slices and the arithmetic of the source, each of which can panic. None does on any bytes
(`idxObjectSizesChecked_eq`), and the sizes telescope from the smallest offset to the end of the pack
(`idxObjectSizesChecked_exact`).
-/

namespace Ripclone.Pack

open Ripclone.Library

/-! ## The source's arithmetic -/

/-- A function that can panic and that can fail. -/
abbrev Checked := ExceptT String (Except Panic)

def orFail {α : Type} (error : String) : Option α → Checked α
  | some a => return a
  | none => throw error

/-- `&&` slices only what is long enough. -/
def isIdxChecked (idx : Bytes) : Checked Bool :=
  if idxNamesAt ≤ idx.length then do
    let magic ← sliceRange idx 0 8
    return decide (magic = idxMagic)
  else return false

def idxObjectIdsChecked (idx : Bytes) : Checked (List String) := do
  if ← isIdxChecked idx then
    let word ← sliceRange idx (idxNamesAt - 4) idxNamesAt
    let stop ← addWidth 64 idxNamesAt (← mulWidth 64 (fromBeBytes word) 20)
    let names ← orFail "pack idx is shorter than its object count" (getSlice idx idxNamesAt stop)
    return (List.range (names.length / 20)).map fun i => hexEncode ((names.drop (i * 20)).take 20)
  else throw "not a version 2 pack idx"

def idxOffsetChecked (idx : Bytes) (offsetsAt largeAt i : Nat) : Checked Nat := do
  let start ← addWidth 64 offsetsAt (← mulWidth 64 i 4)
  let word ← orFail "pack idx is shorter than its offsets" (getSlice idx start (← addWidth 64 start 4))
  let word := fromBeBytes word
  if word &&& 0x80000000 = 0 then return word
  else
    let start ← addWidth 64 largeAt (← mulWidth 64 (word &&& 0x7fffffff) 8)
    let large ← orFail "pack idx is shorter than its large offsets"
      (getSlice idx start (← addWidth 64 start 8))
    return fromBeBytes large

def offsetChecked (offsets : List Nat) (i : Nat) : Checked Nat := do
  let offset ← (indexChecked offsets i : Except Panic Nat)
  return offset

/-- `map_or(end, |&j| offsets[j])`. -/
def nextChecked (offsets : List Nat) (packEnd : Nat) : Option Nat → Checked Nat
  | some j => offsetChecked offsets j
  | none => return packEnd

/-- The loop over what is left of `order`, from its `k`-th entry. -/
def sizesLoop (offsets order : List Nat) (packEnd : Nat) :
    List Nat → Nat → List Nat → Checked (List Nat)
  | [], _, sizes => return sizes
  | i :: rest, k, sizes => do
    let after ← addWidth 64 k 1
    let next ← nextChecked offsets packEnd order[after]?
    let offset ← offsetChecked offsets i
    if next < offset then throw "pack idx offset is past the end of its pack"
    else
      let sizes ← setChecked sizes i (next - offset)
      sizesLoop offsets order packEnd rest (k + 1) sizes

/-- What is done once the offsets are read. -/
def sortedSizesChecked (ids : List String) (offsets : List Nat) (packLen : Nat) :
    Checked (List (String × Nat)) :=
  let count := ids.length
  if packLen < 20 then throw "pack is shorter than its checksum"
  else do
    let keys ← (List.range count).mapM (offsetChecked offsets)
    let sorted := ((List.range count).zip keys).mergeSort fun a b => decide (a.2 ≤ b.2)
    let order := sorted.map Prod.fst
    let sizes ← sizesLoop offsets order (packLen - 20) order 0 (List.replicate count 0)
    return ids.zip sizes

def idxObjectSizesChecked (idx : Bytes) (packLen : Nat) : Checked (List (String × Nat)) := do
  let ids ← idxObjectIdsChecked idx
  let count := ids.length
  let offsetsAt ← addWidth 64 idxNamesAt (← mulWidth 64 count 24)
  let largeAt ← addWidth 64 offsetsAt (← mulWidth 64 count 4)
  let offsets ← (List.range count).mapM (idxOffsetChecked idx offsetsAt largeAt)
  sortedSizesChecked ids offsets packLen

/-! ## No panic -/

section Results

variable {α β : Type}

/-- A result without a panic. -/
def ofResult (x : Except String α) : Checked α := ExceptT.mk (.ok x)

theorem liftM_bind {x : Except Panic α} {a : α} (h : x = .ok a) (f : α → Checked β) :
    (liftM x : Checked α) >>= f = f a := by
  subst h
  rfl

/-- What follows a result is looked at for that result only. -/
theorem ofResult_bind {x : Except String α} {f : α → Except String β} {g : α → Checked β}
    (h : ∀ a, x = .ok a → g a = ofResult (f a)) : ofResult x >>= g = ofResult (x >>= f) := by
  cases x with
  | error e => rfl
  | ok a => exact h a rfl

theorem ofResult_mapM {f : α → Checked β} {g : α → Except String β} {xs : List α}
    (h : ∀ x ∈ xs, f x = ofResult (g x)) : xs.mapM f = ofResult (xs.mapM g) := by
  induction xs with
  | nil => rfl
  | cons x xs ih =>
      rw [List.mapM_cons, List.mapM_cons, h x List.mem_cons_self,
        ih fun x hx => h x (List.mem_cons_of_mem _ hx)]
      exact ofResult_bind fun y _ => ofResult_bind fun ys _ => rfl

theorem orFail_getSlice (bytes : Bytes) (start len : Nat) (error : String) :
    orFail error (getSlice bytes start (start + len)) = ofResult (getRange bytes start len error) := by
  rw [getSlice, getRange]
  by_cases h : start + len ≤ bytes.length
  · rw [if_pos ⟨Nat.le_add_right start len, h⟩, if_pos h, List.drop_take, Nat.add_sub_cancel_left]
    rfl
  · rw [if_neg fun hin => h hin.2, if_neg h]
    rfl

end Results

theorem fromBeBytes_append (front : Bytes) (last : UInt8) :
    fromBeBytes (front ++ [last]) = fromBeBytes front * 256 + last.toNat := by
  rw [fromBeBytes, List.foldl_append]
  rfl

theorem fromBeBytes_lt (bytes : Bytes) : fromBeBytes bytes < 256 ^ bytes.length := by
  induction bytes using List.reverseRecOn with
  | nil => exact Nat.one_pos
  | append_singleton front last ih =>
      have hlast : last.toNat < 256 := last.toNat_lt
      rw [fromBeBytes_append, List.length_append, List.length_singleton, Nat.pow_succ]
      omega

/-- A word is below 2 ^ 32. -/
theorem fromBeBytes_take_four (bytes : Bytes) : fromBeBytes (bytes.take 4) < 2 ^ 32 := by
  have hlen : (bytes.take 4).length ≤ 4 := by
    rw [List.length_take]
    omega
  calc fromBeBytes (bytes.take 4)
      < 256 ^ (bytes.take 4).length := fromBeBytes_lt _
    _ ≤ 256 ^ 4 := Nat.pow_le_pow_right (by decide) hlen
    _ = 2 ^ 32 := by decide

theorem isIdxChecked_eq (idx : Bytes) :
    isIdxChecked idx = pure (decide (idxNamesAt ≤ idx.length ∧ idx.take 8 = idxMagic)) := by
  unfold isIdxChecked
  by_cases hlen : idxNamesAt ≤ idx.length
  · have hslice : sliceRange idx 0 8 = .ok (idx.take 8) :=
      sliceRange_of_le (Nat.zero_le 8) (Nat.le_trans (by decide) hlen)
    rw [if_pos hlen, liftM_bind hslice]
    simp [hlen]
  · rw [if_neg hlen]
    simp [hlen]

theorem idxObjectIdsChecked_eq (idx : Bytes) :
    idxObjectIdsChecked idx = ofResult (idxObjectIds idx) := by
  unfold idxObjectIdsChecked idxObjectIds
  rw [isIdxChecked_eq, pure_bind]
  by_cases h : idxNamesAt ≤ idx.length ∧ idx.take 8 = idxMagic
  · have hslice : sliceRange idx (idxNamesAt - 4) idxNamesAt =
        .ok ((idx.drop (idxNamesAt - 4)).take 4) := by
      rw [sliceRange_of_le (Nat.sub_le _ _) h.1, List.drop_take]
      rfl
    have hcount := fromBeBytes_take_four (idx.drop (idxNamesAt - 4))
    rw [if_pos (decide_eq_true h), if_pos h, liftM_bind hslice]
    generalize fromBeBytes ((idx.drop (idxNamesAt - 4)).take 4) = count at hcount
    have hstart : idxNamesAt < 2 ^ 32 := by decide
    rw [liftM_bind (mulWidth_of_lt (by omega)), liftM_bind (addWidth_of_lt (by omega)), orFail_getSlice]
    apply ofResult_bind
    intro names hnames
    rw [length_of_getRange hnames, Nat.mul_div_cancel _ (by decide)]
    rfl
  · rw [if_neg fun hdecide => h (of_decide_eq_true hdecide), if_neg h]
    rfl

/-- The highest bit of a word tells that it points to a wide offset. -/
theorem and_wide {word : Nat} (h : word < 2 ^ 32) : word &&& 0x80000000 = 0 ↔ word < 2 ^ 31 := by
  have hbit : word &&& 0x80000000 = word / 2 ^ 31 % 2 * 2 ^ 31 := by
    rw [← Nat.toNat_testBit]
    exact Nat.and_two_pow word 31
  rw [hbit]
  omega

theorem and_index {word : Nat} (hlow : 2 ^ 31 ≤ word) (hhigh : word < 2 ^ 32) :
    word &&& 0x7fffffff = word - 2 ^ 31 := by
  have hmod : word &&& 0x7fffffff = word % 2 ^ 31 := Nat.and_two_pow_sub_one_eq_mod word 31
  rw [hmod]
  omega

/-- An offset, when the tables start where the source says. -/
theorem idxOffsetChecked_eq {idx : Bytes} {count i : Nat} (hcount : count < 2 ^ 32) (hi : i < count) :
    idxOffsetChecked idx (idxNamesAt + count * 24) (idxNamesAt + count * 24 + count * 4) i =
      ofResult (idxOffset idx count i) := by
  have hstart : idxNamesAt < 2 ^ 32 := by decide
  unfold idxOffsetChecked idxOffset
  rw [liftM_bind (mulWidth_of_lt (by omega)), liftM_bind (addWidth_of_lt (by omega)),
    liftM_bind (addWidth_of_lt (by omega)), orFail_getSlice]
  apply ofResult_bind
  intro word hword
  have hlt : fromBeBytes word < 2 ^ 32 := by
    have hbound := fromBeBytes_lt word
    rw [length_of_getRange hword] at hbound
    exact Nat.lt_of_lt_of_le hbound (by decide)
  dsimp only
  by_cases hnarrow : fromBeBytes word < 2 ^ 31
  · rw [if_pos ((and_wide hlt).mpr hnarrow), if_pos hnarrow]
    rfl
  · rw [if_neg fun h => hnarrow ((and_wide hlt).mp h), if_neg hnarrow, and_index (by omega) hlt,
      liftM_bind (mulWidth_of_lt (by omega)), liftM_bind (addWidth_of_lt (by omega)),
      liftM_bind (addWidth_of_lt (by omega)), orFail_getSlice]
    exact ofResult_bind fun large _ => rfl

section Loop

variable {offsets order sizes : List Nat} {packEnd k : Nat} {pairs : List (Nat × Nat)}

theorem offsetChecked_eq {i offset : Nat} (h : offsets[i]? = some offset) :
    offsetChecked offsets i = pure offset := by
  have hindex : indexChecked offsets i = .ok offset := by rw [indexChecked, h]
  rw [offsetChecked, hindex]
  rfl

theorem nextChecked_eq (hpairs : ∀ pair ∈ pairs, offsets[pair.1]? = some pair.2) :
    nextChecked offsets packEnd (pairs.map Prod.fst).head? = pure (nextOffset packEnd pairs) := by
  cases pairs with
  | nil => rfl
  | cons pair rest => exact offsetChecked_eq (hpairs pair List.mem_cons_self)

/-- The loop writes the distances, or fails where there is none. -/
theorem sizesLoop_eq (hrest : order.drop k = pairs.map Prod.fst)
    (hpairs : ∀ pair ∈ pairs, offsets[pair.1]? = some pair.2) (hsizes : sizes.length = offsets.length)
    (horder : order.length < 2 ^ 64) :
    sizesLoop offsets order packEnd (pairs.map Prod.fst) k sizes =
      ofResult (idxDistances packEnd pairs >>= fun distances => .ok (setSizes distances sizes)) := by
  induction pairs generalizing k sizes with
  | nil => rfl
  | cons pair rest ih =>
      obtain ⟨i, offset⟩ := pair
      have hk : k < order.length := by
        by_contra hlong
        rw [List.drop_eq_nil_of_le (by omega)] at hrest
        cases hrest
      have hafter : order.drop (k + 1) = rest.map Prod.fst := by
        rw [← List.tail_drop, hrest]
        rfl
      have hothers : ∀ pair ∈ rest, offsets[pair.1]? = some pair.2 :=
        fun pair hpair => hpairs pair (List.mem_cons_of_mem _ hpair)
      have hoffset := hpairs (i, offset) List.mem_cons_self
      obtain ⟨hi, -⟩ := List.getElem?_eq_some_iff.mp hoffset
      rw [List.map_cons, sizesLoop, liftM_bind (addWidth_of_lt (by omega)), ← List.head?_drop, hafter,
        nextChecked_eq hothers, pure_bind, offsetChecked_eq hoffset, pure_bind, idxDistances_cons]
      by_cases hpast : nextOffset packEnd rest < offset
      · rw [if_pos hpast, if_pos hpast]
        rfl
      · rw [if_neg hpast, if_neg hpast, liftM_bind (setChecked_of_lt (by rwa [hsizes])),
          ih hafter hothers (by rw [List.length_set, hsizes])]
        cases idxDistances packEnd rest <;> rfl

end Loop

/-- A word counts the objects. -/
theorem length_idxObjectIds {idx : Bytes} {ids : List String} (h : idxObjectIds idx = .ok ids) :
    ids.length < 2 ^ 32 := by
  unfold idxObjectIds at h
  split at h
  · obtain ⟨names, -, h⟩ := bind_eq_ok.mp h
    rw [← pure_eq_ok.mp h, List.length_map, List.length_range]
    exact fromBeBytes_take_four _
  · cases h

theorem length_idxOffsets {idx : Bytes} {count : Nat} {offsets : List Nat}
    (h : (List.range count).mapM (idxOffset idx count) = .ok offsets) : offsets.length = count := by
  rw [← (mapM_eq_ok.mp h).length_eq, List.length_range]

theorem map_getD_range (xs : List Nat) : (List.range xs.length).map (fun i => xs.getD i 0) = xs := by
  apply List.ext_getElem
  · rw [List.length_map, List.length_range]
  · intro i hi hi'
    rw [List.getElem_map, List.getElem_range, List.getD_eq_getElem _ _ hi']

theorem mapM_offsetChecked (offsets : List Nat) :
    (List.range offsets.length).mapM (offsetChecked offsets) = pure offsets := by
  have hpure : (List.range offsets.length).mapM (offsetChecked offsets) =
      ofResult ((List.range offsets.length).mapM fun i => pure (offsets.getD i 0)) := by
    apply ofResult_mapM
    intro i hi
    rw [List.mem_range] at hi
    rw [offsetChecked_eq (List.getElem?_eq_getElem hi), List.getD_eq_getElem _ _ hi]
    rfl
  rw [hpure, List.mapM_pure, map_getD_range]
  rfl

theorem mem_zip_range {offsets : List Nat} {pair : Nat × Nat}
    (h : pair ∈ (List.range offsets.length).zip offsets) : offsets[pair.1]? = some pair.2 := by
  obtain ⟨k, hk⟩ := List.mem_iff_getElem?.mp h
  rw [List.getElem?_zip_eq_some] at hk
  obtain ⟨hlt, hrange⟩ := List.getElem?_eq_some_iff.mp hk.1
  rw [List.getElem_range] at hrange
  rw [← hrange]
  exact hk.2

/-- The table by ascending offset, each offset with its index. -/
def sortedOffsets (offsets : List Nat) : List (Nat × Nat) :=
  ((List.range offsets.length).zip offsets).mergeSort fun a b => decide (a.2 ≤ b.2)

theorem sortedOffsets_perm (offsets : List Nat) :
    (sortedOffsets offsets).Perm ((List.range offsets.length).zip offsets) := List.mergeSort_perm _ _

theorem sortedSizesChecked_eq {ids : List String} {offsets : List Nat} (hlen : offsets.length = ids.length)
    (hcount : ids.length < 2 ^ 64) (packLen : Nat) : sortedSizesChecked ids offsets packLen =
      ofResult (if packLen < 20 then throw "pack is shorter than its checksum"
        else
          let order := (List.zip (List.range ids.length) offsets).mergeSort fun a b => decide (a.2 ≤ b.2)
          idxDistances (packLen - 20) order >>= fun distances =>
            return ids.zip (setSizes distances (List.replicate ids.length 0))) := by
  unfold sortedSizesChecked
  dsimp only
  by_cases hshort : packLen < 20
  · rw [if_pos hshort, if_pos hshort]
    rfl
  · rw [if_neg hshort, if_neg hshort, ← hlen, mapM_offsetChecked, pure_bind, ← sortedOffsets]
    have hperm := sortedOffsets_perm offsets
    have hpairs : ∀ pair ∈ sortedOffsets offsets, offsets[pair.1]? = some pair.2 :=
      fun pair hpair => mem_zip_range (hperm.mem_iff.mp hpair)
    have horder : ((sortedOffsets offsets).map Prod.fst).length < 2 ^ 64 := by
      rw [List.length_map, hperm.length_eq, List.length_zip, List.length_range]
      omega
    rw [sizesLoop_eq List.drop_zero hpairs List.length_replicate horder]
    cases idxDistances (packLen - 20) (sortedOffsets offsets) <;> rfl

/-- Nothing panics, whatever the bytes are. -/
theorem idxObjectSizesChecked_eq (idx : Bytes) (packLen : Nat) :
    idxObjectSizesChecked idx packLen = ofResult (idxObjectSizes idx packLen) := by
  unfold idxObjectSizesChecked idxObjectSizes
  rw [idxObjectIdsChecked_eq]
  apply ofResult_bind
  intro ids hids
  have hcount := length_idxObjectIds hids
  have hstart : idxNamesAt < 2 ^ 32 := by decide
  dsimp only
  rw [liftM_bind (mulWidth_of_lt (by omega)), liftM_bind (addWidth_of_lt (by omega)),
    liftM_bind (mulWidth_of_lt (by omega)), liftM_bind (addWidth_of_lt (by omega)),
    ofResult_mapM fun i hi => idxOffsetChecked_eq hcount (List.mem_range.mp hi)]
  apply ofResult_bind
  intro offsets hoffsets
  exact sortedSizesChecked_eq (length_idxOffsets hoffsets) (by omega) packLen

/-! ## What the sizes are -/

section Distances

variable {packEnd i : Nat} {pairs distances : List (Nat × Nat)} {sizes : List Nat}

theorem idxDistances_eq_ok {offset : Nat} {rest : List (Nat × Nat)}
    (h : idxDistances packEnd ((i, offset) :: rest) = .ok distances) :
    offset ≤ nextOffset packEnd rest ∧ ∃ later, idxDistances packEnd rest = .ok later ∧
      distances = (i, nextOffset packEnd rest - offset) :: later := by
  rw [idxDistances_cons] at h
  obtain ⟨hle, h⟩ := ite_throw_eq_ok.mp h
  obtain ⟨later, hlater, h⟩ := bind_eq_ok.mp h
  exact ⟨Nat.le_of_not_lt hle, later, hlater, (pure_eq_ok.mp h).symm⟩

theorem idxDistances_fst (h : idxDistances packEnd pairs = .ok distances) :
    distances.map Prod.fst = pairs.map Prod.fst := by
  induction pairs generalizing distances with
  | nil => rw [← pure_eq_ok.mp h]
  | cons pair rest ih =>
      obtain ⟨-, later, hlater, rfl⟩ := idxDistances_eq_ok h
      rw [List.map_cons, List.map_cons, ih hlater]

/-- Each distance is from an offset to the next one in the order. -/
theorem idxDistances_split {offset : Nat} {before after : List (Nat × Nat)}
    (h : idxDistances packEnd (before ++ (i, offset) :: after) = .ok distances) :
    offset ≤ nextOffset packEnd after ∧ (i, nextOffset packEnd after - offset) ∈ distances := by
  induction before generalizing distances with
  | nil =>
      obtain ⟨hle, later, -, rfl⟩ := idxDistances_eq_ok h
      exact ⟨hle, List.mem_cons_self⟩
  | cons pair before ih =>
      obtain ⟨-, later, hlater, rfl⟩ := idxDistances_eq_ok h
      obtain ⟨hle, hmem⟩ := ih hlater
      exact ⟨hle, List.mem_cons_of_mem _ hmem⟩

/-- The distances telescope. -/
theorem idxDistances_sum {offset : Nat} {rest : List (Nat × Nat)}
    (h : idxDistances packEnd ((i, offset) :: rest) = .ok distances) :
    offset + (distances.map Prod.snd).sum = packEnd := by
  induction rest generalizing i offset distances with
  | nil =>
      obtain ⟨hle, later, hlater, rfl⟩ := idxDistances_eq_ok h
      rw [← pure_eq_ok.mp hlater]
      have hnext : nextOffset packEnd [] = packEnd := rfl
      simp only [hnext, List.map_cons, List.map_nil, List.sum_cons, List.sum_nil] at hle ⊢
      omega
  | cons next rest ih =>
      obtain ⟨hle, later, hlater, rfl⟩ := idxDistances_eq_ok h
      have hsum := ih hlater
      have hnext : nextOffset packEnd (next :: rest) = next.2 := rfl
      rw [hnext] at hle ⊢
      rw [List.map_cons, List.sum_cons]
      omega

theorem setSizes_of_not_mem (h : i ∉ distances.map Prod.fst) : (setSizes distances sizes)[i]? = sizes[i]? := by
  induction distances generalizing sizes with
  | nil => rfl
  | cons d distances ih =>
      rw [List.map_cons, List.mem_cons, not_or] at h
      rw [setSizes, List.foldl_cons, ← setSizes, ih h.2, List.getElem?_set_ne (Ne.symm h.1)]

theorem setSizes_of_mem {len : Nat} (hnodup : (distances.map Prod.fst).Nodup) (h : (i, len) ∈ distances)
    (hi : i < sizes.length) : (setSizes distances sizes)[i]? = some len := by
  induction distances generalizing sizes with
  | nil => cases h
  | cons d distances ih =>
      rw [List.map_cons, List.nodup_cons] at hnodup
      rw [setSizes, List.foldl_cons, ← setSizes]
      rcases List.mem_cons.mp h with rfl | hlater
      · rw [setSizes_of_not_mem hnodup.1, List.getElem?_set_self hi]
      · exact ih hnodup.2 hlater (by rwa [List.length_set])

/-- When every size is written once, they are the distances in another order. -/
theorem sum_setSizes (h : (distances.map Prod.fst).Perm (List.range sizes.length)) :
    (setSizes distances sizes).sum = (distances.map Prod.snd).sum := by
  have hlen := length_setSizes distances sizes
  have hall := map_getD_range (setSizes distances sizes)
  rw [hlen] at hall
  have hnodup : (distances.map Prod.fst).Nodup := h.nodup_iff.mpr List.nodup_range
  have hwritten : distances.map (fun d => (setSizes distances sizes).getD d.1 0) =
      distances.map Prod.snd := by
    apply List.map_congr_left
    intro d hd
    have hlt : d.1 < sizes.length := List.mem_range.mp (h.mem_iff.mp (List.mem_map_of_mem hd))
    rw [List.getD_eq_getElem?_getD, setSizes_of_mem hnodup hd hlt]
    rfl
  calc (setSizes distances sizes).sum
      = ((List.range sizes.length).map fun i => (setSizes distances sizes).getD i 0).sum := by rw [hall]
    _ = ((distances.map Prod.fst).map fun i => (setSizes distances sizes).getD i 0).sum :=
        (h.symm.map _).sum_nat
    _ = (distances.map Prod.snd).sum := by rw [List.map_map]; exact congrArg List.sum hwritten

end Distances

/-- The sizes in the order of the offsets: from each offset to the next one in `order`, or to the end. -/
structure Telescopes (packEnd : Nat) (offsets sizes : List Nat) (order : List (Nat × Nat)) : Prop where
  perm : order.Perm ((List.range offsets.length).zip offsets)
  ascending : order.Pairwise fun a b => a.2 ≤ b.2
  distance : ∀ before i offset after, order = before ++ (i, offset) :: after →
    offset ≤ nextOffset packEnd after ∧ sizes[i]? = some (nextOffset packEnd after - offset)

/-- The least offset above one, or the end. -/
def nextLarger (packEnd : Nat) (offsets : List Nat) (offset : Nat) : Nat :=
  ((offsets.filter fun other => decide (offset < other)).min?).getD packEnd

section Order

variable {packEnd : Nat} {offsets sizes : List Nat} {order : List (Nat × Nat)}

theorem Telescopes.map_fst (h : Telescopes packEnd offsets sizes order) :
    (order.map Prod.fst).Perm (List.range offsets.length) := by
  have hmap := h.perm.map Prod.fst
  rwa [List.map_fst_zip (by rw [List.length_range])] at hmap

theorem Telescopes.map_snd (h : Telescopes packEnd offsets sizes order) :
    (order.map Prod.snd).Perm offsets := by
  have hmap := h.perm.map Prod.snd
  rwa [List.map_snd_zip (by rw [List.length_range])] at hmap

/-- An offset no other entry has is followed by the next larger one. -/
theorem Telescopes.size (h : Telescopes packEnd offsets sizes order) {i offset : Nat}
    (hi : offsets[i]? = some offset) :
    sizes[i]? = some (nextLarger packEnd offsets offset - offset) ∨
      (sizes[i]? = some 0 ∧ ∃ j, j ≠ i ∧ offsets[j]? = some offset) := by
  have hmem : (i, offset) ∈ order := by
    obtain ⟨hlt, -⟩ := List.getElem?_eq_some_iff.mp hi
    rw [h.perm.mem_iff, List.mem_iff_getElem?]
    exact ⟨i, List.getElem?_zip_eq_some.mpr ⟨List.getElem?_range hlt, hi⟩⟩
  obtain ⟨before, after, rfl⟩ := List.append_of_mem hmem
  obtain ⟨hle, hsize⟩ := h.distance before i offset after rfl
  obtain ⟨-, hrest, hcross⟩ := List.pairwise_append.mp h.ascending
  have hbefore : ∀ pair ∈ before, pair.2 ≤ offset := fun pair hpair =>
    hcross pair hpair (i, offset) List.mem_cons_self
  -- A larger offset comes after this one in the order.
  have hlarger : ∀ other ∈ offsets, offset < other → ∃ pair ∈ after, pair.2 = other := by
    intro other hother hlt
    obtain ⟨pair, hpair, rfl⟩ := List.mem_map.mp (h.map_snd.mem_iff.mpr hother)
    rcases List.mem_append.mp hpair with hpair | hpair
    · exact absurd (hbefore pair hpair) (Nat.not_le_of_lt hlt)
    · rcases List.mem_cons.mp hpair with rfl | hpair
      · exact absurd hlt (Nat.lt_irrefl _)
      · exact ⟨pair, hpair, rfl⟩
  cases after with
  | nil =>
      have hnone : offsets.filter (fun other => decide (offset < other)) = [] := by
        rw [List.filter_eq_nil_iff]
        intro other hother hlt
        obtain ⟨pair, hpair, -⟩ := hlarger other hother (of_decide_eq_true hlt)
        cases hpair
      have hnext : nextLarger packEnd offsets offset = packEnd := by
        rw [nextLarger, hnone]
        rfl
      rw [hnext]
      exact .inl hsize
  | cons next more =>
      have hnextOffset : nextOffset packEnd (next :: more) = next.2 := rfl
      rw [hnextOffset] at hle hsize
      have hafter : next ∈ before ++ (i, offset) :: next :: more :=
        List.mem_append_right _ (List.mem_cons_of_mem _ List.mem_cons_self)
      by_cases hsame : next.2 = offset
      · refine .inr ⟨by rw [hsize, hsame, Nat.sub_self], next.1, ?_, ?_⟩
        · have hnodup : ((before ++ (i, offset) :: next :: more).map Prod.fst).Nodup :=
            h.map_fst.nodup_iff.mpr List.nodup_range
          rw [List.map_append, List.nodup_append] at hnodup
          have hne := (List.nodup_cons.mp hnodup.2.1).1
          rintro heq
          exact hne (heq ▸ List.mem_cons_self)
        · rw [← hsame]
          exact mem_zip_range (h.perm.mem_iff.mp hafter)
      · have hmin : (offsets.filter fun other => decide (offset < other)).min? = some next.2 := by
          rw [List.min?_eq_some_iff]
          constructor
          · rw [List.mem_filter]
            exact ⟨h.map_snd.mem_iff.mp (List.mem_map_of_mem hafter), decide_eq_true (by omega)⟩
          · intro other hother
            obtain ⟨hother, hlt⟩ := List.mem_filter.mp hother
            obtain ⟨pair, hpair, rfl⟩ := hlarger other hother (of_decide_eq_true hlt)
            rcases List.mem_cons.mp hpair with rfl | hpair
            · exact Nat.le_refl _
            · exact (List.pairwise_cons.mp (List.pairwise_cons.mp hrest).2).1 pair hpair
        have hnext : nextLarger packEnd offsets offset = next.2 := by
          rw [nextLarger, hmin]
          rfl
        rw [hnext]
        exact .inl hsize

theorem sortedOffsets_ascending (offsets : List Nat) :
    (sortedOffsets offsets).Pairwise fun a b => a.2 ≤ b.2 := by
  have hsorted : (sortedOffsets offsets).Pairwise fun a b => decide (a.2 ≤ b.2) = true := by
    apply List.pairwise_mergeSort
    · intro a b c hab hbc
      simp only [decide_eq_true_eq] at hab hbc ⊢
      exact Nat.le_trans hab hbc
    · intro a b
      simp only [Bool.or_eq_true, decide_eq_true_eq]
      exact Nat.le_total a.2 b.2
  exact hsorted.imp fun h => of_decide_eq_true h

/-- The sizes the distances are written to. -/
theorem telescopes_setSizes {distances : List (Nat × Nat)}
    (h : idxDistances packEnd (sortedOffsets offsets) = .ok distances) :
    Telescopes packEnd offsets (setSizes distances (List.replicate offsets.length 0))
      (sortedOffsets offsets) := by
  have hperm := sortedOffsets_perm offsets
  have hfst : (distances.map Prod.fst).Perm (List.range offsets.length) := by
    have hmap := hperm.map Prod.fst
    rwa [List.map_fst_zip (by rw [List.length_range]), ← idxDistances_fst h] at hmap
  refine ⟨hperm, sortedOffsets_ascending offsets, ?_⟩
  intro before i offset after hsplit
  rw [hsplit] at h
  obtain ⟨hle, hmem⟩ := idxDistances_split h
  have hi := List.mem_range.mp (hfst.mem_iff.mp (List.mem_map_of_mem hmem))
  exact ⟨hle, setSizes_of_mem (hfst.nodup_iff.mpr List.nodup_range) hmem (by rwa [List.length_replicate])⟩

theorem sum_sizes {distances : List (Nat × Nat)} {smallest : Nat}
    (h : idxDistances packEnd (sortedOffsets offsets) = .ok distances)
    (hsmallest : offsets.min? = some smallest) : smallest ≤ packEnd ∧
      (setSizes distances (List.replicate offsets.length 0)).sum = packEnd - smallest := by
  have htelescopes := telescopes_setSizes h
  have hfst := htelescopes.map_fst
  rw [← idxDistances_fst h] at hfst
  rw [List.min?_eq_some_iff] at hsmallest
  obtain ⟨pair, hpair, hmin⟩ := List.mem_map.mp (htelescopes.map_snd.mem_iff.mpr hsmallest.1)
  cases horder : sortedOffsets offsets with
  | nil =>
      rw [horder] at hpair
      cases hpair
  | cons first rest =>
      have hascending := htelescopes.ascending
      rw [horder] at h hpair hascending
      have hfirst : first.2 = smallest := by
        have hge : smallest ≤ first.2 := by
          apply hsmallest.2
          rw [← htelescopes.map_snd.mem_iff, horder]
          exact List.mem_cons_self
        rcases List.mem_cons.mp hpair with rfl | hpair
        · exact hmin
        · have hle := (List.pairwise_cons.mp hascending).1 pair hpair
          omega
      have hsum := idxDistances_sum h
      rw [sum_setSizes (by rwa [List.length_replicate]), ← hfirst]
      omega

end Order

/-- Nothing panics. The sizes of what is read telescope over the table of offsets: each is the distance to
the next offset in ascending order, which is the next larger one where no other entry has the same offset.
Together they are what lies between the smallest offset and the checksum. -/
theorem idxObjectSizesChecked_exact (idx : Bytes) (packLen : Nat) :
    (idxObjectSizesChecked idx packLen).run = .ok (idxObjectSizes idx packLen) ∧
    ∀ objects, idxObjectSizes idx packLen = .ok objects →
      let packEnd := packLen - 20
      let sizes := objects.map Prod.snd
      20 ≤ packLen ∧ ∃ offsets order,
        (List.range objects.length).mapM (idxOffset idx objects.length) = .ok offsets ∧
        Telescopes packEnd offsets sizes order ∧
        (∀ (i offset : Nat), offsets[i]? = some offset →
          sizes[i]? = some (nextLarger packEnd offsets offset - offset) ∨
            (sizes[i]? = some 0 ∧ ∃ j, j ≠ i ∧ offsets[j]? = some offset)) ∧
        ∀ smallest, offsets.min? = some smallest →
          smallest ≤ packEnd ∧ sizes.sum = packEnd - smallest := by
  refine ⟨congrArg ExceptT.run (idxObjectSizesChecked_eq idx packLen), ?_⟩
  intro objects h packEnd sizes
  obtain ⟨ids, -, h⟩ := bind_eq_ok.mp h
  obtain ⟨offsets, hoffsets, h⟩ := bind_eq_ok.mp h
  obtain ⟨hlong, h⟩ := ite_throw_eq_ok.mp h
  obtain ⟨distances, hdistances, h⟩ := bind_eq_ok.mp h
  have hcount : ids.length = offsets.length := (length_idxOffsets hoffsets).symm
  rw [hcount] at hoffsets hdistances h
  have hsizes : sizes = setSizes distances (List.replicate offsets.length 0) := by
    rw [show sizes = objects.map Prod.snd from rfl, ← pure_eq_ok.mp h, List.map_snd_zip]
    rw [length_setSizes, List.length_replicate, hcount]
  have hlen : objects.length = offsets.length := by
    rw [← List.length_map (f := Prod.snd), show objects.map Prod.snd = sizes from rfl, hsizes,
      length_setSizes, List.length_replicate]
  have htelescopes := telescopes_setSizes hdistances
  rw [hlen, hsizes]
  exact ⟨Nat.le_of_not_lt hlong, offsets, sortedOffsets offsets, hoffsets, htelescopes,
    fun i offset hi => htelescopes.size hi, fun smallest hsmallest => sum_sizes hdistances hsmallest⟩

section SharedOffset

/-- An idx of two objects that both start at byte 12. -/
def sharedIdx : Bytes :=
  idxMagic ++ List.replicate 1020 0 ++ [0, 0, 0, 2] ++ List.replicate 20 1 ++ List.replicate 20 2 ++
    List.replicate 8 0 ++ [0, 0, 0, 12, 0, 0, 0, 12]

def sharedSizes : List (String × Nat) :=
  [("0101010101010101010101010101010101010101", 0), ("0202020202020202020202020202020202020202", 8)]

set_option maxRecDepth 10000 in
theorem sharedIdx_ids : idxObjectIds sharedIdx = .ok (sharedSizes.map Prod.fst) := by
  decide

set_option maxRecDepth 10000 in
theorem sharedIdx_offsets : (List.range 2).mapM (idxOffset sharedIdx 2) = .ok [12, 12] := by
  decide

theorem sharedIdx_sizes : idxObjectSizes sharedIdx 40 = .ok sharedSizes := by
  have hsorted : sortedOffsets [12, 12] = [(0, 12), (1, 12)] := List.mergeSort_of_pairwise (by decide)
  have hdistances : idxDistances 20 (sortedOffsets [12, 12]) = .ok [(0, 0), (1, 8)] := by
    rw [hsorted]
    rfl
  exact bind_eq_ok.mpr ⟨_, sharedIdx_ids, bind_eq_ok.mpr ⟨_, sharedIdx_offsets,
    ite_throw_eq_ok.mpr ⟨by decide, bind_eq_ok.mpr ⟨_, hdistances, rfl⟩⟩⟩⟩

theorem sharedIdx_sum : idxObjectSizes sharedIdx 40 = .ok sharedSizes ∧
    (sharedSizes.map Prod.snd).sum = 40 - 20 - 12 := by
  refine ⟨sharedIdx_sizes, ?_⟩
  obtain ⟨-, offsets, order, hoffsets, -, -, hsum⟩ :=
    (idxObjectSizesChecked_exact sharedIdx 40).2 sharedSizes sharedIdx_sizes
  obtain rfl : [12, 12] = offsets := Except.ok.inj (sharedIdx_offsets.symm.trans hoffsets)
  exact (hsum 12 rfl).2

end SharedOffset

end Ripclone.Pack
