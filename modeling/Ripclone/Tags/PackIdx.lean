import Mathlib.Algebra.Order.BigOperators.Group.List
import Ripclone.Tags.Pack

/-!
# What the readers get back

The idx lists the ids, the offset of each object and the fanout, and the pack has the objects at these
offsets, as long as the table of wide offsets has no more entries than a word can point to.
-/

namespace Ripclone.Tags

open Ripclone.Library Ripclone.Pack

variable {digests : Digests} {objects : List (Id × Bytes)}

/-! ## Fanout -/

/-- The first byte of an object's id. -/
def firstByte (object : Id × Bytes) : Nat := (object.1.1.headD 0).toNat

theorem sum_take_modify {slots : List Nat} {b : Nat} (hb : b < slots.length) (m : Nat) :
    ((slots.modify b (· + 1)).take m).sum = (slots.take m).sum + if b < m then 1 else 0 := by
  induction slots generalizing b m with
  | nil => cases hb
  | cons slot slots ih =>
      cases m with
      | zero => simp
      | succ m =>
          cases b with
          | zero =>
              simp only [List.modify_zero_cons, List.take_succ_cons, List.sum_cons]
              rw [if_pos (Nat.succ_pos _)]
              omega
          | succ b =>
              rw [List.length_cons] at hb
              simp only [List.modify_succ_cons, List.take_succ_cons, List.sum_cons,
                ih (Nat.lt_of_succ_lt_succ hb), Nat.add_lt_add_iff_right, Nat.add_assoc]

theorem firstByte_lt (object : Id × Bytes) : firstByte object < 256 := UInt8.toNat_lt _

theorem sum_take_fanout (objects : List (Id × Bytes)) (m : Nat) :
    (fanout objects).length = 256 ∧
      ((fanout objects).take m).sum = objects.countP fun object => decide (firstByte object < m) := by
  have hfold : ∀ (objects : List (Id × Bytes)) (slots : List Nat), slots.length = 256 →
      (objects.foldl (fun slots object => slots.modify (firstByte object) (· + 1)) slots).length =
        256 ∧
      ((objects.foldl (fun slots object => slots.modify (firstByte object) (· + 1)) slots).take
        m).sum = (slots.take m).sum + objects.countP fun object => decide (firstByte object < m) := by
    intro objects
    induction objects with
    | nil => exact fun slots hslots => ⟨hslots, rfl⟩
    | cons object objects ih =>
        intro slots hslots
        obtain ⟨hlen, hsum⟩ := ih (slots.modify (firstByte object) (· + 1))
          (by rw [List.length_modify, hslots])
        refine ⟨hlen, ?_⟩
        rw [List.foldl_cons, hsum, sum_take_modify (hslots ▸ firstByte_lt object), List.countP_cons]
        simp only [decide_eq_true_eq]
        omega
  obtain ⟨hlen, hsum⟩ := hfold objects (List.replicate 256 0) (List.length_replicate ..)
  refine ⟨hlen, ?_⟩
  have hzero : ((List.replicate 256 0).take m).sum = 0 := by
    rw [List.take_replicate, List.sum_replicate_nat, Nat.mul_zero]
  rw [hzero, Nat.zero_add] at hsum
  exact hsum

theorem getElem?_runningTotals {total k : Nat} {slots : List Nat} (hk : k < slots.length) :
    (runningTotals total slots)[k]? = some (total + (slots.take (k + 1)).sum) := by
  induction slots generalizing total k with
  | nil => cases hk
  | cons slot slots ih =>
      cases k with
      | zero => simp [runningTotals]
      | succ k =>
          rw [runningTotals, List.getElem?_cons_succ, ih (Nat.lt_of_succ_lt_succ hk),
            List.take_succ_cons, List.sum_cons, Nat.add_assoc]

theorem length_runningTotals (total : Nat) (slots : List Nat) :
    (runningTotals total slots).length = slots.length := by
  induction slots generalizing total with
  | nil => rfl
  | cons slot slots ih => rw [runningTotals, List.length_cons, ih, List.length_cons]

/-- The fanout's totals are the counts of the ids up to each first byte. -/
theorem fanout_totals {k : Nat} (hk : k < 256) :
    (runningTotals 0 (fanout objects))[k]? =
      some (objects.countP fun object => decide (firstByte object ≤ k)) := by
  obtain ⟨hlen, hsum⟩ := sum_take_fanout objects (k + 1)
  rw [getElem?_runningTotals (hlen.symm ▸ hk), hsum, Nat.zero_add]
  simp only [Nat.lt_succ_iff]

/-! ## Offset words -/

/-- Offsets that do not fit in a word. -/
def isLarge (offset : Nat) : Bool := decide (2 ^ 31 ≤ offset)

/-- The words, the first wide offset the `k`th of its table. -/
def wordsFrom : Nat → List Nat → List Nat
  | _, [] => []
  | k, offset :: rest =>
    if isLarge offset then (2 ^ 31 ||| k) :: wordsFrom (k + 1) rest else offset :: wordsFrom k rest

theorem offsetWords_ok {large offsets : List Nat} (h : large.length + offsets.length < 2 ^ 32) :
    offsetWords large offsets =
      .ok (wordsFrom large.length offsets, large ++ offsets.filter isLarge) := by
  induction offsets generalizing large with
  | nil => rw [List.filter_nil, List.append_nil]; rfl
  | cons offset rest ih =>
      rw [List.length_cons] at h
      by_cases hlarge : offset < 2 ^ 31
      · have hnot : isLarge offset = false := decide_eq_false (Nat.not_le.mpr hlarge)
        rw [offsetWords, if_pos hlarge, ih (by omega), wordsFrom, hnot,
          List.filter_cons_of_neg (by rw [hnot]; decide)]
        rfl
      · have hyes : isLarge offset = true := decide_eq_true (Nat.not_lt.mp hlarge)
        have hlen : (large ++ [offset]).length = large.length + 1 := by simp
        rw [offsetWords, if_neg hlarge]
        dsimp only
        rw [hlen, Nat.add_sub_cancel, if_neg (by omega), ih (by rw [hlen]; omega), hlen, wordsFrom,
          hyes, List.filter_cons_of_pos hyes, List.append_assoc]
        rfl

/-- How many wide offsets there are before the `i`th. -/
def rank (offsets : List Nat) (i : Nat) : Nat := (offsets.take i).countP isLarge

theorem length_wordsFrom (k : Nat) (offsets : List Nat) :
    (wordsFrom k offsets).length = offsets.length := by
  induction offsets generalizing k with
  | nil => rfl
  | cons offset rest ih =>
      rw [wordsFrom]
      split <;> rw [List.length_cons, ih, List.length_cons]

theorem getElem?_wordsFrom {k i offset : Nat} {offsets : List Nat} (h : offsets[i]? = some offset) :
    (wordsFrom k offsets)[i]? =
      some (if isLarge offset then 2 ^ 31 ||| (k + rank offsets i) else offset) := by
  induction offsets generalizing k i with
  | nil => cases h
  | cons first rest ih =>
      cases i with
      | zero =>
          obtain rfl := Option.some.inj h
          rw [wordsFrom]
          split <;> rfl
      | succ i =>
          rw [rank, List.take_succ_cons, List.countP_cons, wordsFrom]
          split
          · rw [List.getElem?_cons_succ, ih h, rank, Nat.add_assoc, Nat.add_comm 1]
          · rw [List.getElem?_cons_succ, ih h, rank, Nat.add_zero]

/-- The wide offsets stand in their table in order. -/
theorem getElem?_filter_rank {i offset : Nat} {offsets : List Nat} (h : offsets[i]? = some offset)
    (hlarge : isLarge offset = true) : (offsets.filter isLarge)[rank offsets i]? = some offset := by
  induction offsets generalizing i with
  | nil => cases h
  | cons first rest ih =>
      cases i with
      | zero =>
          obtain rfl := Option.some.inj h
          rw [List.filter_cons_of_pos hlarge]
          rfl
      | succ i =>
          rw [rank, List.take_succ_cons, List.countP_cons, List.filter_cons]
          split
          · rw [List.getElem?_cons_succ]
            exact ih h
          · rw [Nat.add_zero]
            exact ih h

theorem exists_of_rank {r : Nat} {offsets : List Nat} (hr : r < (offsets.filter isLarge).length) :
    ∃ i offset, offsets[i]? = some offset ∧ isLarge offset = true ∧ rank offsets i = r := by
  induction offsets generalizing r with
  | nil => cases hr
  | cons first rest ih =>
      rw [List.filter_cons] at hr
      split at hr
      · next hlarge =>
          cases r with
          | zero => exact ⟨0, first, rfl, hlarge, rfl⟩
          | succ r =>
              obtain ⟨i, offset, hi, hoffset, hrank⟩ := ih (Nat.lt_of_succ_lt_succ hr)
              refine ⟨i + 1, offset, hi, hoffset, ?_⟩
              rw [rank, List.take_succ_cons, List.countP_cons, if_pos hlarge, ← rank, hrank]
      · next hsmall =>
          obtain ⟨i, offset, hi, hoffset, hrank⟩ := ih hr
          refine ⟨i + 1, offset, hi, hoffset, ?_⟩
          rw [rank, List.take_succ_cons, List.countP_cons, if_neg hsmall, ← rank, hrank, Nat.add_zero]

/-! ## Reading the idx -/

/-- An entry of a table in the middle of a file. -/
theorem getRange_table {α : Type} {f : α → Bytes} {width : Nat} (hwidth : ∀ x, (f x).length = width)
    {front back : Bytes} {xs : List α} {i : Nat} {x : α} (h : xs[i]? = some x) (error : String) :
    getRange (front ++ (xs.flatMap f ++ back)) (front.length + i * width) width error =
      .ok (f x) := by
  have hi : i < xs.length := (List.getElem?_eq_some_iff.mp h).1
  have hle : (i + 1) * width ≤ xs.length * width := Nat.mul_le_mul_right _ hi
  rw [Nat.succ_mul] at hle
  have hlen := length_flatMap_width hwidth xs
  rw [getRange, if_pos, ← List.drop_drop, List.drop_left, List.drop_append_of_le_length (by omega),
    List.take_append_of_le_length, take_drop_flatMap hwidth h]
  · rw [List.length_drop]
    omega
  · rw [List.length_append, List.length_append]
    omega

/-- The parts of an idx file, from its front to its end. -/
structure IdxParts (objects : List (Id × Bytes)) (words large : List Nat) (idx : Bytes) : Prop where
  parts : ∃ (crc : Id × Bytes → Bytes) (back : Bytes), (∀ object, (crc object).length = 4) ∧
    40 ≤ back.length ∧
    idx = idxMagic ++ ((runningTotals 0 (fanout objects)).flatMap (beBytes 4) ++
      (objects.flatMap (fun object => object.1.1) ++ (objects.flatMap crc ++
        (words.flatMap (beBytes 4) ++ (large.flatMap (beBytes 8) ++ back)))))

section Reading

variable {words large : List Nat} {idx : Bytes}

theorem length_totals : ((runningTotals 0 (fanout objects)).flatMap (beBytes 4)).length = 1024 := by
  rw [length_flatMap_width (length_beBytes 4), length_runningTotals, (sum_take_fanout objects 0).1]

theorem length_ids : (objects.flatMap fun object => object.1.1).length = objects.length * 20 :=
  length_flatMap_width (fun object : Id × Bytes => object.1.2) objects

/-- Every word of the fanout is a total. -/
theorem IdxParts.fanout (h : IdxParts objects words large idx) {k : Nat} (hk : k < 256)
    (error : String) : getRange idx (8 + k * 4) 4 error =
      .ok (beBytes 4 (objects.countP fun object => decide (firstByte object ≤ k))) := by
  obtain ⟨crc, back, _, _, rfl⟩ := h.parts
  exact getRange_table (length_beBytes 4) (fanout_totals hk) error

theorem IdxParts.length (h : IdxParts objects words large idx) :
    idxNamesAt + objects.length * 20 ≤ idx.length := by
  obtain ⟨crc, back, _, _, rfl⟩ := h.parts
  have hmagic : idxMagic.length = 8 := rfl
  simp only [List.length_append, length_totals, length_ids, hmagic, idxNamesAt]
  omega

/-- The ids are read back in order. -/
theorem IdxParts.ids (h : IdxParts objects words large idx) (hcount : objects.length < 2 ^ 32) :
    idxObjectIds idx = .ok (objects.map fun object => hexEncode object.1.1) := by
  have hall : (objects.countP fun object => decide (firstByte object ≤ 255)) = objects.length := by
    rw [List.countP_eq_length]
    intro object _
    exact decide_eq_true (Nat.le_of_lt_succ (firstByte_lt object))
  have hlast : fromBeBytes ((idx.drop (idxNamesAt - 4)).take 4) = objects.length := by
    have hread := getRange_eq_ok (h.fanout (show 255 < 256 by decide) "")
    rw [hall] at hread
    rw [show idxNamesAt - 4 = 8 + 255 * 4 from rfl, hread]
    exact ofBe_beBytes hcount
  have hlength := h.length
  obtain ⟨crc, back, _, _, hidx⟩ := h.parts
  have hmagic : idx.take 8 = idxMagic := by
    rw [hidx]
    exact List.take_left' rfl
  have hnames : (idx.drop idxNamesAt).take (objects.length * 20) =
      objects.flatMap fun object => object.1.1 := by
    rw [show idxNamesAt = idxMagic.length + 1024 from rfl, hidx, ← List.drop_drop, List.drop_left,
      ← @length_totals objects, List.drop_left, ← @length_ids objects,
      List.take_left]
  rw [idxObjectIds, if_pos ⟨by omega, hmagic⟩]
  dsimp only
  rw [hlast, getRange, if_pos hlength, hnames]
  refine congrArg Except.ok (List.ext_getElem (by simp) fun i hi _ => ?_)
  have hobject : i < objects.length := by simpa using hi
  rw [List.getElem_map, List.getElem_range, List.getElem_map,
    take_drop_flatMap (fun object : Id × Bytes => object.1.2) (List.getElem?_eq_getElem hobject)]

/-- An offset word is read, and a wide one is followed. -/
theorem IdxParts.offset (h : IdxParts objects words large idx) {i word : Nat} (hi : words[i]? = some word) (hword : word < 2 ^ 32) :
    idxOffset idx objects.length i =
      if word < 2 ^ 31 then .ok word
      else (getRange idx (idxNamesAt + objects.length * (20 + 4) + objects.length * 4 +
        (word - 2 ^ 31) * 8) 8 "pack idx is shorter than its large offsets").map fromBeBytes := by
  obtain ⟨crc, back, hcrc, _, hidx⟩ := h.parts
  let front := idxMagic ++ (runningTotals 0 (Tags.fanout objects)).flatMap (beBytes 4) ++
    objects.flatMap (fun object => object.1.1) ++ objects.flatMap crc
  have hfront : front.length = idxNamesAt + objects.length * (20 + 4) := by
    have hmagic : idxMagic.length = 8 := rfl
    simp only [front, List.length_append, length_totals, length_ids, hmagic, idxNamesAt,
      length_flatMap_width hcrc]
    omega
  have hsplit : idx = front ++ (words.flatMap (beBytes 4) ++ (large.flatMap (beBytes 8) ++ back)) := by
    simp only [hidx, front, List.append_assoc]
  have hread : getRange idx (idxNamesAt + objects.length * (20 + 4) + i * 4) 4
      "pack idx is shorter than its offsets" = .ok (beBytes 4 word) := by
    rw [hsplit, ← hfront]
    exact getRange_table (length_beBytes 4) hi _
  have hvalue : fromBeBytes (beBytes 4 word) = word := ofBe_beBytes hword
  rw [idxOffset]
  dsimp only
  rw [hread]
  show (if fromBeBytes (beBytes 4 word) < 2 ^ 31 then _ else _) = _
  rw [hvalue]
  split
  · rfl
  · cases getRange idx (idxNamesAt + objects.length * (20 + 4) + objects.length * 4 +
      (word - 2 ^ 31) * 8) 8 "pack idx is shorter than its large offsets" <;> rfl

/-- An entry of the table of wide offsets. -/
theorem IdxParts.largeOffset (h : IdxParts objects words large idx)
    (hwords : words.length = objects.length) {j offset : Nat} (hj : large[j]? = some offset)
    (hoffset : offset < 2 ^ 64) (error : String) :
    (getRange idx (idxNamesAt + objects.length * (20 + 4) + objects.length * 4 + j * 8) 8
      error).map fromBeBytes = .ok offset := by
  obtain ⟨crc, back, hcrc, _, hidx⟩ := h.parts
  let front := idxMagic ++ (runningTotals 0 (Tags.fanout objects)).flatMap (beBytes 4) ++
    objects.flatMap (fun object => object.1.1) ++ objects.flatMap crc ++ words.flatMap (beBytes 4)
  have hfront : front.length =
      idxNamesAt + objects.length * (20 + 4) + objects.length * 4 := by
    have hmagic : idxMagic.length = 8 := rfl
    simp only [front, List.length_append, length_ids, hmagic, idxNamesAt, length_runningTotals,
      (sum_take_fanout objects 0).1, length_flatMap_width hcrc,
      length_flatMap_width (length_beBytes 4), hwords]
    omega
  have hsplit : idx = front ++ (large.flatMap (beBytes 8) ++ back) := by
    simp only [hidx, front, List.append_assoc]
  rw [hsplit, ← hfront, getRange_table (length_beBytes 8) hj]
  exact congrArg Except.ok (ofBe_beBytes hoffset)

end Reading

/-! ## Starts and sizes -/

/-- The bytes each object takes. -/
def objectLens (objects : List (Id × Bytes)) : List Nat :=
  objects.map fun object => (packObject object.2).length

theorem length_packObject (data : Bytes) : data.length + 12 ≤ (packObject data).length := by
  have hstream := length_storedZlib data
  have hheader : 0 < (objHeader data.length).length := by
    rw [objHeader, sizeBytes]
    split <;> exact Nat.succ_pos _
  rw [packObject, List.length_append]
  omega

theorem packObject_pos (data : Bytes) : 0 < (packObject data).length :=
  Nat.lt_of_lt_of_le (Nat.succ_pos _) (length_packObject data)

theorem length_startsFrom (start : Nat) (objects : List (Id × Bytes)) :
    (startsFrom start objects).length = objects.length := by
  induction objects generalizing start with
  | nil => rfl
  | cons object rest ih => rw [startsFrom, List.length_cons, ih, List.length_cons]

/-- An object is in the pack where it starts. -/
theorem drop_startsFrom {front back : Bytes} {i : Nat} {object : Id × Bytes}
    (h : objects[i]? = some object) :
    ∃ offset after, (startsFrom front.length objects)[i]? = some offset ∧
      (front ++ (objects.flatMap (fun object => packObject object.2) ++ back)).drop offset =
        packObject object.2 ++ after := by
  induction objects generalizing front i with
  | nil => cases h
  | cons first rest ih =>
      cases i with
      | zero =>
          obtain rfl := Option.some.inj h
          refine ⟨front.length, rest.flatMap (fun object => packObject object.2) ++ back, rfl, ?_⟩
          rw [List.drop_left, List.flatMap_cons, List.append_assoc]
      | succ i =>
          obtain ⟨offset, after, hoffset, hdrop⟩ := @ih (front ++ packObject first.2) i h
          refine ⟨offset, after, ?_, ?_⟩
          · rw [List.length_append] at hoffset
            exact hoffset
          · rw [List.flatMap_cons, ← hdrop]
            simp only [List.append_assoc]

theorem startsFrom_pairwise (start : Nat) (objects : List (Id × Bytes)) :
    (∀ offset ∈ startsFrom start objects, start ≤ offset) ∧
      (startsFrom start objects).Pairwise (· < ·) := by
  induction objects generalizing start with
  | nil => exact ⟨by simp [startsFrom], .nil⟩
  | cons object rest ih =>
      obtain ⟨hle, hpairwise⟩ := ih (start + (packObject object.2).length)
      have hpos := packObject_pos object.2
      refine ⟨List.forall_mem_cons.mpr ⟨Nat.le_refl _, ?_⟩, List.Pairwise.cons ?_ hpairwise⟩
      · intro offset hoffset
        exact Nat.le_trans (Nat.le_add_right _ _) (hle offset hoffset)
      · intro offset hoffset
        have := hle offset hoffset
        omega

theorem mem_startsFrom_lt {start offset : Nat} (h : offset ∈ startsFrom start objects) :
    offset < start + (objectLens objects).sum := by
  induction objects generalizing start with
  | nil => cases h
  | cons object rest ih =>
      have hpos := packObject_pos object.2
      rw [objectLens, List.map_cons, List.sum_cons, ← objectLens]
      rcases List.mem_cons.mp h with rfl | h
      · omega
      · have := ih h
        omega

/-- From one start to the next is the object. -/
theorem idxDistances_startsFrom (start k : Nat) (objects : List (Id × Bytes)) :
    idxDistances (start + (objectLens objects).sum)
        ((List.range' k objects.length).zip (startsFrom start objects)) =
      .ok ((List.range' k objects.length).zip (objectLens objects)) := by
  induction objects generalizing start k with
  | nil => rfl
  | cons object rest ih =>
      have hsum : start + (objectLens (object :: rest)).sum =
          start + (packObject object.2).length + (objectLens rest).sum := by
        rw [objectLens, List.map_cons, List.sum_cons, ← objectLens, Nat.add_assoc]
      have hrest := ih (start + (packObject object.2).length) (k + 1)
      rw [hsum, List.length_cons, List.range'_succ, startsFrom, List.zip_cons_cons,
        idxDistances_cons]
      have hnext : nextOffset (start + (packObject object.2).length + (objectLens rest).sum)
          ((List.range' (k + 1) rest.length).zip
            (startsFrom (start + (packObject object.2).length) rest)) =
          start + (packObject object.2).length := by
        cases rest with
        | nil => rfl
        | cons next rest => rfl
      rw [hnext, if_neg (Nat.not_lt.mpr (Nat.le_add_right _ _)), Nat.add_sub_cancel_left, hrest]
      rfl

theorem setSizes_zip {lens front : List Nat} :
    setSizes ((List.range' front.length lens.length).zip lens)
      (front ++ List.replicate lens.length 0) = front ++ lens := by
  induction lens generalizing front with
  | nil => rfl
  | cons len lens ih =>
      rw [List.length_cons, List.range'_succ, List.zip_cons_cons, setSizes, List.foldl_cons,
        ← setSizes, List.replicate_succ, List.set_append_right _ _ (Nat.le_refl _), Nat.sub_self,
        List.set_cons_zero]
      have hnext := @ih (front ++ [len])
      rw [List.length_append, List.length_singleton, List.append_assoc, List.append_assoc] at hnext
      exact hnext

/-- The sizes are read back when the offsets are. -/
theorem idxObjectSizes_starts {idx : Bytes} {ids : List String} {packLen : Nat}
    (hids : idxObjectIds idx = .ok ids) (hlen : ids.length = objects.length)
    (hoffsets : (List.range objects.length).mapM (idxOffset idx objects.length) =
      .ok (starts objects)) (hpack : packLen = 12 + (objectLens objects).sum + 20) :
    idxObjectSizes idx packLen = .ok (ids.zip (objectLens objects)) := by
  have hsorted : (List.zip (List.range objects.length) (starts objects)).mergeSort
      (fun a b => decide (a.2 ≤ b.2)) = List.zip (List.range objects.length) (starts objects) := by
    refine List.mergeSort_of_pairwise ?_
    have hmap : ((List.range objects.length).zip (starts objects)).map Prod.snd = starts objects :=
      List.map_snd_zip (by rw [starts, length_startsFrom, List.length_range])
    have hpairwise := (startsFrom_pairwise 12 objects).2
    rw [← starts, ← hmap, List.pairwise_map] at hpairwise
    exact hpairwise.imp fun h => decide_eq_true (Nat.le_of_lt h)
  have hdistances := idxDistances_startsFrom 12 0 objects
  rw [← List.range_eq_range', ← starts] at hdistances
  have hsizes := @setSizes_zip (objectLens objects) []
  rw [objectLens, List.length_map, ← objectLens, List.length_nil, List.nil_append, List.nil_append,
    ← List.range_eq_range'] at hsizes
  rw [idxObjectSizes, hids]
  show (do
    let offsets ← (List.range ids.length).mapM (idxOffset idx ids.length)
    if packLen < 20 then throw "pack is shorter than its checksum"
    else
      let order := (List.zip (List.range ids.length) offsets).mergeSort fun a b => decide (a.2 ≤ b.2)
      let distances ← idxDistances (packLen - 20) order
      return ids.zip (setSizes distances (List.replicate ids.length 0))) = _
  rw [hlen, hoffsets]
  show (if packLen < 20 then _ else _) = _
  rw [if_neg (by omega), hsorted, hpack, Nat.add_sub_cancel, hdistances]
  show Except.ok (ids.zip (setSizes _ _)) = _
  rw [hsizes]

/-! ## Offsets that are read twice -/

theorem getElem?_setSizes_of_not_mem {distances : List (Nat × Nat)} {sizes : List Nat} {i : Nat}
    (h : i ∉ distances.map Prod.fst) : (setSizes distances sizes)[i]? = sizes[i]? := by
  induction distances generalizing sizes with
  | nil => rfl
  | cons d distances ih =>
      rw [List.map_cons, List.mem_cons, not_or] at h
      rw [setSizes, List.foldl_cons, ← setSizes, ih h.2, List.getElem?_set_ne (Ne.symm h.1)]

theorem getElem?_setSizes {distances : List (Nat × Nat)} {sizes : List Nat}
    (hnodup : (distances.map Prod.fst).Nodup) {i d : Nat} (hmem : (i, d) ∈ distances)
    (hi : i < sizes.length) : (setSizes distances sizes)[i]? = some d := by
  induction distances generalizing sizes with
  | nil => cases hmem
  | cons first distances ih =>
      rw [List.map_cons, List.nodup_cons] at hnodup
      rw [setSizes, List.foldl_cons, ← setSizes]
      rcases List.mem_cons.mp hmem with rfl | hmem
      · rw [getElem?_setSizes_of_not_mem hnodup.1, List.getElem?_set_self hi]
      · exact ih hnodup.2 hmem (by rwa [List.length_set])

/-- Between objects that all take some bytes the offsets grow. -/
theorem pairwise_of_distances {packEnd : Nat} {order distances : List (Nat × Nat)}
    (h : idxDistances packEnd order = .ok distances) :
    distances.map Prod.fst = order.map Prod.fst ∧
      ((∀ d ∈ distances, 0 < d.2) → (order.map Prod.snd).Pairwise (· < ·)) := by
  induction order generalizing distances with
  | nil =>
      obtain rfl := pure_eq_ok.mp h
      exact ⟨rfl, fun _ => .nil⟩
  | cons first rest ih =>
      obtain ⟨i, offset⟩ := first
      rw [idxDistances_cons] at h
      obtain ⟨_, h⟩ := ite_throw_eq_ok.mp h
      obtain ⟨later, hlater, h⟩ := bind_eq_ok.mp h
      obtain rfl := pure_eq_ok.mp h
      obtain ⟨hfst, hgrows⟩ := ih hlater
      refine ⟨by rw [List.map_cons, List.map_cons, hfst], fun hpos => ?_⟩
      obtain ⟨hfirst, hpos⟩ := List.forall_mem_cons.mp hpos
      have hrest := hgrows hpos
      refine List.Pairwise.cons ?_ hrest
      cases rest with
      | nil => simp
      | cons next rest =>
          have hnext : offset < next.2 := Nat.lt_of_sub_pos hfirst
          intro other hother
          rcases List.mem_cons.mp hother with rfl | hother
          · exact hnext
          · exact Nat.lt_trans hnext ((List.pairwise_cons.mp hrest).1 other hother)

/-- When every object takes some bytes, no offset is there twice. -/
theorem offsets_nodup {idx : Bytes} {ids : List String} {packLen : Nat} {sizes : List Nat}
    (hids : idxObjectIds idx = .ok ids) (hlen : sizes.length = ids.length)
    (hsizes : idxObjectSizes idx packLen = .ok (ids.zip sizes)) (hpos : ∀ size ∈ sizes, 0 < size) :
    ∃ offsets, (List.range ids.length).mapM (idxOffset idx ids.length) = .ok offsets ∧
      offsets.Nodup := by
  obtain ⟨ids', hids', h⟩ := bind_eq_ok.mp hsizes
  obtain rfl : ids = ids' := Except.ok.inj (hids.symm.trans hids')
  obtain ⟨offsets, hoffsets, h⟩ := bind_eq_ok.mp h
  obtain ⟨_, h⟩ := ite_throw_eq_ok.mp h
  obtain ⟨distances, hdistances, h⟩ := bind_eq_ok.mp h
  have hcount : offsets.length = ids.length := by
    rw [← (mapM_eq_ok.mp hoffsets).length_eq, List.length_range]
  have hzip : ((List.range ids.length).zip offsets).map Prod.snd = offsets :=
    List.map_snd_zip (by rw [hcount, List.length_range])
  have hfst : ((List.range ids.length).zip offsets).map Prod.fst = List.range ids.length :=
    List.map_fst_zip (by rw [hcount, List.length_range])
  have hperm := List.mergeSort_perm ((List.range ids.length).zip offsets)
    fun a b => decide (a.2 ≤ b.2)
  obtain ⟨hindexes, hgrows⟩ := pairwise_of_distances hdistances
  have hnodup : (distances.map Prod.fst).Nodup := by
    rw [hindexes, (hperm.map Prod.fst).nodup_iff, hfst]
    exact List.nodup_range
  have hset : setSizes distances (List.replicate ids.length 0) = sizes := by
    have := congrArg (List.map Prod.snd) (pure_eq_ok.mp h)
    rwa [List.map_snd_zip, List.map_snd_zip] at this
    · exact Nat.le_of_eq hlen
    · rw [length_setSizes, List.length_replicate]
  have hall : ∀ d ∈ distances, 0 < d.2 := by
    rintro ⟨i, d⟩ hd
    have hi : i < ids.length := by
      have : i ∈ (((List.range ids.length).zip offsets).mergeSort
          fun a b => decide (a.2 ≤ b.2)).map Prod.fst := hindexes ▸ List.mem_map_of_mem hd
      rw [(hperm.map Prod.fst).mem_iff, hfst] at this
      exact List.mem_range.mp this
    have hget := @getElem?_setSizes distances (List.replicate ids.length 0) hnodup i d hd
      (by rwa [List.length_replicate])
    rw [hset] at hget
    exact hpos d (List.mem_of_getElem? hget)
  refine ⟨offsets, hoffsets, ?_⟩
  rw [← hzip, ← (hperm.map Prod.snd).nodup_iff]
  exact (hgrows hall).imp fun h => Nat.ne_of_lt h

/-! ## Both files -/

/-- What the readers of this program make of the pack and the idx of `objects`, with the bytes each of
them takes. -/
structure ReadBack (objects : List (Id × Bytes)) (pack idx : Bytes) (sizes : List Nat) : Prop where
  ids : idxObjectIds idx = .ok (objects.map fun object => hexEncode object.1.1)
  /-- At its offset an object has its kind, its length, and a stream of its bytes. -/
  found : ∀ i object, objects[i]? = some object → ∃ offset headerLen streamLen,
    idxOffset idx objects.length i = .ok offset ∧
      parsePackObjHeader (pack.drop offset) = .ok (objTag, object.2.length, headerLen) ∧
      inflateStored (pack.drop (offset + headerLen)) = some (object.2, streamLen) ∧
      sizes[i]? = some (headerLen + streamLen)
  lens : sizes.length = objects.length ∧ sizes.sum = pack.length - 32 ∧
    idxObjectSizes idx pack.length =
      .ok ((objects.map fun object => hexEncode object.1.1).zip sizes)
  fanout : ∀ k < 256, ofBe ((idx.drop (8 + k * 4)).take 4) =
    objects.countP fun object => decide (firstByte object ≤ k)

theorem length_packBody (objects : List (Id × Bytes)) :
    (packBody objects).length = 12 + (objectLens objects).sum := by
  rw [packBody, List.length_append, List.length_flatMap, objectLens]
  simp

/-- What `pack` returns, when it does. -/
theorem pack_ok (hcount : objects.length < 2 ^ 32) (hlen : (packBody objects).length + 20 < 2 ^ 63) :
    ∃ idx, pack digests objects = .ok (packBody objects ++ (digests.sha1 (packBody objects)).1, idx,
        hexEncode (digests.sha1 (packBody objects)).1) ∧
      IdxParts objects (wordsFrom 0 (starts objects)) ((starts objects).filter isLarge) idx := by
  have hwords : offsetWords [] (starts objects) =
      .ok (wordsFrom 0 (starts objects), (starts objects).filter isLarge) := by
    rw [offsetWords_ok]
    · rfl
    · rw [starts, length_startsFrom, List.length_nil]
      omega
  let idx := idxBody digests objects (wordsFrom 0 (starts objects))
    ((starts objects).filter isLarge) (digests.sha1 (packBody objects))
  refine ⟨idx ++ (digests.sha1 idx).1, ?_, ⟨⟨fun object =>
    beBytes 4 (digests.crc32 (packObject object.2)).toNat,
    (digests.sha1 (packBody objects)).1 ++ (digests.sha1 idx).1, fun _ => length_beBytes 4 _, ?_, ?_⟩⟩⟩
  · rw [pack, if_neg (Nat.not_le.mpr hcount), if_neg (Nat.not_le.mpr hlen)]
    dsimp only
    rw [hwords]
    rfl
  · rw [List.length_append, (digests.sha1 _).2, (digests.sha1 _).2]
  · simp only [idx, idxBody, List.append_assoc]

theorem pack_eq_ok {out idx : Bytes} {checksum : String}
    (h : pack digests objects = .ok (out, idx, checksum)) :
    objects.length < 2 ^ 32 ∧ (packBody objects).length + 20 < 2 ^ 63 ∧
      out = packBody objects ++ (digests.sha1 (packBody objects)).1 ∧
      IdxParts objects (wordsFrom 0 (starts objects)) ((starts objects).filter isLarge) idx := by
  obtain ⟨hcount, hok⟩ := ite_throw_eq_ok.mp h
  obtain ⟨hlen, _⟩ := ite_throw_eq_ok.mp hok
  obtain ⟨idx', hpack, hparts⟩ := @pack_ok digests objects (Nat.not_le.mp hcount)
    (Nat.not_le.mp hlen)
  obtain ⟨rfl, hidx⟩ := Prod.mk.inj (Except.ok.inj (h.symm.trans hpack))
  obtain ⟨rfl, _⟩ := Prod.mk.inj hidx
  exact ⟨Nat.not_le.mp hcount, Nat.not_le.mp hlen, rfl, hparts⟩

section Read

variable {idx : Bytes}

theorem or_rank {j : Nat} (h : j < 2 ^ 31) : 2 ^ 31 ||| j = 2 ^ 31 + j := by
  have := Nat.two_pow_add_eq_or_of_lt h 1
  rw [Nat.mul_one] at this
  exact this.symm

/-- An offset is read back when its word can point to it. -/
theorem IdxParts.offset_eq (h : IdxParts objects (wordsFrom 0 (starts objects))
    ((starts objects).filter isLarge) idx) {i offset : Nat} (hi : (starts objects)[i]? = some offset)
    (hoffset : offset < 2 ^ 64)
    (hfew : isLarge offset = true → rank (starts objects) i < 2 ^ 31) :
    idxOffset idx objects.length i = .ok offset := by
  have hword := @getElem?_wordsFrom 0 i offset _ hi
  have hwords : (wordsFrom 0 (starts objects)).length = objects.length := by
    rw [length_wordsFrom, starts, length_startsFrom]
  rw [Nat.zero_add] at hword
  split at hword
  · next hlarge =>
      have hrank := hfew hlarge
      rw [or_rank hrank] at hword
      rw [h.offset hword (by omega), if_neg (by omega), Nat.add_sub_cancel_left]
      exact h.largeOffset hwords (getElem?_filter_rank hi hlarge) hoffset _
  · next hsmall =>
      have hlt : offset < 2 ^ 31 := Nat.not_le.mp (mt decide_eq_true hsmall)
      rw [h.offset hword (by omega), if_pos hlt]

/-- Past the end of what a word can point to, it points back to the first wide offset. -/
theorem IdxParts.offset_wrapped (h : IdxParts objects (wordsFrom 0 (starts objects))
    ((starts objects).filter isLarge) idx) {i first : Nat} {offset : Nat}
    (hi : (starts objects)[i]? = some offset) (hlarge : isLarge offset = true)
    (hrank : rank (starts objects) i = 2 ^ 31)
    (hfirst : ((starts objects).filter isLarge)[0]? = some first) (hlt : first < 2 ^ 64) :
    idxOffset idx objects.length i = .ok first := by
  have hword := @getElem?_wordsFrom 0 i offset _ hi
  have hwords : (wordsFrom 0 (starts objects)).length = objects.length := by
    rw [length_wordsFrom, starts, length_startsFrom]
  rw [if_pos hlarge, Nat.zero_add, hrank, Nat.or_self] at hword
  rw [h.offset hword (by omega), if_neg (Nat.lt_irrefl _), Nat.sub_self]
  exact h.largeOffset hwords hfirst hlt _

end Read

theorem parsePackObjHeader_pos {buf : Bytes} {kind size used : Nat}
    (h : parsePackObjHeader buf = .ok (kind, size, used)) : 0 < used := by
  have hsize : ∀ (rest : Bytes) {acc shift from' size used : Nat},
      packObjSize acc shift from' rest = .ok (size, used) → 0 < used := by
    intro rest
    induction rest with
    | nil =>
        intro acc shift from' size used h
        rw [packObjSize] at h
        split at h <;> cases h
    | cons b rest ih =>
        intro acc shift from' size used h
        obtain ⟨_, h⟩ := ite_throw_eq_ok.mp h
        obtain ⟨_, h⟩ := ite_throw_eq_ok.mp h
        dsimp only at h
        split at h
        · exact ih h
        · obtain ⟨_, rfl⟩ := Prod.mk.inj (pure_eq_ok.mp h)
          exact Nat.succ_pos _
  cases buf with
  | nil => cases h
  | cons b rest =>
      rw [parsePackObjHeader] at h
      dsimp only at h
      split at h
      · obtain ⟨⟨size', used'⟩, hread, h⟩ := bind_eq_ok.mp h
        obtain ⟨_, h⟩ := Prod.mk.inj (pure_eq_ok.mp h)
        obtain ⟨_, rfl⟩ := Prod.mk.inj h
        exact hsize rest hread
      · obtain ⟨_, h⟩ := Prod.mk.inj (pure_eq_ok.mp h)
        obtain ⟨_, rfl⟩ := Prod.mk.inj h
        exact Nat.one_pos

/-- The first byte past the header of every object starts its stream. -/
theorem readBack_of_few {idx : Bytes} {checksum : Bytes} (hchecksum : checksum.length = 20)
    (hcount : objects.length < 2 ^ 32) (hlen : (packBody objects).length + 20 < 2 ^ 63)
    (hparts : IdxParts objects (wordsFrom 0 (starts objects)) ((starts objects).filter isLarge) idx)
    (hfew : (starts objects).countP isLarge ≤ 2 ^ 31) :
    ReadBack objects (packBody objects ++ checksum) idx (objectLens objects) := by
  have hbody := length_packBody objects
  -- Few wide offsets keep their index into the table apart from the top bit.
  have hoffset {i offset : Nat} (hi : (starts objects)[i]? = some offset) :
      idxOffset idx objects.length i = .ok offset := by
    have hlt := mem_startsFrom_lt (List.mem_of_getElem? hi)
    refine hparts.offset_eq hi (by omega) fun hlarge => ?_
    have hrank := (List.getElem?_eq_some_iff.mp (getElem?_filter_rank hi hlarge)).1
    rw [← List.countP_eq_length_filter] at hrank
    omega
  have hids := hparts.ids hcount
  constructor
  case ids => exact hids
  case found =>
    intro i object hi
    let front : Bytes := ([0x50, 0x41, 0x43, 0x4b] : Bytes) ++ beBytes 4 2 ++ beBytes 4 objects.length
    -- The object starts where the idx says: after the header and the objects before it.
    obtain ⟨offset, after, hstart, hdrop⟩ := @drop_startsFrom objects front checksum i object hi
    have hfront : front.length = 12 := by simp [front]
    have hpack : packBody objects ++ checksum =
        front ++ (objects.flatMap (fun object => packObject object.2) ++ checksum) := by
      rw [packBody, ← List.append_assoc]
    rw [hfront] at hstart
    have hdata : object.2.length < 2 ^ 64 := by
      have hle : (packObject object.2).length ≤ (objectLens objects).sum :=
        List.le_sum_of_mem (List.mem_map_of_mem (List.mem_of_getElem? hi))
      have hobject := length_packObject object.2
      omega
    refine ⟨offset, (objHeader object.2.length).length, (storedZlib object.2).length, hoffset hstart,
      ?_, ?_, ?_⟩
    · rw [hpack, hdrop, packObject, List.append_assoc]
      exact parsePackObjHeader_objHeader hdata _
    · rw [← List.drop_drop, hpack, hdrop, packObject, List.append_assoc, List.drop_left]
      exact inflateStored_storedZlib _ _
    · rw [objectLens, List.getElem?_map, hi]
      exact congrArg some List.length_append
  case lens =>
    refine ⟨List.length_map _, ?_, ?_⟩
    · rw [List.length_append, hbody, hchecksum]
      omega
    · refine idxObjectSizes_starts hids (List.length_map _) ?_ ?_
      · rw [mapM_eq_ok, List.forall₂_iff_get]
        refine ⟨by rw [List.length_range, starts, length_startsFrom], ?_⟩
        intro i hi hi'
        rw [List.get_eq_getElem, List.get_eq_getElem, List.getElem_range]
        exact hoffset (List.getElem?_eq_getElem hi')
      · rw [List.length_append, hbody, hchecksum]
  case fanout =>
    intro k hk
    rw [getRange_eq_ok (hparts.fanout hk "")]
    refine ofBe_beBytes ?_
    exact Nat.lt_of_le_of_lt List.countP_le_length hcount

/-- The pack and the idx that are written for any tag objects are read back whole, unless more than
2 ^ 31 of the objects start at or past 2 ^ 31: the table of wide offsets has no more entries than the
31 bits of a word can point to. -/
theorem pack_read_back (digests : Digests) (objects : List (Id × Bytes)) :
    (∀ out idx checksum, pack digests objects = .ok (out, idx, checksum) →
      ∃ sizes, ReadBack objects out idx sizes) ↔
    (objects.length < 2 ^ 32 → (packBody objects).length + 20 < 2 ^ 63 →
      (starts objects).countP isLarge ≤ 2 ^ 31) := by
  constructor
  · intro hread hcount hlen
    by_contra hmany
    rw [Nat.not_le, List.countP_eq_length_filter] at hmany
    obtain ⟨idx, hpack, hparts⟩ := @pack_ok digests objects hcount hlen
    obtain ⟨sizes, hback⟩ := hread _ _ _ hpack
    -- the first wide offset is read for two objects
    obtain ⟨i₀, first, hi₀, hlarge₀, hrank₀⟩ :=
      @exists_of_rank 0 (starts objects) (Nat.lt_of_le_of_lt (Nat.zero_le _) hmany)
    obtain ⟨i, offset, hi, hlarge, hrank⟩ := exists_of_rank hmany
    have hne : i₀ ≠ i := by
      rintro rfl
      rw [hrank₀] at hrank
      omega
    have hbody := length_packBody objects
    have hlt := mem_startsFrom_lt (List.mem_of_getElem? hi₀)
    have hread₀ := hparts.offset_eq hi₀ (by omega) fun _ => by
      rw [hrank₀]
      exact Nat.two_pow_pos 31
    have hfirst := getElem?_filter_rank hi₀ hlarge₀
    rw [hrank₀] at hfirst
    have hread := hparts.offset_wrapped hi hlarge hrank hfirst (by omega)
    have hpos : ∀ size ∈ sizes, 0 < size := by
      intro size hsize
      obtain ⟨j, hj⟩ := List.getElem?_of_mem hsize
      have hjlt : j < objects.length := hback.lens.1 ▸ (List.getElem?_eq_some_iff.mp hj).1
      obtain ⟨_, headerLen, streamLen, _, hheader, _, hsum⟩ :=
        hback.found j _ (List.getElem?_eq_getElem hjlt)
      have hheaderPos := parsePackObjHeader_pos hheader
      obtain rfl := Option.some.inj (hj.symm.trans hsum)
      omega
    have hlenIds : (objects.map fun object => hexEncode object.1.1).length = objects.length :=
      List.length_map _
    obtain ⟨offsets, hoffsets, hnodup⟩ := offsets_nodup hback.ids
      (by rw [hlenIds, hback.lens.1]) hback.lens.2.2 hpos
    rw [hlenIds, mapM_eq_ok, List.forall₂_iff_get] at hoffsets
    obtain ⟨hcounts, hget⟩ := hoffsets
    rw [List.length_range] at hcounts
    have hfound {j offset : Nat} (hj : j < objects.length)
        (h : idxOffset idx objects.length j = .ok offset) :
        offsets.get ⟨j, hcounts ▸ hj⟩ = offset := by
      have := hget j (by rwa [List.length_range]) (hcounts ▸ hj)
      rw [List.get_eq_getElem, List.getElem_range, h] at this
      exact (Except.ok.inj this).symm
    have hj₀ : i₀ < objects.length := by
      have := (List.getElem?_eq_some_iff.mp hi₀).1
      rwa [starts, length_startsFrom] at this
    have hj : i < objects.length := by
      have := (List.getElem?_eq_some_iff.mp hi).1
      rwa [starts, length_startsFrom] at this
    exact hne ((hnodup.getElem_inj_iff).mp ((hfound hj₀ hread₀).trans (hfound hj hread).symm))
  · intro hfew out idx checksum h
    obtain ⟨hcount, hlen, rfl, hparts⟩ := pack_eq_ok h
    exact ⟨objectLens objects,
      readBack_of_few (digests.sha1 _).2 hcount hlen hparts (hfew hcount hlen)⟩

/-! ## Past the limit -/

/-- Every object takes twelve bytes at least. -/
theorem le_of_getElem?_startsFrom {start i offset : Nat}
    (hi : (startsFrom start objects)[i]? = some offset) : start + 12 * i ≤ offset := by
  induction objects generalizing start i with
  | nil => cases hi
  | cons object rest ih =>
      cases i with
      | zero =>
          obtain rfl := Option.some.inj hi
          exact Nat.le_refl _
      | succ i =>
          have hobject := length_packObject object.2
          have hrest := ih hi
          omega

/-- All but the first `k` objects start past 2 ^ 31. -/
theorem le_countP_large {k : Nat} (hk : 2 ^ 31 ≤ 12 + 12 * k) :
    objects.length - k ≤ (starts objects).countP isLarge := by
  have hlate : ∀ offset ∈ (starts objects).drop k, isLarge offset = true := by
    intro offset hoffset
    obtain ⟨i, hi⟩ := List.getElem?_of_mem hoffset
    rw [List.getElem?_drop] at hi
    have hle := le_of_getElem?_startsFrom hi
    exact decide_eq_true (by omega)
  rw [← List.take_append_drop k (starts objects), List.countP_append,
    List.countP_eq_length.mpr hlate, List.length_drop, starts, length_startsFrom]
  exact Nat.le_add_left _ _

/-- The tag object that names object `i`. -/
def tagOf (i : Nat) : Bytes :=
  ([0x6f, 0x62, 0x6a, 0x65, 0x63, 0x74, 0x20] : Bytes) ++ (beBytes 20 i).flatMap hexDigits ++ [0x0a]

def manyTags (n : Nat) : List (Id × Bytes) :=
  (List.range n).map fun i => (⟨beBytes 20 i, length_beBytes 20 i⟩, tagOf i)

theorem length_manyTags (n : Nat) : (manyTags n).length = n := by
  rw [manyTags, List.length_map, List.length_range]

theorem length_packObject_tagOf (i : Nat) : (packObject (tagOf i)).length = 61 := by
  have hdata : (tagOf i).length = 48 := by
    rw [tagOf, List.length_append, List.length_append, (hexPairs_hexDigits _).2, length_beBytes]
    rfl
  have hne : tagOf i ≠ [] := List.ne_nil_of_length_pos (by omega)
  have hchunks : chunks 0xffff (tagOf i) = [tagOf i] := by
    rw [chunks, if_neg (by simp [hne]), List.take_of_length_le (by omega),
      List.drop_eq_nil_of_le (by omega), (chunks_eq_nil (by decide)).mpr rfl]
  have hheader : (objHeader 48).length = 2 := by
    rw [objHeader, sizeBytes, if_neg (by decide), List.length_cons, sizeBytes, if_pos (by decide)]
    rfl
  rw [packObject, List.length_append, hdata, hheader, storedZlib, hchunks, List.length_append,
    List.length_append, length_beBytes]
  show 2 + (2 + (storedBlocksOf [tagOf i]).length + 4) = 61
  rw [length_storedBlocksOf, List.flatten_singleton, hdata]
  rfl

theorem length_packBody_manyTags (n : Nat) : (packBody (manyTags n)).length = 12 + 61 * n := by
  have hlens : objectLens (manyTags n) = List.replicate n 61 := by
    rw [List.eq_replicate_iff, objectLens, List.length_map, length_manyTags]
    refine ⟨rfl, ?_⟩
    simp only [manyTags, List.map_map, List.mem_map]
    rintro len ⟨i, _, rfl⟩
    exact length_packObject_tagOf i
  rw [length_packBody, hlens, List.sum_replicate_nat, Nat.mul_comm]

theorem manyTags_sorted {n : Nat} (hn : n < 256 ^ 20) :
    ((manyTags n).map fun object => ofBe object.1.1).Pairwise (· < ·) := by
  have hids : (manyTags n).map (fun object => ofBe object.1.1) = List.range n := by
    rw [manyTags, List.map_map]
    conv_rhs => rw [← List.map_id (List.range _)]
    refine List.map_congr_left fun i hi => ?_
    have hlt : i < 256 ^ 20 := Nat.lt_trans (List.mem_range.mp hi) hn
    rw [Function.comp_apply, id_eq, ofBe_beBytes hlt]
  rw [hids]
  exact List.pairwise_lt_range

theorem manyTags_misread {n : Nat} (hmany : 2 ^ 31 + 2 ^ 28 < n) (hn : n < 2 ^ 32) :
    ¬ ∃ digests, ∀ out idx checksum, pack digests (manyTags n) = .ok (out, idx, checksum) →
      ∃ sizes, ReadBack (manyTags n) out idx sizes := by
  rintro ⟨digests, hread⟩
  have hlen := length_manyTags n
  have hbody := length_packBody_manyTags n
  have hfew := (pack_read_back digests (manyTags n)).mp hread (by omega) (by omega)
  have hlarge := @le_countP_large (manyTags n) (2 ^ 28) (by omega)
  omega

/-- Enough objects for more than 2 ^ 31 of them to start past 2 ^ 31. -/
def tooMany : Nat := 2 ^ 31 + 2 ^ 28 + 1

/-- Some of so many tags are read back wrong, whatever their checksums are. -/
theorem many_tags_misread :
    ((manyTags tooMany).map fun object => ofBe object.1.1).Pairwise (· < ·) ∧
      (manyTags tooMany).length < 2 ^ 32 ∧
      ¬ ∃ digests, ∀ out idx checksum, pack digests (manyTags tooMany) = .ok (out, idx, checksum) →
        ∃ sizes, ReadBack (manyTags tooMany) out idx sizes := by
  have hmany : 2 ^ 31 + 2 ^ 28 < tooMany := Nat.lt_succ_self _
  have hn : tooMany < 2 ^ 32 := by
    unfold tooMany
    omega
  exact ⟨manyTags_sorted (by omega), by rwa [length_manyTags], manyTags_misread hmany hn⟩

end Ripclone.Tags
