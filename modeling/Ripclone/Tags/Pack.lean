import Mathlib.Tactic.Ring
import Ripclone.Extract.PackBytes
import Ripclone.Tags.Ids

/-!
# The pack of a clone's tag objects

A clone writes the tag objects it keeps as one pack with its idx, by hand: each object is a header and
a zlib stream of stored blocks, and the idx has a fanout, ids, checksums and a table of offsets of two
widths. `pack_read_back` says when this program's own readers get all of it back.
-/

namespace Ripclone.Tags

open Ripclone.Library Ripclone.Pack

/-- The checksums of a pack and its idx. -/
structure Digests where
  sha1 (bytes : Bytes) : Id
  crc32 (bytes : Bytes) : UInt32

/-! ## Streams -/

def le16 (n : Nat) : Bytes := [UInt8.ofNat (n % 256), UInt8.ofNat (n / 256 % 256)]

/-- The blocks one after the other, the last one marked. -/
def storedBlocksOf : List Bytes → Bytes
  | [] => []
  | block :: rest =>
    (if rest.isEmpty then 1 else 0) :: (le16 block.length ++ le16 (65535 - block.length) ++ block ++
      storedBlocksOf rest)

/-- The sums with one more byte, in 32 bits. -/
def adlerAdd (sums : Nat × Nat) (byte : UInt8) : Nat × Nat :=
  let a := (sums.1 + byte.toNat) % 2 ^ 32
  (a, (sums.2 + a) % 2 ^ 32)

/-- The sums of a run of bytes, reduced at its end. -/
def adlerRun (sums : Nat × Nat) (run : Bytes) : Nat × Nat :=
  let sums := run.foldl adlerAdd sums
  (sums.1 % 65521, sums.2 % 65521)

/-- `data` as a zlib stream of stored deflate blocks. -/
def storedZlib (data : Bytes) : Bytes :=
  let blocks := chunks 0xffff data
  let sums := (chunks 5552 data).foldl adlerRun (1, 0)
  ([0x78, 0x01] : Bytes) ++ (if blocks.isEmpty then [1, 0, 0, 0xff, 0xff] else storedBlocksOf blocks) ++
    beBytes 4 (sums.2 <<< 16 ||| sums.1)

/-! ## The pack -/

def objTag : Nat := 4

/-- The bytes of a size, `byte` first. -/
def sizeBytes (byte size : Nat) : Bytes :=
  if size = 0 then [UInt8.ofNat byte]
  else UInt8.ofNat (byte ||| 0x80) :: sizeBytes (size % 128) (size / 128)

def objHeader (len : Nat) : Bytes := sizeBytes (objTag <<< 4 ||| len % 16) (len / 16)

def packObject (data : Bytes) : Bytes := objHeader data.length ++ storedZlib data

/-- Where each object starts, the first one at `start`. -/
def startsFrom : Nat → List (Id × Bytes) → List Nat
  | _, [] => []
  | start, object :: rest =>
    start :: startsFrom (start + (packObject object.2).length) rest

/-- Where the objects start in their pack. -/
def starts (objects : List (Id × Bytes)) : List Nat := startsFrom 12 objects

/-- The pack up to its checksum. -/
def packBody (objects : List (Id × Bytes)) : Bytes :=
  ([0x50, 0x41, 0x43, 0x4b] : Bytes) ++ beBytes 4 2 ++ beBytes 4 objects.length ++
    objects.flatMap fun object => packObject object.2

/-! ## The idx -/

/-- How many ids start with each byte. -/
def fanout (objects : List (Id × Bytes)) : List Nat :=
  objects.foldl (fun slots object => slots.modify ((object.1.1.headD 0).toNat) (· + 1))
    (List.replicate 256 0)

/-- The sums of the slots up to each one. -/
def runningTotals : Nat → List Nat → List Nat
  | _, [] => []
  | total, slot :: rest => (total + slot) :: runningTotals (total + slot) rest

/-- The offset words, and the offsets that need eight bytes, `large` of them so far. -/
def offsetWords : List Nat → List Nat → Except String (List Nat × List Nat)
  | large, [] => return ([], large)
  | large, offset :: rest =>
    if offset < 2 ^ 31 then do
      let (words, all) ← offsetWords large rest
      return (offset :: words, all)
    else do
      let large := large ++ [offset]
      if 2 ^ 32 ≤ large.length - 1 then throw "too many large offsets"
      else
        let (words, all) ← offsetWords large rest
        return ((2 ^ 31 ||| (large.length - 1)) :: words, all)

variable (digests : Digests)

/-- The idx up to its own checksum. -/
def idxBody (objects : List (Id × Bytes)) (words large : List Nat) (checksum : Id) : Bytes :=
  idxMagic ++ (runningTotals 0 (fanout objects)).flatMap (beBytes 4) ++
    objects.flatMap (fun object => object.1.1) ++
    objects.flatMap (fun object => beBytes 4 (digests.crc32 (packObject object.2)).toNat) ++
    words.flatMap (beBytes 4) ++ large.flatMap (beBytes 8) ++ checksum.1

/-- The pack, its idx, and its checksum in hex. A vector does not grow past 2 ^ 63 bytes. -/
def pack (objects : List (Id × Bytes)) : Except String (Bytes × Bytes × String) := do
  if 2 ^ 32 ≤ objects.length then throw "too many tag objects"
  else if 2 ^ 63 ≤ (packBody objects).length + 20 then throw "capacity overflow"
  else
    let checksum := digests.sha1 (packBody objects)
    let (words, large) ← offsetWords [] (starts objects)
    let idx := idxBody digests objects words large checksum
    return (packBody objects ++ checksum.1, idx ++ (digests.sha1 idx).1, hexEncode checksum.1)

/-! ## Headers -/

theorem or_continue {byte : Nat} (h : byte < 128) : byte ||| 0x80 = byte + 128 := by
  have := Nat.two_pow_add_eq_or_of_lt (i := 7) h 1
  rw [Nat.or_comm, Nat.add_comm]
  exact this.symm

theorem toNat_ofNat_lt {n : Nat} (h : n < 256) : (UInt8.ofNat n).toNat = n := by
  simp [Nat.mod_eq_of_lt h]

/-- A number that is shifted below 64 bits. -/
theorem shift_lt {value shift : Nat} (hpos : 0 < value) (hlt : value * 2 ^ shift < 2 ^ 64) :
    shift < 64 ∧ value < 2 ^ (64 - shift) := by
  have hshift : shift < 64 := by
    refine (Nat.pow_lt_pow_iff_right (show 1 < 2 by decide)).mp (Nat.lt_of_le_of_lt ?_ hlt)
    exact Nat.le_mul_of_pos_left _ hpos
  refine ⟨hshift, ?_⟩
  rw [show 2 ^ 64 = 2 ^ (64 - shift) * 2 ^ shift by rw [← Nat.pow_add]; congr 1; omega] at hlt
  exact Nat.lt_of_mul_lt_mul_right hlt

/-- A size is read back from where it goes on, `byte` its next seven bits. -/
theorem packObjSize_sizeBytes {byte size shift : Nat} (hbyte : byte < 128)
    (hpos : 0 < byte + 128 * size) (hlt : (byte + 128 * size) * 2 ^ shift < 2 ^ 64)
    (acc used : Nat) (rest : Bytes) :
    packObjSize acc shift used (sizeBytes byte size ++ rest) =
      .ok (acc + (byte + 128 * size) * 2 ^ shift, used + (sizeBytes byte size).length) := by
  obtain ⟨hshift, hvalue⟩ := shift_lt hpos hlt
  induction byte, size using sizeBytes.induct generalizing shift acc used with
  | case1 byte =>
      rw [sizeBytes, if_pos rfl, List.singleton_append, packObjSize, if_neg (Nat.not_le.mpr hshift)]
      dsimp only
      rw [toNat_ofNat_lt (by omega), Nat.mod_eq_of_lt hbyte, if_neg (by omega), if_neg (by omega)]
      rfl
  | case2 byte size hsize ih =>
      have hfirst : (UInt8.ofNat (byte ||| 0x80)).toNat = byte + 128 := by
        rw [or_continue hbyte, toNat_ofNat_lt (by omega)]
      have hrest : (size % 128 + 128 * (size / 128)) * 2 ^ (shift + 7) < 2 ^ 64 := by
        rw [Nat.mod_add_div, Nat.pow_add, Nat.mul_comm (2 ^ shift), ← Nat.mul_assoc]
        refine Nat.lt_of_le_of_lt (Nat.mul_le_mul_right _ ?_) hlt
        omega
      have hbounds := shift_lt (by omega) hrest
      have hnext := ih (Nat.mod_lt _ (by decide)) (by omega) hrest (acc + byte * 2 ^ shift) (used + 1)
        hbounds.1 hbounds.2
      rw [sizeBytes, if_neg hsize, List.cons_append, packObjSize, if_neg (Nat.not_le.mpr hshift)]
      dsimp only
      rw [hfirst, Nat.add_mod_right, Nat.mod_eq_of_lt hbyte, if_neg (by omega), if_pos (by omega),
        hnext, Nat.mod_add_div, List.length_cons]
      congr 2
      · rw [Nat.pow_add]
        ring
      · omega

/-- The header git writes for an object of a kind and a size. -/
def gitObjHeader (kind size : Nat) : Bytes := sizeBytes (kind <<< 4 ||| size % 16) (size / 16)

/-- A header gives the kind and the size of its object. -/
theorem parsePackObjHeader_gitObjHeader {kind size : Nat} (hkind : kind < 8) (hsize : size < 2 ^ 64)
    (rest : Bytes) : parsePackObjHeader (gitObjHeader kind size ++ rest) =
      .ok (kind, size, (gitObjHeader kind size).length) := by
  have hbyte : kind <<< 4 ||| size % 16 = kind * 16 + size % 16 := by
    rw [← Nat.shiftLeft_add_eq_or_of_lt (show size % 16 < 2 ^ 4 from Nat.mod_lt size (by decide)) kind,
      Nat.shiftLeft_eq]
  rw [gitObjHeader, hbyte, sizeBytes]
  split
  · next hsmall =>
      rw [List.singleton_append, parsePackObjHeader, toNat_ofNat_lt (by omega)]
      dsimp only
      rw [if_neg (by omega), show (kind * 16 + size % 16) / 16 % 8 = kind by omega,
        show (kind * 16 + size % 16) % 16 = size by omega]
      rfl
  · next hlarge =>
      have hfirst : (UInt8.ofNat (kind * 16 + size % 16 ||| 0x80)).toNat =
          kind * 16 + size % 16 + 128 := by
        rw [or_continue (by omega), toNat_ofNat_lt (by omega)]
      have hrest : (size / 16 % 128 + 128 * (size / 16 / 128)) * 2 ^ 4 < 2 ^ 64 := by
        rw [Nat.mod_add_div]
        omega
      rw [List.cons_append, parsePackObjHeader, hfirst]
      dsimp only
      rw [if_pos (by omega), packObjSize_sizeBytes (Nat.mod_lt _ (by decide)) (by omega) hrest,
        Nat.mod_add_div, show (kind * 16 + size % 16 + 128) / 16 % 8 = kind by omega,
        show (kind * 16 + size % 16 + 128) % 16 + size / 16 * 2 ^ 4 = size by omega, List.length_cons,
        Nat.add_comm 1]
      rfl

theorem parsePackObjHeader_objHeader {len : Nat} (hlen : len < 2 ^ 64) (rest : Bytes) :
    parsePackObjHeader (objHeader len ++ rest) = .ok (objTag, len, (objHeader len).length) :=
  parsePackObjHeader_gitObjHeader (show objTag < 8 by decide) hlen rest

/-! ## Streams -/

theorem le16_value {n : Nat} (h : n ≤ 65535) :
    (UInt8.ofNat (n % 256)).toNat + 256 * (UInt8.ofNat (n / 256 % 256)).toNat = n := by
  rw [toNat_ofNat_mod, toNat_ofNat_mod]
  omega

theorem storedBlock_cons {block : Bytes} (h : block.length ≤ 65535) (last : Bool) (rest : Bytes) :
    storedBlock ((if last then 1 else 0) :: (le16 block.length ++ le16 (65535 - block.length) ++
      block ++ rest)) = some (last, block, rest) := by
  simp only [le16, List.cons_append, List.nil_append, storedBlock]
  rw [le16_value h, le16_value (Nat.sub_le _ _), if_neg]
  · rw [List.take_left, List.drop_left]
    cases last <;> rfl
  · rw [List.length_append]
    cases last <;> simp

/-- Blocks one after the other are read back as what they hold. -/
theorem storedBlocks_storedBlocksOf {blocks : List Bytes} (hne : blocks ≠ [])
    (hlen : ∀ block ∈ blocks, block.length ≤ 65535) (rest : Bytes) :
    storedBlocks blocks.length (storedBlocksOf blocks ++ rest) = some (blocks.flatten, rest) := by
  induction blocks with
  | nil => exact absurd rfl hne
  | cons block blocks ih =>
      obtain ⟨hblock, hlen⟩ := List.forall_mem_cons.mp hlen
      rw [storedBlocksOf, List.cons_append, List.append_assoc, List.length_cons, storedBlocks,
        storedBlock_cons hblock]
      cases blocks with
      | nil =>
          rw [List.flatten_cons, List.flatten_nil, List.append_nil]
          rfl
      | cons next blocks =>
          show (storedBlocks _ _).map _ = _
          rw [ih (by simp) hlen]
          rfl

theorem length_storedBlocksOf (blocks : List Bytes) :
    (storedBlocksOf blocks).length = blocks.flatten.length + 5 * blocks.length := by
  induction blocks with
  | nil => rfl
  | cons block blocks ih =>
      simp only [storedBlocksOf, le16, List.length_cons, List.length_append, List.flatten_cons,
        List.length_nil, ih]
      omega

/-! ## Checksums -/

/-- Sums that are not reduced yet. -/
def sumStep (sums : Nat × Nat) (byte : UInt8) : Nat × Nat :=
  (sums.1 + byte.toNat, sums.2 + (sums.1 + byte.toNat))

/-- How large the sums get: the second one grows by the first for every byte. -/
theorem sumStep_foldl_le {run : Bytes} {sums : Nat × Nat} {k : Nat}
    (ha : sums.1 ≤ 65520 + 255 * k)
    (hb : 2 * sums.2 ≤ 131040 + 131040 * k + 255 * (k * (k + 1))) :
    let k := k + run.length
    (run.foldl sumStep sums).1 ≤ 65520 + 255 * k ∧
      2 * (run.foldl sumStep sums).2 ≤ 131040 + 131040 * k + 255 * (k * (k + 1)) := by
  induction run generalizing sums k with
  | nil => exact ⟨ha, hb⟩
  | cons byte run ih =>
      have hbyte := byte.toNat_lt
      have hnext := @ih (sumStep sums byte) (k + 1) (by rw [sumStep]; dsimp only; omega) (by
        rw [sumStep, show (k + 1) * (k + 1 + 1) = k * (k + 1) + 2 * (k + 1) by ring]
        dsimp only
        omega)
      rw [List.length_cons, show k + (run.length + 1) = k + 1 + run.length by omega]
      exact hnext

/-- In a run this short nothing overflows. -/
theorem adlerAdd_foldl {run : Bytes} {sums : Nat × Nat} {k : Nat} (ha : sums.1 ≤ 65520 + 255 * k)
    (hb : 2 * sums.2 ≤ 131040 + 131040 * k + 255 * (k * (k + 1))) (hk : k + run.length ≤ 5552) :
    run.foldl adlerAdd sums = run.foldl sumStep sums := by
  induction run generalizing sums k with
  | nil => rfl
  | cons byte run ih =>
      rw [List.length_cons] at hk
      obtain ⟨ha', hb'⟩ : (sumStep sums byte).1 ≤ 65520 + 255 * (k + 1) ∧
          2 * (sumStep sums byte).2 ≤
            131040 + 131040 * (k + 1) + 255 * ((k + 1) * (k + 1 + 1)) :=
        @sumStep_foldl_le [byte] sums k ha hb
      have hsquare : (k + 1) * (k + 1 + 1) ≤ 5552 * 5553 := Nat.mul_le_mul (by omega) (by omega)
      have hstep : adlerAdd sums byte = sumStep sums byte := by
        unfold sumStep at ha' hb' ⊢
        dsimp only at ha' hb'
        unfold adlerAdd
        dsimp only
        rw [Nat.mod_eq_of_lt (a := sums.1 + byte.toNat) (by omega), Nat.mod_eq_of_lt (by omega)]
      rw [List.foldl_cons, List.foldl_cons, hstep]
      exact ih ha' hb' (by omega)

/-- Sums may be reduced at any time. -/
theorem adlerStep_foldl (run : Bytes) (sums : Nat × Nat) :
    run.foldl adlerStep (sums.1 % adlerBase, sums.2 % adlerBase) =
      ((run.foldl sumStep sums).1 % adlerBase, (run.foldl sumStep sums).2 % adlerBase) := by
  induction run generalizing sums with
  | nil => rfl
  | cons byte run ih =>
      rw [List.foldl_cons, List.foldl_cons, ← ih (sumStep sums byte)]
      congr 1
      simp only [adlerStep, sumStep, Nat.mod_add_mod, Nat.add_mod_mod]

theorem adlerRun_eq {run : Bytes} (hrun : run.length ≤ 5552) {sums : Nat × Nat}
    (ha : sums.1 < adlerBase) (hb : sums.2 < adlerBase) :
    adlerRun sums run = run.foldl adlerStep sums := by
  unfold adlerBase at ha hb
  have hsums : run.foldl adlerAdd sums = run.foldl sumStep sums :=
    @adlerAdd_foldl run sums 0 (by omega) (by omega) (by omega)
  have hreduced := adlerStep_foldl run sums
  rw [show sums.1 % adlerBase = sums.1 from Nat.mod_eq_of_lt ha,
    show sums.2 % adlerBase = sums.2 from Nat.mod_eq_of_lt hb] at hreduced
  rw [adlerRun, hsums, hreduced]
  rfl

theorem adlerRun_foldl {runs : List Bytes} (hruns : ∀ run ∈ runs, run.length ≤ 5552)
    {sums : Nat × Nat} (ha : sums.1 < adlerBase) (hb : sums.2 < adlerBase) :
    runs.foldl adlerRun sums = runs.flatten.foldl adlerStep sums := by
  induction runs generalizing sums with
  | nil => rfl
  | cons run runs ih =>
      obtain ⟨hrun, hruns⟩ := List.forall_mem_cons.mp hruns
      rw [List.foldl_cons, List.flatten_cons, List.foldl_append, ← adlerRun_eq hrun ha hb]
      exact ih hruns (Nat.mod_lt _ (by decide)) (Nat.mod_lt _ (by decide))

/-- The checksum that is written is the data's Adler-32. -/
theorem adler_written (data : Bytes) :
    let sums := (chunks 5552 data).foldl adlerRun (1, 0)
    sums.2 <<< 16 ||| sums.1 = adler32 data := by
  have hsums : (chunks 5552 data).foldl adlerRun (1, 0) = adlerSums data := by
    rw [adlerRun_foldl (fun run => length_le_of_mem_chunks) (by decide) (by decide),
      flatten_chunks (by decide)]
    rfl
  have hlt := (adlerSums_lt data).1
  unfold adlerBase at hlt
  dsimp only
  rw [hsums, ← Nat.shiftLeft_add_eq_or_of_lt (by omega), Nat.shiftLeft_eq]
  rfl

/-- A stored stream inflates to its data. -/
theorem inflateStored_storedZlib (data rest : Bytes) :
    inflateStored (storedZlib data ++ rest) = some (data, (storedZlib data).length) := by
  have hchecksum : ofBe ((beBytes 4 (adler32 data) ++ rest).take 4) = adler32 data := by
    rw [List.take_append_of_le_length (by simp), List.take_of_length_le (by simp),
      ofBe_beBytes (adler32_lt data)]
  -- what the blocks hold, whichever way they are written
  let body := if (chunks 0xffff data).isEmpty then [1, 0, 0, 0xff, 0xff]
    else storedBlocksOf (chunks 0xffff data)
  have hread (after : Bytes) :
      storedBlocks (body ++ after).length (body ++ after) = some (data, after) := by
    by_cases hempty : chunks 0xffff data = []
    · have hdata : data = [] := (chunks_eq_nil (by decide)).mp hempty
      have hbody : body = [1, 0, 0, 0xff, 0xff] := if_pos (by rw [hempty]; rfl)
      rw [hbody, hdata]
      rfl
    · have hbody : body = storedBlocksOf (chunks 0xffff data) :=
        if_neg (by rwa [List.isEmpty_iff])
      have hblocks := storedBlocks_storedBlocksOf hempty (fun block => length_le_of_mem_chunks) after
      rw [flatten_chunks (by decide)] at hblocks
      rw [hbody]
      refine storedBlocks_mono hblocks ?_
      rw [List.length_append, length_storedBlocksOf]
      omega
  have hstream : storedZlib data = 0x78 :: 0x01 :: (body ++ beBytes 4 (adler32 data)) := by
    rw [← adler_written]
    rfl
  have hblocks := hread (beBytes 4 (adler32 data) ++ rest)
  rw [hstream, List.cons_append, List.cons_append, List.append_assoc,
    inflateStored_cons (by decide) hblocks (by simp) hchecksum]
  simp only [List.length_cons, List.length_append, length_beBytes]
  congr 2
  omega

/-- A stream is longer than its data: it has a header, a block and a checksum at least. -/
theorem length_storedZlib (data : Bytes) : data.length + 11 ≤ (storedZlib data).length := by
  rw [storedZlib, List.length_append, List.length_append, length_beBytes]
  by_cases hempty : chunks 0xffff data = []
  · rw [hempty, (chunks_eq_nil (by decide)).mp hempty]
    exact Nat.le_refl _
  · have hpos := List.length_pos_iff.mpr hempty
    rw [if_neg (by rwa [List.isEmpty_iff]), length_storedBlocksOf, flatten_chunks (by decide)]
    simp only [List.length_cons, List.length_nil]
    omega

end Ripclone.Tags
