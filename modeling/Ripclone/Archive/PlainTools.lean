import Ripclone.Archive.Bundles

/-!
# Tools to compute with

Names, compression and chunking that can be evaluated. Bytes are named by themselves, with their
length in front; a frame of one byte value over and over is packed as that byte, so that names stay
short where frames are as large as in production. The chunkers cut as far apart as they may, which is
what content-defined chunking does on bytes without any variation.
-/

namespace Ripclone.Archive

open Ripclone.Library

/-- The largest frame. -/
def blockSize : Nat := cdc.max

/-- Bytes, or the one byte a block is made of. -/
def pack : Bytes → Bytes
  | [] => [0]
  | x :: rest => if x :: rest = List.replicate blockSize x then [1, x] else 0 :: x :: rest

def unpack : Bytes → Except String Bytes
  | 0 :: raw => return raw
  | [1, x] => return List.replicate blockSize x
  | _ => throw "unknown packing"

theorem unpack_pack (raw : Bytes) : unpack (pack raw) = .ok raw := by
  cases raw with
  | nil => rfl
  | cons x rest =>
      rw [pack]
      split
      · next hblock =>
          rw [hblock]
          rfl
      · rfl

theorem pack_injective : Function.Injective pack := by
  intro a b hab
  have := unpack_pack a
  rw [hab, unpack_pack] at this
  exact (Except.ok.inj this).symm

/-- A character for each byte. -/
def text (bytes : Bytes) : String := String.ofList (bytes.map Char.ofUInt8)

def textBytes (name : String) : Bytes := name.toList.map Char.toUInt8

theorem map_toUInt8_ofUInt8 (bytes : Bytes) :
    (bytes.map Char.ofUInt8).map Char.toUInt8 = bytes := by
  rw [List.map_map]
  exact List.map_id'' (fun b => UInt8.toUInt8_toUInt32 b) bytes

theorem textBytes_text (bytes : Bytes) : textBytes (text bytes) = bytes := by
  rw [textBytes, text, String.toList_ofList, map_toUInt8_ofUInt8]

/-- What follows a base-128 number. -/
def dropVarint (bytes : Bytes) : Bytes := (bytes.dropWhile fun b => decide (128 ≤ b)).tail

theorem dropVarint_append (n : Nat) (rest : Bytes) : dropVarint (Wire.varint n ++ rest) = rest := by
  induction n using Wire.varint.induct with
  | case1 n hlt =>
      have hsmall : ¬(128 : UInt8) ≤ UInt8.ofNat n := by
        rw [UInt8.le_iff_toNat_le, Wire.toNat_ofNat (by omega)]
        exact Nat.not_le.mpr hlt
      rw [Wire.varint, if_pos hlt, List.singleton_append, dropVarint, List.dropWhile_cons,
        if_neg (by simpa using hsmall), List.tail_cons]
  | case2 n hge ih =>
      have hlarge : (128 : UInt8) ≤ UInt8.ofNat (n % 128 + 128) := by
        rw [UInt8.le_iff_toNat_le, Wire.toNat_ofNat (by omega)]
        exact Nat.le_add_left _ _
      rw [Wire.varint, if_neg hge, List.cons_append, dropVarint, List.dropWhile_cons,
        if_pos (by simpa using hlarge)]
      exact ih

/-- Names say what they name. -/
def bytesNamed (name : String) : Bytes :=
  ((unpack (dropVarint (textBytes name))).toOption).getD []

/-- The parts, each of `n` elements but the last. -/
def chunksOf (n : Nat) (xs : Bytes) : List Bytes :=
  if _h : xs = [] ∨ n = 0 then (if xs = [] then [] else [xs])
  else xs.take n :: chunksOf n (xs.drop n)
termination_by xs.length
decreasing_by
  have := List.length_pos_iff.mpr (fun hx => _h (.inl hx))
  rw [List.length_drop]
  omega

/-- How far apart to cut. -/
def cutSize (bounds : CdcBounds) : Nat := max bounds.min bounds.max

def plainTools : Tools where
  -- the varint in front recurses on a measure: to decide anything about a name unfolds everything
  hash bytes := text (Wire.sized (pack bytes))
  compress bytes := return pack bytes
  decompress := unpack
  fastCdc bounds buffer :=
    (spansFrom 0 (chunksOf (cutSize bounds) buffer)).map fun span => (span.1, span.2 - span.1)
  streamCdc bounds stream :=
    let chunks := chunksOf (cutSize bounds) stream
    return ((spansFrom 0 chunks).map Prod.fst).zip chunks

theorem flatten_chunksOf (n : Nat) (xs : Bytes) : (chunksOf n xs).flatten = xs := by
  fun_induction chunksOf n xs with
  | case1 => rfl
  | case2 xs _ _ => rw [List.flatten_singleton]
  | case3 xs _ ih => rw [List.flatten_cons, ih, List.take_append_drop]

theorem chunksOf_min (n : Nat) (xs : Bytes) :
    ∀ chunk ∈ (chunksOf n xs).dropLast, n ≤ chunk.length := by
  fun_induction chunksOf n xs with
  | case1 => simp
  | case2 xs _ _ => simp
  | case3 xs hgo ih =>
      intro chunk hchunk
      cases hrest : chunksOf n (xs.drop n) with
      | nil =>
          rw [hrest] at hchunk
          cases hchunk
      | cons next rest =>
          rw [hrest, List.dropLast_cons_cons] at hchunk
          rcases List.mem_cons.mp hchunk with rfl | hchunk
          · -- something is left after this part
            have hleft : xs.drop n ≠ [] := by
              intro hnil
              rw [hnil, chunksOf, dif_pos (.inl rfl), if_pos rfl] at hrest
              cases hrest
            have := List.length_pos_iff.mpr hleft
            rw [List.length_drop] at this
            rw [List.length_take]
            omega
          · exact ih chunk (hrest ▸ hchunk)

/-- The spans of parts, given by start and part. -/
theorem zip_spansFrom (pos : Nat) (parts : List Bytes) :
    ((((spansFrom pos parts).map Prod.fst).zip parts).map fun piece =>
      (piece.1, piece.1 + piece.2.length)) = spansFrom pos parts := by
  induction parts generalizing pos with
  | nil => rfl
  | cons part rest ih => exact congrArg _ (ih _)

theorem plainTools_ok : plainTools.Ok bytesNamed where
  hash := by
    intro bytes
    simp only [plainTools, bytesNamed, textBytes_text, Wire.sized, dropVarint_append, unpack_pack]
    rfl
  hash_delimited := by
    intro a b r s hab
    simp only [plainTools, text, String.toList_ofList] at hab
    have hbytes := congrArg (List.map Char.toUInt8) hab
    rw [List.map_append, List.map_append, map_toUInt8_ofUInt8, map_toUInt8_ofUInt8] at hbytes
    obtain ⟨rfl, _⟩ := Wire.sized_delimited pack_injective _ _ _ _ hbytes
    exact ⟨rfl, List.append_cancel_left hab⟩
  decompress := by
    intro raw compressed h
    obtain rfl := pure_eq_ok.mp h
    exact unpack_pack raw
  fastCdc := by
    intro bounds buffer
    have htiles := tiles_spansFrom 0 (chunksOf (cutSize bounds) buffer)
    rw [flatten_chunksOf, Nat.zero_add] at htiles
    simp only [plainTools, List.map_map]
    rwa [List.map_congr_left (g := id), List.map_id]
    intro span hspan
    obtain ⟨_, hle, _⟩ := htiles.mem hspan
    simp only [Function.comp_apply, Nat.add_sub_cancel' hle, id]
  streamCdc := by
    intro bounds stream pieces h
    obtain rfl := pure_eq_ok.mp h
    have htiles := tiles_spansFrom 0 (chunksOf (cutSize bounds) stream)
    rw [flatten_chunksOf, Nat.zero_add] at htiles
    refine ⟨by rwa [zip_spansFrom], ?_⟩
    rw [List.map_snd_zip (by simp), flatten_chunksOf]
  streamCdc_min := by
    intro bounds stream pieces h piece hpiece
    obtain rfl := pure_eq_ok.mp h
    have hlast := List.mem_map_of_mem (f := Prod.snd) hpiece
    rw [List.map_dropLast, List.map_snd_zip (by simp)] at hlast
    exact Nat.le_trans (Nat.le_max_left _ _) (chunksOf_min _ _ _ hlast)

end Ripclone.Archive
