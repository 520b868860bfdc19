import Ripclone.Library.Words

/-!
# Zlib streams of stored blocks

The part of a zlib stream that needs no decompression: a two byte header, deflate blocks that hold
their bytes as they are, and the Adler-32 checksum of what they hold. A stored block starts and ends at
a byte, since it follows the header or another stored block.
-/

namespace Ripclone.Library

/-! ## Adler-32 -/

def adlerBase : Nat := 65521

/-- The sum of the bytes and the sum of the sums, with one more byte. -/
def adlerStep (sums : Nat × Nat) (byte : UInt8) : Nat × Nat :=
  let a := (sums.1 + byte.toNat) % adlerBase
  (a, (sums.2 + a) % adlerBase)

def adlerSums (bytes : List UInt8) : Nat × Nat := bytes.foldl adlerStep (1, 0)

def adler32 (bytes : List UInt8) : Nat := (adlerSums bytes).2 * 65536 + (adlerSums bytes).1

theorem adlerStep_lt (sums : Nat × Nat) (byte : UInt8) :
    (adlerStep sums byte).1 < adlerBase ∧ (adlerStep sums byte).2 < adlerBase :=
  ⟨Nat.mod_lt _ (by decide), Nat.mod_lt _ (by decide)⟩

theorem adlerSums_lt (bytes : List UInt8) :
    (adlerSums bytes).1 < adlerBase ∧ (adlerSums bytes).2 < adlerBase := by
  rcases List.eq_nil_or_concat bytes with rfl | ⟨init, last, rfl⟩
  · decide
  · rw [List.concat_eq_append, adlerSums, List.foldl_append]
    exact adlerStep_lt _ _

theorem adler32_lt (bytes : List UInt8) : adler32 bytes < 256 ^ 4 := by
  have h := adlerSums_lt bytes
  unfold adlerBase at h
  unfold adler32
  omega

/-! ## Inflating -/

/-- The next block: whether it is the last, what it holds, and what follows it. -/
def storedBlock (bytes : List UInt8) : Option (Bool × List UInt8 × List UInt8) :=
  match bytes with
  | head :: l₀ :: l₁ :: n₀ :: n₁ :: rest =>
    let len := l₀.toNat + 256 * l₁.toNat
    -- the two bits after the first say which kind of block it is; the rest of the byte is padding
    if head.toNat / 2 % 4 ≠ 0 ∨ n₀.toNat + 256 * n₁.toNat ≠ 65535 - len ∨ rest.length < len then none
    else some (head.toNat % 2 = 1, rest.take len, rest.drop len)
  | _ => none

/-- Blocks up to the last one, at most `fuel` of them: what they hold, and what follows them. -/
def storedBlocks : Nat → List UInt8 → Option (List UInt8 × List UInt8)
  | 0, _ => none
  | fuel + 1, bytes =>
    match storedBlock bytes with
    | none => none
    | some (true, block, rest) => some (block, rest)
    | some (false, block, rest) =>
      (storedBlocks fuel rest).map fun later => (block ++ later.1, later.2)

/-- A zlib header: deflate with a window of at most 32 KiB, no dictionary, and a checksum. -/
def zlibHeader (cmf flg : UInt8) : Bool :=
  cmf.toNat % 16 = 8 && cmf.toNat / 16 ≤ 7 && (cmf.toNat * 256 + flg.toNat) % 31 = 0 &&
    flg.toNat / 32 % 2 = 0

/-- What the stream at the start of `bytes` holds, and how long it is. A block has at least five bytes,
so there are no more blocks than bytes. -/
def inflateStored (bytes : List UInt8) : Option (List UInt8 × Nat) :=
  match bytes with
  | cmf :: flg :: body =>
    if zlibHeader cmf flg then
      (storedBlocks body.length body).bind fun (content, rest) =>
        if 4 ≤ rest.length ∧ ofBe (rest.take 4) = adler32 content then
          some (content, bytes.length - (rest.length - 4))
        else none
    else none
  | _ => none

/-- What the blocks hold is what the stream does, when the checksum after them is right. -/
theorem inflateStored_cons {cmf flg : UInt8} {body content rest : List UInt8}
    (hheader : zlibHeader cmf flg = true)
    (hblocks : storedBlocks body.length body = some (content, rest)) (hlen : 4 ≤ rest.length)
    (hsum : ofBe (rest.take 4) = adler32 content) :
    inflateStored (cmf :: flg :: body) =
      some (content, body.length + 2 - (rest.length - 4)) := by
  rw [inflateStored, if_pos hheader, hblocks]
  exact if_pos ⟨hlen, hsum⟩

/-- More fuel does not change what was read. -/
theorem storedBlocks_mono {fuel fuel' : Nat} {bytes : List UInt8} {read : List UInt8 × List UInt8}
    (h : storedBlocks fuel bytes = some read) (hle : fuel ≤ fuel') :
    storedBlocks fuel' bytes = some read := by
  induction fuel generalizing fuel' bytes read with
  | zero => cases h
  | succ fuel ih =>
      obtain ⟨more, rfl⟩ := Nat.exists_eq_add_of_le hle
      rw [show fuel + 1 + more = (fuel + more) + 1 by omega]
      unfold storedBlocks at h ⊢
      split at h
      · cases h
      · exact h
      · obtain ⟨later, hlater, rfl⟩ := Option.map_eq_some_iff.mp h
        rw [ih hlater (Nat.le_add_right _ _)]
        rfl

end Ripclone.Library
