import Mathlib.Data.Nat.Bitwise
import Ripclone.Library.Machine
import Ripclone.Library.Text
import Ripclone.Tags.Pack

/-!
# Headers of pack objects, in machine arithmetic

`parsePackObjHeader` is on numbers without a width. `parsePackObjHeaderChecked` is the same function with
the indexing, subtractions and shifts of the source, each of which can panic. None does, and the two agree
(`parsePackObjHeaderChecked_eq`). `parsePackObjHeader_eq_ok_iff` says which headers are read.
-/

namespace Ripclone

open Ripclone.Library

/-! ## The parser -/

/-- Whether a group of a size has bits from 64 on. -/
def groupOverflows (part remaining : Nat) : Except Panic Bool :=
  if remaining < 7 then do
    let bound ← shl64 1 remaining
    return decide (bound ≤ part)
  else return false

/-- The loop over the groups of a size after the first, `i` the next byte. -/
def sizeLoop (buf : Bytes) (size shift i : Nat) : Except Panic (Except PackObjError (Nat × Nat)) :=
  if 64 ≤ shift then .ok (.error .sizeOverflow)
  else if _h : buf.length ≤ i then .ok (.error .truncatedSize)
  else do
    let b ← indexChecked buf i
    let next ← addWidth 64 i 1
    let part := b.toNat &&& 0x7f
    let remaining ← subChecked 64 shift
    let overflows ← groupOverflows part remaining
    if overflows then .ok (.error .sizeOverflow)
    else do
      let high ← shl64 part shift
      let size := size ||| high
      let shift ← addWidth 32 shift 7
      if b.toNat &&& 0x80 ≠ 0 then sizeLoop buf size shift (i + 1)
      else .ok (.ok (size, next))
termination_by buf.length - i

def parsePackObjHeaderChecked (buf : Bytes) :
    Except Panic (Except PackObjError (Nat × Nat × Nat)) :=
  if buf.isEmpty then .ok (.error .truncatedHeader)
  else do
    let b ← indexChecked buf 0
    let i ← addWidth 64 0 1
    let objType := b.toNat >>> 4 &&& 0x07
    let size := b.toNat &&& 0x0f
    if b.toNat &&& 0x80 ≠ 0 then do
      let rest ← sizeLoop buf size 4 i
      return rest.map fun r => (objType, r.1, r.2)
    else return .ok (objType, size, i)

/-! ## No panic -/

theorem and_high (b : UInt8) : (b.toNat &&& 0x80 ≠ 0) ↔ 128 ≤ b.toNat := by
  have hlt : b.toNat < 2 ^ 8 := b.toNat_lt
  have hbit : b.toNat &&& 0x80 = b.toNat / 2 ^ 7 % 2 * 2 ^ 7 := by
    rw [← Nat.toNat_testBit]
    exact Nat.and_two_pow b.toNat 7
  rw [hbit]
  omega

theorem groupOverflows_eq {part remaining : Nat} :
    groupOverflows part remaining = .ok (decide (remaining < 7 ∧ 2 ^ remaining ≤ part)) := by
  unfold groupOverflows
  split
  · next h =>
      have hpow : 1 <<< remaining % 2 ^ 64 = 2 ^ remaining := by
        rw [Nat.one_shiftLeft]
        exact Nat.mod_eq_of_lt (Nat.pow_lt_pow_right (by decide) (by omega))
      rw [shl64, if_pos (by omega), hpow]
      show Except.ok _ = _
      simp [h]
  · next h =>
      show Except.ok _ = _
      simp [h]

/-- A group whose bits all fit. -/
theorem part_lt {part shift : Nat} (hpart : part < 128)
    (hfits : ¬ (64 - shift < 7 ∧ 2 ^ (64 - shift) ≤ part)) : part < 2 ^ (64 - shift) := by
  by_cases hfew : 64 - shift < 7
  · exact Nat.lt_of_not_le fun hle => hfits ⟨hfew, hle⟩
  · have hseven : 2 ^ 7 ≤ 2 ^ (64 - shift) := Nat.pow_le_pow_right (by decide) (by omega)
    exact Nat.lt_of_lt_of_le hpart hseven

theorem two_pow_split {shift : Nat} (hshift : shift < 64) :
    2 ^ 64 = 2 ^ (64 - shift) * 2 ^ shift := by
  rw [← Nat.pow_add, Nat.sub_add_cancel (Nat.le_of_lt hshift)]

/-- Numbers of `high * low` put together from two parts. -/
theorem add_mul_lt {a b low high : Nat} (ha : a < low) (hb : b < high) : a + b * low < high * low := by
  have hscaled := Nat.mul_le_mul_right low (Nat.succ_le_of_lt hb)
  rw [Nat.succ_mul] at hscaled
  omega

theorem shl64_eq {part shift : Nat} (hpart : part < 2 ^ (64 - shift)) (hshift : shift < 64) :
    shl64 part shift = .ok (part * 2 ^ shift) := by
  have hbound : part * 2 ^ shift < 2 ^ 64 := by
    rw [two_pow_split hshift]
    exact (Nat.mul_lt_mul_right (Nat.two_pow_pos shift)).mpr hpart
  rw [shl64, if_pos hshift, Nat.shiftLeft_eq, Nat.mod_eq_of_lt hbound]

/-- The bits read so far are below the ones that come. -/
theorem or_high {size part shift : Nat} (h : size < 2 ^ shift) :
    size ||| part * 2 ^ shift = size + part * 2 ^ shift := by
  rw [Nat.or_comm, ← Nat.shiftLeft_eq, ← Nat.shiftLeft_add_eq_or_of_lt h, Nat.add_comm]

theorem sizeLoop_eq {buf : Bytes} {size shift i : Nat} (hsize : size < 2 ^ shift) (hi : i ≤ shift)
    (hshift : shift < 71) : sizeLoop buf size shift i = .ok (packObjSize size shift i (buf.drop i)) := by
  induction hleft : buf.length - i generalizing size shift i with
  | zero =>
      have hend : buf.length ≤ i := by omega
      rw [sizeLoop, List.drop_eq_nil_of_le hend, packObjSize, dif_pos hend]
      split <;> rfl
  | succ left ih =>
      have hlt : i < buf.length := by omega
      rw [sizeLoop, List.drop_eq_getElem_cons hlt, packObjSize]
      by_cases hover : 64 ≤ shift
      · rw [if_pos hover, if_pos hover]
        rfl
      rw [if_neg hover, if_neg hover, dif_neg (by omega), indexChecked_of_lt hlt]
      generalize buf[i] = b
      have hpart : b.toNat &&& 0x7f = b.toNat % 128 := Nat.and_two_pow_sub_one_eq_mod _ 7
      have hremaining : subChecked 64 shift = .ok (64 - shift) := if_pos (by omega)
      simp only [ok_bind_panic, addWidth_of_lt (show i + 1 < 2 ^ 64 by omega), hpart, hremaining,
        groupOverflows_eq, decide_eq_true_eq]
      by_cases hfits : 64 - shift < 7 ∧ 2 ^ (64 - shift) ≤ b.toNat % 128
      · rw [if_pos hfits, if_pos hfits]
        rfl
      have hgroup : b.toNat % 128 < 2 ^ 7 := Nat.mod_lt _ (by decide)
      rw [if_neg hfits, if_neg hfits, shl64_eq (part_lt hgroup hfits) (by omega), ok_bind_panic, or_high hsize,
        addWidth_of_lt (by omega), ok_bind_panic]
      by_cases hmore : 128 ≤ b.toNat
      · have hnext : size + b.toNat % 128 * 2 ^ shift < 2 ^ (shift + 7) := by
          rw [Nat.pow_add, Nat.mul_comm (2 ^ shift)]
          exact add_mul_lt hsize hgroup
        rw [if_pos ((and_high b).mpr hmore), if_pos hmore]
        exact ih hnext (by omega) (by omega) (by omega)
      · rw [if_neg fun h => hmore ((and_high b).mp h), if_neg hmore]
        rfl

/-- Nothing in the parser panics. -/
theorem parsePackObjHeaderChecked_eq (buf : Bytes) :
    parsePackObjHeaderChecked buf = .ok (parsePackObjHeader buf) := by
  cases buf with
  | nil => rfl
  | cons b rest =>
      have hsize : b.toNat &&& 0x0f = b.toNat % 16 := Nat.and_two_pow_sub_one_eq_mod _ 4
      have htype : b.toNat >>> 4 &&& 0x07 = b.toNat / 16 % 8 := by
        rw [Nat.shiftRight_eq_div_pow]
        exact Nat.and_two_pow_sub_one_eq_mod _ 3
      have hlow : b.toNat % 16 < 2 ^ 4 := Nat.mod_lt _ (by decide)
      rw [parsePackObjHeaderChecked, if_neg (by simp), indexChecked_of_lt (by simp), ok_bind_panic,
        addWidth_of_lt (by decide), ok_bind_panic, List.getElem_cons_zero, hsize, htype,
        parsePackObjHeader]
      dsimp only
      by_cases hmore : 128 ≤ b.toNat
      · rw [if_pos ((and_high b).mpr hmore), if_pos hmore, sizeLoop_eq hlow (by decide) (by decide),
          ok_bind_panic, List.drop_one, List.tail_cons]
        cases packObjSize (b.toNat % 16) 4 1 rest with
        | error _ => rfl
        | ok _ => rfl
      · rw [if_neg fun h => hmore ((and_high b).mp h), if_neg hmore]
        rfl

/-! ## What is read -/

/-- All but the last byte say that more comes. -/
def CompleteHeader (header : Bytes) : Prop :=
  ∃ more last, header = more ++ [last] ∧ (∀ b ∈ more, 128 ≤ b.toNat) ∧ last.toNat < 128

/-- The number in groups of seven bits, the lowest first. -/
def groupsValue : Bytes → Nat
  | [] => 0
  | b :: rest => b.toNat % 128 + 128 * groupsValue rest

/-- The size in a header, four bits of it in the first byte. -/
def headerSize : Bytes → Nat
  | [] => 0
  | b :: rest => b.toNat % 16 + 16 * groupsValue rest

def headerType (header : Bytes) : Nat := (header.headD 0).toNat / 16 % 8

theorem CompleteHeader.cons {b : UInt8} {rest : Bytes} (hb : 128 ≤ b.toNat) (h : CompleteHeader rest) :
    CompleteHeader (b :: rest) := by
  obtain ⟨more, last, rfl, hmore, hlast⟩ := h
  exact ⟨b :: more, last, rfl, List.forall_mem_cons.mpr ⟨hb, hmore⟩, hlast⟩

theorem CompleteHeader.cons_inv {b : UInt8} {rest : Bytes} (h : CompleteHeader (b :: rest)) :
    (128 ≤ b.toNat ∧ CompleteHeader rest) ∨ (b.toNat < 128 ∧ rest = []) := by
  obtain ⟨more, last, heq, hmore, hlast⟩ := h
  cases more with
  | nil =>
      obtain ⟨rfl, rfl⟩ := List.cons.inj heq
      exact .inr ⟨hlast, rfl⟩
  | cons first more =>
      obtain ⟨rfl, rfl⟩ := List.cons.inj heq
      obtain ⟨hb, hmore⟩ := List.forall_mem_cons.mp hmore
      exact .inl ⟨hb, more, last, rfl, hmore, hlast⟩

theorem CompleteHeader.eq_cons {b : UInt8} {buf header rest : Bytes} (h : CompleteHeader header)
    (heq : b :: buf = header ++ rest) : ∃ tail, header = b :: tail := by
  obtain ⟨more, last, rfl, -⟩ := h
  cases more with
  | nil => exact ⟨[], by rw [(List.cons.inj heq).1]; rfl⟩
  | cons first more => exact ⟨more ++ [last], by rw [(List.cons.inj heq).1]; rfl⟩

theorem groupsValue_cons_scaled (b : UInt8) (rest : Bytes) (shift : Nat) :
    groupsValue (b :: rest) * 2 ^ shift =
      b.toNat % 128 * 2 ^ shift + groupsValue rest * 2 ^ (shift + 7) := by
  rw [groupsValue, Nat.pow_add]
  ring

/-- What the loop reads: the groups up to the first byte without the high bit, ten bytes in all at most. -/
theorem packObjSize_eq_ok_iff {buf : Bytes} {size shift used value total : Nat}
    (hsize : size < 2 ^ shift) (hshift : shift + 3 = 7 * used) :
    packObjSize size shift used buf = .ok (value, total) ↔
      ∃ groups rest, buf = groups ++ rest ∧ CompleteHeader groups ∧ used + groups.length ≤ 10 ∧
        size + groupsValue groups * 2 ^ shift < 2 ^ 64 ∧
        value = size + groupsValue groups * 2 ^ shift ∧ total = used + groups.length := by
  induction buf generalizing size shift used with
  | nil =>
      constructor
      · intro h
        rw [packObjSize] at h
        split at h <;> cases h
      · rintro ⟨groups, rest, heq, ⟨more, last, rfl, -⟩, -⟩
        simp at heq
  | cons b buf ih =>
      rw [packObjSize]
      by_cases hover : 64 ≤ shift
      · rw [if_pos hover]
        constructor
        · intro h
          cases h
        · rintro ⟨groups, rest, -, ⟨more, last, rfl, -⟩, hlength, -⟩
          rw [List.length_append, List.length_singleton] at hlength
          omega
      rw [if_neg hover]
      dsimp only
      have hgroup : b.toNat % 128 < 2 ^ 7 := Nat.mod_lt _ (by decide)
      by_cases hfits : 64 - shift < 7 ∧ 2 ^ (64 - shift) ≤ b.toNat % 128
      · rw [if_pos hfits]
        constructor
        · intro h
          cases h
        · rintro ⟨groups, rest, heq, hcomplete, -, hvalue, -⟩
          -- the first group alone is too much
          obtain ⟨groups, rfl⟩ := hcomplete.eq_cons heq
          have hlarge := Nat.mul_le_mul_right (2 ^ shift) hfits.2
          rw [← two_pow_split (by omega)] at hlarge
          rw [groupsValue_cons_scaled] at hvalue
          omega
      rw [if_neg hfits]
      by_cases hmore : 128 ≤ b.toNat
      · have hnext : size + b.toNat % 128 * 2 ^ shift < 2 ^ (shift + 7) := by
          rw [Nat.pow_add, Nat.mul_comm (2 ^ shift)]
          exact add_mul_lt hsize hgroup
        rw [if_pos hmore, ih hnext (by omega)]
        constructor
        · rintro ⟨groups, rest, rfl, hcomplete, hlength, hvalue, rfl, rfl⟩
          refine ⟨b :: groups, rest, rfl, hcomplete.cons hmore, ?_⟩
          rw [groupsValue_cons_scaled, List.length_cons]
          exact ⟨by omega, by omega, by omega, by omega⟩
        · rintro ⟨groups, rest, heq, hcomplete, hlength, hvalue, rfl, rfl⟩
          obtain ⟨groups, rfl⟩ := hcomplete.eq_cons heq
          obtain ⟨-, rfl⟩ := List.cons.inj heq
          obtain ⟨-, hcomplete⟩ | ⟨hlow, -⟩ := hcomplete.cons_inv
          · rw [groupsValue_cons_scaled, List.length_cons] at *
            exact ⟨groups, rest, rfl, hcomplete, by omega, by omega, by omega, by omega⟩
          · omega
      · have hbound : size + b.toNat % 128 * 2 ^ shift < 2 ^ 64 := by
          rw [two_pow_split (show shift < 64 by omega)]
          exact add_mul_lt hsize (part_lt hgroup hfits)
        rw [if_neg hmore]
        constructor
        · intro h
          obtain ⟨rfl, rfl⟩ := Prod.mk.inj (Except.ok.inj h)
          refine ⟨[b], buf, rfl, ⟨[], b, rfl, by simp, by omega⟩, ?_⟩
          rw [groupsValue_cons_scaled, groupsValue, List.length_singleton]
          exact ⟨by omega, by omega, by omega, by omega⟩
        · rintro ⟨groups, rest, heq, hcomplete, hlength, hvalue, rfl, rfl⟩
          obtain ⟨groups, rfl⟩ := hcomplete.eq_cons heq
          obtain ⟨hhigh, -⟩ | ⟨-, rfl⟩ := hcomplete.cons_inv
          · exact absurd hhigh hmore
          · rw [groupsValue_cons_scaled, groupsValue]
            simp

/-- A header is read when it is whole, no longer than ten bytes, and its size fits in 64 bits. -/
theorem parsePackObjHeader_eq_ok_iff {buf : Bytes} {kind size used : Nat} :
    parsePackObjHeader buf = .ok (kind, size, used) ↔
      ∃ header rest, buf = header ++ rest ∧ CompleteHeader header ∧ header.length ≤ 10 ∧
        headerSize header < 2 ^ 64 ∧ kind = headerType header ∧ size = headerSize header ∧
        used = header.length := by
  cases buf with
  | nil =>
      constructor
      · intro h
        cases h
      · rintro ⟨header, rest, heq, ⟨more, last, rfl, -⟩, -⟩
        simp at heq
  | cons b buf =>
      have hlow : b.toNat % 16 < 2 ^ 4 := Nat.mod_lt _ (by decide)
      rw [parsePackObjHeader]
      dsimp only
      by_cases hmore : 128 ≤ b.toNat
      · rw [if_pos hmore, bind_eq_ok]
        constructor
        · rintro ⟨⟨value, total⟩, hread, h⟩
          obtain ⟨rfl, hsize⟩ := Prod.mk.inj (Except.ok.inj h)
          obtain ⟨rfl, rfl⟩ := Prod.mk.inj hsize
          obtain ⟨groups, rest, rfl, hcomplete, hlength, hvalue, rfl, rfl⟩ :=
            (packObjSize_eq_ok_iff hlow (by decide)).mp hread
          refine ⟨b :: groups, rest, rfl, hcomplete.cons hmore, ?_⟩
          rw [headerSize, List.length_cons]
          exact ⟨by omega, by omega, rfl, by omega, by omega⟩
        · rintro ⟨header, rest, heq, hcomplete, hlength, hvalue, rfl, rfl, rfl⟩
          obtain ⟨groups, rfl⟩ := hcomplete.eq_cons heq
          obtain ⟨-, rfl⟩ := List.cons.inj heq
          obtain ⟨-, hcomplete⟩ | ⟨hsmall, -⟩ := hcomplete.cons_inv
          · rw [headerSize, List.length_cons] at *
            refine ⟨(b.toNat % 16 + groupsValue groups * 2 ^ 4, 1 + groups.length), ?_, ?_⟩
            · exact (packObjSize_eq_ok_iff hlow (by decide)).mpr
                ⟨groups, rest, rfl, hcomplete, by omega, by omega, rfl, rfl⟩
            · rw [Nat.mul_comm, Nat.add_comm 1]
              rfl
          · omega
      · rw [if_neg hmore]
        constructor
        · intro h
          obtain ⟨rfl, hsize⟩ := Prod.mk.inj (Except.ok.inj h)
          obtain ⟨rfl, rfl⟩ := Prod.mk.inj hsize
          refine ⟨[b], buf, rfl, ⟨[], b, rfl, by simp, by omega⟩, by simp, ?_⟩
          rw [headerSize, groupsValue]
          exact ⟨by omega, rfl, by omega, rfl⟩
        · rintro ⟨header, rest, heq, hcomplete, -, -, rfl, rfl, rfl⟩
          obtain ⟨groups, rfl⟩ := hcomplete.eq_cons heq
          obtain ⟨hhigh, -⟩ | ⟨-, rfl⟩ := hcomplete.cons_inv
          · exact absurd hhigh hmore
          · rfl

theorem CompleteHeader.not_truncated {header rest : Bytes} (h : CompleteHeader header) :
    ¬ ∀ b ∈ header ++ rest, 128 ≤ b.toNat := by
  obtain ⟨more, last, rfl, -, hlast⟩ := h
  intro hall
  have := hall last (by simp)
  omega

/-- Bytes with a last byte of a header among them start with a whole header. -/
theorem exists_completeHeader {buf : Bytes} (h : ¬ ∀ b ∈ buf, 128 ≤ b.toNat) :
    ∃ header rest, buf = header ++ rest ∧ CompleteHeader header := by
  induction buf with
  | nil => simp at h
  | cons b buf ih =>
      by_cases hb : 128 ≤ b.toNat
      · have hbuf : ¬ ∀ b ∈ buf, 128 ≤ b.toNat := fun hall =>
          h (List.forall_mem_cons.mpr ⟨hb, hall⟩)
        obtain ⟨header, rest, rfl, hcomplete⟩ := ih hbuf
        exact ⟨b :: header, rest, rfl, hcomplete.cons hb⟩
      · exact ⟨[b], buf, rfl, [], b, rfl, by simp, by omega⟩

/-- Bytes start with one header at most. -/
theorem CompleteHeader.unique {header header' rest rest' : Bytes} (h : CompleteHeader header)
    (h' : CompleteHeader header') (heq : header ++ rest = header' ++ rest') : header = header' := by
  induction header generalizing header' with
  | nil =>
      obtain ⟨more, last, hnil, -⟩ := h
      simp at hnil
  | cons b header ih =>
      obtain ⟨tail, rfl⟩ := h'.eq_cons heq
      obtain ⟨-, heq⟩ := List.cons.inj heq
      obtain ⟨hb, h⟩ | ⟨hb, rfl⟩ := h.cons_inv
      · obtain ⟨-, h'⟩ | ⟨hlow, -⟩ := h'.cons_inv
        · rw [ih h h' heq]
        · omega
      · obtain ⟨hhigh, -⟩ | ⟨-, rfl⟩ := h'.cons_inv
        · omega
        · rfl

/-- The parser does not panic, reads git's headers back, and fails on just the headers that are not
whole, take more than ten bytes, or have a size of 65 bits or more. -/
theorem parsePackObjHeader_exact :
    (∀ kind size rest, 1 ≤ kind → kind ≤ 7 → size < 2 ^ 64 →
      parsePackObjHeaderChecked (Tags.gitObjHeader kind size ++ rest) =
        .ok (.ok (kind, size, (Tags.gitObjHeader kind size).length))) ∧
    ∀ buf, ∃ result, parsePackObjHeaderChecked buf = .ok result ∧
      ((∃ error, result = .error error) ↔ (∀ b ∈ buf, 128 ≤ b.toNat) ∨
        ∃ header rest, buf = header ++ rest ∧ CompleteHeader header ∧
          (2 ^ 64 ≤ headerSize header ∨ 10 < header.length)) := by
  constructor
  · intro kind size rest _ hkind hsize
    rw [parsePackObjHeaderChecked_eq, Tags.parsePackObjHeader_gitObjHeader (by omega) hsize]
  intro buf
  refine ⟨parsePackObjHeader buf, parsePackObjHeaderChecked_eq buf, ?_⟩
  constructor
  · rintro ⟨error, herror⟩
    by_cases htruncated : ∀ b ∈ buf, 128 ≤ b.toNat
    · exact .inl htruncated
    right
    obtain ⟨header, rest, hbuf, hcomplete⟩ := exists_completeHeader htruncated
    refine ⟨header, rest, hbuf, hcomplete, ?_⟩
    by_contra hfits
    rw [not_or, Nat.not_le, Nat.not_lt] at hfits
    have hok := parsePackObjHeader_eq_ok_iff.mpr
      ⟨header, rest, hbuf, hcomplete, hfits.2, hfits.1, rfl, rfl, rfl⟩
    rw [herror] at hok
    cases hok
  · intro hbad
    cases hresult : parsePackObjHeader buf with
    | error error => exact ⟨error, rfl⟩
    | ok result =>
        obtain ⟨kind, size, used⟩ := result
        obtain ⟨header, rest, rfl, hcomplete, hlength, hsize, -⟩ :=
          parsePackObjHeader_eq_ok_iff.mp hresult
        rcases hbad with htruncated | ⟨header', rest', heq, hcomplete', hbad⟩
        · exact absurd htruncated hcomplete.not_truncated
        · obtain rfl := hcomplete.unique hcomplete' heq
          omega

/-- A tag of the largest size, with two bytes after its header. -/
theorem largest_tag_read :
    parsePackObjHeaderChecked (Tags.gitObjHeader 4 (2 ^ 64 - 1) ++ [0x78, 0x01]) =
      .ok (.ok (4, 2 ^ 64 - 1, (Tags.gitObjHeader 4 (2 ^ 64 - 1)).length)) :=
  parsePackObjHeader_exact.1 4 (2 ^ 64 - 1) [0x78, 0x01] (by decide) (by decide) (by decide)

/-- Size zero, said with ten groups of zeros more than it needs. -/
def paddedHeader : Bytes := 0x90 :: (List.replicate 9 0x80 ++ [0])

/-- A header that is whole and has a size of no bits is refused for its length. -/
theorem padded_header_refused : ¬ ∀ buf, (∃ error, parsePackObjHeaderChecked buf = .ok (.error error)) ↔
    (∀ b ∈ buf, 128 ≤ b.toNat) ∨ ∃ header rest, buf = header ++ rest ∧ CompleteHeader header ∧
      2 ^ 64 ≤ headerSize header := by
  intro hclaim
  have hcomplete : CompleteHeader paddedHeader :=
    ⟨0x90 :: List.replicate 9 0x80, 0, rfl, forall_mem_of_all (by decide), by decide⟩
  have hrefused : parsePackObjHeaderChecked paddedHeader = .ok (.error .sizeOverflow) := by
    rw [parsePackObjHeaderChecked_eq]
    decide
  rcases (hclaim paddedHeader).mp ⟨_, hrefused⟩ with htruncated | ⟨header, rest, heq, hheader, hsize⟩
  · exact hcomplete.not_truncated (by rwa [List.append_nil paddedHeader])
  · rw [← List.append_nil paddedHeader] at heq
    obtain rfl := hcomplete.unique hheader heq
    exact absurd hsize (by decide)

end Ripclone
