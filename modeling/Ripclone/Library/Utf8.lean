import Mathlib.Algebra.GroupWithZero.Nat
import Mathlib.Data.List.Basic
import Mathlib.Tactic.SplitIfs

/-!
# Bytes read as text

UTF-8 with bytes that are not it replaced, the usual way to show a name that may hold anything: each
longest piece that begins a character but does not end it reads as U+FFFD, and so does each byte that
cannot begin one.
-/

namespace Ripclone.Library.Utf8

/-- For a byte that begins a longer character: how many bytes follow it, and the range of the
first of them. -/
def lead (b : UInt8) : Option (Nat × UInt8 × UInt8) :=
  if 0xc2 ≤ b ∧ b ≤ 0xdf then some (1, 0x80, 0xbf)
  else if b = 0xe0 then some (2, 0xa0, 0xbf)
  else if b = 0xed then some (2, 0x80, 0x9f)
  else if 0xe1 ≤ b ∧ b ≤ 0xef then some (2, 0x80, 0xbf)
  else if b = 0xf0 then some (3, 0x90, 0xbf)
  else if b = 0xf4 then some (3, 0x80, 0x8f)
  else if 0xf1 ≤ b ∧ b ≤ 0xf3 then some (3, 0x80, 0xbf)
  else none

/-- The bytes that continue a character, of the `n` it takes, the first of them in `lo`–`hi`. -/
def continued : Nat → UInt8 → UInt8 → List UInt8 → List UInt8
  | n + 1, lo, hi, b :: rest =>
    if lo ≤ b ∧ b ≤ hi then b :: continued n 0x80 0xbf rest else []
  | _, _, _, _ => []

def replacement : Char := '\ufffd'

/-- The bits a leading byte carries when `n` bytes follow it. -/
def leadBits (n : Nat) (b : UInt8) : Nat := b.toNat % 2 ^ (6 - n)

/-- The first character, and how many bytes it took. -/
def first (b : UInt8) (rest : List UInt8) : Char × Nat :=
  if b < 0x80 then (Char.ofNat b.toNat, 1)
  else
    match lead b with
    | none => (replacement, 1)
    | some (n, lo, hi) =>
      let more := continued n lo hi rest
      if more.length = n then
        (Char.ofNat (more.foldl (fun code b => code * 64 + b.toNat % 64) (leadBits n b)), n + 1)
      else (replacement, more.length + 1)

def decode : Nat → List UInt8 → List Char
  | fuel + 1, b :: rest =>
    let (c, taken) := first b rest
    c :: decode fuel (rest.drop (taken - 1))
  | _, _ => []

/-- Every byte is part of one character, so there are at most as many characters as bytes. -/
def lossy (bytes : List UInt8) : String := String.ofList (decode bytes.length bytes)

/-! ## Texts as bytes -/

/-- The bytes of a text. -/
def encode (text : String) : List UInt8 := text.toList.flatMap String.utf8EncodeChar

/-- The text whose bytes these are. -/
def strict (bytes : List UInt8) : Option String :=
  if encode (lossy bytes) = bytes then some (lossy bytes) else none

@[simp] theorem encode_append (a b : String) : encode (a ++ b) = encode a ++ encode b := by
  simp [encode]

theorem encode_ofList_append (a b : List Char) :
    encode (String.ofList (a ++ b)) = encode (String.ofList a) ++ encode (String.ofList b) := by
  simp [encode]

theorem length_encode (text : String) : (encode text).length = text.utf8ByteSize := by
  rw [String.utf8ByteSize, ← String.utf8Encode_toList]
  simp [encode, List.utf8Encode]

theorem continued_ofNat {n k : Nat} {lo hi : UInt8} (hk : k < 256) (hlo : lo.toNat ≤ k)
    (hhi : k ≤ hi.toNat) (rest : List UInt8) :
    continued (n + 1) lo hi (UInt8.ofNat k :: rest) =
      UInt8.ofNat k :: continued n 0x80 0xbf rest := by
  rw [continued, if_pos]
  rw [UInt8.le_iff_toNat_le, UInt8.le_iff_toNat_le, UInt8.toNat_ofNat_of_lt' hk]
  exact ⟨hlo, hhi⟩

theorem lead_ofNat {k : Nat} (hk : k < 256) :
    lead (UInt8.ofNat k) =
      if 0xc2 ≤ k ∧ k ≤ 0xdf then some (1, 0x80, 0xbf)
      else if k = 0xe0 then some (2, 0xa0, 0xbf)
      else if k = 0xed then some (2, 0x80, 0x9f)
      else if 0xe1 ≤ k ∧ k ≤ 0xef then some (2, 0x80, 0xbf)
      else if k = 0xf0 then some (3, 0x90, 0xbf)
      else if k = 0xf4 then some (3, 0x80, 0x8f)
      else if 0xf1 ≤ k ∧ k ≤ 0xf3 then some (3, 0x80, 0xbf)
      else none := by
  simp only [lead, UInt8.le_iff_toNat_le, ← UInt8.toNat_inj, UInt8.toNat_ofNat_of_lt' hk,
    UInt8.reduceToNat]

/-- A byte below `0x80` is a character of its own. -/
theorem first_ascii {k : Nat} (hk : k < 0x80) (rest : List UInt8) :
    first (UInt8.ofNat k) rest = (Char.ofNat k, 1) := by
  have hbyte : (UInt8.ofNat k).toNat = k := UInt8.toNat_ofNat_of_lt' (by show k < 256; omega)
  have hlow : UInt8.ofNat k < 0x80 := by
    rw [UInt8.lt_iff_toNat_lt, hbyte]
    exact hk
  rw [first, if_pos hlow, hbyte]

theorem first_of_continued {k n : Nat} {lo hi : UInt8} {more rest : List UInt8} (hk : 0x80 ≤ k)
    (hk' : k < 256) (hlead : lead (UInt8.ofNat k) = some (n, lo, hi)) (hlen : more.length = n)
    (hmore : continued n lo hi (more ++ rest) = more) :
    first (UInt8.ofNat k) (more ++ rest) =
      (Char.ofNat (more.foldl (fun code b => code * 64 + b.toNat % 64)
        (leadBits n (UInt8.ofNat k))), n + 1) := by
  have hhigh : ¬ UInt8.ofNat k < 0x80 := by
    rw [UInt8.lt_iff_toNat_lt, UInt8.toNat_ofNat_of_lt' hk']
    exact Nat.not_lt.mpr hk
  simp only [first, if_neg hhigh, hlead, hmore, if_pos hlen]

/-- The range of a second byte leaves out what is written shorter and what is no character. -/
theorem lead_two {a b : Nat} (ha : a < 16) (hshort : a = 0 → 32 ≤ b) (hsurrogate : a = 13 → b < 32)
    (hb : b < 64) :
    ∃ lo hi : UInt8, lead (UInt8.ofNat (a + 0xe0)) = some (2, lo, hi) ∧ lo.toNat ≤ b + 0x80 ∧
      b + 0x80 ≤ hi.toNat := by
  rw [lead_ofNat (by omega), if_neg (by omega)]
  split_ifs
  · exact ⟨_, _, rfl, by simp; omega, by simp; omega⟩
  · exact ⟨_, _, rfl, by simp, by simp; omega⟩
  · exact ⟨_, _, rfl, by simp, by simp; omega⟩
  all_goals omega

theorem lead_three {a b : Nat} (ha : a ≤ 4) (hshort : a = 0 → 16 ≤ b) (hlarge : a = 4 → b < 16)
    (hb : b < 64) :
    ∃ lo hi : UInt8, lead (UInt8.ofNat (a + 0xf0)) = some (3, lo, hi) ∧ lo.toNat ≤ b + 0x80 ∧
      b + 0x80 ≤ hi.toNat := by
  rw [lead_ofNat (by omega), if_neg (by omega), if_neg (by omega), if_neg (by omega),
    if_neg (by omega)]
  split_ifs
  · exact ⟨_, _, rfl, by simp; omega, by simp; omega⟩
  · exact ⟨_, _, rfl, by simp, by simp; omega⟩
  · exact ⟨_, _, rfl, by simp, by simp; omega⟩
  all_goals omega

/-- A character is read from its own bytes, whatever follows them. -/
theorem first_utf8EncodeChar (c : Char) (rest : List UInt8) :
    ∃ b more, String.utf8EncodeChar c = b :: more ∧
      first b (more ++ rest) = (c, more.length + 1) := by
  have hc : Char.ofNat c.val.toNat = c := Char.ofNat_toNat c
  have hvalid : c.val.toNat < 0xd800 ∨ 0xdfff < c.val.toNat ∧ c.val.toNat < 0x110000 := c.valid
  unfold String.utf8EncodeChar
  generalize c.val.toNat = v at hc hvalid
  have hcode : ∀ code, code = v → Char.ofNat code = c := by
    rintro code rfl
    exact hc
  have htail : ∀ (n k : Nat), k < 64 → ∀ rest, continued (n + 1) 0x80 0xbf
      (UInt8.ofNat (k + 0x80) :: rest) = UInt8.ofNat (k + 0x80) :: continued n 0x80 0xbf rest := by
    intro n k hk rest
    exact continued_ofNat (by omega) (by simp) (by simp; omega) rest
  dsimp only
  -- one case for each length of an encoding
  split_ifs with h1 h2 h3
  · exact ⟨_, _, rfl, by rw [first_ascii (by omega), hc]; rfl⟩
  · refine ⟨_, _, rfl, ?_⟩
    have hlead : lead (UInt8.ofNat (v / 64 % 32 + 192)) = some (1, 0x80, 0xbf) := by
      rw [lead_ofNat (by omega), if_pos (by omega)]
    rw [first_of_continued (by omega) (by omega) hlead rfl, hcode]
    · rfl
    · simp [leadBits]
      omega
    · rw [List.cons_append, htail _ _ (by omega), continued]
      simp
  · refine ⟨_, _, rfl, ?_⟩
    obtain ⟨lo, hi, hlead, hlo, hhi⟩ := lead_two (a := v / 4096 % 16) (b := v / 64 % 64) (by omega)
      (by omega) (by omega) (by omega)
    rw [first_of_continued (by omega) (by omega) hlead rfl, hcode]
    · rfl
    · simp [leadBits]
      omega
    · rw [List.cons_append, continued_ofNat (by omega) hlo hhi, List.cons_append,
        htail _ _ (by omega), continued]
      simp
  · refine ⟨_, _, rfl, ?_⟩
    obtain ⟨lo, hi, hlead, hlo, hhi⟩ := lead_three (a := v / 262144 % 8) (b := v / 4096 % 64)
      (by omega) (by omega) (by omega) (by omega)
    rw [first_of_continued (by omega) (by omega) hlead rfl, hcode]
    · rfl
    · simp [leadBits]
      omega
    · rw [List.cons_append, continued_ofNat (by omega) hlo hhi, List.cons_append,
        htail _ _ (by omega), List.cons_append, htail _ _ (by omega), continued]
      simp

/-! ## Reading back -/

/-- Fuel beyond the number of bytes is not used. -/
theorem decode_fuel {fuel : Nat} {bytes : List UInt8} (h : bytes.length ≤ fuel) :
    decode fuel bytes = decode bytes.length bytes := by
  induction fuel using Nat.strongRecOn generalizing bytes with
  | _ fuel ih =>
      cases bytes with
      | nil => cases fuel <;> rfl
      | cons b rest =>
          cases fuel with
          | zero => cases h
          | succ fuel =>
              have hlen : (rest.drop ((first b rest).2 - 1)).length ≤ rest.length := by simp
              have hfuel : rest.length ≤ fuel := by simpa using h
              rw [List.length_cons, decode, decode]
              dsimp only
              congr 1
              rw [ih fuel (Nat.lt_succ_self _) (Nat.le_trans hlen hfuel)]
              rw [ih rest.length (by omega) hlen]

theorem decode_cons (b : UInt8) (rest : List UInt8) :
    (lossy (b :: rest)).toList =
      (first b rest).1 :: (lossy (rest.drop ((first b rest).2 - 1))).toList := by
  simp only [lossy, String.toList_ofList, List.length_cons, decode]
  congr 1
  exact decode_fuel (by simp)

/-- What follows a character is read as it would be alone. -/
theorem lossy_encodeChar_append (c : Char) (rest : List UInt8) :
    (lossy (String.utf8EncodeChar c ++ rest)).toList = c :: (lossy rest).toList := by
  obtain ⟨b, more, hbytes, hfirst⟩ := first_utf8EncodeChar c rest
  rw [hbytes, List.cons_append, decode_cons, hfirst]
  simp

/-- A text's bytes read as the text, whatever follows them. -/
theorem lossy_encode_append (text : String) (rest : List UInt8) :
    lossy (encode text ++ rest) = text ++ lossy rest := by
  apply String.toList_inj.mp
  rw [String.toList_append, encode]
  induction text.toList with
  | nil => rfl
  | cons c cs ih => rw [List.flatMap_cons, List.append_assoc, lossy_encodeChar_append, ih]; rfl

@[simp] theorem lossy_encode (text : String) : lossy (encode text) = text := by
  have h := lossy_encode_append text []
  rw [List.append_nil] at h
  rw [h]
  exact String.append_empty

theorem encode_injective : Function.Injective encode :=
  Function.LeftInverse.injective lossy_encode

theorem strict_eq_some {bytes : List UInt8} {text : String} :
    strict bytes = some text ↔ encode text = bytes := by
  unfold strict
  constructor
  · intro h
    split at h
    · next hbytes =>
        cases h
        exact hbytes
    · cases h
  · rintro rfl
    simp

/-! ## Bytes that are characters of their own -/

/-- What a first byte allows the second one to be. -/
inductive Leads (k : Nat) (lo hi : UInt8) : Nat → Prop
  | one (hk : 0xc2 ≤ k ∧ k ≤ 0xdf) (hlo : lo.toNat = 0x80) (hhi : hi.toNat = 0xbf) : Leads k lo hi 1
  | two (hk : 0xe0 ≤ k ∧ k ≤ 0xef) (hlo : 0x80 ≤ lo.toNat) (hhi : hi.toNat ≤ 0xbf)
      (hshort : k = 0xe0 → 0xa0 ≤ lo.toNat) (hsurrogate : k = 0xed → hi.toNat ≤ 0x9f) : Leads k lo hi 2
  | three (hk : 0xf0 ≤ k ∧ k ≤ 0xf4) (hlo : 0x80 ≤ lo.toNat) (hhi : hi.toNat ≤ 0xbf)
      (hshort : k = 0xf0 → 0x90 ≤ lo.toNat) (hlarge : k = 0xf4 → hi.toNat ≤ 0x8f) : Leads k lo hi 3

theorem leads_of_lead {b : UInt8} {n : Nat} {lo hi : UInt8} (h : lead b = some (n, lo, hi)) :
    Leads b.toNat lo hi n := by
  have hk : b.toNat < 256 := b.toNat_lt
  rw [← UInt8.ofNat_toNat (x := b), lead_ofNat hk] at h
  generalize b.toNat = k at h hk
  split_ifs at h with h1 h2 h3 h4 h5 h6 h7
  · cases h
    exact .one h1 rfl rfl
  · cases h
    exact .two (by omega) (by decide) (by decide) (fun _ => by decide) (by omega)
  · cases h
    exact .two (by omega) (by decide) (by decide) (by omega) (fun _ => by decide)
  · cases h
    exact .two (by omega) (by decide) (by decide) (by omega) (by omega)
  · cases h
    exact .three (by omega) (by decide) (by decide) (fun _ => by decide) (by omega)
  · cases h
    exact .three (by omega) (by decide) (by decide) (by omega) (fun _ => by decide)
  · cases h
    exact .three (by omega) (by decide) (by decide) (by omega) (by omega)

theorem lead_lo {b : UInt8} {n : Nat} {lo hi : UInt8} (h : lead b = some (n, lo, hi)) : 0x80 ≤ lo := by
  rw [UInt8.le_iff_toNat_le]
  cases leads_of_lead h with
  | one _ hlo => exact Nat.le_of_eq hlo.symm
  | two _ hlo => exact hlo
  | three _ hlo => exact hlo

/-- No character goes on past a byte below `0x80`. -/
theorem continued_append_ascii {n : Nat} {lo hi b : UInt8} (hlo : 0x80 ≤ lo) (hb : b < 0x80)
    (bytes rest : List UInt8) :
    continued n lo hi (bytes ++ b :: rest) = continued n lo hi bytes := by
  induction n generalizing lo hi bytes with
  | zero => cases bytes <;> rfl
  | succ n ih =>
      cases bytes with
      | nil =>
          rw [List.nil_append, continued, if_neg]
          · rfl
          · exact fun h => absurd (UInt8.lt_of_lt_of_le hb hlo) (UInt8.not_lt.mpr h.1)
      | cons first bytes =>
          rw [List.cons_append, continued, continued, ih (by decide)]

theorem length_continued_le (n : Nat) (lo hi : UInt8) (bytes : List UInt8) :
    (continued n lo hi bytes).length ≤ bytes.length := by
  induction n generalizing lo hi bytes with
  | zero => exact Nat.zero_le _
  | succ n ih =>
      cases bytes with
      | nil => exact Nat.le_refl _
      | cons b bytes =>
          rw [continued]
          split
          · exact Nat.succ_le_succ (ih 0x80 0xbf bytes)
          · exact Nat.zero_le _

theorem first_append_ascii (first' : UInt8) {b : UInt8} (hb : b < 0x80) (bytes rest : List UInt8) :
    first first' (bytes ++ b :: rest) = first first' bytes := by
  unfold first
  split
  · rfl
  · cases hlead : lead first' with
    | none => rfl
    | some more =>
        obtain ⟨n, lo, hi⟩ := more
        dsimp only
        rw [continued_append_ascii (lead_lo hlead) hb]

theorem first_le (b : UInt8) (rest : List UInt8) : (first b rest).2 ≤ rest.length + 1 := by
  unfold first
  split
  · exact Nat.le_add_left 1 _
  · split
    · exact Nat.le_add_left 1 _
    · next n lo hi _ =>
        have hlen := length_continued_le n lo hi rest
        dsimp only
        split
        · next heq => omega
        · omega

/-- A text is read on both sides of a byte below `0x80`. -/
theorem lossy_append_ascii {k : Nat} (hk : k < 0x80) (bytes rest : List UInt8) :
    (lossy (bytes ++ UInt8.ofNat k :: rest)).toList =
      (lossy bytes).toList ++ Char.ofNat k :: (lossy rest).toList := by
  have hb : UInt8.ofNat k < 0x80 := by
    rw [UInt8.lt_iff_toNat_lt, UInt8.toNat_ofNat_of_lt' (by show k < 256; omega)]
    exact hk
  induction hlen : bytes.length using Nat.strongRecOn generalizing bytes with
  | _ n ih =>
      cases bytes with
      | nil =>
          rw [List.nil_append, decode_cons, first_ascii hk]
          rfl
      | cons b bytes =>
          have hdrop : (first b bytes).2 - 1 ≤ bytes.length := by
            have := first_le b bytes
            omega
          rw [List.cons_append, decode_cons, decode_cons, first_append_ascii b hb,
            List.drop_append_of_le_length hdrop]
          rw [ih (bytes.drop ((first b bytes).2 - 1)).length
            (by rw [← hlen, List.length_cons, List.length_drop]; omega) _ rfl]
          rfl

theorem continued_full {n : Nat} {lo hi : UInt8} {bytes : List UInt8}
    (h : (continued (n + 1) lo hi bytes).length = n + 1) :
    ∃ b rest, continued (n + 1) lo hi bytes = b :: continued n 0x80 0xbf rest ∧
      lo.toNat ≤ b.toNat ∧ b.toNat ≤ hi.toNat ∧ (continued n 0x80 0xbf rest).length = n := by
  cases bytes with
  | nil => cases h
  | cons b rest =>
      rw [continued] at h ⊢
      split
      · next hrange =>
          rw [if_pos hrange] at h
          exact ⟨b, rest, rfl, UInt8.le_iff_toNat_le.mp hrange.1, UInt8.le_iff_toNat_le.mp hrange.2,
            Nat.succ.inj h⟩
      · next hrange =>
          rw [if_neg hrange] at h
          cases h

theorem toNat_charOfNat {code : Nat} (hvalid : code.isValidChar) : (Char.ofNat code).toNat = code := by
  rw [Char.ofNat, dif_pos hvalid]
  rfl

theorem encode_lossy_ascii {k : Nat} (hk : k < 0x80) (bytes rest : List UInt8) :
    encode (lossy (bytes ++ UInt8.ofNat k :: rest)) =
      encode (lossy bytes) ++ UInt8.ofNat k :: encode (lossy rest) := by
  have hchar : String.utf8EncodeChar (Char.ofNat k) = [UInt8.ofNat k] := by
    have hcode : (Char.ofNat k).val.toNat = k := toNat_charOfNat (Or.inl (by omega))
    unfold String.utf8EncodeChar
    rw [hcode, if_pos (by omega)]
  rw [← String.ofList_toList (s := lossy (bytes ++ UInt8.ofNat k :: rest)),
    lossy_append_ascii hk]
  simp [encode, hchar]

theorem high_of_code {code : Nat} (hlow : 0x80 ≤ code)
    (hvalid : code < 0xd800 ∨ 0xdfff < code ∧ code < 0x110000) :
    0x80 ≤ (Char.ofNat code).toNat := by
  rw [toNat_charOfNat hvalid]
  exact hlow

/-- What a byte from `0x80` on begins, or is replaced by, is no character below `0x80`. -/
theorem first_high {b : UInt8} (hb : ¬ b < 0x80) (rest : List UInt8) :
    0x80 ≤ (first b rest).1.toNat := by
  have hreplacement : 0x80 ≤ replacement.toNat := by decide
  simp only [first, if_neg hb]
  cases hlead : lead b with
  | none => exact hreplacement
  | some more =>
      obtain ⟨n, lo, hi⟩ := more
      dsimp only
      split
      · next hlen =>
          -- how many bytes follow says how large the code is
          cases leads_of_lead hlead with
          | one hk hlo hhi =>
              obtain ⟨b1, _, hmore, hlo1, hhi1, _⟩ := continued_full hlen
              simp only [hmore, continued, List.foldl_cons, List.foldl_nil, leadBits, Nat.reduceSub,
                Nat.reducePow]
              exact high_of_code (by omega) (by omega)
          | two hk hlo hhi hshort hsurrogate =>
              obtain ⟨b1, _, hmore, hlo1, hhi1, hlen1⟩ := continued_full hlen
              obtain ⟨b2, _, hmore2, hlo2, hhi2, _⟩ := continued_full hlen1
              simp only [hmore, hmore2, continued, List.foldl_cons, List.foldl_nil, leadBits,
                Nat.reduceSub, Nat.reducePow]
              simp only [UInt8.reduceToNat] at hlo2 hhi2
              exact high_of_code (by omega) (by omega)
          | three hk hlo hhi hshort hlarge =>
              obtain ⟨b1, _, hmore, hlo1, hhi1, hlen1⟩ := continued_full hlen
              obtain ⟨b2, _, hmore2, hlo2, hhi2, hlen2⟩ := continued_full hlen1
              obtain ⟨b3, _, hmore3, hlo3, hhi3, _⟩ := continued_full hlen2
              simp only [hmore, hmore2, hmore3, continued, List.foldl_cons, List.foldl_nil, leadBits,
                Nat.reduceSub, Nat.reducePow]
              simp only [UInt8.reduceToNat] at hlo2 hhi2 hlo3 hhi3
              exact high_of_code (by omega) (by omega)
      · exact hreplacement

/-- A character below `0x80` stands for that byte. -/
theorem mem_of_mem_lossy {c : Char} (hc : c.toNat < 0x80) {bytes : List UInt8}
    (h : c ∈ (lossy bytes).toList) : UInt8.ofNat c.toNat ∈ bytes := by
  induction hlen : bytes.length using Nat.strongRecOn generalizing bytes with
  | _ n ih =>
      cases bytes with
      | nil => cases h
      | cons b bytes =>
          rw [decode_cons] at h
          rcases List.mem_cons.mp h with rfl | hrest
          · by_cases hb : b < 0x80
            · have hlow : b.toNat < 0x80 := UInt8.lt_iff_toNat_lt.mp hb
              have hfirst : first b bytes = (Char.ofNat b.toNat, 1) := by rw [first, if_pos hb]
              rw [hfirst, toNat_charOfNat (Or.inl (by omega)), UInt8.ofNat_toNat]
              exact List.mem_cons_self
            · exact absurd hc (Nat.not_lt.mpr (first_high hb bytes))
          · have hmem := ih (bytes.drop ((first b bytes).2 - 1)).length
              (by rw [← hlen, List.length_cons, List.length_drop]; omega) hrest rfl
            exact List.mem_cons_of_mem _ (List.mem_of_mem_drop hmem)

/-- A byte below `0x80` stands for that character. -/
theorem mem_of_mem_encode {k : Nat} (hk : k < 0x80) {text : String}
    (h : UInt8.ofNat k ∈ encode text) : Char.ofNat k ∈ text.toList := by
  obtain ⟨before, after, hbytes⟩ := List.append_of_mem h
  rw [← lossy_encode text, hbytes, lossy_append_ascii hk]
  exact List.mem_append_right _ List.mem_cons_self

/-- A text that starts with a character below `0x80` starts with that byte. -/
theorem lossy_eq_cons {c : Char} (hc : c.toNat < 0x80) {bytes : List UInt8} {rest : List Char}
    (h : (lossy bytes).toList = c :: rest) :
    ∃ after, bytes = String.utf8EncodeChar c ++ after ∧ (lossy after).toList = rest := by
  cases bytes with
  | nil => cases h
  | cons b bytes =>
      rw [decode_cons] at h
      obtain ⟨hfirst, hrest⟩ := List.cons.inj h
      have hb : b < 0x80 := by
        by_contra hb
        have hhigh := first_high hb bytes
        rw [hfirst] at hhigh
        omega
      have hsingle : first b bytes = (Char.ofNat b.toNat, 1) := by rw [first, if_pos hb]
      rw [hsingle] at hfirst hrest
      have hlow : b.toNat < 0x80 := UInt8.lt_iff_toNat_lt.mp hb
      have hcode : c.val.toNat = b.toNat := by
        rw [← hfirst]
        exact toNat_charOfNat (Or.inl (by omega))
      refine ⟨bytes, ?_, hrest⟩
      unfold String.utf8EncodeChar
      rw [hcode, if_pos (by omega), UInt8.ofNat_toNat]
      rfl

theorem lossy_eq_append {part : List Char} (hpart : ∀ c ∈ part, c.toNat < 0x80)
    {bytes : List UInt8} {rest : List Char} (h : (lossy bytes).toList = part ++ rest) :
    ∃ after, bytes = encode (String.ofList part) ++ after ∧ (lossy after).toList = rest := by
  induction part generalizing bytes with
  | nil => exact ⟨bytes, rfl, h⟩
  | cons c part ih =>
      obtain ⟨after, hbytes, hafter⟩ := lossy_eq_cons (hpart c List.mem_cons_self) h
      obtain ⟨last, hlast, hrest⟩ := ih (fun c hc => hpart c (List.mem_cons_of_mem _ hc)) hafter
      refine ⟨last, ?_, hrest⟩
      rw [hbytes, hlast, ← List.append_assoc]
      simp [encode]

end Ripclone.Library.Utf8
