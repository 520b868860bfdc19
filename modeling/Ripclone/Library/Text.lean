import Mathlib.Data.List.DropRight
import Mathlib.Data.List.Basic

/-!
# Pieces of a text

Texts as lists of characters: what is left of one after a piece it starts or ends with, the two sides
of a separator, and a text without the white space around it.
-/

namespace Ripclone.Library

/-- A character of the Unicode property `White_Space`. -/
def isWhiteSpace (c : Char) : Bool :=
  let n := c.toNat
  (0x09 ≤ n && n ≤ 0x0d) || n = 0x20 || n = 0x85 || n = 0xa0 || n = 0x1680 ||
    (0x2000 ≤ n && n ≤ 0x200a) || n = 0x2028 || n = 0x2029 || n = 0x202f || n = 0x205f || n = 0x3000

def trim (text : List Char) : List Char := (text.dropWhile isWhiteSpace).rdropWhile isWhiteSpace

def stripStart (part text : List Char) : Option (List Char) :=
  if part.isPrefixOf text then some (text.drop part.length) else none

def stripEnd (part text : List Char) : Option (List Char) :=
  if part.isSuffixOf text then some (text.take (text.length - part.length)) else none

/-- What stands before the first separator, and what after it. -/
def splitOnce (separator : Char) : List Char → Option (List Char × List Char)
  | [] => none
  | c :: rest =>
    if c = separator then some ([], rest)
    else (splitOnce separator rest).map fun (before, after) => (c :: before, after)

/-- A check of every member is decided by running it, not by trying every value of the type. -/
theorem forall_mem_of_all {α : Type*} {p : α → Prop} [DecidablePred p] {l : List α}
    (h : (l.all fun a => decide (p a)) = true) : ∀ a ∈ l, p a := by
  intro a ha
  exact of_decide_eq_true (List.all_eq_true.mp h a ha)

theorem stripStart_eq_some {part text rest : List Char} :
    stripStart part text = some rest ↔ text = part ++ rest := by
  unfold stripStart
  constructor
  · intro h
    split at h
    · next hstart =>
        cases h
        obtain ⟨rest, rfl⟩ := List.isPrefixOf_iff_prefix.mp hstart
        rw [List.drop_left]
    · cases h
  · rintro rfl
    rw [if_pos (List.isPrefixOf_iff_prefix.mpr (List.prefix_append _ _)), List.drop_left]

@[simp] theorem stripStart_append (part rest : List Char) :
    stripStart part (part ++ rest) = some rest := stripStart_eq_some.mpr rfl

theorem stripStart_eq_none {part text : List Char} :
    stripStart part text = none ↔ ¬ part <+: text := by
  unfold stripStart
  constructor
  · intro h hstart
    rw [if_pos (List.isPrefixOf_iff_prefix.mpr hstart)] at h
    cases h
  · intro h
    rw [if_neg fun hstart => h (List.isPrefixOf_iff_prefix.mp hstart)]

/-- A piece without the separator ends before it. -/
theorem starts_before {α : Type*} {separator : α} {part text rest : List α}
    (hpart : separator ∉ part) (h : part <+: text ++ separator :: rest) : part <+: text := by
  have htext : text ++ [separator] <+: text ++ separator :: rest :=
    (List.prefix_append_right_inj text).mpr (List.prefix_append [separator] rest)
  have hmem : separator ∉ part → ¬ text ++ [separator] <+: part := by
    intro hnot hle
    exact hnot (hle.subset (List.mem_append_right _ List.mem_cons_self))
  rcases List.prefix_or_prefix_of_prefix h htext with hle | hle
  · rcases List.prefix_concat_iff.mp hle with rfl | hle
    · exact absurd (List.prefix_refl _) (hmem hpart)
    · exact hle
  · exact absurd hle (hmem hpart)

/-- A piece without the separator stands on one side of it. -/
theorem infix_of_separator {α : Type*} {separator : α} {part text rest : List α}
    (hpart : separator ∉ part) (h : part <:+: text ++ separator :: rest) :
    part <:+: text ∨ part <:+: rest := by
  induction text with
  | nil =>
      rcases List.infix_cons_iff.mp h with hhere | hrest
      · exact .inl (starts_before hpart hhere).isInfix
      · exact .inr hrest
  | cons a text ih =>
      rcases List.infix_cons_iff.mp h with hhere | hlater
      · have hstarts : part <+: a :: text := starts_before hpart hhere
        exact .inl hstarts.isInfix
      · exact (ih hlater).imp_left fun hinside => hinside.trans (List.suffix_cons a text).isInfix

/-- The first separator is found where it stands. -/
theorem append_separator_inj {α : Type*} {separator : α} {a b rest rest' : List α}
    (ha : separator ∉ a) (hb : separator ∉ b)
    (h : a ++ separator :: rest = b ++ separator :: rest') : a = b ∧ rest = rest' := by
  induction a generalizing b with
  | nil =>
      cases b with
      | nil => exact ⟨rfl, (List.cons.inj h).2⟩
      | cons first b =>
          rw [(List.cons.inj h).1] at hb
          exact absurd List.mem_cons_self hb
  | cons first a ih =>
      cases b with
      | nil =>
          rw [(List.cons.inj h).1] at ha
          exact absurd List.mem_cons_self ha
      | cons first' b =>
          obtain ⟨rfl, htail⟩ := List.cons.inj h
          obtain ⟨rfl, rfl⟩ := ih (fun hmem => ha (List.mem_cons_of_mem _ hmem))
            (fun hmem => hb (List.mem_cons_of_mem _ hmem)) htail
          exact ⟨rfl, rfl⟩

theorem mem_of_mem_intercalate {α : Type*} {a : α} {separator : List α} {pieces : List (List α)}
    (h : a ∈ separator.intercalate pieces) : a ∈ separator ∨ ∃ piece ∈ pieces, a ∈ piece := by
  induction pieces with
  | nil => cases h
  | cons piece pieces ih =>
      cases pieces with
      | nil =>
          rw [List.intercalate_singleton] at h
          exact .inr ⟨piece, List.mem_cons_self, h⟩
      | cons next pieces =>
          rw [List.intercalate_cons_cons, List.mem_append, List.mem_append] at h
          rcases h with (hpiece | hsep) | hrest
          · exact .inr ⟨piece, List.mem_cons_self, hpiece⟩
          · exact .inl hsep
          · rcases ih hrest with hsep | ⟨found, hfound, hmem⟩
            · exact .inl hsep
            · exact .inr ⟨found, List.mem_cons_of_mem _ hfound, hmem⟩

theorem stripEnd_eq_some {part text rest : List Char} :
    stripEnd part text = some rest ↔ text = rest ++ part := by
  unfold stripEnd
  constructor
  · intro h
    split at h
    · next hend =>
        cases h
        obtain ⟨rest, rfl⟩ := List.isSuffixOf_iff_suffix.mp hend
        simp
    · cases h
  · rintro rfl
    rw [if_pos (List.isSuffixOf_iff_suffix.mpr (List.suffix_append _ _))]
    simp

theorem splitOnce_append {separator : Char} {before : List Char} (h : separator ∉ before)
    (after : List Char) :
    splitOnce separator (before ++ separator :: after) = some (before, after) := by
  induction before with
  | nil => simp [splitOnce]
  | cons c before ih =>
      have hc : c ≠ separator := by
        rintro rfl
        exact h List.mem_cons_self
      rw [List.cons_append, splitOnce, if_neg hc, ih fun hmem => h (List.mem_cons_of_mem _ hmem)]
      rfl

theorem trim_of_ends {text : List Char} (hfirst : ∀ c ∈ text.head?, isWhiteSpace c = false)
    (hlast : ∀ c ∈ text.getLast?, isWhiteSpace c = false) : trim text = text := by
  have hstart : text.dropWhile isWhiteSpace = text := by
    cases text with
    | nil => rfl
    | cons c rest => rw [List.dropWhile_cons_of_neg (by simp [hfirst c rfl])]
  rw [trim, hstart, List.rdropWhile_eq_self_iff]
  intro hne
  rw [hlast _ (List.getLast?_eq_some_getLast hne)]
  exact Bool.false_ne_true

/-- A text that starts with no white space is trimmed at its end only. -/
theorem trim_eq_of_head {text : List Char} (hfirst : ∀ c ∈ text.head?, isWhiteSpace c = false) :
    trim text = text.rdropWhile isWhiteSpace := by
  rw [trim]
  cases text with
  | nil => rfl
  | cons c rest => rw [List.dropWhile_cons_of_neg (by simp [hfirst c rfl])]

/-- A text is read as another when white space follows that. -/
theorem trim_eq_iff {text part : List Char} (hfirst : ∀ c ∈ text.head?, isWhiteSpace c = false) :
    trim text = part ↔
      (∀ c ∈ part.getLast?, isWhiteSpace c = false) ∧
        ∃ space : List Char, (∀ c ∈ space, isWhiteSpace c = true) ∧ text = part ++ space := by
  rw [trim_eq_of_head hfirst]
  constructor
  · rintro rfl
    refine ⟨fun c hc => ?_, text.rtakeWhile isWhiteSpace, fun c hc => ?_, ?_⟩
    · obtain ⟨hne, rfl⟩ := List.mem_getLast?_eq_getLast hc
      simpa using List.rdropWhile_last_not isWhiteSpace text hne
    · exact List.mem_rtakeWhile_imp hc
    · exact (List.rdropWhile_append_rtakeWhile).symm
  · rintro ⟨hlast, space, hspace, rfl⟩
    clear hfirst
    induction space using List.reverseRecOn with
    | nil =>
        rw [List.append_nil, List.rdropWhile_eq_self_iff]
        intro hne
        rw [hlast _ (List.getLast?_eq_some_getLast hne)]
        exact Bool.false_ne_true
    | append_singleton space c ih =>
        rw [← List.append_assoc, List.rdropWhile_concat_pos _ _ _ (hspace c (by simp))]
        exact ih fun c hc => hspace c (List.mem_append_left _ hc)

theorem head_trim {text : List Char} : ∀ c ∈ (trim text).head?, isWhiteSpace c = false := by
  intro c hc
  obtain ⟨after, hafter⟩ := List.rdropWhile_prefix isWhiteSpace (text.dropWhile isWhiteSpace)
  have hhead : (text.dropWhile isWhiteSpace).head? = some c := by
    rw [← hafter]
    exact List.mem_head?_append_of_mem_head? hc
  have hstop := List.head?_dropWhile_not isWhiteSpace text
  rw [hhead] at hstop
  simpa using hstop

theorem getLast_trim {text : List Char} : ∀ c ∈ (trim text).getLast?, isWhiteSpace c = false := by
  intro c hc
  obtain ⟨hne, rfl⟩ := List.mem_getLast?_eq_getLast hc
  exact eq_false_of_ne_true (List.rdropWhile_last_not isWhiteSpace (text.dropWhile isWhiteSpace) hne)

/-- What is trimmed off. -/
theorem exists_trim (text : List Char) : ∃ before after, text = before ++ trim text ++ after ∧
    ∀ c ∈ before, isWhiteSpace c = true := by
  obtain ⟨after, hafter⟩ := List.rdropWhile_prefix isWhiteSpace (text.dropWhile isWhiteSpace)
  refine ⟨text.takeWhile isWhiteSpace, after, ?_, fun c hc => List.mem_takeWhile_imp hc⟩
  rw [List.append_assoc, trim, hafter, List.takeWhile_append_dropWhile]

end Ripclone.Library
