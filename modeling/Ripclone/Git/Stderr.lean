import Ripclone.Library.Lines
import Ripclone.Registry.AuthHeader
import Ripclone.Results

/-!
# What an error shows of git's stderr

A failed upstream operation shows the last lines of git's stderr. The value of the header git was given is
replaced first. After that the lines are trimmed and joined and the text is cut, and each of these steps
puts something in: a mark, a separator, an ellipsis. `Respelled` says how one of them can help to spell the
value again, and no other way is left (`respelled_of_shows`).
-/

namespace Ripclone.Git

open Ripclone.Library
open Ripclone.Provider (Text byteLen)

/-! ## The detail of an error -/

def redactionMark : Text := "***".toList

def separator : Text := "; ".toList

def ellipsis : Char := '…'

def maxDetail : Nat := 400

/-- The text without the value of the header. -/
def redact (authHeader : Option (Text × Text)) (text : Text) : Text :=
  match authHeader with
  | some (_, value) => if value.isEmpty then text else replaceAll value redactionMark text
  | none => text

def nonEmptyLines (text : Text) : List Text :=
  ((lines text).map trim).filter fun line => !line.isEmpty

/-- The last three lines, joined. -/
def joinTail (tail : List Text) : Text := separator.intercalate (tail.reverse.take 3).reverse

/-- Text of more bytes than characters may be shown is cut. -/
def cut (joined : Text) : Text :=
  if maxDetail < byteLen joined then joined.take maxDetail ++ [ellipsis] else joined

/-- A short text of git's stderr, if there is any. -/
def sanitizeGitStderr (stderr : Bytes) (authHeader : Option (Text × Text)) : Option Text :=
  let text := redact authHeader (Utf8.lossy stderr).toList
  let joined := joinTail (nonEmptyLines text)
  if joined.isEmpty then none else some (cut joined)

/-! ## What is shown -/

/-- Some stderr of git makes the error show the text. -/
def Shows (header : Text × Text) (text : Text) : Prop :=
  ∃ stderr detail, sanitizeGitStderr stderr (some header) = some detail ∧ text <:+: detail

/-- What a text at the start of a line needs before it: a line starts with no white space. -/
def lead (text : Text) : Nat := if text.head?.any isWhiteSpace then 1 else 0

/-- The text is not cut when `position` characters stand before it. -/
def Fits (position : Nat) (text : Text) : Prop := position + text.length ≤ maxDetail

/-- The text ends with the ellipsis, and the rest of it is not cut. -/
def FitsCut (text : Text) : Prop :=
  [ellipsis] <:+ text ∧ lead text + text.length ≤ maxDetail + 1

def EndsInLine (text : Text) : Prop := ∀ c ∈ text.getLast?, isWhiteSpace c = false

def StartsInLine (text : Text) : Prop := ∀ c ∈ text.head?, isWhiteSpace c = false

/-- A redaction mark helps to spell the value: a whole one, the end of one or the start of one. -/
inductive ByMark (value : Text) : Prop
  | whole (hmark : redactionMark <:+: value) (hfits : Fits (lead value) value)
  | starts (k : Nat) (hpos : 0 < k) (hlt : k < redactionMark.length)
      (hmark : redactionMark.drop k <+: value) (hfits : Fits k value)
  | ends (stem : Text) (k : Nat) (hpos : 0 < k) (hlt : k < redactionMark.length)
      (hmark : value = stem ++ redactionMark.take k) (hfirst : FirstAfter value stem)
      (hfits : Fits (lead value) value)

/-- A separator helps to spell the value. -/
inductive BySeparator (value : Text) : Prop
  | whole (a b : Text) (hvalue : value = a ++ separator ++ b) (ha : EndsInLine a) (hb : StartsInLine b)
      (hfits : Fits (if a = [] then 1 else lead value) value)
  | starts (b : Text) (hvalue : value = separator.drop 1 ++ b) (hb : StartsInLine b)
      (hfits : Fits 2 value)
  | ends (a : Text) (hvalue : value = a ++ separator.take 1) (ha : EndsInLine a)
      (hfits : Fits (lead value) value)

/-- The value can be spelled with what is put in. -/
def Respelled (value : Text) : Prop := ByMark value ∨ BySeparator value ∨ FitsCut value

/-- A text that no value is part of can be shown as git wrote it. -/
def Echoed (text : Text) : Prop := '\n' ∉ text ∧ (Fits (lead text) text ∨ FitsCut text)

/-- A text longer than each of the things put in. -/
def LongerThanMarks (text : Text) : Prop :=
  redactionMark.length < text.length ∧ separator.length < text.length ∧ [ellipsis].length < text.length

instance (text : Text) : Decidable (LongerThanMarks text) := inferInstanceAs (Decidable (_ ∧ _))

/-- The value has no character of what is put in. -/
def Apart (value : Text) : Prop :=
  value ≠ [] ∧ ∀ c ∈ redactionMark ++ separator ++ [ellipsis], c ∉ value

/-! ## Lines -/

section Lines

variable {text line front back joined : Text} {header : Text × Text}

/-- A line of the detail: where it comes from, and that nothing is left to trim. -/
structure IsLineOf (line text : Text) : Prop where
  ne_nil : line ≠ []
  one : '\n' ∉ line
  starts : StartsInLine line
  ends : EndsInLine line
  place : ∃ before after, text = before ++ line ++ after ∧
    ∀ c ∈ before.getLast?, isWhiteSpace c = true

theorem isLineOf_of_mem (h : line ∈ nonEmptyLines text) : IsLineOf line text := by
  obtain ⟨hmem, hne⟩ := List.mem_filter.mp h
  obtain ⟨whole, hwhole, rfl⟩ := List.mem_map.mp hmem
  obtain ⟨before, after, htext, hbefore⟩ := mem_lines hwhole
  obtain ⟨space, space', htrim, hspace⟩ := exists_trim whole
  refine ⟨by simpa using hne, ?_, head_trim, getLast_trim, before ++ space, space' ++ after, ?_, ?_⟩
  · intro hnewline
    apply not_mem_of_mem_lines hwhole
    rw [htrim]
    exact List.mem_append_left _ (List.mem_append_right _ hnewline)
  · rw [htext]
    nth_rewrite 1 [htrim]
    simp only [List.append_assoc]
  · intro c hc
    cases space with
    | nil =>
        rw [List.append_nil] at hc
        rw [hbefore c hc]
        rfl
    | cons first space =>
        rw [List.getLast?_append_of_ne_nil _ (List.cons_ne_nil first space)] at hc
        exact hspace c (List.mem_of_getLast? hc)

theorem mem_of_mem_tail {tail : List Text} (h : line ∈ (tail.reverse.take 3).reverse) : line ∈ tail :=
  List.mem_reverse.mp (List.mem_of_mem_take (List.mem_reverse.mp h))

end Lines

/-! ## Where a text in the detail comes from -/

section Spelled

variable {text value line front back joined : Text}

theorem length_le_byteLen (text : Text) : text.length ≤ byteLen text := by
  induction text with
  | nil => exact Nat.zero_le _
  | cons c text ih =>
      have hpos : 1 ≤ c.utf8Size := Char.utf8Size_pos c
      simp only [byteLen, List.map_cons, List.sum_cons, List.length_cons] at ih ⊢
      omega

theorem lead_le_one (text : Text) : lead text ≤ 1 := by
  unfold lead
  split <;> omega

/-- Something stands before a text that starts with white space. -/
theorem lead_le (hstarts : StartsInLine line) (hne : text ≠ []) (h : line = front ++ text ++ back) :
    lead text ≤ front.length := by
  cases front with
  | cons c front => exact Nat.le_trans (lead_le_one text) (Nat.succ_le_succ (Nat.zero_le _))
  | nil =>
      cases text with
      | nil => exact absurd rfl hne
      | cons c text =>
          have hc : isWhiteSpace c = false := hstarts c (by rw [h]; rfl)
          simp [lead, hc]

theorem startsInLine_cut (h : StartsInLine joined) : StartsInLine (cut joined) := by
  unfold cut
  split
  · next hlong =>
      cases joined with
      | nil => exact absurd hlong (by decide)
      | cons c joined => exact h
  · exact h

/-- What is shown stands in the joined lines before the cut, or ends with the ellipsis. -/
theorem infix_cut (hstarts : StartsInLine joined) (hne : text ≠ []) (h : text <:+: cut joined) :
    (∃ front back, joined = front ++ text ++ back ∧ Fits front.length text) ∨ FitsCut text := by
  have hlead := startsInLine_cut hstarts
  obtain ⟨front, back, hcut⟩ := h
  replace hlead := lead_le hlead hne hcut.symm
  unfold cut at hcut
  split at hcut
  · have htake : (joined.take maxDetail).length ≤ maxDetail := List.length_take_le _ _
    have hlen := congrArg List.length hcut
    simp only [List.length_append, List.length_singleton] at hlen
    induction back using List.reverseRecOn with
    | nil =>
        rw [List.append_nil] at hcut
        refine .inr ⟨?_, ?_⟩
        · have hpos := List.length_pos_of_ne_nil hne
          exact List.suffix_of_suffix_length_le ⟨_, rfl⟩ (hcut ▸ List.suffix_append front text) hpos
        · rw [List.length_nil] at hlen
          omega
    | append_singleton back last _ =>
        rw [← List.append_assoc] at hcut
        have hkept := List.append_inj_left' hcut rfl
        refine .inl ⟨front, back ++ joined.drop maxDetail, ?_, ?_⟩
        · rw [← List.append_assoc, hkept, List.take_append_drop]
        · rw [List.length_append, List.length_singleton] at hlen
          unfold Fits
          omega
  · next hshort =>
      refine .inl ⟨front, back, hcut.symm, ?_⟩
      have hlen := length_le_byteLen joined
      rw [← hcut, List.length_append, List.length_append] at hlen
      rw [← hcut] at hshort
      unfold Fits
      omega

end Spelled

/-! ## Every way to spell the value -/

section Respelled

variable {text value token front back before after piece : Text} {pieces : List Text} {name : Text}

theorem startsInLine_intercalate (h : ∀ piece ∈ pieces, piece ≠ [] ∧ StartsInLine piece) :
    StartsInLine (separator.intercalate pieces) := by
  intro c hc
  cases pieces with
  | nil => cases hc
  | cons piece pieces =>
      obtain ⟨hne, hstarts⟩ := h piece List.mem_cons_self
      apply hstarts c
      cases pieces with
      | nil => rwa [List.intercalate_singleton] at hc
      | cons next pieces =>
          rw [List.intercalate_cons_cons, List.append_assoc, List.head?_append_of_ne_nil _ hne] at hc
          exact hc

theorem startsInLine_joinTail (text : Text) : StartsInLine (joinTail (nonEmptyLines text)) := by
  apply startsInLine_intercalate
  intro piece hpiece
  have hline := isLineOf_of_mem (mem_of_mem_tail hpiece)
  exact ⟨hline.ne_nil, hline.starts⟩

/-- A mark's characters do not stand across the start of a line. -/
theorem le_length_of_take (k : Nat) (hlt : k < redactionMark.length)
    (hbefore : ∀ c ∈ before.getLast?, isWhiteSpace c = true)
    (h : redactionMark.take k <:+ before ++ front) : k ≤ front.length := by
  by_contra hshort
  have hlen : (redactionMark.take k).length = k := List.length_take_of_le (Nat.le_of_lt hlt)
  have hafter : front <:+ redactionMark.take k :=
    List.suffix_of_suffix_length_le (List.suffix_append before front) h (by omega)
  obtain ⟨stars, hstars⟩ := hafter
  rw [← hstars] at h
  obtain ⟨start, h⟩ := h
  rw [← List.append_assoc] at h
  have hstarsBefore : stars <:+ before := ⟨start, List.append_cancel_right h⟩
  have hne : stars ≠ [] := by
    rintro rfl
    rw [← hstars, List.nil_append] at hlen
    omega
  have hlast : before.getLast? = some (stars.getLast hne) := by
    obtain ⟨start, rfl⟩ := hstarsBefore
    rw [List.getLast?_append_of_ne_nil _ hne, List.getLast?_eq_some_getLast hne]
  have hmem : stars.getLast hne ∈ redactionMark := by
    apply List.mem_of_mem_take
    rw [← hstars]
    exact List.mem_append_left front (List.getLast_mem hne)
  have hstar : ∀ c ∈ redactionMark, isWhiteSpace c = false := forall_mem_of_all (by decide)
  have hwhite := hbefore _ hlast
  rw [hstar _ hmem] at hwhite
  cases hwhite

/-- The value in a line of the redacted text. -/
theorem byMark_of_line (hvalue : LongerThanMarks value) (hline : IsLineOf piece (replaceAll value redactionMark text))
    (hpiece : piece = front ++ value ++ back) (hfits : Fits front.length value) : ByMark value := by
  have hne : value ≠ [] := List.ne_nil_of_length_pos (Nat.lt_of_le_of_lt (Nat.zero_le _) hvalue.1)
  have hlead := lead_le hline.starts hne hpiece
  have hfitsLead : Fits (lead value) value := by
    unfold Fits at hfits ⊢
    omega
  obtain ⟨before, after, htext, hbefore⟩ := hline.place
  have hfound : replaceAll value redactionMark text =
      before ++ front ++ value ++ (back ++ after) := by
    rw [htext, hpiece]
    simp only [List.append_assoc]
  cases takesIn_of_replaceAll hne (Nat.le_of_lt hvalue.1) hfound with
  | whole hmark => exact .whole hmark hfitsLead
  | starts k hpos hlt hdrop htake =>
      have hk := le_length_of_take k hlt hbefore htake
      refine .starts k hpos hlt hdrop ?_
      unfold Fits at hfits ⊢
      omega
  | ends stem k hpos hlt hpart hfirst => exact .ends stem k hpos hlt hpart hfirst hfitsLead

/-- Texts end where a line does. -/
theorem endsInLine_of_line (hline : IsLineOf piece text) (hbefore : piece <:+ before) :
    EndsInLine before := by
  intro c hc
  obtain ⟨more, rfl⟩ := hbefore
  rw [List.getLast?_append_of_ne_nil _ hline.ne_nil] at hc
  exact hline.ends c hc

theorem startsInLine_of_line (hline : IsLineOf piece text) (hafter : piece <+: after) :
    StartsInLine after := by
  intro c hc
  obtain ⟨more, rfl⟩ := hafter
  rw [List.head?_append_of_ne_nil _ hline.ne_nil] at hc
  exact hline.starts c hc

theorem endsInLine_of_append (a : Text) (h : EndsInLine (front ++ a)) : EndsInLine a :=
  fun c hc => h c (List.mem_getLast?_append_of_mem_getLast? hc)

theorem startsInLine_of_start (h : StartsInLine after) (hpart : text <+: after) : StartsInLine text := by
  obtain ⟨more, rfl⟩ := hpart
  exact fun c hc => h c (List.mem_head?_append_of_mem_head? hc)

/-- The value across the separator of two lines. -/
theorem bySeparator_of_takesIn (hlead : lead value ≤ front.length) (hfits : Fits front.length value)
    (hne : before ≠ []) (hends : EndsInLine before) (hstarts : StartsInLine after)
    (h : TakesInSeparator separator value front before after) : BySeparator value := by
  have hfitsLead : Fits (lead value) value := by
    unfold Fits at hfits ⊢
    omega
  cases h with
  | whole a b hvalue hbefore hafter =>
      have ha : EndsInLine a := endsInLine_of_append a (hbefore ▸ hends)
      refine .whole a b hvalue ha (startsInLine_of_start hstarts hafter) ?_
      split
      · next hnil =>
          -- The line before the separator is all in front of the value.
          rw [hbefore, hnil, List.append_nil] at hne
          have hpos := List.length_pos_of_ne_nil hne
          unfold Fits at hfits ⊢
          omega
      · exact hfitsLead
  | starts k b hpos hlt hvalue hfront hafter =>
      obtain rfl : k = 1 := by
        have hlen : separator.length = 2 := rfl
        omega
      refine .starts b hvalue (startsInLine_of_start hstarts hafter) ?_
      have hpos := List.length_pos_of_ne_nil hne
      have hlen := congrArg List.length hfront
      rw [List.length_append] at hlen
      have hone : (separator.take 1).length = 1 := rfl
      unfold Fits at hfits ⊢
      omega
  | ends a k hpos hlt hvalue hbefore =>
      obtain rfl : k = 1 := by
        have hlen : separator.length = 2 := rfl
        omega
      exact .ends a hvalue (endsInLine_of_append a (hbefore ▸ hends)) hfitsLead

/-- What the detail is made of when there is one. -/
theorem sanitizeGitStderr_eq_some {stderr : Bytes} {header : Option (Text × Text)} {detail : Text} :
    sanitizeGitStderr stderr header = some detail ↔
      joinTail (nonEmptyLines (redact header (Utf8.lossy stderr).toList)) ≠ [] ∧
      detail = cut (joinTail (nonEmptyLines (redact header (Utf8.lossy stderr).toList))) := by
  unfold sanitizeGitStderr
  dsimp only
  split
  · next hempty => simp_all
  · next hne =>
      rw [Option.some_inj, eq_comm]
      exact ⟨fun h => ⟨by simpa using hne, h⟩, fun h => h.2⟩

theorem redact_eq (hne : value ≠ []) (text : Text) :
    redact (some (name, value)) text = replaceAll value redactionMark text := by
  cases value with
  | nil => exact absurd rfl hne
  | cons c value => rfl

/-- Without an occurrence of the value nothing is replaced. -/
theorem redact_of_absent (h : value ≠ [] → ¬value <:+: text) : redact (some (name, value)) text = text := by
  cases value with
  | nil => rfl
  | cons c value =>
      rw [redact_eq (List.cons_ne_nil c value)]
      exact replaceAll_of_absent (h (List.cons_ne_nil c value))

theorem LongerThanMarks.ne_nil (h : LongerThanMarks value) : value ≠ [] :=
  List.ne_nil_of_length_pos (Nat.lt_of_le_of_lt (Nat.zero_le _) h.1)

/-- The value is shown only where what is put in helps to spell it. -/
theorem respelled_of_shows (hvalue : LongerThanMarks value) (h : Shows (name, value) value) :
    Respelled value := by
  obtain ⟨stderr, detail, hdetail, hshown⟩ := h
  obtain ⟨-, rfl⟩ := sanitizeGitStderr_eq_some.mp hdetail
  rw [redact_eq hvalue.ne_nil] at hshown
  have hjoined := startsInLine_joinTail (replaceAll value redactionMark (Utf8.lossy stderr).toList)
  rcases infix_cut hjoined hvalue.ne_nil hshown with ⟨front, back, hfound, hfits⟩ | hcut
  · rcases found_of_intercalate hvalue.ne_nil (Nat.le_of_lt hvalue.2.1) hfound with
      ⟨piece, hpiece, front', back', rfl, hfront⟩ |
      ⟨before, after, ⟨last, hlast, hbefore⟩, ⟨first, hfirst, hafter⟩, htakes⟩
    · refine .inl (byMark_of_line hvalue (isLineOf_of_mem (mem_of_mem_tail hpiece)) rfl ?_)
      have hle := hfront.length_le
      unfold Fits at hfits ⊢
      omega
    · have hlast := isLineOf_of_mem (mem_of_mem_tail hlast)
      have hfirst := isLineOf_of_mem (mem_of_mem_tail hfirst)
      have hne : before ≠ [] := by
        rintro rfl
        exact hlast.ne_nil (List.suffix_nil.mp hbefore)
      exact .inr (.inl (bySeparator_of_takesIn (lead_le hjoined hvalue.ne_nil hfound) hfits hne
        (endsInLine_of_line hlast hbefore) (startsInLine_of_line hfirst hafter) htakes))
  · exact .inr (.inr hcut)

/-- A piece without the separator's characters stands in one of the joined pieces. -/
theorem infix_of_intercalate (hne : text ≠ []) (hapart : ∀ c ∈ separator, c ∉ text)
    (h : text <:+: separator.intercalate pieces) : ∃ piece ∈ pieces, text <:+: piece := by
  induction pieces with
  | nil => exact absurd (List.eq_nil_of_infix_nil h) hne
  | cons piece pieces ih =>
      cases pieces with
      | nil =>
          rw [List.intercalate_singleton] at h
          exact ⟨piece, List.mem_cons_self, h⟩
      | cons next pieces =>
          rw [List.intercalate_cons_cons] at h
          rcases infix_of_apart (by decide) hapart h with hhere | hlater
          · exact ⟨piece, List.mem_cons_self, hhere⟩
          · obtain ⟨found, hfound, hinside⟩ := ih hlater
            exact ⟨found, List.mem_cons_of_mem _ hfound, hinside⟩

/-- However short, such a value is not shown. -/
theorem Apart.not_shows (h : Apart value) : ¬Shows (name, value) value := by
  obtain ⟨hne, hapart⟩ := h
  rintro ⟨stderr, detail, hdetail, hshown⟩
  obtain ⟨-, rfl⟩ := sanitizeGitStderr_eq_some.mp hdetail
  rw [redact_eq hne] at hshown
  rcases infix_cut (startsInLine_joinTail _) hne hshown with ⟨front, back, hfound, -⟩ | hcut
  · have hseparator : ∀ c ∈ separator, c ∉ value :=
      fun c hc => hapart c (List.mem_append_left _ (List.mem_append_right _ hc))
    have hmark : ∀ c ∈ redactionMark, c ∉ value :=
      fun c hc => hapart c (List.mem_append_left _ (List.mem_append_left _ hc))
    obtain ⟨piece, hpiece, hinside⟩ := infix_of_intercalate hne hseparator ⟨front, back, hfound.symm⟩
    obtain ⟨before, after, htext, -⟩ := (isLineOf_of_mem (mem_of_mem_tail hpiece)).place
    have hwhole : value <:+: replaceAll value redactionMark (Utf8.lossy stderr).toList :=
      hinside.trans ⟨before, after, htext.symm⟩
    exact not_infix_replaceAll hne (by decide) hmark hwhole
  · exact hapart ellipsis (List.mem_append_right _ (List.mem_singleton_self _))
      (hcut.1.subset (List.mem_singleton_self _))

/-- A value without the characters of what is put in is not spelled again. -/
theorem not_respelled (hstar : '*' ∉ value) (hsemicolon : ';' ∉ value) (hspace : value.head? ≠ some ' ')
    (hellipsis : ellipsis ∉ value) : ¬Respelled value := by
  have hmark : ∀ part : Text, part ≠ [] → (∀ c ∈ part, c = '*') → ¬part <:+: value := by
    intro part hne hall hpart
    obtain ⟨c, part, rfl⟩ := List.exists_cons_of_ne_nil hne
    obtain rfl := hall c List.mem_cons_self
    exact hstar (hpart.subset List.mem_cons_self)
  have hall : ∀ c ∈ redactionMark, c = '*' := forall_mem_of_all (by decide)
  rintro (hbyMark | hbySeparator | hcut)
  · cases hbyMark with
    | whole hwhole => exact hmark _ (by decide) hall hwhole
    | starts k hpos hlt hdrop =>
        apply hmark (redactionMark.drop k) _ _ hdrop.isInfix
        · intro hnil
          rw [List.drop_eq_nil_iff] at hnil
          omega
        · exact fun c hc => hall c (List.mem_of_mem_drop hc)
    | ends stem k hpos hlt hvalue =>
        apply hmark (redactionMark.take k) _ _ (hvalue ▸ List.suffix_append stem _).isInfix
        · intro hnil
          have hlen := congrArg List.length hnil
          rw [List.length_take_of_le (Nat.le_of_lt hlt), List.length_nil] at hlen
          omega
        · exact fun c hc => hall c (List.mem_of_mem_take hc)
  · cases hbySeparator with
    | whole a b hvalue =>
        apply hsemicolon
        rw [hvalue]
        exact List.mem_append_left _ (List.mem_append_right _ List.mem_cons_self)
    | starts b hvalue =>
        apply hspace
        rw [hvalue]
        rfl
    | ends a hvalue =>
        apply hsemicolon
        rw [hvalue]
        exact List.mem_append_right _ List.mem_cons_self
  · exact hellipsis (hcut.1.subset List.mem_cons_self)

theorem not_mem_detail {stderr : Bytes} {header : Option (Text × Text)} {detail : Text}
    (h : sanitizeGitStderr stderr header = some detail) : '\n' ∉ detail := by
  obtain ⟨-, rfl⟩ := sanitizeGitStderr_eq_some.mp h
  have hjoined : '\n' ∉ joinTail (nonEmptyLines (redact header (Utf8.lossy stderr).toList)) := by
    intro hnewline
    rcases mem_of_mem_intercalate hnewline with hsep | ⟨piece, hpiece, hmem⟩
    · exact absurd hsep (by decide)
    · exact (isLineOf_of_mem (mem_of_mem_tail hpiece)).one hmem
  intro hnewline
  unfold cut at hnewline
  split at hnewline
  · rcases List.mem_append.mp hnewline with htake | hellipsis
    · exact hjoined (List.mem_of_mem_take htake)
    · exact absurd hellipsis (by decide)
  · exact hjoined hnewline

/-- What is shown is one line, and no longer than a detail may be. -/
theorem echoed_of_shows {header : Text × Text} (hne : text ≠ []) (h : Shows header text) : Echoed text := by
  obtain ⟨stderr, detail, hdetail, hshown⟩ := h
  refine ⟨fun hnewline => not_mem_detail hdetail (hshown.subset hnewline), ?_⟩
  obtain ⟨-, rfl⟩ := sanitizeGitStderr_eq_some.mp hdetail
  have hjoined := startsInLine_joinTail (redact (some header) (Utf8.lossy stderr).toList)
  rcases infix_cut hjoined hne hshown with ⟨front, back, hfound, hfits⟩ | hcut
  · refine .inl ?_
    have hlead := lead_le hjoined hne hfound
    unfold Fits at hfits ⊢
    omega
  · exact .inr hcut

theorem length_cut_le (joined : Text) :
    ∃ shown, shown.length ≤ maxDetail ∧ (cut joined = shown ∨ cut joined = shown ++ [ellipsis]) := by
  unfold cut
  split
  · exact ⟨joined.take maxDetail, List.length_take_le _ _, .inr rfl⟩
  · next hshort =>
      refine ⟨joined, ?_, .inl rfl⟩
      have hlen := length_le_byteLen joined
      omega

/-- Every detail is short. -/
theorem length_detail_le {stderr : Bytes} {header : Option (Text × Text)} {detail : Text}
    (h : sanitizeGitStderr stderr header = some detail) :
    ∃ shown, shown.length ≤ maxDetail ∧ (detail = shown ∨ detail = shown ++ [ellipsis]) := by
  obtain ⟨-, rfl⟩ := sanitizeGitStderr_eq_some.mp h
  exact length_cut_le _

end Respelled

end Ripclone.Git
