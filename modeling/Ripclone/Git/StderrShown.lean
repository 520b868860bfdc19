import Mathlib.Data.List.Nodup
import Mathlib.Data.List.Perm.Subperm
import Ripclone.Git.Stderr

/-!
# What git prints for the value to be shown

For each way to spell the value there is a stderr that makes the error show it. Around what is spelled it
has a character that the value lacks, so that a line is neither trimmed nor redacted in another place.
-/

namespace Ripclone.Git

open Ripclone.Library
open Ripclone.Provider (Text byteLen)

/-! ## A character to write around a text -/

section Around

variable {text front back : Text} {c : Char}

theorem exists_fresh (h : text.length < 1000) : ∃ c, isWhiteSpace c = false ∧ c ∉ text := by
  have hnumber : ∀ n < 1000, (Char.ofNat (0x4e00 + n)).toNat = 0x4e00 + n :=
    fun n hn => Utf8.toNat_charOfNat (.inl (by omega))
  by_contra hall
  have hsub : (List.range 1000).map (fun n => Char.ofNat (0x4e00 + n)) ⊆ text := by
    intro c hc
    obtain ⟨n, hn, rfl⟩ := List.mem_map.mp hc
    by_contra hfresh
    apply hall
    refine ⟨_, ?_, hfresh⟩
    have hn := hnumber n (List.mem_range.mp hn)
    simp only [isWhiteSpace, hn]
    simp
    omega
  have hnodup : ((List.range 1000).map fun n => Char.ofNat (0x4e00 + n)).Nodup := by
    apply List.Nodup.map_on _ List.nodup_range
    intro n hn m hm heq
    have hnumbers := congrArg Char.toNat heq
    rw [hnumber n (List.mem_range.mp hn), hnumber m (List.mem_range.mp hm)] at hnumbers
    omega
  have hlen := (List.subperm_of_subset hnodup hsub).length_le
  rw [List.length_map, List.length_range] at hlen
  omega

theorem endsInLine_concat (hc : isWhiteSpace c = false) (text : Text) : EndsInLine (text ++ [c]) := by
  intro d hd
  rw [List.getLast?_concat, Option.mem_some_iff] at hd
  exact hd ▸ hc

theorem startsInLine_cons (hc : isWhiteSpace c = false) (text : Text) : StartsInLine (c :: text) := by
  intro d hd
  rw [List.head?_cons, Option.mem_some_iff] at hd
  exact hd ▸ hc

theorem startsInLine_append (h : StartsInLine front) (hne : front ≠ []) (back : Text) :
    StartsInLine (front ++ back) := by
  intro d hd
  rw [List.head?_append_of_ne_nil _ hne] at hd
  exact h d hd

theorem startsInLine_of_lead (h : lead text = 0) : StartsInLine text := by
  intro c hc
  unfold lead at h
  split at h
  · cases h
  · next hspace => simpa [Option.mem_def.mp hc] using hspace

/-- With a character before it where it needs one, a text starts a line. -/
theorem startsInLine_replicate (hc : isWhiteSpace c = false) {n : Nat} (h : lead text ≤ n) :
    StartsInLine (List.replicate n c ++ text) := by
  cases n with
  | zero => exact startsInLine_of_lead (Nat.le_zero.mp h)
  | succ n => exact startsInLine_cons hc _

theorem ne_newline (hc : isWhiteSpace c = false) : c ≠ '\n' := by
  rintro rfl
  cases hc

end Around

/-! ## What is shown of one line and of two -/

section Shown

variable {value text line printed front back x y name : Text} {c : Char}

theorem infix_cut_of_fits (hfits : Fits front.length text) (back : Text) :
    text <:+: cut (front ++ text ++ back) := by
  unfold cut
  split
  · have hkept : front ++ text <+: (front ++ text ++ back).take maxDetail := by
      apply (List.prefix_take_iff).mpr
      refine ⟨List.prefix_append _ back, ?_⟩
      rw [List.length_append]
      exact hfits
    obtain ⟨more, hmore⟩ := hkept
    exact ⟨front, more ++ [ellipsis], by rw [← hmore, List.append_assoc _ more]⟩
  · exact ⟨front, back, rfl⟩

theorem lossy_printed (printed : Text) :
    (Utf8.lossy (Utf8.encode (String.ofList printed))).toList = printed := by
  rw [Utf8.lossy_encode, String.toList_ofList]

/-- A line with nothing to trim is the detail. -/
theorem sanitize_line (hredact : redact (some (name, value)) printed = line)
    (hone : '\n' ∉ line) (hne : line ≠ []) (hstarts : StartsInLine line) (hends : EndsInLine line) :
    sanitizeGitStderr (Utf8.encode (String.ofList printed)) (some (name, value)) = some (cut line) := by
  have hlines : nonEmptyLines line = [line] := by
    rw [nonEmptyLines, lines_of_not_mem hone hne, List.map_singleton, trim_of_ends hstarts hends]
    simp [hne]
  have hjoined : joinTail [line] = line := by simp [joinTail]
  apply sanitizeGitStderr_eq_some.mpr
  rw [lossy_printed, hredact, hlines, hjoined]
  exact ⟨hne, rfl⟩

/-- Two such lines are joined. -/
theorem sanitize_lines (hvalue : value ≠ []) (hclean : ¬value <:+: x ++ '\n' :: y)
    (hx : '\n' ∉ x ∧ x ≠ [] ∧ StartsInLine x ∧ EndsInLine x)
    (hy : '\n' ∉ y ∧ y ≠ [] ∧ StartsInLine y ∧ EndsInLine y) :
    sanitizeGitStderr (Utf8.encode (String.ofList (x ++ '\n' :: y))) (some (name, value)) =
      some (cut (x ++ separator ++ y)) := by
  obtain ⟨hxone, hxne, hxstarts, hxends⟩ := hx
  obtain ⟨hyone, hyne, hystarts, hyends⟩ := hy
  have hreturn : x.getLast? ≠ some '\r' := fun hlast => Bool.noConfusion (hxends _ hlast)
  have hlines : nonEmptyLines (x ++ '\n' :: y) = [x, y] := by
    rw [nonEmptyLines, lines_append_newline_of_last hxone hreturn, lines_of_not_mem hyone hyne,
      List.map_cons, List.map_singleton, trim_of_ends hxstarts hxends, trim_of_ends hystarts hyends]
    simp [hxne, hyne]
  have hjoined : joinTail [x, y] = x ++ separator ++ y := by simp [joinTail]
  apply sanitizeGitStderr_eq_some.mpr
  rw [lossy_printed, redact_eq hvalue, replaceAll_of_absent hclean, hlines, hjoined]
  refine ⟨?_, rfl⟩
  simp [hxne]

theorem shows_of_line (htext : text ≠ []) (hc : isWhiteSpace c = false)
    (hredact : redact (some (name, value)) printed = front ++ text ++ (back ++ [c]))
    (hfront : '\n' ∉ front) (hone : '\n' ∉ text) (hback : '\n' ∉ back)
    (hstarts : StartsInLine (front ++ text)) (hfits : Fits front.length text) :
    Shows (name, value) text := by
  refine ⟨_, _, sanitize_line hredact ?_ ?_ ?_ ?_, infix_cut_of_fits hfits _⟩
  · have hend := (ne_newline hc).symm
    simp only [List.mem_append, List.mem_singleton, not_or]
    exact ⟨⟨hfront, hone⟩, hback, hend⟩
  · simp
  · exact startsInLine_append hstarts (List.append_ne_nil_of_right_ne_nil _ htext) _
  · rw [← List.append_assoc]
    exact endsInLine_concat hc _

/-- A line that is cut before the last character of a text shows it with the ellipsis. -/
theorem shows_of_cut (hc : isWhiteSpace c = false) (hone : '\n' ∉ text)
    (htext : 1 < text.length)
    (hclean : ∀ stem, text = stem ++ [ellipsis] → value ≠ [] →
      ¬value <:+: List.replicate (maxDetail - stem.length) c ++ stem ++ [c])
    (hcut : FitsCut text) : Shows (name, value) text := by
  obtain ⟨⟨stem, rfl⟩, hlen⟩ := hcut
  rw [List.length_append, List.length_singleton] at hlen htext
  have hne : stem ≠ [] := List.ne_nil_of_length_pos (by omega)
  have hlead : lead (stem ++ [ellipsis]) = lead stem := by
    unfold lead
    rw [List.head?_append_of_ne_nil _ hne]
  have hall : (List.replicate (maxDetail - stem.length) c ++ stem).length = maxDetail := by
    rw [List.length_append, List.length_replicate]
    omega
  have hshown : cut (List.replicate (maxDetail - stem.length) c ++ stem ++ [c]) =
      List.replicate (maxDetail - stem.length) c ++ stem ++ [ellipsis] := by
    have hlong := length_le_byteLen (List.replicate (maxDetail - stem.length) c ++ stem ++ [c])
    rw [List.length_append, hall, List.length_singleton] at hlong
    rw [cut, if_pos (Nat.lt_of_succ_le hlong), List.take_left' hall]
  refine ⟨_, _, sanitize_line (redact_of_absent (hclean stem rfl)) ?_ ?_ ?_ ?_, ?_⟩
  · have hstem : '\n' ∉ stem := fun hmem => hone (List.mem_append_left _ hmem)
    have hend := (ne_newline hc).symm
    simp only [List.mem_append, List.mem_singleton, List.mem_replicate, not_or, not_and]
    exact ⟨⟨fun _ => hend, hstem⟩, hend⟩
  · simp
  · apply startsInLine_append
    · apply startsInLine_replicate hc
      omega
    · exact List.append_ne_nil_of_right_ne_nil _ hne
  · exact endsInLine_concat hc _
  · rw [hshown, List.append_assoc]
    exact (List.suffix_append _ _).isInfix

end Shown

/-! ## The value, spelled -/

section Spelled

variable {value text stem name : Text} {c : Char}

theorem not_mem_replicate (hc : isWhiteSpace c = false) (n : Nat) : '\n' ∉ List.replicate n c := by
  intro hmem
  exact ne_newline hc (List.eq_of_mem_replicate hmem).symm

theorem not_infix_of_short (hfresh : c ∉ value) (hshort : text.length < value.length) :
    ¬value <:+: text ++ [c] := by
  intro h
  have hle := (infix_of_concat hfresh h).length_le
  omega

theorem shows_of_byMark (hlong : LongerThanMarks value) (hone : '\n' ∉ value) (h : ByMark value) :
    Shows (name, value) value := by
  have hne := hlong.ne_nil
  obtain ⟨c, hc, hfresh⟩ : ∃ c, isWhiteSpace c = false ∧ c ∉ value := by
    apply exists_fresh
    cases h with
    | whole _ hfits | starts _ _ _ _ hfits | ends _ _ _ _ _ _ hfits =>
        unfold Fits maxDetail at hfits
        omega
  -- For each way in which the mark completes the value, a stderr is built that is redacted to it.
  cases h with
  | whole hmark hfits =>
      obtain ⟨u, w, hvalue, hfirst⟩ := exists_firstAfter hmark
      have hpad : FirstAfter value (List.replicate (lead value) c ++ u) := by
        apply FirstAfter.append_replicate hfresh hne
        rw [hvalue]
        exact hfirst.append w
      have hrest : ¬value <:+: w ++ [c] := by
        apply not_infix_of_short hfresh
        rw [hvalue, List.length_append, List.length_append]
        have hmarkLen : redactionMark.length = 3 := rfl
        omega
      have hredact : replaceAll value redactionMark
          (List.replicate (lead value) c ++ u ++ value ++ (w ++ [c])) =
          List.replicate (lead value) c ++ value ++ ([] ++ [c]) := by
        rw [replaceAll_first hne hpad, replaceAll_of_absent hrest]
        simp only [hvalue, List.append_assoc, List.nil_append]
      apply shows_of_line hne hc ((redact_eq hne _).trans hredact) (not_mem_replicate hc _) hone
        List.not_mem_nil
      · exact startsInLine_replicate hc (Nat.le_refl _)
      · unfold Fits at hfits ⊢
        rwa [List.length_replicate]
  | starts k hpos hlt hmark hfits =>
      obtain ⟨w, hvalue⟩ := hmark
      have hfirst : FirstAfter value [] := fun i hi => absurd hi (Nat.not_lt_zero i)
      have hrest : ¬value <:+: w ++ [c] := by
        apply not_infix_of_short hfresh
        rw [← hvalue, List.length_append, List.length_drop]
        omega
      have hredact : replaceAll value redactionMark ([] ++ value ++ (w ++ [c])) =
          redactionMark.take k ++ value ++ ([] ++ [c]) := by
        rw [replaceAll_first hne hfirst, replaceAll_of_absent hrest]
        nth_rewrite 1 [← List.take_append_drop k redactionMark]
        rw [← hvalue]
        simp only [List.append_assoc, List.nil_append]
      have hmark : '\n' ∉ redactionMark := by decide
      have hstar : StartsInLine redactionMark := by
        intro d hd
        rw [← Option.some_inj.mp hd]
        rfl
      have htake : redactionMark.take k ≠ [] := by
        apply List.ne_nil_of_length_pos
        rw [List.length_take]
        omega
      apply shows_of_line hne hc ((redact_eq hne _).trans hredact)
        (fun h => hmark (List.mem_of_mem_take h)) hone List.not_mem_nil
      · exact startsInLine_append (startsInLine_of_start hstar (List.take_prefix k _)) htake _
      · unfold Fits at hfits ⊢
        rwa [List.length_take_of_le (Nat.le_of_lt hlt)]
  | ends stem k hpos hlt hvalue hfirst hfits =>
      have hpad : FirstAfter value (List.replicate (lead value) c ++ stem) :=
        hfirst.append_replicate hfresh hne _
      have hrest : ¬value <:+: [] ++ [c] := by
        apply not_infix_of_short hfresh
        exact List.length_pos_of_ne_nil hne
      have hredact : replaceAll value redactionMark
          (List.replicate (lead value) c ++ stem ++ value ++ ([] ++ [c])) =
          List.replicate (lead value) c ++ value ++ (redactionMark.drop k ++ [c]) := by
        rw [replaceAll_first hne hpad, replaceAll_of_absent hrest]
        nth_rewrite 1 [← List.take_append_drop k redactionMark]
        simp only [hvalue, List.append_assoc, List.nil_append]
      have hmark : '\n' ∉ redactionMark := by decide
      apply shows_of_line hne hc ((redact_eq hne _).trans hredact) (not_mem_replicate hc _) hone
        (fun h => hmark (List.mem_of_mem_drop h))
      · exact startsInLine_replicate hc (Nat.le_refl _)
      · unfold Fits at hfits ⊢
        rwa [List.length_replicate]

/-- A line of the detail without the value, as git prints it. -/
structure Printable (value line : Text) : Prop where
  ne_nil : line ≠ []
  one : '\n' ∉ line
  starts : StartsInLine line
  ends : EndsInLine line
  clean : ¬value <:+: line

theorem shows_of_lines {x y front back : Text} (hne : value ≠ []) (hone : '\n' ∉ value)
    (hx : Printable value x) (hy : Printable value y)
    (hfound : x ++ separator ++ y = front ++ value ++ back) (hfits : Fits front.length value) :
    Shows (name, value) value := by
  have hclean : ¬value <:+: x ++ '\n' :: y := by
    intro h
    rcases infix_of_separator hone h with hin | hin
    · exact hx.clean hin
    · exact hy.clean hin
  refine ⟨_, _, sanitize_lines hne hclean ⟨hx.one, hx.ne_nil, hx.starts, hx.ends⟩
    ⟨hy.one, hy.ne_nil, hy.starts, hy.ends⟩, ?_⟩
  rw [hfound]
  exact infix_cut_of_fits hfits back

/-- The line of one character more. -/
theorem printable_concat (hc : isWhiteSpace c = false) (hfresh : c ∉ value) (hone : '\n' ∉ text)
    (hstarts : StartsInLine text) (hshort : text.length < value.length) :
    Printable value (text ++ [c]) where
  ne_nil := List.append_ne_nil_of_right_ne_nil _ (List.cons_ne_nil c [])
  one := by
    have hend := (ne_newline hc).symm
    simp only [List.mem_append, List.mem_singleton, not_or]
    exact ⟨hone, hend⟩
  starts := by
    cases text with
    | nil => exact startsInLine_cons hc []
    | cons d text => exact startsInLine_append hstarts (List.cons_ne_nil d text) [c]
  ends := endsInLine_concat hc text
  clean := not_infix_of_short hfresh hshort

/-- The line that starts with one character more where it needs one. -/
theorem printable_replicate (hc : isWhiteSpace c = false) (hfresh : c ∉ value) (hone : '\n' ∉ text)
    (hne : text ≠ []) (hends : EndsInLine text) (hshort : text.length < value.length) :
    Printable value (List.replicate (lead text) c ++ text) where
  ne_nil := List.append_ne_nil_of_right_ne_nil _ hne
  one := by
    simp only [List.mem_append, not_or]
    exact ⟨not_mem_replicate hc _, hone⟩
  starts := startsInLine_replicate hc (Nat.le_refl _)
  ends := by
    intro d hd
    rw [List.getLast?_append_of_ne_nil _ hne] at hd
    exact hends d hd
  clean := by
    intro h
    have hle := (infix_of_replicate hfresh _ h).length_le
    omega

theorem startsInLine_nil : StartsInLine [] := by
  intro c hc
  cases hc

theorem lead_append (hne : text ≠ []) (more : Text) : lead (text ++ more) = lead text := by
  unfold lead
  rw [List.head?_append_of_ne_nil _ hne]

theorem shows_of_bySeparator (hlong : LongerThanMarks value) (hnewline : '\n' ∉ value)
    (h : BySeparator value) : Shows (name, value) value := by
  have hne := hlong.ne_nil
  have hone := hnewline
  obtain ⟨c, hc, hfresh⟩ : ∃ c, isWhiteSpace c = false ∧ c ∉ value := by
    apply exists_fresh
    -- The separator joins two lines that lack the value: one ends as it starts, the other starts as it ends.
    cases h with
    | whole _ _ _ _ _ hfits | starts _ _ _ hfits | ends _ _ _ hfits =>
        unfold Fits maxDetail at hfits
        omega
  have hc' : Printable value ([] ++ [c]) :=
    printable_concat hc hfresh List.not_mem_nil startsInLine_nil (List.length_pos_of_ne_nil hne)
  have htwo : separator.length = 2 := rfl
  have hhalf : (separator.take 1).length = 1 ∧ (separator.drop 1).length = 1 := ⟨rfl, rfl⟩
  have hlead : ∀ a, a <+: value → a ≠ [] → Fits (lead value) value →
      Fits (List.replicate (lead a) c).length value := by
    rintro a ⟨more, hmore⟩ hnil hfits
    rwa [List.length_replicate, ← lead_append hnil more, hmore]
  cases h with
  | whole a b hvalue ha hb hfits =>
      have hlen := congrArg List.length hvalue
      rw [List.length_append, List.length_append] at hlen
      rw [hvalue, List.mem_append, List.mem_append, not_or, not_or] at hone
      have hb' := printable_concat hc hfresh hone.2 hb (by omega)
      by_cases hnil : a = []
      · have hfound : [] ++ [c] ++ separator ++ (b ++ [c]) = [c] ++ value ++ [c] := by simp [hvalue, hnil]
        rw [if_pos hnil] at hfits
        exact shows_of_lines hne hnewline hc' hb' hfound hfits
      · have ha' := printable_replicate hc hfresh hone.1.1 hnil ha (by omega)
        have hfound : List.replicate (lead a) c ++ a ++ separator ++ (b ++ [c]) =
            List.replicate (lead a) c ++ value ++ [c] := by
          simp only [hvalue, List.append_assoc]
        rw [if_neg hnil] at hfits
        apply shows_of_lines hne hnewline ha' hb' hfound
        apply hlead a _ hnil hfits
        rw [hvalue, List.append_assoc]
        exact List.prefix_append a _
  | starts b hvalue hb hfits =>
      have hlen := congrArg List.length hvalue
      rw [List.length_append] at hlen
      rw [hvalue, List.mem_append, not_or] at hone
      have hb' := printable_concat hc hfresh hone.2 hb (by omega)
      have hfound : [] ++ [c] ++ separator ++ (b ++ [c]) = [c] ++ separator.take 1 ++ value ++ [c] := by
        simp [hvalue, separator]
      exact shows_of_lines hne hnewline hc' hb' hfound hfits
  | ends a hvalue ha hfits =>
      have hlen := congrArg List.length hvalue
      rw [List.length_append] at hlen
      have hnil : a ≠ [] := by
        apply List.ne_nil_of_length_pos
        have hpos := hlong.2.1
        omega
      rw [hvalue, List.mem_append, not_or] at hone
      have ha' := printable_replicate hc hfresh hone.1 hnil ha (by omega)
      have hfound : List.replicate (lead a) c ++ a ++ separator ++ ([] ++ [c]) =
          List.replicate (lead a) c ++ value ++ (separator.drop 1 ++ [c]) := by
        simp [hvalue, separator]
      apply shows_of_lines hne hnewline ha' hc' hfound
      apply hlead a _ hnil hfits
      rw [hvalue]
      exact List.prefix_append a _

theorem shows_of_respelled (hlong : LongerThanMarks value) (hnewline : '\n' ∉ value)
    (h : Respelled value) : Shows (name, value) value := by
  rcases h with hmark | hseparator | hcut
  · exact shows_of_byMark hlong hnewline hmark
  · exact shows_of_bySeparator hlong hnewline hseparator
  · have hshort := hcut.2
    obtain ⟨c, hc, hfresh⟩ : ∃ c, isWhiteSpace c = false ∧ c ∉ value := by
      apply exists_fresh
      unfold maxDetail at hshort
      omega
    apply shows_of_cut hc hnewline (Nat.lt_trans (by decide) hlong.1) _ hcut
    intro stem hstem _ h
    have hle := (infix_of_replicate hfresh _ (infix_of_concat hfresh h)).length_le
    have hlen := congrArg List.length hstem
    rw [List.length_append, List.length_singleton] at hlen
    omega

/-- What is around a short text is not part of the value, or the value is longer than all of it. -/
theorem exists_around (value : Text) :
    ∃ c, isWhiteSpace c = false ∧ ∀ n (text : Text), n + text.length ≤ 400 →
      value <:+: List.replicate n c ++ text ++ [c] → value <:+: text := by
  by_cases hshort : value.length < 1000
  · obtain ⟨c, hc, hfresh⟩ := exists_fresh hshort
    refine ⟨c, hc, ?_⟩
    intro n text _ h
    exact infix_of_replicate hfresh n (infix_of_concat hfresh h)
  · refine ⟨'-', rfl, ?_⟩
    intro n text hlen h
    have hle := h.length_le
    rw [List.length_append, List.length_append, List.length_replicate, List.length_singleton] at hle
    omega

/-- A text without the value is shown as git prints it. -/
theorem shows_of_echoed (hlong : 1 < text.length) (hclean : value ≠ [] → ¬value <:+: text)
    (h : Echoed text) : Shows (name, value) text := by
  obtain ⟨hone, hfits | hcut⟩ := h
  · obtain ⟨c, hc, haround⟩ := exists_around value
    have hnone : value ≠ [] → ¬value <:+: List.replicate (lead text) c ++ text ++ [c] := by
      intro hvalue h
      exact hclean hvalue (haround _ _ hfits h)
    have hne : text ≠ [] := List.ne_nil_of_length_pos (Nat.lt_trans Nat.zero_lt_one hlong)
    apply shows_of_line hne hc (redact_of_absent hnone) (not_mem_replicate hc _) hone List.not_mem_nil
    · exact startsInLine_replicate hc (Nat.le_refl _)
    · unfold Fits at hfits ⊢
      rwa [List.length_replicate]
  · obtain ⟨c, hc, haround⟩ := exists_around value
    apply shows_of_cut hc hone hlong _ hcut
    rintro stem rfl hvalue h
    apply hclean hvalue
    have hlen := hcut.2
    rw [List.length_append, List.length_singleton] at hlen
    have hstem : value <:+: stem := by
      apply haround _ _ _ h
      unfold maxDetail at hlen ⊢
      omega
    exact hstem.trans (List.prefix_append stem [ellipsis]).isInfix

end Spelled

/-! ## What the detail hides -/

open Registry (ProviderInstance basicValue)

section Hidden

variable {provider : ProviderInstance} {token name value : Text}

theorem shows_value_iff (hlong : LongerThanMarks value) (hnewline : '\n' ∉ value) :
    Shows (name, value) value ↔ Respelled value :=
  ⟨respelled_of_shows hlong, shows_of_respelled hlong hnewline⟩

/-- The token has the header's value in it, and that is not shown again once it is replaced. -/
def Covered (value token : Text) : Prop := value <:+: token ∧ (LongerThanMarks value ∨ Apart value)

/-- A short value, with a character of what is put in, stands in the token. -/
def Blended (value token : Text) : Prop :=
  value ≠ [] ∧ value <:+: token ∧ ¬LongerThanMarks value ∧ ¬Apart value

/-- What keeps the value and the token from being shown, each for its own length. -/
structure Hides (value token : Text) : Prop where
  value_hidden : LongerThanMarks value → ¬Respelled value
  token_hidden : LongerThanMarks token → Covered value token ∨ ¬Echoed token

/-- A token with a hidden value in it is hidden. -/
theorem Hides.covered (h : Hides value token) (hnewline : '\n' ∉ value) (hcovered : Covered value token) :
    ¬Shows (name, value) token := by
  rintro ⟨stderr, detail, hdetail, htoken⟩
  have hshown : Shows (name, value) value := ⟨stderr, detail, hdetail, hcovered.1.trans htoken⟩
  rcases hcovered.2 with hlong | hapart
  · exact h.value_hidden hlong ((shows_value_iff hlong hnewline).mp hshown)
  · exact hapart.not_shows hshown

/-- The value of a GitHub or GitLab header is never shown. -/
theorem basicValue_hidden (user token name : Text) :
    ¬Shows (name, basicValue user token) (basicValue user token) := by
  have hlack : ∀ c ∉ "Basic ".toList ++ Base64.alphabet ++ ['='], c ∉ basicValue user token :=
    fun c hc hmem => hc (Registry.mem_basicValue hmem)
  have hlong : LongerThanMarks (basicValue user token) := by
    have hscheme : "Basic ".toList.length ≤ (basicValue user token).length :=
      (List.prefix_append _ _).length_le
    exact ⟨Nat.lt_of_lt_of_le (by decide) hscheme, Nat.lt_of_lt_of_le (by decide) hscheme,
      Nat.lt_of_lt_of_le (by decide) hscheme⟩
  rw [shows_value_iff hlong (hlack _ (by decide))]
  apply not_respelled (hlack _ (by decide)) (hlack _ (by decide)) _ (hlack _ (by decide))
  intro hhead
  cases hhead

/-- No detail shows a value or a token that is longer than what is put in. -/
def NoneShown (header : Text × Text) (token : Text) : Prop :=
  ∀ stderr detail, sanitizeGitStderr stderr (some header) = some detail →
    (∃ shown, shown.length ≤ maxDetail ∧ (detail = shown ∨ detail = shown ++ [ellipsis])) ∧
    (LongerThanMarks header.2 → ¬header.2 <:+: detail) ∧ (LongerThanMarks token → ¬token <:+: detail)

theorem Hides.noneShown (h : Hides value token) (hnewline : '\n' ∉ value) :
    NoneShown (name, value) token := by
  intro stderr detail hdetail
  refine ⟨length_detail_le hdetail, fun hlong hshown => ?_, fun hlong hshown => ?_⟩
  · exact h.value_hidden hlong ((shows_value_iff hlong hnewline).mp ⟨stderr, detail, hdetail, hshown⟩)
  · have hshows : Shows (name, value) token := ⟨stderr, detail, hdetail, hshown⟩
    rcases h.token_hidden hlong with hcovered | hnever
    · exact h.covered hnewline hcovered hshows
    · exact hnever (echoed_of_shows hlong.ne_nil hshows)

/-- The token half, whatever the value's length: a token that does not have the value in it is shown as
git prints it. -/
theorem hides_of_noneShown (hnewline : '\n' ∉ value) (hblended : ¬Blended value token)
    (h : NoneShown (name, value) token) : Hides value token where
  value_hidden := by
    intro hlong hrespelled
    obtain ⟨stderr, detail, hdetail, hshown⟩ := (shows_value_iff hlong hnewline).mpr hrespelled
    exact (h stderr detail hdetail).2.1 hlong hshown
  token_hidden := by
    intro hlong
    by_contra hnot
    rw [not_or, not_not] at hnot
    have hclean : value ≠ [] → ¬value <:+: token := by
      intro hne hinside
      have hneither := not_or.mp fun heither => hnot.1 ⟨hinside, heither⟩
      exact hblended ⟨hne, hinside, hneither⟩
    have hshows : Shows (name, value) token :=
      shows_of_echoed (Nat.lt_trans (by decide) hlong.1) hclean hnot.2
    obtain ⟨stderr, detail, hdetail, hshown⟩ := hshows
    exact (h stderr detail hdetail).2.2 hlong hshown

/-- The value of a header is hidden unless it can be spelled, and the token, however short the value is,
unless it can be written. Only where a short value with a character of what is put in stands in the
token may the token be hidden all the same. -/
theorem hidden_iff (h : provider.authHeader token = some (name, value)) :
    (Hides value token → NoneShown (name, value) token) ∧
      (¬Blended value token → NoneShown (name, value) token → Hides value token) := by
  have hnewline := (ProviderInstance.oneLine_of_authHeader h).1
  exact ⟨fun hhides => hhides.noneShown hnewline, hides_of_noneShown hnewline⟩

/-- A header that is the token hides it. -/
theorem private_token_hidden :
    ∃ detail,
      sanitizeGitStderr (Utf8.encode "fatal: bad token glpat-secret\n")
        (some ("PRIVATE-TOKEN".toList, "glpat-secret".toList)) = some detail ∧
      ¬"glpat-secret".toList <:+: detail := by
  have h : ProviderInstance.authHeader ⟨"gitlab".toList, .gitLab, "gitlab.com".toList, some "{token}".toList,
      some "PRIVATE-TOKEN".toList⟩ "glpat-secret".toList =
      some ("PRIVATE-TOKEN".toList, "glpat-secret".toList) := by decide
  have hdetail : sanitizeGitStderr (Utf8.encode "fatal: bad token glpat-secret\n")
      (some ("PRIVATE-TOKEN".toList, "glpat-secret".toList)) = some "fatal: bad token ***".toList := by
    rw [sanitizeGitStderr_eq_some, Utf8.lossy_encode]
    decide
  have hhides : Hides "glpat-secret".toList "glpat-secret".toList := by
    refine ⟨fun _ => not_respelled (by decide) (by decide) (by decide) (by decide), fun hlong => ?_⟩
    exact .inl ⟨List.infix_refl _, .inl hlong⟩
  exact ⟨_, hdetail, ((hidden_iff h).1 hhides _ _ hdetail).2.2 (by decide)⟩

/-- The token of a GitHub header is shown when git prints it. -/
theorem raw_token_shown :
    ∃ value detail,
      ProviderInstance.authHeader ⟨"github".toList, .gitHub, "github.com".toList, none, none⟩
        "ghp_secret".toList = some ("Authorization".toList, value) ∧
      sanitizeGitStderr (Utf8.encode "fatal: bad token ghp_secret\n")
        (some ("Authorization".toList, value)) = some detail ∧
      LongerThanMarks value ∧ LongerThanMarks "ghp_secret".toList ∧ "ghp_secret".toList <:+: detail := by
  have hheader : ProviderInstance.authHeader ⟨"github".toList, .gitHub, "github.com".toList, none, none⟩
      "ghp_secret".toList =
      some ("Authorization".toList, basicValue "x-access-token".toList "ghp_secret".toList) := by
    decide
  have hshown : sanitizeGitStderr (Utf8.encode "fatal: bad token ghp_secret\n")
      (some ("Authorization".toList, basicValue "x-access-token".toList "ghp_secret".toList)) =
      some "fatal: bad token ghp_secret".toList := by
    rw [sanitizeGitStderr_eq_some, Utf8.lossy_encode]
    decide
  have hinfix : "ghp_secret".toList <:+: "fatal: bad token ghp_secret".toList :=
    ⟨"fatal: bad token ".toList, [], by decide⟩
  exact ⟨_, _, hheader, hshown, by decide, by decide, hinfix⟩

end Hidden

end Ripclone.Git
