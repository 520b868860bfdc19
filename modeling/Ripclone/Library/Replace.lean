import Mathlib.Data.List.Basic
import Ripclone.Library.Text

/-!
# Replacing a part of a text

`replaceAll` looks for the part from the left and goes on after each occurrence. So a text becomes what
stands before the first occurrence, the replacement, and what the rest becomes (`replaceAll_first`). The
part can be found in the result all the same, but only where a replacement helps to spell it
(`takesIn_of_replaceAll`). Pieces put together with a separator are looked at in the same way: what is
found in the whole is found in a piece or takes in a separator (`found_of_intercalate`).
-/

namespace Ripclone.Library

variable {α : Type*}

/-- In `before` followed by `part`, nothing but the end is an occurrence of `part`. -/
def FirstAfter (part before : List α) : Prop :=
  ∀ i < before.length, ¬part <+: (before ++ part).drop i

section FirstAfter

variable {part before : List α}

theorem FirstAfter.tail {a : α} (h : FirstAfter part (a :: before)) : FirstAfter part before :=
  fun i hi => h (i + 1) (Nat.succ_lt_succ hi)

theorem FirstAfter.suffix {front : List α} (h : FirstAfter part (front ++ before)) :
    FirstAfter part before := by
  induction front with
  | nil => exact h
  | cons a front ih => exact ih h.tail

/-- Where the part occurs, it occurs first somewhere. -/
theorem exists_firstAfter {text : List α} (h : part <:+: text) :
    ∃ before rest, text = before ++ part ++ rest ∧ FirstAfter part before := by
  induction text with
  | nil =>
      obtain rfl := List.eq_nil_of_infix_nil h
      exact ⟨[], [], rfl, fun i hi => absurd hi (Nat.not_lt_zero i)⟩
  | cons a text ih =>
      by_cases hhere : part <+: a :: text
      · obtain ⟨rest, hrest⟩ := hhere
        exact ⟨[], rest, hrest.symm, fun i hi => absurd hi (Nat.not_lt_zero i)⟩
      · have hinside : part <:+: text := (List.infix_cons_iff.mp h).resolve_left hhere
        obtain ⟨before, rest, rfl, hfirst⟩ := ih hinside
        refine ⟨a :: before, rest, rfl, ?_⟩
        intro i hi hpart
        cases i with
        | zero => exact hhere (hpart.trans (List.prefix_append (a :: before ++ part) rest))
        | succ i => exact hfirst i (Nat.lt_of_succ_lt_succ hi) hpart

theorem FirstAfter.append_replicate {a : α} (ha : a ∉ part) (hne : part ≠ []) (n : Nat)
    (h : FirstAfter part before) : FirstAfter part (List.replicate n a ++ before) := by
  induction n with
  | zero => exact h
  | succ n ih =>
      intro i hi hpart
      rw [List.replicate_succ, List.cons_append] at hi hpart
      cases i with
      | zero =>
          obtain ⟨first, part, rfl⟩ := List.exists_cons_of_ne_nil hne
          rw [List.drop_zero, List.cons_append, List.cons_prefix_cons] at hpart
          exact ha (hpart.1 ▸ List.mem_cons_self)
      | succ i => exact ih i (Nat.lt_of_succ_lt_succ hi) hpart

/-- Where a part occurs first, a text that goes on after it does not occur earlier. -/
theorem FirstAfter.append (h : FirstAfter part before) (rest : List α) :
    FirstAfter (before ++ part ++ rest) before := by
  intro i hi hwhole
  have hshift : before.drop i ++ (before ++ part ++ rest) = (before ++ (before ++ part ++ rest)).drop i :=
    (List.drop_append_of_le_length (Nat.le_of_lt hi)).symm
  rw [← hshift] at hwhole
  have hshort : (before.drop i).length ≤ before.length := by
    rw [List.length_drop]
    omega
  obtain ⟨later, hlater⟩ : before.drop i <+: before := by
    have hbefore : before <+: before ++ part ++ rest := by
      rw [List.append_assoc]
      exact List.prefix_append _ _
    exact List.prefix_of_prefix_length_le (List.prefix_append _ _) (hbefore.trans hwhole) hshort
  -- Taken back by the shift, the part of the earlier occurrence stands after `later`.
  have hless : later.length < before.length := by
    have hlen := congrArg List.length hlater
    rw [List.length_append, List.length_drop] at hlen
    omega
  have hpart : later ++ part <+: before ++ part := by
    apply List.prefix_of_prefix_length_le _ (List.prefix_append _ rest)
    · simp only [List.length_append]
      omega
    · apply (List.prefix_append_right_inj (before.drop i)).mp
      rw [← List.append_assoc, hlater]
      exact (List.prefix_append _ rest).trans hwhole
  apply h later.length hless
  obtain ⟨more, hmore⟩ := hpart
  rw [← hmore, List.append_assoc, List.drop_left]
  exact List.prefix_append part more

theorem infix_of_cons {a : α} {text : List α} (ha : a ∉ part) (h : part <:+: a :: text) :
    part <:+: text := by
  rcases List.infix_cons_iff.mp h with hhere | hinside
  · cases part with
    | nil => exact List.nil_infix
    | cons first part => exact absurd (List.cons_prefix_cons.mp hhere).1 fun heq => ha (heq ▸ List.mem_cons_self)
  · exact hinside

theorem infix_of_concat {a : α} {text : List α} (ha : a ∉ part) (h : part <:+: text ++ [a]) :
    part <:+: text := by
  rw [← List.reverse_infix] at h ⊢
  rw [List.reverse_append, List.reverse_singleton] at h
  exact infix_of_cons (fun hmem => ha (List.mem_reverse.mp hmem)) h

/-- A symbol that is not in the part does not help to spell it. -/
theorem infix_of_replicate {a : α} {text : List α} (ha : a ∉ part) (n : Nat)
    (h : part <:+: List.replicate n a ++ text) : part <:+: text := by
  induction n with
  | zero => exact h
  | succ n ih => exact ih (infix_of_cons ha h)

/-- Nor does one of several such symbols. -/
theorem infix_of_apart {between text rest : List α} (hbetween : between ≠ [])
    (hapart : ∀ a ∈ between, a ∉ part) (h : part <:+: text ++ between ++ rest) :
    part <:+: text ∨ part <:+: rest := by
  obtain ⟨first, between, rfl⟩ := List.exists_cons_of_ne_nil hbetween
  obtain ⟨hfirst, hmore⟩ := List.forall_mem_cons.mp hapart
  rw [List.append_assoc] at h
  refine (infix_of_separator hfirst h).imp_right fun hafter => ?_
  clear h hbetween hapart
  induction between with
  | nil => exact hafter
  | cons a between ih =>
      obtain ⟨ha, hmore⟩ := List.forall_mem_cons.mp hmore
      exact ih hmore (infix_of_cons ha hafter)

end FirstAfter

section TakesIn

variable {part replacement front back rest stem : List α}

/-- How an occurrence of `part` that `front` stands before takes in a replacement. -/
inductive TakesIn (replacement part front : List α) : Prop
  | whole (h : replacement <:+: part)
  | starts (k : Nat) (hpos : 0 < k) (hlt : k < replacement.length) (hdrop : replacement.drop k <+: part)
      (htake : replacement.take k <:+ front)
  | ends (stem : List α) (k : Nat) (hpos : 0 < k) (hlt : k < replacement.length)
      (hpart : part = stem ++ replacement.take k) (hfirst : FirstAfter part stem)

theorem TakesIn.after {front' : List α} (h : TakesIn replacement part front)
    (hfront : front <:+ front') : TakesIn replacement part front' := by
  cases h with
  | whole h => exact .whole h
  | starts k hpos hlt hdrop htake => exact .starts k hpos hlt hdrop (htake.trans hfront)
  | ends stem k hpos hlt hpart hfirst => exact .ends stem k hpos hlt hpart hfirst

/-- An occurrence that starts in a replacement. -/
theorem takesIn_of_start (hlen : replacement.length ≤ part.length)
    (h : replacement ++ rest = front ++ (part ++ back)) (hlt : front.length < replacement.length) :
    TakesIn replacement part front := by
  obtain ⟨tail, rfl⟩ : front <+: replacement :=
    List.prefix_of_prefix_length_le ⟨_, rfl⟩ ⟨_, h⟩ (Nat.le_of_lt hlt)
  rw [List.length_append] at hlen
  rw [List.append_assoc] at h
  have htail : tail <+: part :=
    List.prefix_of_prefix_length_le ⟨_, rfl⟩ ⟨_, (List.append_cancel_left h).symm⟩ (by omega)
  cases front with
  | nil => exact .whole htail.isInfix
  | cons a front =>
      apply TakesIn.starts (a :: front).length (Nat.succ_pos _) hlt
      · rwa [List.drop_left]
      · simp

/-- An occurrence that starts in the text before a replacement, and so ends after that. -/
theorem takesIn_of_end (hne : part ≠ []) (hfirst : FirstAfter part stem)
    (h : stem ++ (replacement ++ rest) = part ++ back) : TakesIn replacement part front := by
  have hshort : stem.length < part.length := by
    by_contra hlong
    have hinside : part <+: stem :=
      List.prefix_of_prefix_length_le ⟨_, rfl⟩ ⟨_, h⟩ (by omega)
    have hpos := Nat.lt_of_lt_of_le (List.length_pos_of_ne_nil hne) hinside.length_le
    exact hfirst 0 hpos (hinside.trans (List.prefix_append stem part))
  obtain ⟨tail, rfl⟩ : stem <+: part :=
    List.prefix_of_prefix_length_le ⟨_, h⟩ ⟨_, rfl⟩ (Nat.le_of_lt hshort)
  rw [List.append_assoc] at h
  have hback : tail ++ back = replacement ++ rest := (List.append_cancel_left h).symm
  rw [List.length_append] at hshort
  by_cases hwhole : replacement.length ≤ tail.length
  · have hin : replacement <+: tail := List.prefix_of_prefix_length_le ⟨_, rfl⟩ ⟨_, hback⟩ hwhole
    exact .whole (hin.isInfix.trans (List.suffix_append stem tail).isInfix)
  · have hin : tail <+: replacement :=
      List.prefix_of_prefix_length_le ⟨_, hback⟩ ⟨_, rfl⟩ (by omega)
    have htake : stem ++ tail = stem ++ replacement.take tail.length := by
      rw [← List.prefix_iff_eq_take.mp hin]
    exact .ends stem tail.length (by omega) (by omega) htake hfirst

end TakesIn

/-! ## Pieces with a separator between them -/

section Joining

variable {sep part front back before after : List α} {pieces : List (List α)}

/-- How an occurrence of `part` that `front` stands before takes in the separator between two texts. -/
inductive TakesInSeparator (sep part front before after : List α) : Prop
  | whole (a b : List α) (hpart : part = a ++ sep ++ b) (hbefore : before = front ++ a)
      (hafter : b <+: after)
  | starts (k : Nat) (b : List α) (hpos : 0 < k) (hlt : k < sep.length)
      (hpart : part = sep.drop k ++ b) (hfront : front = before ++ sep.take k) (hafter : b <+: after)
  | ends (a : List α) (k : Nat) (hpos : 0 < k) (hlt : k < sep.length)
      (hpart : part = a ++ sep.take k) (hbefore : before = front ++ a)

theorem TakesInSeparator.append (more : List α) (h : TakesInSeparator sep part front before after) :
    TakesInSeparator sep part (more ++ front) (more ++ before) after := by
  cases h with
  | whole a b hpart hbefore hafter =>
      exact .whole a b hpart (by rw [hbefore, List.append_assoc]) hafter
  | starts k b hpos hlt hpart hfront hafter =>
      exact .starts k b hpos hlt hpart (by rw [hfront, List.append_assoc]) hafter
  | ends a k hpos hlt hpart hbefore =>
      exact .ends a k hpos hlt hpart (by rw [hbefore, List.append_assoc])

theorem found_of_join (hlen : sep.length ≤ part.length)
    (h : before ++ (sep ++ after) = front ++ (part ++ back)) :
    (∃ back', before = front ++ part ++ back') ∨ TakesInSeparator sep part front before after ∨
      ∃ front', front = before ++ sep ++ front' ∧ after = front' ++ part ++ back := by
  rcases List.append_eq_append_iff.mp h with ⟨more, rfl, hmore⟩ | ⟨a, rfl, ha⟩
  · rcases List.append_eq_append_iff.mp hmore with ⟨front', rfl, hafter⟩ | ⟨tail, hsep, htail⟩
    · exact .inr (.inr ⟨front', (List.append_assoc _ _ _).symm, by rw [hafter, List.append_assoc]⟩)
    · -- The occurrence starts in the separator, `more` after its start.
      subst hsep
      rw [List.length_append] at hlen
      obtain ⟨b, rfl⟩ : tail <+: part :=
        List.prefix_of_prefix_length_le ⟨_, rfl⟩ ⟨_, htail⟩ (by omega)
      rw [List.append_assoc] at htail
      obtain rfl := List.append_cancel_left htail
      have hafter : b <+: b ++ back := List.prefix_append b back
      cases more with
      | nil => exact .inr (.inl (.whole [] b rfl (by simp) hafter))
      | cons c more =>
          cases tail with
          | nil => exact .inr (.inr ⟨[], by simp, rfl⟩)
          | cons d tail =>
              refine .inr (.inl (.starts (c :: more).length b (Nat.succ_pos _) ?_ ?_ ?_ hafter))
              · simp
              · rw [List.drop_left]
              · rw [List.take_left]
  · rcases List.append_eq_append_iff.mp ha with ⟨back', rfl, hback⟩ | ⟨bs, rfl, hbs⟩
    · exact .inl ⟨back', (List.append_assoc _ _ _).symm⟩
    · by_cases hwhole : sep.length ≤ bs.length
      · obtain ⟨b, rfl⟩ : sep <+: bs := List.prefix_of_prefix_length_le ⟨_, rfl⟩ ⟨_, hbs.symm⟩ hwhole
        rw [List.append_assoc] at hbs
        have hafter : b <+: after := ⟨back, (List.append_cancel_left hbs).symm⟩
        exact .inr (.inl (.whole a b (List.append_assoc _ _ _).symm rfl hafter))
      · have hin : bs <+: sep := List.prefix_of_prefix_length_le ⟨_, hbs.symm⟩ ⟨_, rfl⟩ (by omega)
        cases bs with
        | nil => exact .inl ⟨[], by simp⟩
        | cons c bs =>
            refine .inr (.inl (.ends a (c :: bs).length (Nat.succ_pos _) (by omega) ?_ rfl))
            rw [← List.prefix_iff_eq_take.mp hin]

/-- What is found in the pieces put together is found in one of them or takes in a separator. -/
theorem found_of_intercalate (hne : part ≠ []) (hlen : sep.length ≤ part.length)
    (h : sep.intercalate pieces = front ++ part ++ back) :
    (∃ piece ∈ pieces, ∃ front' back', piece = front' ++ part ++ back' ∧ front' <:+ front) ∨
    ∃ before after, (∃ piece ∈ pieces, piece <:+ before) ∧ (∃ piece ∈ pieces, piece <+: after) ∧
      TakesInSeparator sep part front before after := by
  induction pieces generalizing front with
  | nil =>
      rw [List.intercalate_nil, List.append_assoc, List.nil_eq, List.append_eq_nil_iff] at h
      exact absurd (List.append_eq_nil_iff.mp h.2).1 hne
  | cons piece pieces ih =>
      cases pieces with
      | nil =>
          rw [List.intercalate_singleton] at h
          exact .inl ⟨piece, List.mem_cons_self, front, back, h, List.suffix_refl front⟩
      | cons next pieces =>
          rw [List.intercalate_cons_cons, List.append_assoc, List.append_assoc] at h
          rcases found_of_join hlen h with ⟨back', hpiece⟩ | htakes | ⟨front', rfl, hrest⟩
          · exact .inl ⟨piece, List.mem_cons_self, front, back', hpiece, List.suffix_refl front⟩
          · have hnext : next <+: sep.intercalate (next :: pieces) := by
              cases pieces with
              | nil => simp
              | cons third pieces =>
                  rw [List.intercalate_cons_cons, List.append_assoc]
                  exact List.prefix_append next _
            exact .inr ⟨piece, _, ⟨piece, List.mem_cons_self, List.suffix_refl piece⟩,
              ⟨next, List.mem_cons_of_mem _ List.mem_cons_self, hnext⟩, htakes⟩
          · rcases ih hrest with ⟨found, hfound, front'', back', hpiece, hsuffix⟩ |
              ⟨before, after, ⟨last, hlast, hbefore⟩, ⟨first, hfirst, hafter⟩, htakes⟩
            · refine .inl ⟨found, List.mem_cons_of_mem _ hfound, front'', back', hpiece, ?_⟩
              exact hsuffix.trans (List.suffix_append (piece ++ sep) front')
            · refine .inr ⟨piece ++ sep ++ before, after, ⟨last, List.mem_cons_of_mem _ hlast, ?_⟩,
                ⟨first, List.mem_cons_of_mem _ hfirst, hafter⟩, htakes.append (piece ++ sep)⟩
              exact hbefore.trans (List.suffix_append (piece ++ sep) before)

end Joining

variable [DecidableEq α]

/-- What is left after `skip` symbols, its occurrences of `part` replaced from the left. -/
def replaceFrom (part replacement : List α) : Nat → List α → List α
  | _, [] => []
  | skip + 1, _ :: rest => replaceFrom part replacement skip rest
  | 0, a :: rest =>
    if part <+: a :: rest then replacement ++ replaceFrom part replacement (part.length - 1) rest
    else a :: replaceFrom part replacement 0 rest

/-- Every occurrence of `part` replaced. The empty text occurs between any two symbols. -/
def replaceAll (part replacement text : List α) : List α :=
  if part = [] then replacement ++ text.flatMap fun a => a :: replacement
  else replaceFrom part replacement 0 text

section Replacing

variable {part replacement before text front back : List α}

theorem replaceFrom_eq_drop (skip : Nat) (text : List α) :
    replaceFrom part replacement skip text = replaceFrom part replacement 0 (text.drop skip) := by
  induction text generalizing skip with
  | nil => cases skip <;> rfl
  | cons a rest ih =>
      cases skip with
      | zero => rfl
      | succ skip => exact ih skip

theorem replaceFrom_of_absent (h : ¬part <:+: text) : replaceFrom part replacement 0 text = text := by
  induction text with
  | nil => rfl
  | cons a rest ih =>
      have hhere : ¬part <+: a :: rest := fun hpart => h hpart.isInfix
      have hrest : ¬part <:+: rest := fun hpart => h (hpart.trans (List.suffix_cons a rest).isInfix)
      rw [replaceFrom, if_neg hhere, ih hrest]

/-- A text without the part stays. -/
theorem replaceAll_of_absent (h : ¬part <:+: text) : replaceAll part replacement text = text := by
  have hne : part ≠ [] := by
    rintro rfl
    exact h List.nil_infix
  rw [replaceAll, if_neg hne, replaceFrom_of_absent h]

theorem replaceFrom_first (hne : part ≠ []) (h : FirstAfter part before) (rest : List α) :
    replaceFrom part replacement 0 (before ++ part ++ rest) =
      before ++ replacement ++ replaceFrom part replacement 0 rest := by
  induction before with
  | nil =>
      cases part with
      | nil => exact absurd rfl hne
      | cons a more =>
          have hhere : a :: more <+: a :: (more ++ rest) := List.prefix_append (a :: more) rest
          show replaceFrom (a :: more) replacement 0 (a :: (more ++ rest)) = _
          rw [replaceFrom, if_pos hhere, replaceFrom_eq_drop]
          simp
  | cons a before ih =>
      have hhere : ¬part <+: a :: (before ++ part ++ rest) := by
        intro hpart
        apply h 0 (Nat.succ_pos _)
        -- The occurrence ends where the one after `before` ends, or earlier.
        have hshort : part.length ≤ (a :: before ++ part).length := by
          rw [List.length_append]
          omega
        exact List.prefix_of_prefix_length_le hpart (List.prefix_append _ rest) hshort
      show replaceFrom part replacement 0 (a :: (before ++ part ++ rest)) = _
      rw [replaceFrom, if_neg hhere, ih h.tail]
      rfl

/-- Up to the first occurrence the text stays, and the rest is replaced on its own. -/
theorem replaceAll_first (hne : part ≠ []) (h : FirstAfter part before) (rest : List α) :
    replaceAll part replacement (before ++ part ++ rest) =
      before ++ replacement ++ replaceAll part replacement rest := by
  rw [replaceAll, if_neg hne, replaceFrom_first hne h, replaceAll, if_neg hne]

/-- Where the part is still found in the result, it takes in a replacement. -/
theorem takesIn_of_replaceAll (hne : part ≠ []) (hlen : replacement.length ≤ part.length)
    (h : replaceAll part replacement text = front ++ part ++ back) : TakesIn replacement part front := by
  induction hsize : text.length using Nat.strongRecOn generalizing text front with
  | _ size ih =>
    by_cases hpart : part <:+: text
    · obtain ⟨before, rest, rfl, hfirst⟩ := exists_firstAfter hpart
      rw [replaceAll_first hne hfirst, List.append_assoc, List.append_assoc] at h
      rcases List.append_eq_append_iff.mp h with ⟨more, rfl, hmore⟩ | ⟨stem, rfl, hstem⟩
      · by_cases hlt : more.length < replacement.length
        · exact (takesIn_of_start hlen hmore hlt).after (List.suffix_append before more)
        · obtain ⟨more, rfl⟩ : replacement <+: more :=
            List.prefix_of_prefix_length_le ⟨_, hmore⟩ ⟨_, rfl⟩ (by omega)
          -- The occurrence is one in what the rest became.
          have hrest : replaceAll part replacement rest = more ++ part ++ back := by
            rw [List.append_assoc] at hmore ⊢
            exact List.append_cancel_left hmore
          have hless : rest.length < size := by
            have hpos := List.length_pos_of_ne_nil hne
            rw [← hsize, List.length_append, List.length_append]
            omega
          apply (ih rest.length hless hrest rfl).after
          exact (List.suffix_append replacement more).trans (List.suffix_append before _)
      · exact takesIn_of_end hne hfirst.suffix hstem.symm
    · rw [replaceAll_of_absent hpart] at h
      exact absurd ⟨front, back, h.symm⟩ hpart

/-- A part that has nothing of the replacement is not found in the result. -/
theorem not_infix_replaceAll (hne : part ≠ []) (hreplacement : replacement ≠ [])
    (hapart : ∀ a ∈ replacement, a ∉ part) : ¬part <:+: replaceAll part replacement text := by
  induction hsize : text.length using Nat.strongRecOn generalizing text with
  | _ size ih =>
    by_cases hpart : part <:+: text
    · obtain ⟨before, rest, rfl, hfirst⟩ := exists_firstAfter hpart
      rw [replaceAll_first hne hfirst]
      intro h
      rcases infix_of_apart hreplacement hapart h with hbefore | hrest
      · -- an occurrence in front of the first one
        obtain ⟨front, back, rfl⟩ := hbefore
        have hpos := List.length_pos_of_ne_nil hne
        refine hfirst front.length (by simp only [List.length_append]; omega) ?_
        rw [List.append_assoc, List.append_assoc, List.drop_left]
        exact List.prefix_append part _
      · have hless : rest.length < size := by
          have hpos := List.length_pos_of_ne_nil hne
          rw [← hsize, List.length_append, List.length_append]
          omega
        exact ih rest.length hless rfl hrest
    · rw [replaceAll_of_absent hpart]
      exact hpart

end Replacing

end Ripclone.Library
