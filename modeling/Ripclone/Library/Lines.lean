import Mathlib.Data.List.Basic

/-!
# Lines of a text

Texts as lists of characters, so that they can be taken apart. `lines` reads a text line by line: a
line ends at a newline, with a carriage return before it or not, and a newline at the end starts no
further line. It undoes both ways of putting lines together, `joinLines` with newlines between the
lines and `unlines` with one after each.
-/

namespace Ripclone.Library

/-- No piece of a split holds what it was split at. -/
theorem not_mem_of_mem_splitOn {α : Type*} [BEq α] [LawfulBEq α] {a : α} {text piece : List α}
    (h : piece ∈ text.splitOn a) : a ∉ piece := by
  induction text generalizing piece with
  | nil =>
      rw [List.splitOn_nil, List.mem_singleton] at h
      simp [h]
  | cons first rest ih =>
      rw [List.splitOn_cons_eq_if_modifyHead] at h
      split at h
      · rcases List.mem_cons.mp h with rfl | hrest
        · simp
        · exact ih hrest
      · next hne =>
          obtain ⟨head, others, hsplit⟩ := List.exists_cons_of_ne_nil (List.splitOn_ne_nil a rest)
          rw [hsplit, List.modifyHead_cons] at h
          rcases List.mem_cons.mp h with rfl | hother
          · have hhead := ih (hsplit ▸ List.mem_cons_self)
            simp only [List.mem_cons, not_or]
            exact ⟨fun heq => hne (by simp [heq]), hhead⟩
          · exact ih (hsplit ▸ List.mem_cons_of_mem _ hother)

def lines : List Char → List (List Char)
  | [] => []
  | '\r' :: '\n' :: rest => [] :: lines rest
  | '\n' :: rest => [] :: lines rest
  | c :: rest =>
    match lines rest with
    | [] => [[c]]
    | line :: more => (c :: line) :: more

/-- The lines with a newline between two of them. -/
def joinLines (texts : List (List Char)) : List Char := List.intercalate ['\n'] texts

/-- The lines with a newline after each. -/
def unlines (texts : List (List Char)) : List Char := texts.flatMap fun line => line ++ ['\n']

/-- A text that is one line: nothing in it ends one. -/
def OneLine (text : List Char) : Prop := '\n' ∉ text ∧ '\r' ∉ text

instance (text : List Char) : Decidable (OneLine text) :=
  inferInstanceAs (Decidable (_ ∧ _))

theorem lines_cons_newline (rest : List Char) : lines ('\n' :: rest) = [] :: lines rest := by
  simp [lines]

theorem lines_cons {c : Char} {rest : List Char} (hnewline : c ≠ '\n')
    (hreturn : c = '\r' → rest.head? ≠ some '\n') :
    lines (c :: rest) =
      match lines rest with
      | [] => [[c]]
      | line :: more => (c :: line) :: more := by
  rw [lines]
  · rintro rest rfl rfl
    exact hreturn rfl rfl
  · rintro rfl
    exact absurd rfl hnewline

/-- A text without a newline is one line, carriage returns and all. -/
theorem lines_of_not_mem {line : List Char} (h : '\n' ∉ line) (hne : line ≠ []) :
    lines line = [line] := by
  induction line with
  | nil => exact absurd rfl hne
  | cons c line ih =>
      have hline : '\n' ∉ line := fun hc => h (.tail c hc)
      have hnewline : c ≠ '\n' := fun hc => h (hc ▸ List.mem_cons_self)
      rw [lines_cons hnewline fun _ hhead => hline (List.mem_of_mem_head? hhead)]
      cases line with
      | nil => rfl
      | cons d line => rw [ih hline (List.cons_ne_nil d line)]

/-- A line ends where the next newline is, unless a carriage return comes before that. -/
theorem lines_append_newline_of_last {line : List Char} (h : '\n' ∉ line)
    (hlast : line.getLast? ≠ some '\r') (rest : List Char) :
    lines (line ++ '\n' :: rest) = line :: lines rest := by
  induction line with
  | nil => exact lines_cons_newline rest
  | cons c line ih =>
      have hline : '\n' ∉ line := fun hc => h (.tail c hc)
      have hnewline : c ≠ '\n' := fun hc => h (hc ▸ List.mem_cons_self)
      cases line with
      | nil =>
          have hreturn : c ≠ '\r' := fun hc => hlast (by rw [hc]; rfl)
          show lines (c :: '\n' :: rest) = _
          rw [lines_cons hnewline fun hc => absurd hc hreturn, lines_cons_newline]
      | cons d line =>
          have hd : d ≠ '\n' := fun hd => hline (hd ▸ List.mem_cons_self)
          have hhead : (d :: line ++ '\n' :: rest).head? ≠ some '\n' := fun hhead =>
            hd (Option.some.inj hhead)
          rw [List.cons_append, lines_cons hnewline fun _ => hhead,
            ih hline (by rwa [List.getLast?_cons_cons] at hlast)]

theorem lines_append_newline {line : List Char} (h : OneLine line) (rest : List Char) :
    lines (line ++ '\n' :: rest) = line :: lines rest :=
  lines_append_newline_of_last h.1 (fun hlast => h.2 (List.mem_of_getLast? hlast)) rest

/-- How a text that is not empty starts: with the end of a line, or with a character of its first. -/
theorem lines_cases (c : Char) (rest : List Char) :
    (∃ mark after, c :: rest = mark ++ '\n' :: after ∧ lines (c :: rest) = [] :: lines after ∧
      after.length ≤ rest.length) ∨
    (c ≠ '\n' ∧ ((lines rest = [] ∧ lines (c :: rest) = [[c]]) ∨
      ∃ line more, lines rest = line :: more ∧ lines (c :: rest) = (c :: line) :: more)) := by
  by_cases hnewline : c = '\n'
  · subst hnewline
    exact .inl ⟨[], rest, rfl, lines_cons_newline rest, Nat.le_refl _⟩
  by_cases hreturn : c = '\r' ∧ rest.head? = some '\n'
  · obtain ⟨rfl, hhead⟩ := hreturn
    obtain ⟨after, rfl⟩ := List.head?_eq_some_iff.mp hhead
    exact .inl ⟨['\r'], after, rfl, by rw [lines], Nat.le_succ _⟩
  · refine .inr ⟨hnewline, ?_⟩
    rw [lines_cons hnewline fun hc hhead => hreturn ⟨hc, hhead⟩]
    cases lines rest with
    | nil => exact .inl ⟨rfl, rfl⟩
    | cons line more => exact .inr ⟨line, more, rfl, rfl⟩

/-- The first line is what the text starts with. -/
theorem prefix_of_lines {text line : List Char} {more : List (List Char)}
    (h : lines text = line :: more) : line <+: text := by
  induction text generalizing line more with
  | nil => cases h
  | cons c rest ih =>
      rcases lines_cases c rest with ⟨_, _, _, hlines, _⟩ |
        ⟨-, ⟨-, hlines⟩ | ⟨first, others, hrest, hlines⟩⟩
      · rw [hlines] at h
        exact (List.cons.inj h).1 ▸ List.nil_prefix
      · rw [hlines] at h
        obtain ⟨rfl, -⟩ := List.cons.inj h
        exact List.prefix_append [c] rest
      · rw [hlines] at h
        obtain ⟨rfl, -⟩ := List.cons.inj h
        exact List.cons_prefix_cons.mpr ⟨rfl, ih hrest⟩

/-- Every further line follows a newline. -/
theorem mem_tail_lines {text line : List Char} (h : line ∈ (lines text).tail) :
    ∃ before after, text = before ++ '\n' :: (line ++ after) := by
  induction hsize : text.length using Nat.strongRecOn generalizing text with
  | _ size ih =>
    cases text with
    | nil => cases h
    | cons c rest =>
        rw [List.length_cons] at hsize
        rcases lines_cases c rest with ⟨mark, after, htext, hlines, hle⟩ |
          ⟨-, ⟨-, hlines⟩ | ⟨first, others, hrest, hlines⟩⟩
        · rw [hlines, List.tail_cons] at h
          cases hafter : lines after with
          | nil =>
              rw [hafter] at h
              cases h
          | cons first others =>
              rw [hafter] at h
              rcases List.mem_cons.mp h with rfl | hother
              · obtain ⟨end_, rfl⟩ := prefix_of_lines hafter
                exact ⟨mark, end_, htext⟩
              · obtain ⟨before, end_, rfl⟩ := ih after.length (by omega) (by rw [hafter]; exact hother) rfl
                exact ⟨mark ++ '\n' :: before, end_, by rw [htext]; simp⟩
        · rw [hlines] at h
          cases h
        · rw [hlines] at h
          obtain ⟨before, end_, rfl⟩ := ih rest.length (by omega) (by rw [hrest]; exact h) rfl
          exact ⟨c :: before, end_, rfl⟩

theorem not_mem_of_mem_lines {text line : List Char} (h : line ∈ lines text) : '\n' ∉ line := by
  induction hsize : text.length using Nat.strongRecOn generalizing text line with
  | _ size ih =>
    cases text with
    | nil => cases h
    | cons c rest =>
        rw [List.length_cons] at hsize
        rcases lines_cases c rest with ⟨mark, after, htext, hlines, hle⟩ |
          ⟨hc, ⟨-, hlines⟩ | ⟨first, others, hrest, hlines⟩⟩
        · rw [hlines] at h
          rcases List.mem_cons.mp h with rfl | hother
          · exact List.not_mem_nil
          · exact ih after.length (by omega) hother rfl
        · rw [hlines] at h
          obtain rfl := List.mem_singleton.mp h
          simpa using hc.symm
        · rw [hlines] at h
          rcases List.mem_cons.mp h with rfl | hother
          · have hfirst := ih rest.length (by omega) (by rw [hrest]; exact List.mem_cons_self) rfl
            simp [hc.symm, hfirst]
          · exact ih rest.length (by omega) (by rw [hrest]; exact List.mem_cons_of_mem _ hother) rfl

/-- A line stands in the text, at its start or after a newline. -/
theorem mem_lines {text line : List Char} (h : line ∈ lines text) :
    ∃ before after, text = before ++ line ++ after ∧ ∀ c ∈ before.getLast?, c = '\n' := by
  cases hlines : lines text with
  | nil =>
      rw [hlines] at h
      cases h
  | cons first others =>
      rw [hlines] at h
      rcases List.mem_cons.mp h with rfl | hother
      · obtain ⟨after, hafter⟩ := prefix_of_lines hlines
        exact ⟨[], after, hafter.symm, by simp⟩
      · have htail : line ∈ (lines text).tail := by rwa [hlines]
        obtain ⟨before, after, rfl⟩ := mem_tail_lines htail
        refine ⟨before ++ ['\n'], after, by simp, ?_⟩
        intro c hc
        rw [List.getLast?_concat] at hc
        exact (Option.some.inj hc).symm

theorem lines_unlines {texts : List (List Char)} (h : ∀ line ∈ texts, OneLine line) :
    lines (unlines texts) = texts := by
  induction texts with
  | nil => rfl
  | cons line texts ih =>
      have hrest := ih fun line hline => h line (List.mem_cons_of_mem _ hline)
      show lines (line ++ ['\n'] ++ unlines texts) = line :: texts
      rw [List.append_assoc, List.singleton_append,
        lines_append_newline (h line List.mem_cons_self), hrest]

theorem lines_joinLines {texts : List (List Char)} (h : ∀ line ∈ texts, OneLine line)
    (hne : ∀ line ∈ texts, line ≠ []) : lines (joinLines texts) = texts := by
  induction texts with
  | nil => rfl
  | cons line texts ih =>
      have hline := h line List.mem_cons_self
      cases texts with
      | nil =>
          rw [joinLines, List.intercalate_singleton]
          exact lines_of_not_mem hline.1 (hne line List.mem_cons_self)
      | cons next texts =>
          have hrest := ih (fun line hline => h line (List.mem_cons_of_mem _ hline))
            (fun line hline => hne line (List.mem_cons_of_mem _ hline))
          rw [joinLines, List.intercalate_cons_cons, List.append_assoc, List.singleton_append,
            lines_append_newline hline, ← joinLines, hrest]

/-! ## Lists of two kinds of lines -/

section Kinds

variable {α β : Type*} {f g : α → β} {P Q : α → Prop}

theorem map_inj_on (hinj : ∀ {a b}, P a → P b → f a = f b → a = b) {as bs : List α}
    (has : ∀ a ∈ as, P a) (hbs : ∀ b ∈ bs, P b) (h : as.map f = bs.map f) : as = bs := by
  induction as generalizing bs with
  | nil => exact (List.map_eq_nil_iff.mp h.symm).symm
  | cons a as ih =>
      cases bs with
      | nil => cases h
      | cons b bs =>
          obtain ⟨hab, hrest⟩ := List.cons.inj h
          rw [hinj (has a List.mem_cons_self) (hbs b List.mem_cons_self) hab,
            ih (fun a ha => has a (List.mem_cons_of_mem _ ha))
              (fun b hb => hbs b (List.mem_cons_of_mem _ hb)) hrest]

/-- Where lines of the first kind end and those of the second begin is seen from the lines. -/
theorem map_append_map_inj (hf : ∀ {a b}, P a → P b → f a = f b → a = b)
    (hg : ∀ {a b}, Q a → Q b → g a = g b → a = b) (hne : ∀ {a b}, P a → Q b → f a ≠ g b)
    {as as' bs bs' : List α} (has : ∀ a ∈ as, P a) (has' : ∀ a ∈ as', P a)
    (hbs : ∀ b ∈ bs, Q b) (hbs' : ∀ b ∈ bs', Q b)
    (h : as.map f ++ bs.map g = as'.map f ++ bs'.map g) : as = as' ∧ bs = bs' := by
  induction as generalizing as' with
  | nil =>
      cases as' with
      | nil => exact ⟨rfl, map_inj_on hg hbs hbs' h⟩
      | cons a' as' =>
          cases bs with
          | nil => cases h
          | cons b bs =>
              exact absurd (List.cons.inj h).1.symm
                (hne (has' a' List.mem_cons_self) (hbs b List.mem_cons_self))
  | cons a as ih =>
      cases as' with
      | nil =>
          cases bs' with
          | nil => cases h
          | cons b' bs' =>
              exact absurd (List.cons.inj h).1
                (hne (has a List.mem_cons_self) (hbs' b' List.mem_cons_self))
      | cons a' as' =>
          obtain ⟨haa', hrest⟩ := List.cons.inj h
          obtain ⟨rfl, rfl⟩ := ih (fun a ha => has a (List.mem_cons_of_mem _ ha))
            (fun a ha => has' a (List.mem_cons_of_mem _ ha)) hrest
          exact ⟨by rw [hf (has a List.mem_cons_self) (has' a' List.mem_cons_self) haa'], rfl⟩

end Kinds

end Ripclone.Library
