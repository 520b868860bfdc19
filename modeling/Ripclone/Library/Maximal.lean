import Mathlib.Data.List.Basic

/-!
# The first maximal entry of a list

A list whose entries a relation compares, and the first of them that no other lies above. The order
of the list is a preference and need not agree with the relation. Under a transitive and
antisymmetric relation every list but the empty one has such an entry.
-/

namespace Ripclone.Library

variable {α : Type*}

/-- No other entry lies above `a`. -/
def MaximalIn (below : α → α → Prop) (entries : List α) (a : α) : Prop :=
  ∀ b ∈ entries, below a b → b = a

section Exists

variable {below : α → α → Prop} {entries : List α}

theorem exists_maximalIn
    (htrans : ∀ a ∈ entries, ∀ b ∈ entries, ∀ c ∈ entries, below a b → below b c → below a c)
    (hantisymm : ∀ a ∈ entries, ∀ b ∈ entries, below a b → below b a → a = b)
    (hne : entries ≠ []) : ∃ a ∈ entries, MaximalIn below entries a := by
  induction entries with
  | nil => exact absurd rfl hne
  | cons first rest ih =>
      by_cases hrest : rest = []
      · subst hrest
        refine ⟨first, List.mem_cons_self, ?_⟩
        intro b hb _
        exact List.mem_singleton.mp hb
      obtain ⟨m, hm, hmax⟩ := ih
        (fun a ha b hb c hc => htrans a (.tail _ ha) b (.tail _ hb) c (.tail _ hc))
        (fun a ha b hb => hantisymm a (.tail _ ha) b (.tail _ hb)) hrest
      by_cases hfirst : below m first
      · -- What lies above `first` lies above `m`, and above `m` there is only `m` in `rest`.
        refine ⟨first, List.mem_cons_self, ?_⟩
        intro b hb habove
        rcases List.mem_cons.mp hb with rfl | hmem
        · rfl
        have hmb : below m b :=
          htrans m (.tail _ hm) first (.head _) b hb hfirst habove
        have hbm : b = m := hmax b hmem hmb
        subst hbm
        exact hantisymm b hb first (.head _) hfirst habove
      · refine ⟨m, .tail _ hm, ?_⟩
        intro b hb habove
        rcases List.mem_cons.mp hb with rfl | hmem
        · exact absurd habove hfirst
        · exact hmax b hmem habove

end Exists

/-! ## Finding it -/

/-- The first entry that no other lies above, by the answers of `below`. -/
def firstMaximal [BEq α] (below : α → α → Bool) (entries : List α) : Option α :=
  entries.find? fun a => !entries.any fun b => b != a && below a b

section Find

variable [BEq α] [LawfulBEq α] {below : α → α → Bool} {entries : List α} {a : α}

theorem not_any_above_iff : (!entries.any fun b => b != a && below a b) = true ↔
    MaximalIn (fun a b => below a b = true) entries a := by
  rw [Bool.not_eq_true', List.any_eq_false]
  constructor
  · intro h b hb habove
    by_contra hne
    exact h b hb (by simp [hne, habove])
  · intro h b hb habove
    rw [Bool.and_eq_true] at habove
    exact bne_iff_ne.mp habove.1 (h b hb habove.2)

theorem firstMaximal_eq_some_iff : firstMaximal below entries = some a ↔
    MaximalIn (fun a b => below a b = true) entries a ∧
    ∃ before after, entries = before ++ a :: after ∧
      ∀ b ∈ before, ¬MaximalIn (fun a b => below a b = true) entries b := by
  rw [firstMaximal, List.find?_eq_some_iff_append, not_any_above_iff]
  refine and_congr_right fun _ => ?_
  constructor
  all_goals
    rintro ⟨before, after, hsplit, hbefore⟩
    refine ⟨before, after, hsplit, ?_⟩
    intro b hb
    have h := hbefore b hb
    rw [← not_any_above_iff] at *
    simpa using h

theorem firstMaximal_isSome
    (htrans : ∀ a ∈ entries, ∀ b ∈ entries, ∀ c ∈ entries,
      below a b = true → below b c = true → below a c = true)
    (hantisymm : ∀ a ∈ entries, ∀ b ∈ entries, below a b = true → below b a = true → a = b)
    (hne : entries ≠ []) : (firstMaximal below entries).isSome := by
  obtain ⟨a, ha, hmax⟩ := exists_maximalIn htrans hantisymm hne
  rw [firstMaximal, List.find?_isSome]
  exact ⟨a, ha, not_any_above_iff.mpr hmax⟩

end Find

end Ripclone.Library
