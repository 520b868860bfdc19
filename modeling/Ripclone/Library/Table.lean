import Mathlib.Data.List.Basic

/-!
# Keyed tables

A database table as the list of its rows in insertion order, with a `key` that a primary key
constraint keeps unique. The operations are the statements a program issues against it: look a row
up, insert it unless its key is taken (`INSERT … ON CONFLICT DO NOTHING`), rewrite the rows that
match a condition (`UPDATE … WHERE`) and drop them (`DELETE … WHERE`).

Every lemma says what one statement does to `lookup`, so that proofs about a program's tables are
about the rows by key and never about the order they are stored in.
-/

namespace Ripclone.Library.Table

variable {α κ : Type*} [DecidableEq κ]

/-- The row with key `k`. -/
def lookup (key : α → κ) (k : κ) (rows : List α) : Option α :=
  rows.find? fun row => key row = k

/-- `INSERT … ON CONFLICT DO NOTHING`. -/
def insertNew (key : α → κ) (row : α) (rows : List α) : List α :=
  if rows.any (fun old => key old = key row) then rows else rows ++ [row]

/-- `UPDATE … SET f WHERE p`. Every row's new columns are computed from the row as it was. -/
def update (p : α → Bool) (f : α → α) (rows : List α) : List α :=
  rows.map fun row => if p row then f row else row

/-- `DELETE … WHERE p`. -/
def delete (p : α → Bool) (rows : List α) : List α :=
  rows.filter fun row => !p row

variable {key : α → κ} {k : κ} {row : α} {rows : List α} {p : α → Bool} {f : α → α}

/-! ## `lookup` -/

@[simp] theorem lookup_nil : lookup key k [] = none := rfl

theorem mem_of_lookup (h : lookup key k rows = some row) : row ∈ rows :=
  List.mem_of_find?_eq_some h

theorem key_of_lookup (h : lookup key k rows = some row) : key row = k := by
  simpa using List.find?_some h

theorem lookup_eq_none : lookup key k rows = none ↔ ∀ row ∈ rows, key row ≠ k := by
  simp [lookup]

/-- In a table whose keys are distinct, every row is the one its key looks up. -/
theorem lookup_of_mem (hnodup : (rows.map key).Nodup) (h : row ∈ rows) :
    lookup key (key row) rows = some row := by
  induction rows with
  | nil => cases h
  | cons head rest ih =>
      rw [List.map_cons, List.nodup_cons] at hnodup
      rcases List.mem_cons.mp h with rfl | hrest
      · simp [lookup]
      · have hne : key head ≠ key row := by
          intro heq
          exact hnodup.1 (heq ▸ List.mem_map_of_mem hrest)
        simpa [lookup, hne] using ih hnodup.2 hrest

/-! ## What a statement does to `lookup` -/

theorem lookup_update (hkey : ∀ row, key (f row) = key row) :
    lookup key k (update p f rows) =
      (lookup key k rows).map fun row => if p row then f row else row := by
  induction rows with
  | nil => rfl
  | cons head rest ih =>
      have hhead : key (if p head then f head else head) = key head := by
        split
        · exact hkey head
        · rfl
      by_cases hk : key head = k
      · simp [lookup, update, hhead, hk]
      · simpa [lookup, update, hhead, hk] using ih

theorem lookup_insertNew : lookup key k (insertNew key row rows) =
    (lookup key k rows).or (if key row = k then some row else none) := by
  unfold insertNew
  split
  · next htaken =>
      cases hl : lookup key k rows with
      | some old => rfl
      | none =>
          obtain ⟨old, hold, hkey⟩ := List.any_eq_true.mp htaken
          have hne : key row ≠ k := by
            intro heq
            exact lookup_eq_none.mp hl old hold ((of_decide_eq_true hkey).trans heq)
          simp [hne]
  · simp [lookup, List.find?_append, List.find?_singleton]

/-- A `DELETE` whose condition is on the key. -/
theorem lookup_delete {q : κ → Bool} (hp : ∀ row, p row = q (key row)) :
    lookup key k (delete p rows) = if q k then none else lookup key k rows := by
  induction rows with
  | nil => simp [lookup, delete]
  | cons head rest ih =>
      simp only [lookup, delete] at ih ⊢
      by_cases hk : key head = k
      · by_cases hq : q k
        · simpa [hp, hk, hq] using ih
        · simp [hp, hk, hq]
      · by_cases hq : q (key head)
        · simpa [hp, hk, hq] using ih
        · simpa [hp, hk, hq] using ih

/-! ## Rows and keys -/

theorem mem_update : row ∈ update p f rows ↔
    ∃ old ∈ rows, row = if p old then f old else old := by
  rw [update, List.mem_map]
  constructor
  · rintro ⟨old, hold, rfl⟩
    exact ⟨old, hold, rfl⟩
  · rintro ⟨old, hold, rfl⟩
    exact ⟨old, hold, rfl⟩

theorem mem_delete : row ∈ delete p rows ↔ row ∈ rows ∧ p row = false := by
  simp [delete]

theorem mem_insertNew {new : α} (h : row ∈ insertNew key new rows) :
    row ∈ rows ∨ row = new ∧ ∀ old ∈ rows, key old ≠ key new := by
  unfold insertNew at h
  split at h
  · exact .inl h
  · next hfree =>
      rcases List.mem_append.mp h with hold | hnew
      · exact .inl hold
      · refine .inr ⟨List.mem_singleton.mp hnew, ?_⟩
        intro old hold heq
        exact hfree (List.any_eq_true.mpr ⟨old, hold, by simpa using heq⟩)

/-- A row with the key is there after it. -/
theorem exists_mem_insertNew (key : α → κ) (row : α) (rows : List α) :
    ∃ kept ∈ insertNew key row rows, key kept = key row := by
  unfold insertNew
  split
  · next hany =>
      obtain ⟨kept, hkept, hkey⟩ := List.any_eq_true.mp hany
      exact ⟨kept, hkept, by simpa using hkey⟩
  · exact ⟨row, by simp, rfl⟩

theorem subset_insertNew (key : α → κ) (new : α) (h : row ∈ rows) :
    row ∈ insertNew key new rows := by
  unfold insertNew
  split
  · exact h
  · exact List.mem_append_left _ h

omit [DecidableEq κ] in
theorem mem_insertNew_id [DecidableEq α] {new : α} :
    row ∈ insertNew id new rows ↔ row ∈ rows ∨ row = new := by
  unfold insertNew
  split
  · next hthere =>
      have hnew : new ∈ rows := by simpa using hthere
      refine ⟨.inl, fun h => h.elim id ?_⟩
      rintro rfl
      exact hnew
  · simp

omit [DecidableEq κ] in
theorem map_key_update (hkey : ∀ row, key (f row) = key row) :
    (update p f rows).map key = rows.map key := by
  rw [update, List.map_map]
  refine List.map_congr_left fun row _ => ?_
  show key (if p row then f row else row) = key row
  split
  · exact hkey row
  · rfl

theorem nodup_insertNew (h : (rows.map key).Nodup) :
    ((insertNew key row rows).map key).Nodup := by
  unfold insertNew
  split
  · exact h
  · next hfree =>
      rw [List.map_append, List.nodup_append]
      refine ⟨h, by simp, ?_⟩
      intro k hk k' hk' heq
      obtain ⟨old, hold, rfl⟩ := List.mem_map.mp hk
      rw [List.map_singleton, List.mem_singleton] at hk'
      exact hfree (List.any_eq_true.mpr ⟨old, hold, by simpa using heq.trans hk'⟩)

omit [DecidableEq κ] in
theorem nodup_delete (h : (rows.map key).Nodup) : ((delete p rows).map key).Nodup :=
  h.sublist (List.filter_sublist.map key)

/-- An `UPDATE` that matches no row changes nothing. -/
theorem update_eq_self (h : ∀ row ∈ rows, p row = false) : update p f rows = rows := by
  conv_rhs => rw [← List.map_id rows]
  refine List.map_congr_left fun row hrow => ?_
  simp [h row hrow]

/-! ## `SELECT MAX` -/

theorem le_foldr_max {n : Nat} {ns : List Nat} (h : n ∈ ns) : n ≤ ns.foldr max 0 := by
  induction ns with
  | nil => cases h
  | cons first rest ih =>
      rw [List.foldr_cons]
      rcases List.mem_cons.mp h with rfl | hrest
      · exact Nat.le_max_left _ _
      · exact Nat.le_trans (ih hrest) (Nat.le_max_right _ _)

theorem foldr_max_mem {ns : List Nat} (h : ns ≠ []) : ns.foldr max 0 ∈ ns := by
  induction ns with
  | nil => exact absurd rfl h
  | cons first rest ih =>
      rw [List.foldr_cons]
      rcases Nat.le_total first (rest.foldr max 0) with hle | hle
      · rw [Nat.max_eq_right hle]
        cases rest with
        | nil =>
            obtain rfl := Nat.le_zero.mp hle
            exact List.mem_cons_self
        | cons second rest => exact List.mem_cons_of_mem _ (ih (List.cons_ne_nil _ _))
      · rw [Nat.max_eq_left hle]
        exact List.mem_cons_self

/-! ## Entries by position -/

/-- An entry of a list with one entry replaced. -/
theorem getElem?_set_cases {l : List α} {i j : Nat} {a b : α} (h : (l.set i a)[j]? = some b) :
    j = i ∧ b = a ∨ j ≠ i ∧ l[j]? = some b := by
  by_cases hij : i = j
  · subst hij
    have hlt : i < l.length := by simpa using (List.getElem?_eq_some_iff.mp h).1
    exact .inl ⟨rfl, Option.some.inj (h.symm.trans (List.getElem?_set_self hlt))⟩
  · exact .inr ⟨Ne.symm hij, by rwa [List.getElem?_set_ne hij] at h⟩

/-- An entry of a list with one entry added. -/
theorem getElem?_concat_cases {l : List α} {j : Nat} {a b : α} (h : (l ++ [a])[j]? = some b) :
    j = l.length ∧ b = a ∨ l[j]? = some b := by
  rw [List.getElem?_append] at h
  split at h
  · exact .inr h
  · next hge =>
      obtain ⟨hj, hb⟩ := List.getElem?_eq_some_iff.mp h
      obtain rfl : b = a := by simpa using hb.symm
      exact .inl ⟨by simp at hj; omega, rfl⟩

/-- How many entries `p` holds of, when one is replaced. -/
theorem countP_replaced (p : α → Bool) {l : List α} {i : Nat} {a : α} (b : α) (h : l[i]? = some a) :
    (l.set i b).countP p + (if p a then 1 else 0) = l.countP p + (if p b then 1 else 0) := by
  obtain ⟨hlt, rfl⟩ := List.getElem?_eq_some_iff.mp h
  rw [List.countP_set hlt]
  by_cases hp : p l[i] = true
  · have hpos : 0 < l.countP p := List.countP_pos_iff.mpr ⟨_, List.getElem_mem hlt, hp⟩
    rw [if_pos hp]
    omega
  · rw [if_neg hp]
    omega

theorem countP_eraseIdx (p : α → Bool) {l : List α} {i : Nat} {a : α} (h : l[i]? = some a) :
    (l.eraseIdx i).countP p + (if p a then 1 else 0) = l.countP p := by
  obtain ⟨hlt, rfl⟩ := List.getElem?_eq_some_iff.mp h
  have hsplit : l.take i ++ l[i] :: l.drop (i + 1) = l := by
    rw [← List.drop_eq_getElem_cons hlt, List.take_append_drop]
  conv => rhs; rw [← hsplit]
  rw [List.eraseIdx_eq_take_drop_succ, List.countP_append, List.countP_append, List.countP_cons]
  omega

end Ripclone.Library.Table
