import Ripclone.Pack.Contents

/-!
# Batches of Head objects

`buildPacksFromOids` packs its objects in batches. They are the objects in order, cut where a batch would
grow over the target (`buildPacksFromOids_batches`).
-/

namespace Ripclone.Pack

open Ripclone.Library

/-- The objects cut into batches. One over the target is a single object. -/
structure Batched (sizeOf : String → Nat) (target : Nat) (oids : List String)
    (parts : List (List String)) : Prop where
  flatten : parts.flatten = oids
  nonempty : ∀ part ∈ parts, part ≠ []
  fits : ∀ part ∈ parts, (part.map sizeOf).sum ≤ target ∨ ∃ oid, part = [oid]

/-- A batch the loop has not closed yet, with its size. -/
structure OpenBatch (sizeOf : String → Nat) (target : Nat) (cur : List String) (curBytes : Nat) :
    Prop where
  bytes : curBytes = (cur.map sizeOf).sum
  fits : curBytes ≤ target ∨ ∃ oid, cur = [oid]

section Loop

variable {sizeOf : String → Nat} {target curBytes : Nat} {oids cur : List String} {oid : String}
  {parts : List (List String)}

theorem batchFull_true (h : batchFull target cur curBytes (sizeOf oid) = .ok true) : cur ≠ [] := by
  rintro rfl
  cases h

theorem batchFull_false (h : batchFull target cur curBytes (sizeOf oid) = .ok false) :
    cur = [] ∨ curBytes + sizeOf oid ≤ target := by
  cases cur with
  | nil => exact .inl rfl
  | cons first cur =>
      obtain ⟨bytes, hbytes, hfull⟩ := bind_eq_ok.mp h
      rw [checkedAdd_eq_ok hbytes]
      exact .inr (Nat.le_of_not_lt (of_decide_eq_false (pure_eq_ok.mp hfull)))

theorem OpenBatch.nil (sizeOf : String → Nat) (target : Nat) : OpenBatch sizeOf target [] 0 :=
  ⟨rfl, .inl (Nat.zero_le target)⟩

/-- A batch starts again with the object that was too much for the last one. -/
theorem OpenBatch.single (sizeOf : String → Nat) (target : Nat) (oid : String) :
    OpenBatch sizeOf target [oid] (sizeOf oid) :=
  ⟨by rw [List.map_singleton, List.sum_singleton], .inr ⟨oid, rfl⟩⟩

/-- An object goes into the open batch as long as it is not full. -/
theorem OpenBatch.push (hcur : OpenBatch sizeOf target cur curBytes)
    (h : batchFull target cur curBytes (sizeOf oid) = .ok false) :
    OpenBatch sizeOf target (cur ++ [oid]) (curBytes + sizeOf oid) where
  bytes := by
    rw [List.map_append, List.sum_append, ← hcur.bytes, List.map_singleton, List.sum_singleton]
  fits := by
    rcases batchFull_false h with rfl | hle
    · exact .inr ⟨oid, rfl⟩
    · exact .inl hle

/-- From an open batch on, every batch is not empty and of the size it may have. -/
theorem batches_fit (hcur : OpenBatch sizeOf target cur curBytes)
    (h : batches sizeOf target oids cur curBytes = .ok parts) :
    ∀ part ∈ parts, part ≠ [] ∧ ((part.map sizeOf).sum ≤ target ∨ ∃ oid, part = [oid]) := by
  have hfits := hcur.fits
  rw [hcur.bytes] at hfits
  induction oids generalizing cur curBytes parts with
  | nil =>
      rw [batches, pure_eq_ok] at h
      cases cur with
      | nil => simp [← h]
      | cons first cur =>
          subst h
          intro part hpart
          obtain rfl := List.mem_singleton.mp hpart
          exact ⟨List.cons_ne_nil first cur, hfits⟩
  | cons oid rest ih =>
      rw [batches] at h
      obtain ⟨full, hfull, h⟩ := bind_eq_ok.mp h
      cases full with
      | true =>
          obtain ⟨bytes, hbytes, h⟩ := bind_eq_ok.mp h
          obtain ⟨later, hlater, h⟩ := bind_eq_ok.mp h
          rw [← checkedAdd_eq_ok hbytes, Nat.zero_add] at hlater
          rw [← pure_eq_ok.mp h]
          intro part hpart
          rcases List.mem_cons.mp hpart with rfl | hpart
          · exact ⟨batchFull_true hfull, hfits⟩
          · have hopen := OpenBatch.single sizeOf target oid
            exact ih hopen hlater (hopen.bytes ▸ hopen.fits) part hpart
      | false =>
          obtain ⟨bytes, hbytes, h⟩ := bind_eq_ok.mp h
          rw [← checkedAdd_eq_ok hbytes] at h
          have hopen := hcur.push hfull
          exact ih hopen h (hopen.bytes ▸ hopen.fits)

/-- Sizes that add up are cut into batches. -/
theorem exists_batches (h : curBytes + (oids.map sizeOf).sum < 2 ^ 64) :
    ∃ parts, batches sizeOf target oids cur curBytes = .ok parts := by
  induction oids generalizing cur curBytes with
  | nil => exact ⟨_, rfl⟩
  | cons oid rest ih =>
      rw [List.map_cons, List.sum_cons] at h
      have hadd : checkedAdd curBytes (sizeOf oid) "current pack size overflow" =
          .ok (curBytes + sizeOf oid) := checkedAdd_ok (by omega)
      obtain ⟨full, hfull⟩ : ∃ full, batchFull target cur curBytes (sizeOf oid) = .ok full := by
        unfold batchFull
        split
        · exact ⟨_, rfl⟩
        · rw [hadd]
          exact ⟨_, rfl⟩
      rw [batches, hfull]
      cases full with
      | true =>
          obtain ⟨later, hlater⟩ := ih (show sizeOf oid + _ < _ by omega)
          refine ⟨cur :: later, bind_eq_ok.mpr ⟨true, rfl, ?_⟩⟩
          have hfirst : checkedAdd 0 (sizeOf oid) "current pack size overflow" = .ok (sizeOf oid) := by
            rw [checkedAdd_ok (by omega), Nat.zero_add]
          exact bind_eq_ok.mpr ⟨_, hfirst, bind_eq_ok.mpr ⟨later, hlater, rfl⟩⟩
      | false =>
          obtain ⟨parts, hparts⟩ := ih (show curBytes + sizeOf oid + _ < _ by omega)
          exact ⟨parts, bind_eq_ok.mpr ⟨false, rfl, bind_eq_ok.mpr ⟨_, hadd, hparts⟩⟩⟩

end Loop

/-- No objects give no packs. Else the batches that are packed are the objects in order, none empty and
none over the target but for a single object, and they are made whenever the sizes add up. -/
theorem buildPacksFromOids_batches (git : Git) (oids : List String) (target : Nat) :
    buildPacksFromOids git [] target = .ok [] ∧
    ∀ sizes, git.objectSizes oids = .ok sizes →
      let made := batches (sizeIn sizes) (max target 1) oids [] 0
      (oids ≠ [] → buildPacksFromOids git oids target =
        made >>= fun parts => parts.mapM (packUndeltified git)) ∧
      (∀ parts, made = .ok parts → Batched (sizeIn sizes) (max 1 target) oids parts) ∧
      ((oids.map (sizeIn sizes)).sum < 2 ^ 64 → ∃ parts, made = .ok parts) := by
  refine ⟨rfl, ?_⟩
  intro sizes hsizes made
  refine ⟨?_, ?_, ?_⟩
  · intro hne
    have hempty : ¬oids.isEmpty = true := fun h => hne (List.isEmpty_iff.mp h)
    rw [buildPacksFromOids, if_neg hempty, hsizes]
    rfl
  · intro parts hparts
    have hfit := batches_fit (OpenBatch.nil (sizeIn sizes) (max target 1)) hparts
    rw [Nat.max_comm] at hfit
    exact ⟨batches_flatten hparts, fun part hpart => (hfit part hpart).1,
      fun part hpart => (hfit part hpart).2⟩
  · intro hsum
    exact exists_batches (by rwa [Nat.zero_add])

section ThreeObjects

def threeSizes : List (String × Nat) := [("tree", 3), ("file", 4), ("video", 900)]

/-- A mirror that tells sizes and does nothing else. -/
def sizesOnly : Git where
  listHeadObjects _ := .error "not found"
  objectSizes _ := .ok threeSizes
  packObjectsUndeltified _ := .error "disk full"
  fetchedHistoryPack _ := .ok none
  packObjectsRange _ _ := .error "disk full"
  isAncestor _ _ := .error "not found"
  revListObjects _ _ := .error "not found"
  packObjectsListed _ := .error "disk full"

theorem video_packed_alone :
    Batched (sizeIn threeSizes) (max 1 8) ["tree", "file", "video"] [["tree", "file"], ["video"]] := by
  have h := (buildPacksFromOids_batches sizesOnly ["tree", "file", "video"] 8).2 threeSizes rfl
  exact h.2.1 _ (by decide)

end ThreeObjects

end Ripclone.Pack
