import Mathlib.Order.CompletePartialOrder
import Ripclone.Clonepack
import Ripclone.Pack.Builder

/-!
# What packs hold

Storage is content-addressed: what a name stands for never changes, only whether a read of it
succeeds. `Contents` is what the names stand for, and the packs a build returns are judged by it.

`Git.HeadOk` and `Git.HistoryOk` are what the builders rely on git for: the closure of a commit is
listed once each, and a pack holds exactly the objects it was asked for. From these alone,
`buildPacksFromOids` turns a duplicate-free list into packs that share no object and hold the list.
-/

namespace Ripclone.Pack

open Ripclone.Library

/-- What each name in storage stands for: its bytes, the objects of a pack, a decoded manifest. -/
structure Contents where
  bytes : String → Bytes
  objects : String → Set String
  manifest : String → ClonepackManifest

namespace Contents

variable (c : Contents)

/-- Every object the packs hold. -/
def packed (packs : List SizedPack) : Set String := held (fun pack => c.objects pack.pack) packs

/-- The pack's idx lists exactly its objects. -/
def Described (pack : SizedPack) : Prop :=
  ∃ ids, idxObjectIds (c.bytes pack.idx) = .ok ids ∧ ∀ id, id ∈ ids ↔ id ∈ c.objects pack.pack

/-- No object is in two of the packs, and each pack's idx describes it. -/
structure PackSet (packs : List SizedPack) : Prop where
  disjoint : packs.Pairwise fun p q => Disjoint (c.objects p.pack) (c.objects q.pack)
  described : ∀ pack ∈ packs, c.Described pack

/-- Git wrote packs that hold exactly `objects`. One without objects is a header and a checksum. -/
structure Wrote (packs : List SizedPack) (objects : Set String) : Prop where
  packed_eq : c.packed packs = objects
  described : ∀ pack ∈ packs, c.Described pack
  empty : ∀ pack ∈ packs, pack.packLen ≤ emptyPackLen → c.objects pack.pack = ∅

end Contents

/-- What a Head build relies on git for, `closure` being the depth-1 closure of each commit. -/
structure Git.HeadOk (c : Contents) (closure : String → Set String) (git : Git) : Prop where
  nodup : ∀ {commit oids}, git.listHeadObjects commit = .ok oids → oids.Nodup
  mem_closure : ∀ {commit oids}, git.listHeadObjects commit = .ok oids →
    ∀ id, id ∈ oids ↔ id ∈ closure commit
  wrote : ∀ {oids packs}, git.packObjectsUndeltified oids = .ok packs →
    c.Wrote packs {id | id ∈ oids}

/-- What a history build relies on git for, `child` being the references between objects. -/
structure Git.HistoryOk (c : Contents) (child : String → String → Prop) (git : Git) : Prop where
  wrote : ∀ {tip exclude packs}, git.packObjectsRange tip exclude = .ok packs →
    c.Wrote packs (Reach child tip \ ReachOpt child exclude)
  /-- The fetched pack holds the whole history of its tip. -/
  fetched : ∀ {tip pack}, git.fetchedHistoryPack tip = .ok (some pack) →
    Reach child tip ⊆ c.objects pack.pack ∧ (pack.packLen ≤ emptyPackLen → c.objects pack.pack = ∅)

/-! ## Packs in storage -/

section Packed

variable {c : Contents} {packs rest : List SizedPack} {objects : Set String} {git : Git}

theorem packed_append : c.packed (packs ++ rest) = c.packed packs ∪ c.packed rest := held_append

@[simp] theorem packed_nil : c.packed [] = ∅ := by
  ext id
  simp [Contents.packed, held]

theorem mem_packed {id : String} : id ∈ c.packed packs ↔ ∃ pack ∈ packs, id ∈ c.objects pack.pack :=
  Iff.rfl

/-- Dropping the packs without objects drops no object. -/
theorem packed_storePacksFromDir (h : c.Wrote packs objects) :
    c.packed (storePacksFromDir packs) = objects := by
  rw [← h.packed_eq]
  ext id
  simp only [mem_packed, storePacksFromDir, List.mem_filter, decide_eq_true_eq]
  constructor
  · rintro ⟨pack, ⟨hpack, _⟩, hid⟩
    exact ⟨pack, hpack, hid⟩
  · rintro ⟨pack, hpack, hid⟩
    refine ⟨pack, ⟨hpack, ?_⟩, hid⟩
    by_contra hlen
    rw [h.empty pack hpack (by omega)] at hid
    exact hid

theorem described_storePacksFromDir (h : c.Wrote packs objects) :
    ∀ pack ∈ storePacksFromDir packs, c.Described pack :=
  fun pack hpack => h.described pack (List.mem_filter.mp hpack).1

/-- Pack sets that share no object make one pack set. -/
theorem Contents.PackSet.append (h : c.PackSet packs) (h' : c.PackSet rest)
    (hdisjoint : Disjoint (c.packed packs) (c.packed rest)) : c.PackSet (packs ++ rest) where
  disjoint := by
    rw [List.pairwise_append]
    refine ⟨h.disjoint, h'.disjoint, ?_⟩
    intro p hp q hq
    rw [Set.disjoint_left] at hdisjoint ⊢
    intro id hid hid'
    exact hdisjoint ⟨p, hp, hid⟩ ⟨q, hq, hid'⟩
  described := by
    intro pack hpack
    rcases List.mem_append.mp hpack with hpack | hpack
    · exact h.described pack hpack
    · exact h'.described pack hpack

theorem Contents.PackSet.sublist (h : c.PackSet packs) (hsub : rest.Sublist packs) : c.PackSet rest where
  disjoint := h.disjoint.sublist hsub
  described := fun pack hpack => h.described pack (hsub.subset hpack)

theorem packSet_nil : c.PackSet [] where
  disjoint := .nil
  described := by simp

end Packed

/-! ## Batches -/

section Batches

variable {sizeOf : String → Nat} {target curBytes : Nat} {oids cur : List String}
  {parts : List (List String)}

/-- The batches are the objects, in order. -/
theorem batches_flatten (h : batches sizeOf target oids cur curBytes = .ok parts) :
    parts.flatten = cur ++ oids := by
  induction oids generalizing cur curBytes parts with
  | nil =>
      rw [batches, pure_eq_ok] at h
      cases cur with
      | nil => simp [← h]
      | cons oid cur => simp [← h]
  | cons oid rest ih =>
      rw [batches] at h
      obtain ⟨full, _, h⟩ := bind_eq_ok.mp h
      cases full with
      | true =>
          obtain ⟨bytes, _, h⟩ := bind_eq_ok.mp h
          obtain ⟨later, hlater, h⟩ := bind_eq_ok.mp h
          rw [← pure_eq_ok.mp h, List.flatten_cons, ih hlater]
          rfl
      | false =>
          obtain ⟨bytes, _, h⟩ := bind_eq_ok.mp h
          rw [ih h, List.append_assoc]
          rfl

end Batches

/-! ## What the builders return -/

section Built

variable {c : Contents} {closure : String → Set String} {git : Git} {oids : List String}
  {packs : List SizedPack} {target : Nat}

theorem packUndeltified_ok (hgit : git.HeadOk c closure) {pack : SizedPack}
    (h : packUndeltified git oids = .ok pack) :
    c.Described pack ∧ ∀ id, id ∈ c.objects pack.pack ↔ id ∈ oids := by
  obtain ⟨_, h⟩ := ite_throw_eq_ok.mp h
  obtain ⟨written, hwritten, h⟩ := bind_eq_ok.mp h
  have hwrote := hgit.wrote hwritten
  split at h
  · next p hone =>
      obtain rfl := pure_eq_ok.mp h
      have hpacked := packed_storePacksFromDir hwrote
      have hdescribed := described_storePacksFromDir hwrote
      rw [hone] at hpacked hdescribed
      refine ⟨hdescribed p (List.mem_singleton.mpr rfl), ?_⟩
      intro id
      have hid : id ∈ c.packed [p] ↔ id ∈ oids := by rw [hpacked]; rfl
      simpa [mem_packed] using hid
  · simp at h

/-- One pack for each batch. Batches of a list without duplicates share no object, so the packs
share none either. -/
theorem packSet_of_batches (hgit : git.HeadOk c closure) {parts : List (List String)}
    (hparts : List.Forall₂ (fun part pack => packUndeltified git part = .ok pack) parts packs)
    (hnodup : parts.flatten.Nodup) :
    c.PackSet packs ∧ ∀ id, id ∈ c.packed packs ↔ id ∈ parts.flatten := by
  induction hparts with
  | nil => exact ⟨packSet_nil, by simp⟩
  | @cons part pack parts packs hpack hrest ih =>
      rw [List.flatten_cons, List.nodup_append] at hnodup
      obtain ⟨_, hnodup, hapart⟩ := hnodup
      obtain ⟨hset, hmem⟩ := ih hnodup
      obtain ⟨hdescribed, hobjects⟩ := packUndeltified_ok hgit hpack
      have hone : c.PackSet [pack] := ⟨List.pairwise_singleton _ _, by simpa using hdescribed⟩
      have hdisjoint : Disjoint (c.packed [pack]) (c.packed packs) := by
        rw [Set.disjoint_left]
        rintro id ⟨p, hp, hid⟩ hid'
        obtain rfl := List.mem_singleton.mp hp
        exact hapart id ((hobjects id).mp hid) id ((hmem id).mp hid') rfl
      refine ⟨hone.append hset hdisjoint, ?_⟩
      intro id
      rw [← List.singleton_append, packed_append, Set.mem_union, hmem, List.flatten_cons,
        List.mem_append, ← hobjects id]
      simp [mem_packed]

theorem buildPacksFromOids_ok (hgit : git.HeadOk c closure) (hnodup : oids.Nodup)
    (h : buildPacksFromOids git oids target = .ok packs) :
    c.PackSet packs ∧ ∀ id, id ∈ c.packed packs ↔ id ∈ oids := by
  rw [buildPacksFromOids] at h
  split at h
  · next hempty =>
      rw [List.isEmpty_iff.mp hempty, ← pure_eq_ok.mp h]
      exact ⟨packSet_nil, by simp⟩
  · obtain ⟨sizes, _, h⟩ := bind_eq_ok.mp h
    obtain ⟨parts, hparts, h⟩ := bind_eq_ok.mp h
    have hflat : parts.flatten = oids := batches_flatten hparts
    obtain ⟨hset, hmem⟩ := packSet_of_batches hgit (mapM_eq_ok.mp h) (hflat ▸ hnodup)
    exact ⟨hset, fun id => hflat ▸ hmem id⟩

theorem headClosure_ok (hgit : git.HeadOk c closure) {commit : String}
    (h : headClosure git commit = .ok oids) :
    oids.Nodup ∧ ∀ id, id ∈ oids ↔ id ∈ closure commit := by
  obtain ⟨listed, hlisted, h⟩ := bind_eq_ok.mp h
  obtain ⟨_, h⟩ := ite_throw_eq_ok.mp h
  obtain rfl := pure_eq_ok.mp h
  exact ⟨hgit.nodup hlisted, hgit.mem_closure hlisted⟩

end Built

end Ripclone.Pack
