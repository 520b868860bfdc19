import Mathlib.Data.List.Nodup
import Mathlib.Data.List.Perm.Subperm
import Ripclone.Library.Words
import Ripclone.Tags.Check

/-!
# A built artifact is accepted

The two ways of following a chain agree: the server through the odb, the clone through the hashes of the
objects it was sent. So the check keeps exactly the tags the build listed.
-/

namespace Ripclone.Tags

open Ripclone.Library Ripclone.Pack

/-! ## What a build relies on -/

variable (odb : Odb)

/-- The tag objects from an object down, and what the last of them names. -/
def TagChain : Id → List (Id × Bytes) → Id → Prop
  | object, [], next => object = next
  | object, entry :: chain, last => entry.1 = object ∧ odb.header object = .ok .tag ∧
      odb.object object = .ok entry.2 ∧
      ∃ next, odb.decodeTarget entry.2 = .ok next ∧ TagChain next chain last

/-- A chain of tag objects ends here. -/
def NotTag (id : Id) : Prop := ∃ kind, odb.header id = .ok kind ∧ kind ≠ .tag

/-- A tag object has the id of its content, and git finds its target where its first line names it. -/
structure Odb.Ok (sha1 : Bytes → Id) : Prop where
  id {id : Id} {data : Bytes} (hkind : odb.header id = .ok .tag) (hdata : odb.object id = .ok data) :
    tagObjectId sha1 data = id
  target {id next : Id} {data : Bytes} (hkind : odb.header id = .ok .tag)
    (hdata : odb.object id = .ok data) (hnext : odb.decodeTarget data = .ok next) :
    tagTarget data = .ok next

def Codec.Lossless (codec : Codec) : Prop :=
  ∀ artifact bytes, codec.encode artifact = .ok bytes → codec.decode bytes = .ok artifact

/-- What the check keeps of an artifact built for `tags`. -/
structure KeptAsBuilt (tags : List (String × Id)) (artifact : TagsArtifact) (kept : Kept) : Prop where
  /-- The tags the build listed, with what they peel to. -/
  listed : (kept.tags.map fun tag => (tag.name, tag.object, tag.target)).Perm
    (artifact.tags.map fun tag =>
      (tag.name, tag.object, if tag.peeled = "" then tag.object else tag.peeled))
  /-- They are those at most `maxChain` tag objects deep. -/
  shallow (name : String) (object target : Id) :
    (∃ tag ∈ kept.tags, tag.name = name ∧ tag.object = object.hex ∧ tag.targetId = target) ↔
      (name, object) ∈ tags ∧
        ∃ chain, TagChain odb object chain target ∧ chain.length ≤ maxChain ∧ NotTag odb target
  deep (name : String) (object : Id) (hmem : (name, object) ∈ tags) :
    (∀ tag ∈ kept.tags, tag.name ≠ name) ↔
      ∃ chain next, maxChain < chain.length ∧ TagChain odb object chain next

/-! ## Peeling -/

section Peel

variable {odb} {sha1 : Bytes → Id} {object target : Id} {chain : List (Id × Bytes)} {steps : Nat}

/-- Peeling stops at what is no tag object, or after `steps` tag objects. -/
theorem peel_ok {result : Option Id} (h : peel odb steps object = .ok (chain, result)) :
    (∀ target, result = some target →
      TagChain odb object chain target ∧ NotTag odb target ∧ chain.length < steps) ∧
    (result = none → chain.length = steps ∧ ∃ next, TagChain odb object chain next) := by
  induction steps generalizing object chain with
  | zero =>
      obtain ⟨rfl, rfl⟩ := Prod.mk.inj (pure_eq_ok.mp h)
      refine ⟨fun _ htarget => absurd htarget.symm (Option.some_ne_none _), fun _ => ⟨rfl, object, rfl⟩⟩
  | succ steps ih =>
      obtain ⟨kind, hkind, h⟩ := bind_eq_ok.mp h
      dsimp only at h
      split at h
      · next hne =>
          obtain ⟨rfl, rfl⟩ := Prod.mk.inj (pure_eq_ok.mp h)
          refine ⟨?_, fun hnone => absurd hnone (Option.some_ne_none _)⟩
          intro target htarget
          obtain rfl := Option.some.inj htarget
          exact ⟨rfl, ⟨kind, hkind, hne⟩, Nat.succ_pos _⟩
      · next htag =>
          rw [not_not] at htag
          obtain ⟨data, hdata, h⟩ := bind_eq_ok.mp h
          obtain ⟨next, hnext, h⟩ := bind_eq_ok.mp h
          obtain ⟨⟨later, last⟩, hlater, h⟩ := bind_eq_ok.mp h
          obtain ⟨rfl, rfl⟩ := Prod.mk.inj (pure_eq_ok.mp h)
          rw [htag] at hkind
          obtain ⟨hsome, hnone⟩ := ih hlater
          constructor
          · intro target htarget
            obtain ⟨hchain, hnot, hlen⟩ := hsome target htarget
            exact ⟨⟨rfl, hkind, hdata, next, hnext, hchain⟩, hnot, Nat.succ_lt_succ hlen⟩
          · intro hresult
            obtain ⟨hlen, last, hchain⟩ := hnone hresult
            exact ⟨congrArg Nat.succ hlen, last, rfl, hkind, hdata, next, hnext, hchain⟩

/-- A chain that ends is followed by no longer one. -/
theorem TagChain.stops {other : List (Id × Bytes)} {last : Id} (h : TagChain odb object chain target)
    (hnot : NotTag odb target) (hother : TagChain odb object other last) :
    other.length ≤ chain.length := by
  induction chain generalizing object other with
  | nil =>
      obtain rfl := h
      cases other with
      | nil => exact Nat.le_refl _
      | cons entry other =>
          obtain ⟨kind, hkind, hne⟩ := hnot
          rw [hother.2.1] at hkind
          exact absurd (Except.ok.inj hkind).symm hne
  | cons entry chain ih =>
      obtain ⟨_, _, hdata, next, hnext, hchain⟩ := h
      cases other with
      | nil => exact Nat.zero_le _
      | cons entry' other =>
          obtain ⟨_, _, hdata', next', hnext', hother⟩ := hother
          rw [hdata] at hdata'
          rw [← Except.ok.inj hdata', hnext] at hnext'
          obtain rfl := Except.ok.inj hnext'
          exact Nat.succ_le_succ (ih hchain hother)

/-- Two chains from one object that both end, end at the same. -/
theorem TagChain.target_unique {other : List (Id × Bytes)} {last : Id}
    (h : TagChain odb object chain target) (hnot : NotTag odb target)
    (hother : TagChain odb object other last) (hlast : NotTag odb last) : target = last := by
  induction chain generalizing object other with
  | nil =>
      obtain rfl := h
      cases other with
      | nil => exact hother
      | cons entry other =>
          obtain ⟨kind, hkind, hne⟩ := hnot
          rw [hother.2.1] at hkind
          exact absurd (Except.ok.inj hkind).symm hne
  | cons entry chain ih =>
      obtain ⟨_, htag, hdata, next, hnext, hchain⟩ := h
      cases other with
      | nil =>
          obtain rfl := hother
          obtain ⟨kind, hkind, hne⟩ := hlast
          rw [htag] at hkind
          exact absurd (Except.ok.inj hkind).symm hne
      | cons entry' other =>
          obtain ⟨_, _, hdata', next', hnext', hother⟩ := hother
          rw [hdata] at hdata'
          rw [← Except.ok.inj hdata', hnext] at hnext'
          obtain rfl := Except.ok.inj hnext'
          exact ih hchain hother

end Peel

/-! ## What a build collects -/

/-- The entry of a tag in the artifact. -/
def listedTag (name : String) (object target : Id) : Tag :=
  ⟨name, object.hex, if target = object then "" else target.hex⟩

/-- The entry of a tag that is not too deep. -/
def keptEntry (tag : String × Id) : Option Tag :=
  match peel odb (maxChain + 1) tag.2 with
  | .ok (_, some target) => some (listedTag tag.1 tag.2 target)
  | _ => none

/-- Every object is one of the odb's tag objects. -/
def TagObjects (objects : List (Id × Bytes)) : Prop :=
  ∀ entry ∈ objects, odb.header entry.1 = .ok .tag ∧ odb.object entry.1 = .ok entry.2

section Collect

variable {odb} {objects : List (Id × Bytes)} {chain : List (Id × Bytes)} {object target : Id}

theorem TagChain.tagObjects (h : TagChain odb object chain target) : TagObjects odb chain := by
  induction chain generalizing object with
  | nil => simp [TagObjects]
  | cons entry chain ih =>
      obtain ⟨rfl, htag, hdata, next, -, hchain⟩ := h
      exact List.forall_mem_cons.mpr ⟨⟨htag, hdata⟩, ih hchain⟩

theorem mem_insertObject {entry other : Id × Bytes} (hobjects : TagObjects odb objects)
    (hentry : odb.object entry.1 = .ok entry.2) :
    other ∈ insertObject objects entry ↔ other ∈ objects ∨ other = entry := by
  rw [insertObject, List.mem_append, List.mem_filter, List.mem_singleton, decide_eq_true_eq]
  constructor
  · rintro (⟨hmem, -⟩ | rfl)
    · exact .inl hmem
    · exact .inr rfl
  · rintro (hmem | rfl)
    · by_cases hid : other.1 = entry.1
      · -- one id has one content, so nothing else is replaced
        have hother := (hobjects other hmem).2
        rw [hid, hentry] at hother
        exact .inr (Prod.ext hid (Except.ok.inj hother).symm)
      · exact .inl ⟨hmem, hid⟩
    · exact .inr rfl

theorem mem_foldl_insertObject (hobjects : TagObjects odb objects) (hchain : TagObjects odb chain) :
    TagObjects odb (chain.foldl insertObject objects) ∧
      ∀ entry, entry ∈ chain.foldl insertObject objects ↔ entry ∈ objects ∨ entry ∈ chain := by
  induction chain generalizing objects with
  | nil => exact ⟨hobjects, by simp⟩
  | cons first rest ih =>
      obtain ⟨hfirst, hrest⟩ := List.forall_mem_cons.mp hchain
      have hinsert : TagObjects odb (insertObject objects first) := by
        intro entry hentry
        rcases (mem_insertObject hobjects hfirst.2).mp hentry with hmem | rfl
        · exact hobjects entry hmem
        · exact hfirst
      obtain ⟨hok, hmem⟩ := ih hinsert hrest
      refine ⟨hok, fun entry => ?_⟩
      rw [List.foldl_cons, hmem, mem_insertObject hobjects hfirst.2, List.mem_cons, or_assoc]

/-- What a build has after some tags, from `objects` and `out`. -/
structure Collected (odb : Odb) (tags : List (String × Id)) (objects objects' : List (Id × Bytes))
    (out out' : List Tag) : Prop where
  peeled : ∀ tag ∈ tags, ∃ result, peel odb (maxChain + 1) tag.2 = .ok result
  listed : out' = out ++ tags.filterMap (keptEntry odb)
  tagObjects : TagObjects odb objects'
  kept : ∀ entry ∈ objects, entry ∈ objects'
  chains : ∀ tag ∈ tags, ∀ chain target,
    peel odb (maxChain + 1) tag.2 = .ok (chain, some target) → ∀ entry ∈ chain, entry ∈ objects'

theorem foldlM_addTag {tags : List (String × Id)} {objects objects' : List (Id × Bytes)}
    {out out' : List Tag} (hobjects : TagObjects odb objects)
    (h : tags.foldlM (addTag odb) (objects, out) = .ok (objects', out')) :
    Collected odb tags objects objects' out out' := by
  induction tags generalizing objects out with
  | nil =>
      rw [List.foldlM_nil] at h
      obtain ⟨rfl, rfl⟩ := Prod.mk.inj (pure_eq_ok.mp h)
      exact ⟨by simp, by simp, hobjects, fun _ h => h, by simp⟩
  | cons tag tags ih =>
      rw [List.foldlM_cons] at h
      obtain ⟨⟨objects₁, out₁⟩, hadd, h⟩ := bind_eq_ok.mp h
      obtain ⟨⟨chain, result⟩, hpeel, hadd⟩ := bind_eq_ok.mp hadd
      cases result with
      | none =>
          obtain ⟨rfl, rfl⟩ := Prod.mk.inj (pure_eq_ok.mp hadd)
          have hrest := ih hobjects h
          refine ⟨List.forall_mem_cons.mpr ⟨⟨_, hpeel⟩, hrest.peeled⟩, ?_, hrest.tagObjects, hrest.kept,
            List.forall_mem_cons.mpr ⟨?_, hrest.chains⟩⟩
          · rw [hrest.listed, List.filterMap_cons, keptEntry, hpeel]
          · intro chain' target hpeel'
            rw [hpeel] at hpeel'
            cases hpeel'
      | some target =>
          obtain ⟨rfl, rfl⟩ := Prod.mk.inj (pure_eq_ok.mp hadd)
          obtain ⟨hchain, -, -⟩ := (peel_ok hpeel).1 target rfl
          obtain ⟨hok, hmem⟩ := mem_foldl_insertObject hobjects hchain.tagObjects
          have hrest := ih hok h
          refine ⟨List.forall_mem_cons.mpr ⟨⟨_, hpeel⟩, hrest.peeled⟩, ?_, hrest.tagObjects, ?_,
            List.forall_mem_cons.mpr ⟨?_, hrest.chains⟩⟩
          · rw [hrest.listed, List.filterMap_cons, keptEntry, hpeel]
            simp [listedTag]
          · intro entry hentry
            exact hrest.kept entry ((hmem entry).mpr (.inl hentry))
          · intro chain' target' hpeel' entry hentry
            rw [hpeel] at hpeel'
            obtain ⟨rfl, -⟩ := Prod.mk.inj (Except.ok.inj hpeel')
            exact hrest.kept entry ((hmem entry).mpr (.inr hentry))

end Collect

/-! ## Checking what was built -/

section Check

variable {odb} {sha1 : Bytes → Id} {artifact : TagsArtifact} {objects : List (Id × Bytes)}
  (hodb : odb.Ok sha1) (hobjects : TagObjects odb objects)
  (hmem : ∀ data, data ∈ artifact.objects ↔ ∃ id, (id, data) ∈ objects)
include hodb hobjects hmem

/-- Only tag objects have an index. -/
theorem indexOf_notTag {id : Id} (h : NotTag odb id) :
    indexOf (hashedObjects sha1 artifact) id = none := by
  rw [indexOf_none]
  intro hid
  obtain ⟨⟨_, data⟩, hobject, rfl⟩ := List.mem_map.mp hid
  obtain ⟨hdata, hsame⟩ := mem_hashedObjects hobject
  obtain ⟨id, hentry⟩ := (hmem data).mp hdata
  obtain ⟨htag, hcontent⟩ := hobjects _ hentry
  obtain ⟨kind, hkind, hne⟩ := h
  rw [← hsame, hodb.id htag hcontent, htag] at hkind
  exact hne (Except.ok.inj hkind).symm

/-- A tag object is found by its id, with its own content. -/
theorem positionOf_object {entry : Id × Bytes} (h : entry ∈ objects) :
    ∃ i, positionOf (hashedObjects sha1 artifact) entry.1 = some (i, entry.2) := by
  obtain ⟨htag, hcontent⟩ := hobjects entry h
  have hid := hodb.id htag hcontent
  cases hposition : positionOf (hashedObjects sha1 artifact) entry.1 with
  | none =>
      apply absurd (positionOf_none.mp hposition)
      rw [not_not, ← hid]
      exact id_mem_hashedObjects ((hmem entry.2).mpr ⟨entry.1, h⟩)
  | some found =>
      obtain ⟨i, data⟩ := found
      obtain ⟨hdata, hsame⟩ := mem_hashedObjects (List.mem_of_getElem? (positionOf_some hposition))
      obtain ⟨id, hother⟩ := (hmem data).mp hdata
      obtain ⟨htag', hcontent'⟩ := hobjects _ hother
      have hids : id = entry.1 := (hodb.id htag' hcontent').symm.trans hsame
      subst hids
      rw [hcontent] at hcontent'
      rw [Except.ok.inj hcontent']
      exact ⟨i, rfl⟩

/-- The clone follows a chain as the server peeled it. -/
theorem follow_chain (name : String) {object target : Id} {chain : List (Id × Bytes)} {room : Nat}
    (h : TagChain odb object chain target) (hnot : NotTag odb target)
    (hin : ∀ entry ∈ chain, entry ∈ objects) (hroom : chain.length ≤ room)
    (hindexed : Indexed (hashedObjects sha1 artifact) object) :
    ∃ positions, positions.length = chain.length ∧
      follow (hashedObjects sha1 artifact) name room object = .ok (positions, target) := by
  induction chain generalizing object room with
  | nil =>
      obtain rfl := h
      refine ⟨[], rfl, ?_⟩
      rw [follow, indexOf_notTag hodb hobjects hmem hnot]
      rfl
  | cons entry chain ih =>
      obtain ⟨rfl, htag, hdata, next, hnext, hchain⟩ := h
      obtain ⟨hentry, hrest⟩ := List.forall_mem_cons.mp hin
      obtain ⟨i, hposition⟩ := positionOf_object hodb hobjects hmem hentry
      have htarget := hodb.target htag hdata hnext
      have hget := positionOf_some hposition
      rw [← hindexed.toNat hposition] at hget
      cases room with
      | zero => exact absurd hroom (Nat.not_succ_le_zero _)
      | succ room =>
          obtain ⟨positions, hlen, hfollow⟩ := ih hchain hrest (Nat.le_of_succ_le_succ hroom)
            (hindexed.next hposition htarget)
          refine ⟨UInt32.ofNat i :: positions, congrArg Nat.succ hlen, ?_⟩
          rw [follow, indexOf, hposition, Option.map_some]
          dsimp only
          rw [objectAt_eq hget, htarget]
          show (follow (hashedObjects sha1 artifact) name room next >>= fun rest =>
            pure (UInt32.ofNat i :: rest.1, rest.2)) = _
          rw [hfollow]
          rfl

/-- A listed tag is kept. -/
theorem checkTag_listed {name : String} {object target : Id} {chain : List (Id × Bytes)}
    (hname : validateTagName name = .ok ()) (h : TagChain odb object chain target)
    (hnot : NotTag odb target) (hin : ∀ entry ∈ chain, entry ∈ objects)
    (hlen : chain.length ≤ maxChain) (hindexed : Indexed (hashedObjects sha1 artifact) object) :
    ∃ positions, checkTag (hashedObjects sha1 artifact) (listedTag name object target) =
      .ok ⟨name, object.hex, target.hex, target, positions⟩ := by
  have hread (id : Id) : readId id.hex = .ok id := by
    rw [readId, parseId_hex]
    rfl
  by_cases hself : target = object
  · subst hself
    refine ⟨[], ?_⟩
    rw [checkTag, listedTag, if_pos rfl, hname, hread]
    show (if (indexOf (hashedObjects sha1 artifact) target).isSome then _ else _) = _
    rw [indexOf_notTag hodb hobjects hmem hnot]
    rfl
  · obtain ⟨positions, hsame, hfollow⟩ := follow_chain hodb hobjects hmem name h hnot hin hlen hindexed
    refine ⟨positions, ?_⟩
    rw [checkTag, listedTag, if_neg hself, hname, hread]
    show (if target.hex = "" then _ else _) = _
    rw [if_neg target.hex_ne_empty, hread]
    show (follow (hashedObjects sha1 artifact) name maxChain object >>= fun followed =>
      if followed.1 = [] ∨ followed.2 ≠ target then _ else _) = _
    rw [hfollow]
    show (if positions = [] ∨ target ≠ target then _ else _) = _
    rw [if_neg]
    · rfl
    · rintro (hempty | hne)
      · -- the chain of another target is not empty
        rw [hempty] at hsame
        have hnil := List.length_eq_zero_iff.mp hsame.symm
        rw [hnil] at h
        exact hself h.symm
      · exact hne rfl

end Check

/-- Names that are all apart. -/
theorem namesApart_of_nodup {tags : List KeptTag} (h : (tags.map KeptTag.name).Nodup) :
    namesApart tags = true := by
  induction tags with
  | nil => rfl
  | cons tag rest ih =>
      cases rest with
      | nil => rfl
      | cons next rest =>
          obtain ⟨hnot, hrest⟩ := List.nodup_cons.mp h
          rw [namesApart, ih hrest, Bool.and_true, decide_eq_true_eq]
          intro heq
          exact hnot (heq ▸ List.mem_cons_self)

theorem buildArtifact_ok {tags : List (String × Id)} {artifact : TagsArtifact}
    (h : buildArtifact odb tags = .ok artifact) :
    ∃ objects, Collected odb tags [] objects [] artifact.tags ∧
      ∀ data, data ∈ artifact.objects ↔ ∃ id, (id, data) ∈ objects := by
  obtain ⟨⟨objects, out⟩, hfold, h⟩ := bind_eq_ok.mp h
  obtain rfl := pure_eq_ok.mp h
  refine ⟨objects, foldlM_addTag (by simp [TagObjects]) hfold, fun data => ?_⟩
  simp [List.mem_mergeSort]

section Kept

variable {odb} {sha1 : Bytes → Id} {tags : List (String × Id)} {artifact : TagsArtifact}
  {objects : List (Id × Bytes)}

/-- Where an entry is from. -/
theorem Collected.of_mem (h : Collected odb tags [] objects [] artifact.tags) {tag : Tag}
    (htag : tag ∈ artifact.tags) :
    ∃ name object target chain, (name, object) ∈ tags ∧ tag = listedTag name object target ∧
      TagChain odb object chain target ∧ NotTag odb target ∧ chain.length ≤ maxChain ∧
      ∀ entry ∈ chain, entry ∈ objects := by
  rw [h.listed, List.nil_append] at htag
  obtain ⟨⟨name, object⟩, hmem, hentry⟩ := List.mem_filterMap.mp htag
  unfold keptEntry at hentry
  split at hentry
  · next chain target hpeel =>
      obtain rfl := Option.some.inj hentry
      obtain ⟨hchain, hnot, hlen⟩ := (peel_ok hpeel).1 target rfl
      exact ⟨name, object, target, chain, hmem, rfl, hchain, hnot, Nat.le_of_lt_succ hlen,
        h.chains _ hmem chain target hpeel⟩
  · cases hentry

/-- A tag that is not too deep has an entry. -/
theorem Collected.mem (h : Collected odb tags [] objects [] artifact.tags) {name : String}
    {object target : Id} {chain : List (Id × Bytes)} (hmem : (name, object) ∈ tags)
    (hchain : TagChain odb object chain target) (hnot : NotTag odb target)
    (hlen : chain.length ≤ maxChain) : listedTag name object target ∈ artifact.tags := by
  obtain ⟨⟨other, result⟩, hpeel⟩ := h.peeled _ hmem
  cases result with
  | none =>
      obtain ⟨hlong, next, hother⟩ := (peel_ok hpeel).2 rfl
      have hle := hchain.stops hnot hother
      omega
  | some last =>
      obtain ⟨hother, hlast, -⟩ := (peel_ok hpeel).1 last rfl
      obtain rfl := hchain.target_unique hnot hother hlast
      rw [h.listed, List.nil_append]
      refine List.mem_filterMap.mpr ⟨(name, object), hmem, ?_⟩
      rw [keptEntry, hpeel]

/-- What an entry peels to. -/
theorem peeled_listedTag (name : String) (object target : Id) :
    (if (listedTag name object target).peeled = "" then (listedTag name object target).object
      else (listedTag name object target).peeled) = target.hex := by
  rw [listedTag]
  by_cases hself : target = object
  · rw [if_pos (if_pos hself), hself]
  · rw [if_neg hself, if_neg target.hex_ne_empty]

theorem keptEntry_name {tag : String × Id} {entry : Tag} (h : keptEntry odb tag = some entry) :
    entry.name = tag.1 := by
  unfold keptEntry at h
  split at h
  · obtain rfl := Option.some.inj h
    rfl
  · cases h

theorem names_sublist (tags : List (String × Id)) :
    ((tags.filterMap (keptEntry odb)).map Tag.name).Sublist (tags.map Prod.fst) := by
  induction tags with
  | nil => exact .slnil
  | cons tag tags ih =>
      rw [List.filterMap_cons]
      split
      · exact ih.cons _
      · next entry hentry =>
          rw [List.map_cons, List.map_cons, keptEntry_name hentry]
          exact ih.cons_cons _

/-- The check keeps what a build listed, when the chains are in the index. -/
theorem check_built (hodb : odb.Ok sha1) (hindexed : AllIndexed sha1 artifact) (hnames : ∀ tag ∈ tags, validateTagName tag.1 = .ok ())
    (hnodup : (tags.map Prod.fst).Nodup) (h : buildArtifact odb tags = .ok artifact) :
    ∃ kept, check sha1 artifact = .ok kept ∧ KeptAsBuilt odb tags artifact kept := by
  obtain ⟨objects, hbuilt, hmem⟩ := buildArtifact_ok odb h
  -- each entry is kept, as the tag it was listed for
  have hcheck : ∀ tag ∈ artifact.tags, ∃ kept,
      checkTag (hashedObjects sha1 artifact) tag = .ok kept ∧
        (kept.name, kept.object, kept.target) =
          (tag.name, tag.object, if tag.peeled = "" then tag.object else tag.peeled) ∧
        kept.target = kept.targetId.hex := by
    intro tag htag
    obtain ⟨name, object, target, chain, hlisted, rfl, hchain, hnot, hlen, hin⟩ := hbuilt.of_mem htag
    obtain ⟨positions, hkept⟩ := checkTag_listed hodb hbuilt.tagObjects hmem (hnames _ hlisted) hchain
      hnot hin hlen (hindexed _ htag object (parseId_hex object))
    refine ⟨_, hkept, ?_, rfl⟩
    rw [peeled_listedTag]
    rfl
  obtain ⟨checked, hchecked⟩ := exists_forall₂ hcheck
  obtain ⟨hlisted, hids⟩ := forall₂_map_eq hchecked fun _ _ _ hxy => hxy.2
  have hmapM := mapM_eq_ok.mpr (hchecked.imp fun _ _ hxy => hxy.1)
  -- names are those of the listing, so no two are the same
  have hkeptNames : checked.map KeptTag.name = artifact.tags.map Tag.name := by
    have hfirst := congrArg (List.map Prod.fst) hlisted
    rwa [List.map_map, List.map_map] at hfirst
  have hperm := List.mergeSort_perm checked fun a b => decide (a.name ≤ b.name)
  have hapart : ((checked.mergeSort fun a b => decide (a.name ≤ b.name)).map KeptTag.name).Nodup := by
    rw [(hperm.map KeptTag.name).nodup_iff, hkeptNames, hbuilt.listed, List.nil_append]
    exact (names_sublist tags).nodup hnodup
  refine ⟨⟨checked.mergeSort fun a b => decide (a.name ≤ b.name), hashedObjects sha1 artifact⟩, ?_, ?_⟩
  · rw [check, hmapM]
    show (if namesApart (checked.mergeSort fun a b => decide (a.name ≤ b.name)) then _ else _) = _
    rw [namesApart_of_nodup hapart]
    rfl
  -- a kept tag is a listed one, and the other way round
  have hof : ∀ tag ∈ checked, ∃ name object, (name, object) ∈ tags ∧ tag.name = name ∧
      tag.object = object.hex ∧ ∃ chain, TagChain odb object chain tag.targetId ∧
        chain.length ≤ maxChain ∧ NotTag odb tag.targetId := by
    intro tag htag
    have hentry := List.mem_map_of_mem (f := fun tag : KeptTag => (tag.name, tag.object, tag.target)) htag
    rw [hlisted] at hentry
    obtain ⟨entry, hmementry, hsame⟩ := List.mem_map.mp hentry
    obtain ⟨name, object, target, chain, hlisted, rfl, hchain, hnot, hlen, -⟩ := hbuilt.of_mem hmementry
    rw [peeled_listedTag] at hsame
    obtain ⟨hname, hpair⟩ := Prod.mk.inj hsame
    obtain ⟨hobject, htarget⟩ := Prod.mk.inj hpair
    rw [hids tag htag] at htarget
    obtain rfl := Id.hex_injective htarget
    exact ⟨name, object, hlisted, hname.symm, hobject.symm, chain, hchain, hlen, hnot⟩
  have hin : ∀ name object target chain, (name, object) ∈ tags → TagChain odb object chain target →
      chain.length ≤ maxChain → NotTag odb target →
      ∃ tag ∈ checked, tag.name = name ∧ tag.object = object.hex ∧ tag.targetId = target := by
    intro name object target chain hmemtags hchain hlen hnot
    obtain ⟨tag, htag, -, hsame, htarget⟩ :=
      forall₂_mem hchecked (hbuilt.mem hmemtags hchain hnot hlen)
    rw [peeled_listedTag, htarget] at hsame
    obtain ⟨hname, hpair⟩ := Prod.mk.inj hsame
    obtain ⟨hobject, hid⟩ := Prod.mk.inj hpair
    exact ⟨tag, htag, hname, hobject, Id.hex_injective hid⟩
  refine ⟨?_, fun name object target => ?_, fun name object hmemtags => ?_⟩
  · rw [← hlisted]
    exact hperm.map _
  · constructor
    · rintro ⟨tag, htag, rfl, hobject, rfl⟩
      obtain ⟨_, object', hmemtags, rfl, hobject', chain, hchain, hlen, hnot⟩ :=
        hof tag (List.mem_mergeSort.mp htag)
      obtain rfl := Id.hex_injective (hobject'.symm.trans hobject)
      exact ⟨hmemtags, chain, hchain, hlen, hnot⟩
    · rintro ⟨hmemtags, chain, hchain, hlen, hnot⟩
      obtain ⟨tag, htag, hsame⟩ := hin name object target chain hmemtags hchain hlen hnot
      exact ⟨tag, List.mem_mergeSort.mpr htag, hsame⟩
  · constructor
    · intro hnone
      obtain ⟨⟨chain, result⟩, hpeel⟩ := hbuilt.peeled _ hmemtags
      cases result with
      | none =>
          obtain ⟨hlong, next, hchain⟩ := (peel_ok hpeel).2 rfl
          exact ⟨chain, next, by omega, hchain⟩
      | some target =>
          obtain ⟨hchain, hnot, hlen⟩ := (peel_ok hpeel).1 target rfl
          obtain ⟨tag, htag, hname, -⟩ :=
            hin name object target chain hmemtags hchain (Nat.le_of_lt_succ hlen) hnot
          exact absurd hname (hnone tag (List.mem_mergeSort.mpr htag))
    · rintro ⟨chain, next, hlong, hchain⟩ tag htag rfl
      obtain ⟨_, object', hmemtags', rfl, -, short, hshort, hlen, hnot⟩ :=
        hof tag (List.mem_mergeSort.mp htag)
      -- distinct names, so it is the tag with the long chain
      obtain rfl : object = object' :=
        congrArg Prod.snd (List.inj_on_of_nodup_map hnodup hmemtags hmemtags' rfl)
      have hle := hshort.stops hnot hchain
      omega

end Kept

/-- A built artifact is accepted with exactly the tags the build listed, and what the check keeps of it
is right, exactly when the chains are in the index. And whatever an artifact is, what the check keeps
of it is right exactly then. -/
theorem tags_checked (sha1 : Bytes → Id) :
    (∀ (odb : Odb) (codec : Codec) (tags : List (String × Id)) (bytes : Bytes), odb.Ok sha1 →
      codec.Lossless → (∀ tag ∈ tags, validateTagName tag.1 = .ok ()) → (tags.map Prod.fst).Nodup →
      build odb codec tags = .ok bytes →
      ∃ artifact, codec.decode bytes = .ok artifact ∧
        ((∃ kept, check sha1 artifact = .ok kept ∧ KeptAsBuilt odb tags artifact kept ∧
          KeptOk sha1 artifact kept) ↔ AllIndexed sha1 artifact)) ∧
    ∀ (artifact : TagsArtifact) (kept : Kept), check sha1 artifact = .ok kept →
      (KeptOk sha1 artifact kept ↔ AllIndexed sha1 artifact) := by
  constructor
  · intro odb codec tags bytes hodb hcodec hnames hnodup h
    obtain ⟨artifact, hartifact, hencode⟩ := bind_eq_ok.mp h
    refine ⟨artifact, hcodec artifact bytes hencode, ?_⟩
    constructor
    · rintro ⟨kept, hcheck, -, hkept⟩
      exact (keptOk_iff sha1 hcheck).mp hkept
    · intro hindexed
      obtain ⟨kept, hcheck, hkept⟩ := check_built hodb hindexed hnames hnodup hartifact
      exact ⟨kept, hcheck, hkept, (keptOk_iff sha1 hcheck).mpr hindexed⟩
  · intro artifact kept h
    exact keptOk_iff sha1 h

/-! ## A release -/

def releaseCommit : Id := ⟨
  [0x67, 0xd9, 0xe9, 0x85, 0x22, 0xf4, 0x12, 0x32, 0x3f, 0x36, 0xa6, 0xea, 0x61, 0xaa, 0x80, 0x28,
   0xa2, 0x72, 0xd7, 0xdb], rfl⟩

def tagB : Id := ⟨
  [0x50, 0xce, 0xc1, 0xd5, 0xb8, 0x12, 0x5a, 0xe9, 0xed, 0xbe, 0xe4, 0x61, 0xe4, 0x1c, 0x80, 0x31,
   0x6d, 0x4f, 0x1e, 0x01], rfl⟩

/-- A tag of the tag `b`. -/
def tagC : Id := ⟨
  [0x0f, 0xfe, 0x5c, 0x1f, 0x40, 0xf0, 0x7b, 0xe8, 0x58, 0x9a, 0x63, 0x6f, 0x2b, 0x0d, 0x91, 0x12,
   0xcc, 0x52, 0xdd, 0xad], rfl⟩

def contentB : Bytes :=
  asciiBytes "object 67d9e98522f412323f36a6ea61aa8028a272d7db\ntype commit\ntag b\n\nx\n"

def contentC : Bytes :=
  asciiBytes "object 50cec1d5b8125ae9edbee461e41c80316d4f1e01\ntype tag\ntag c\n\nx\n"

def releaseOdb : Odb where
  header id :=
    if id = tagB ∨ id = tagC then .ok .tag
    else if id = releaseCommit then .ok .commit
    else .error "not found"
  object id :=
    if id = tagB then .ok contentB else if id = tagC then .ok contentC else .error "not found"
  decodeTarget data :=
    if data = contentB then .ok releaseCommit
    else if data = contentC then .ok tagB
    else .error "not a tag"

def releaseTags : List (String × Id) := [("b", tagB), ("c", tagC), ("light", releaseCommit)]

def releaseArtifact : TagsArtifact where
  tags := [⟨"b", tagB.hex, releaseCommit.hex⟩, ⟨"c", tagC.hex, releaseCommit.hex⟩,
    ⟨"light", releaseCommit.hex, ""⟩]
  objects := [contentC, contentB]

/-- The message, in one stored block of a zstd frame. -/
def releaseBytes : Bytes :=
  [0x28, 0xb5, 0x2f, 0xfd, 0, 0x58, 0x81, 0x0b, 0,
    0x0a, 0x57, 0x0a, 1] ++ asciiBytes "b" ++ [0x12, 40] ++ asciiBytes tagB.hex ++
    [0x1a, 40] ++ asciiBytes releaseCommit.hex ++
  [0x0a, 0x57, 0x0a, 1] ++ asciiBytes "c" ++ [0x12, 40] ++ asciiBytes tagC.hex ++
    [0x1a, 40] ++ asciiBytes releaseCommit.hex ++
  [0x0a, 0x31, 0x0a, 5] ++ asciiBytes "light" ++ [0x12, 40] ++ asciiBytes releaseCommit.hex ++
  [0x12, 66] ++ contentC ++ [0x12, 69] ++ contentB

def releaseCodec : Codec where
  encode artifact := if artifact = releaseArtifact then .ok releaseBytes else .error "not modelled"
  decode bytes := if bytes = releaseBytes then .ok releaseArtifact else .error "not modelled"

def releaseSha1 (bytes : Bytes) : Id :=
  if bytes = asciiBytes "tag 69" ++ [0] ++ contentB then tagB
  else if bytes = asciiBytes "tag 66" ++ [0] ++ contentC then tagC
  else ⟨List.replicate 20 0, rfl⟩

theorem releaseOdb_ok : releaseOdb.Ok releaseSha1 := by
  have htags : ∀ id, releaseOdb.header id = .ok .tag → id = tagB ∨ id = tagC := by
    intro id h
    unfold releaseOdb at h
    dsimp only at h
    split at h
    · next htag => exact htag
    · split at h <;> cases h
  constructor
  · intro id data hkind hdata
    rcases htags id hkind with rfl | rfl
    · obtain rfl := Except.ok.inj hdata
      decide
    · obtain rfl := Except.ok.inj hdata
      decide
  · intro id next data hkind hdata hnext
    rcases htags id hkind with rfl | rfl
    · obtain rfl := Except.ok.inj hdata
      obtain rfl := Except.ok.inj hnext
      rfl
    · obtain rfl := Except.ok.inj hdata
      obtain rfl := Except.ok.inj hnext
      rfl

theorem releaseArtifact_built : buildArtifact releaseOdb releaseTags = .ok releaseArtifact := by
  have hsorted : ([(tagC, contentC), (tagB, contentB)].mergeSort fun a b : Id × Bytes =>
      decide (a.1.1 ≤ b.1.1)) = [(tagC, contentC), (tagB, contentB)] :=
    List.mergeSort_of_pairwise (by
      rw [List.pairwise_pair]
      exact decide_eq_true (by decide : tagC.1 ≤ tagB.1))
  have hfold : releaseTags.foldlM (addTag releaseOdb) ([], []) =
      .ok ([(tagC, contentC), (tagB, contentB)], releaseArtifact.tags) := by
    rfl
  rw [buildArtifact, hfold]
  show (Except.ok ⟨_, _⟩ : Except String TagsArtifact) = _
  rw [hsorted]
  rfl

theorem release_tags_checked : ∃ kept, check releaseSha1 releaseArtifact = .ok kept ∧
    KeptAsBuilt releaseOdb releaseTags releaseArtifact kept ∧ KeptOk releaseSha1 releaseArtifact kept := by
  have hbuild : build releaseOdb releaseCodec releaseTags = .ok releaseBytes := by
    rw [build, releaseArtifact_built]
    show (if releaseArtifact = releaseArtifact then Except.ok releaseBytes
      else .error "not modelled") = _
    exact if_pos rfl
  have hcodec : releaseCodec.Lossless := by
    intro artifact bytes h
    unfold releaseCodec at h
    dsimp only at h
    split at h
    · next hartifact =>
        obtain rfl := Except.ok.inj h
        rw [hartifact]
        simp only [releaseCodec, if_true]
    · cases h
  have hnames : ∀ tag ∈ releaseTags, validateTagName tag.1 = .ok () := by
    rw [releaseTags, List.forall_mem_cons, List.forall_mem_cons, List.forall_mem_singleton]
    exact ⟨by rfl, by rfl, by rfl⟩
  have hnodup : (releaseTags.map Prod.fst).Nodup := by decide
  obtain ⟨artifact, hdecode, hiff⟩ := (tags_checked releaseSha1).1 releaseOdb releaseCodec
    releaseTags releaseBytes releaseOdb_ok hcodec hnames hnodup hbuild
  have hread : releaseCodec.decode releaseBytes = .ok releaseArtifact := by
    simp only [releaseCodec, if_true]
  rw [hread] at hdecode
  obtain rfl := Except.ok.inj hdecode
  have hfew : (hashedObjects releaseSha1 releaseArtifact).length ≤ 2 ^ 32 := by
    have hlen := length_hashedObjects_le releaseSha1 releaseArtifact
    exact hlen.trans (by decide)
  exact hiff.mpr (allIndexed_of_few releaseSha1 hfew)

/-! ## More tag objects than the index tells apart -/

/-- No tag object has this id. -/
def wideTarget : Id := ⟨List.replicate 20 0xff, rfl⟩

/-- The `i`-th of many tag objects of one target. -/
def wideContent (i : Nat) : Bytes :=
  asciiBytes "object ffffffffffffffffffffffffffffffffffffffff" ++ newline :: beBytes 20 i

/-- A hash that tells them apart: the last bytes of what is hashed. -/
def lastBytes (bytes : Bytes) : Id :=
  if h : (bytes.drop (bytes.length - 20)).length = 20 then ⟨bytes.drop (bytes.length - 20), h⟩
  else ⟨List.replicate 20 0, rfl⟩

def wideHashed (n : Nat) : List (Id × Bytes) :=
  hashedObjects lastBytes ⟨[], (List.range n).map wideContent⟩

/-- One tag, of the object at `2 ^ 32`. -/
def wideArtifact (n : Nat) : TagsArtifact where
  tags := [⟨"v1", ((wideHashed n)[2 ^ 32]?.elim wideTarget Prod.fst).hex, wideTarget.hex⟩]
  objects := (List.range n).map wideContent

section Wide

variable {n i : Nat}

theorem tagTarget_wideContent (i : Nat) : tagTarget (wideContent i) = .ok wideTarget := by
  have hline : (wideContent i).takeWhile (· ≠ newline) =
      asciiBytes "object ffffffffffffffffffffffffffffffffffffffff" := by
    have hnone : ∀ b ∈ asciiBytes "object ffffffffffffffffffffffffffffffffffffffff",
        decide (b ≠ newline) = true := by simp [asciiBytes, newline]
    rw [wideContent, List.takeWhile_append_of_pos hnone, List.takeWhile_cons_of_neg (by simp),
      List.append_nil]
  rw [tagTarget, hline]
  rfl

theorem tagObjectId_wideContent (i : Nat) :
    (tagObjectId lastBytes (wideContent i)).1 = beBytes 20 i := by
  have hlast : ∀ front : Bytes, (lastBytes (front ++ beBytes 20 i)).1 = beBytes 20 i := by
    intro front
    have hdrop : (front ++ beBytes 20 i).drop ((front ++ beBytes 20 i).length - 20) = beBytes 20 i := by
      rw [List.length_append, length_beBytes, Nat.add_sub_cancel, List.drop_left]
    rw [lastBytes, dif_pos (by rw [hdrop, length_beBytes])]
    exact hdrop
  have hsplit : wideContent i = asciiBytes "object ffffffffffffffffffffffffffffffffffffffff" ++ [newline] ++
      beBytes 20 i := by
    rw [wideContent, List.append_assoc, List.singleton_append]
  rw [tagObjectId, hsplit, ← List.append_assoc]
  exact hlast _

theorem mem_wideHashed {object : Id × Bytes} (h : object ∈ wideHashed n) :
    ∃ i < n, object.1.1 = beBytes 20 i ∧ object.2 = wideContent i := by
  obtain ⟨hdata, hid⟩ := mem_hashedObjects h
  obtain ⟨i, hi, hcontent⟩ := List.mem_map.mp hdata
  refine ⟨i, List.mem_range.mp hi, ?_, hcontent.symm⟩
  rw [← hid, ← hcontent, tagObjectId_wideContent]

/-- They all have ids of their own. -/
theorem length_wideHashed (hn : n ≤ 256 ^ 20) : n ≤ (wideHashed n).length := by
  have hnodup : ((List.range n).map fun i => tagObjectId lastBytes (wideContent i)).Nodup := by
    refine List.Nodup.map_on (fun i hi j hj heq => ?_) List.nodup_range
    have hbytes := congrArg (fun id : Id => ofBe id.1) heq
    simp only [tagObjectId_wideContent] at hbytes
    rwa [ofBe_beBytes (lt_of_lt_of_le (List.mem_range.mp hi) hn),
      ofBe_beBytes (lt_of_lt_of_le (List.mem_range.mp hj) hn)] at hbytes
  have hsub : ((List.range n).map fun i => tagObjectId lastBytes (wideContent i)) ⊆
      (wideHashed n).map Prod.fst := by
    intro id hid
    obtain ⟨i, hi, rfl⟩ := List.mem_map.mp hid
    exact id_mem_hashedObjects (List.mem_map_of_mem hi)
  have hlen := (List.subperm_of_subset hnodup hsub).length_le
  rwa [List.length_map, List.length_range, List.length_map] at hlen

theorem positionOf_wideHashed {object : Id × Bytes} (h : (wideHashed n)[i]? = some object) :
    positionOf (wideHashed n) object.1 = some (i, object.2) := by
  cases hposition : positionOf (wideHashed n) object.1 with
  | none => exact absurd (List.mem_map_of_mem (List.mem_of_getElem? h)) (positionOf_none.mp hposition)
  | some found =>
      obtain ⟨position, data⟩ := found
      have hget := positionOf_some hposition
      have hids : ((wideHashed n).map Prod.fst)[i]? = ((wideHashed n).map Prod.fst)[position]? := by
        rw [List.getElem?_map, List.getElem?_map, h, hget]
        rfl
      have hlt : i < ((wideHashed n).map Prod.fst).length := by
        rw [List.length_map]
        exact (List.getElem?_eq_some_iff.mp h).1
      obtain rfl := (List.getElem?_inj hlt nodup_hashedObjects).mp hids
      rw [h] at hget
      rw [Option.some.inj hget]

theorem not_mem_wideTarget (hn : n < 256 ^ 20) : indexOf (wideHashed n) wideTarget = none := by
  rw [indexOf_none]
  intro hmem
  obtain ⟨object, hobject, hid⟩ := List.mem_map.mp hmem
  obtain ⟨i, hi, hbytes, -⟩ := mem_wideHashed hobject
  have hnumber : ofBe wideTarget.1 = i := by
    rw [← hid, hbytes, ofBe_beBytes (Nat.lt_trans hi hn)]
  have hvalue : ofBe wideTarget.1 = 256 ^ 20 - 1 := by decide
  omega

theorem check_singleton {sha1 : Bytes → Id} {artifact : TagsArtifact} {kept : KeptTag}
    (h : artifact.tags.mapM (checkTag (hashedObjects sha1 artifact)) = .ok [kept]) :
    check sha1 artifact = .ok ⟨[kept], hashedObjects sha1 artifact⟩ := by
  rw [check, h]
  show (if namesApart ([kept].mergeSort fun a b => decide (a.name ≤ b.name)) then _ else _) = _
  rw [List.mergeSort_singleton]
  rfl

/-- The first object is taken for the one at `2 ^ 32`. -/
theorem indexOf_wide {object : Id × Bytes} (h : (wideHashed n)[2 ^ 32]? = some object) :
    indexOf (wideHashed n) object.1 = some 0 := by
  have hwrap : UInt32.ofNat (2 ^ 32) = 0 := by decide
  rw [indexOf, positionOf_wideHashed h, Option.map_some, hwrap]

theorem follow_wide (hn : n < 256 ^ 20) {object : Id × Bytes}
    (h : (wideHashed n)[2 ^ 32]? = some object) :
    follow (wideHashed n) "v1" maxChain object.1 = .ok ([0], wideTarget) := by
  obtain ⟨first, hfirst⟩ : ∃ first, (wideHashed n)[0]? = some first :=
    ⟨_, List.getElem?_eq_getElem (Nat.lt_of_le_of_lt (Nat.zero_le _) (List.getElem?_eq_some_iff.mp h).1)⟩
  have htarget : tagTarget (objectAt (wideHashed n) 0) = .ok wideTarget := by
    obtain ⟨i, -, -, hcontent⟩ := mem_wideHashed (List.mem_of_getElem? hfirst)
    rw [objectAt_eq (show (wideHashed n)[(0 : UInt32).toNat]? = some first from hfirst), hcontent,
      tagTarget_wideContent]
  -- The walk ends after one object: none has the id of the target.
  have hrest : follow (wideHashed n) "v1" 31 wideTarget = .ok ([], wideTarget) := by
    rw [follow, not_mem_wideTarget hn]
    rfl
  rw [maxChain, follow, indexOf_wide h]
  dsimp only
  rw [htarget]
  show (follow (wideHashed n) "v1" 31 wideTarget >>= fun rest => pure (0 :: rest.1, rest.2)) = _
  rw [hrest]
  rfl

theorem checkTag_wide (hn : n < 256 ^ 20) {object : Id × Bytes}
    (h : (wideHashed n)[2 ^ 32]? = some object) :
    checkTag (wideHashed n) ⟨"v1", object.1.hex, wideTarget.hex⟩ =
      .ok ⟨"v1", object.1.hex, wideTarget.hex, wideTarget, [0]⟩ := by
  have hread (id : Id) : readId id.hex = .ok id := by
    rw [readId, parseId_hex]
    rfl
  have hname : (validateTagName "v1").mapError TagsError.invalidTag = .ok () := by
    rw [show validateTagName "v1" = .ok () from rfl]
    rfl
  refine bind_eq_ok.mpr ⟨(), hname, bind_eq_ok.mpr ⟨object.1, hread _, ?_⟩⟩
  rw [if_neg wideTarget.hex_ne_empty]
  refine bind_eq_ok.mpr ⟨wideTarget, hread _, bind_eq_ok.mpr ⟨_, follow_wide hn h, ?_⟩⟩
  dsimp only
  rw [if_neg (by simp)]
  rfl

theorem wideArtifact_misread (hmany : 2 ^ 32 < n) (hn : n < 256 ^ 20) :
    ∃ kept, check lastBytes (wideArtifact n) = .ok kept ∧
      ¬ KeptOk lastBytes (wideArtifact n) kept := by
  obtain ⟨object, hobject⟩ : ∃ object, (wideHashed n)[2 ^ 32]? = some object :=
    ⟨_, List.getElem?_eq_getElem (Nat.lt_of_lt_of_le hmany (length_wideHashed (Nat.le_of_lt hn)))⟩
  have htags : (wideArtifact n).tags = [⟨"v1", object.1.hex, wideTarget.hex⟩] := by
    rw [wideArtifact, hobject, Option.elim_some]
  have htagsOk : (wideArtifact n).tags.mapM (checkTag (wideHashed n)) =
      .ok [⟨"v1", object.1.hex, wideTarget.hex, wideTarget, [0]⟩] := by
    rw [htags, List.mapM_cons, checkTag_wide hn hobject, List.mapM_nil]
    rfl
  have hcheck := @check_singleton lastBytes (wideArtifact n) _ htagsOk
  refine ⟨_, hcheck, fun hkept => ?_⟩
  have htag : (⟨"v1", object.1.hex, wideTarget.hex⟩ : Tag) ∈ (wideArtifact n).tags := by
    rw [htags]
    exact List.mem_singleton_self _
  have hindexed : Indexed (wideHashed n) object.1 :=
    (keptOk_iff lastBytes hcheck).mp hkept _ htag object.1 (parseId_hex object.1)
  exact absurd (hindexed (2 ^ 32) (.here (positionOf_wideHashed hobject))) (Nat.lt_irrefl _)

end Wide

/-- One tag object more than the index tells apart: the kept tag's chain does not start at its object. -/
theorem wide_tag_misread : ∃ kept, check lastBytes (wideArtifact (2 ^ 32 + 1)) = .ok kept ∧
    ¬ KeptOk lastBytes (wideArtifact (2 ^ 32 + 1)) kept :=
  wideArtifact_misread (Nat.lt_succ_self _) (by decide)

end Ripclone.Tags
