import Mathlib.Data.String.Basic
import Ripclone.Tags.Ids
import Ripclone.Validation

/-!
# The tags artifact

The server lists its mirror's tags with what they peel to and every tag object on the way, and a clone
checks what it downloaded before it writes a ref. The server follows a chain through git's own objects,
the clone through an index of the artifact's objects by their hashes; each stops after `maxChain` of
them.

The index has 32 bits for a position, and a position that needs more loses its top bits. So a tag is
checked right as long as no object on its chain stands at `2 ^ 32` or later.
-/

namespace Ripclone.Tags

open Ripclone.Library Ripclone.Pack

structure Tag where
  /-- Under `refs/tags/`. -/
  name : String
  object : String
  /-- What `object` peels to, empty when that is itself. -/
  peeled : String
  deriving DecidableEq, Repr

structure TagsArtifact where
  tags : List Tag
  /-- Contents of the tag objects. -/
  objects : List Bytes
  deriving DecidableEq, Repr

/-- The longest tag-of-tag chain followed. -/
def maxChain : Nat := 32

/-! ## Building -/

inductive Kind where
  | commit
  | tree
  | blob
  | tag
  deriving DecidableEq, Repr

/-- What a build asks of the mirror. -/
structure Odb where
  header (id : Id) : Except String Kind
  object (id : Id) : Except String Bytes
  /-- The target of a tag object, decoded. -/
  decodeTarget (data : Bytes) : Except String Id

/-- How an artifact is stored. -/
structure Codec where
  encode (artifact : TagsArtifact) : Except String Bytes
  decode (bytes : Bytes) : Except String TagsArtifact

section Build

variable (odb : Odb)

/-- Peel an id: the tag objects on the way, and the target unless there are `steps` tag objects. -/
def peel : Nat → Id → Except String (List (Id × Bytes) × Option Id)
  | 0, _ => return ([], none)
  | steps + 1, current => do
    let kind ← odb.header current
    if kind ≠ .tag then return ([], some current)
    else do
      let data ← odb.object current
      let next ← odb.decodeTarget data
      let (chain, target) ← peel steps next
      return ((current, data) :: chain, target)

/-- A map by id, with one more entry in place of an older one. -/
def insertObject (objects : List (Id × Bytes)) (object : Id × Bytes) : List (Id × Bytes) :=
  objects.filter (fun other => decide (other.1 ≠ object.1)) ++ [object]

/-- The objects and the tags, with one more tag. One that is too deep is left out. -/
def addTag (built : List (Id × Bytes) × List Tag) (tag : String × Id) :
    Except String (List (Id × Bytes) × List Tag) := do
  let (chain, target) ← peel odb (maxChain + 1) tag.2
  match target with
  | none => return built
  | some target =>
    return (chain.foldl insertObject built.1,
      built.2 ++ [⟨tag.1, tag.2.hex, if target = tag.2 then "" else target.hex⟩])

def buildArtifact (tags : List (String × Id)) : Except String TagsArtifact := do
  let (objects, out) ← tags.foldlM (addTag odb) ([], [])
  return ⟨out, (objects.mergeSort fun a b => decide (a.1.1 ≤ b.1.1)).map Prod.snd⟩

/-- The stored artifact of a listing. -/
def build (codec : Codec) (tags : List (String × Id)) : Except String Bytes := do
  let artifact ← buildArtifact odb tags
  codec.encode artifact

end Build

/-! ## Checking -/

/-- One tag a clone keeps. -/
structure KeptTag where
  name : String
  object : String
  /-- `object` fully peeled. -/
  target : String
  targetId : Id
  /-- Where the tag objects from `object` down to `target` are among the kept objects. -/
  chain : List UInt32
  deriving DecidableEq, Repr

/-- The tags a clone keeps, and every tag object of the artifact. -/
structure Kept where
  tags : List KeptTag
  objects : List (Id × Bytes)
  deriving DecidableEq, Repr

/-- Each stands for "tags artifact integrity error: …". -/
inductive TagsError where
  /-- "invalid tag" -/
  | invalidTag (error : String)
  /-- "not a SHA-1 object id: …" -/
  | notId (hex : String)
  /-- "tag … names a tag object but has no target" -/
  | noTarget (name : String)
  /-- "tag … chain is too long" -/
  | tooLong (name : String)
  /-- "tag object does not start with an object line" -/
  | noObjectLine
  /-- "tag object id is not text" -/
  | notText
  /-- "tag … does not peel to …" -/
  | doesNotPeel (name peeled : String)
  /-- "a tag is listed twice" -/
  | listedTwice
  deriving DecidableEq, Repr

def asciiBytes (text : String) : Bytes := text.toList.map fun c => UInt8.ofNat c.toNat

def newline : UInt8 := 0x0a

def readId (hex : String) : Except TagsError Id :=
  match parseId hex with
  | some id => return id
  | none => throw (.notId hex)

/-- The object a tag object names: its `object <id>` header line. -/
def tagTarget (data : Bytes) : Except TagsError Id :=
  let line := data.takeWhile (· ≠ newline)
  if asciiBytes "object " <+: line then
    match Utf8.strict (line.drop (asciiBytes "object ").length) with
    | some id => readId id
    | none => throw .notText
  else throw .noObjectLine

/-- Objects of the same id next to one another become one. -/
def dedupAfter (last : Id) : List (Id × Bytes) → List (Id × Bytes)
  | [] => []
  | object :: rest =>
    if object.1 = last then dedupAfter last rest else object :: dedupAfter object.1 rest

def dedupById : List (Id × Bytes) → List (Id × Bytes)
  | [] => []
  | object :: rest => object :: dedupAfter object.1 rest

/-- Where an id is among the objects, the last place of several, and its object. -/
def positionOf (objects : List (Id × Bytes)) (id : Id) : Option (Nat × Bytes) :=
  (objects.zipIdx.reverse.find? fun entry => decide (entry.1.1 = id)).map fun entry =>
    (entry.2, entry.1.2)

/-- The index of an id: a map from ids to positions, `as u32`. -/
def indexOf (objects : List (Id × Bytes)) (id : Id) : Option UInt32 :=
  (positionOf objects id).map fun entry => UInt32.ofNat entry.1

/-- `objects[i as usize].1`. An index is at most the position it is of, so there is an object. -/
def objectAt (objects : List (Id × Bytes)) (i : UInt32) : Bytes :=
  (objects[i.toNat]?.map Prod.snd).getD []

/-- Follow the objects from `current`, at most `room` of them: where they are, and where they lead. -/
def follow (objects : List (Id × Bytes)) (name : String) :
    Nat → Id → Except TagsError (List UInt32 × Id)
  | room, current =>
    match indexOf objects current with
    | none => return ([], current)
    | some i =>
      match room with
      | 0 => throw (.tooLong name)
      | room + 1 => do
        let next ← tagTarget (objectAt objects i)
        let (chain, last) ← follow objects name room next
        return (i :: chain, last)

def checkTag (objects : List (Id × Bytes)) (tag : Tag) : Except TagsError KeptTag := do
  (validateTagName tag.name).mapError .invalidTag
  let object ← readId tag.object
  if tag.peeled = "" then
    if (indexOf objects object).isSome then throw (.noTarget tag.name)
    else return ⟨tag.name, tag.object, tag.object, object, []⟩
  else do
    let peeled ← readId tag.peeled
    let (chain, last) ← follow objects tag.name maxChain object
    if chain = [] ∨ last ≠ peeled then throw (.doesNotPeel tag.name tag.peeled)
    else return ⟨tag.name, tag.object, tag.peeled, peeled, chain⟩

/-- No name is next to itself. -/
def namesApart : List KeptTag → Bool
  | tag :: next :: rest => decide (tag.name ≠ next.name) && namesApart (next :: rest)
  | _ => true

variable (sha1 : Bytes → Id)

/-- The object id git gives a tag object with this content. -/
def tagObjectId (data : Bytes) : Id :=
  sha1 (asciiBytes ("tag " ++ toString data.length) ++ [0] ++ data)

/-- The artifact's objects with their ids, sorted, each once. -/
def hashedObjects (artifact : TagsArtifact) : List (Id × Bytes) :=
  dedupById ((artifact.objects.map fun data => (tagObjectId sha1 data, data)).mergeSort
    fun a b => decide (a.1.1 ≤ b.1.1))

/-- Every tag of the artifact, checked. -/
def check (artifact : TagsArtifact) : Except TagsError Kept := do
  let objects := hashedObjects sha1 artifact
  let tags ← artifact.tags.mapM (checkTag objects)
  let sorted := tags.mergeSort fun a b => decide (a.name ≤ b.name)
  if namesApart sorted then return ⟨sorted, objects⟩ else throw .listedTwice

/-! ## What is kept -/

/-- The objects at `chain` lead from an object to the target, each named by the one before it. -/
def LeadsTo (artifact : TagsArtifact) (objects : List (Id × Bytes)) : Id → List UInt32 → Id → Prop
  | object, [], target => object = target
  | object, i :: chain, target => ∃ data next, objects[i.toNat]? = some (object, data) ∧
      data ∈ artifact.objects ∧ tagObjectId sha1 data = object ∧ tagTarget data = .ok next ∧
      LeadsTo artifact objects next chain target

structure KeptTagOk (artifact : TagsArtifact) (objects : List (Id × Bytes)) (tag : KeptTag) : Prop where
  name : validateTagName tag.name = .ok ()
  chain : ∃ object, parseId tag.object = some object ∧
    LeadsTo sha1 artifact objects object tag.chain tag.targetId
  bounded : tag.chain.length ≤ maxChain
  target : parseId tag.target = some tag.targetId
  /-- The target is none of the tag objects. -/
  peeled : ∀ data ∈ artifact.objects, tagObjectId sha1 data ≠ tag.targetId

/-- `i` is where an object on the chain from `id` is, the way the objects name one another. -/
inductive OnChain (objects : List (Id × Bytes)) : Id → Nat → Prop
  | here {id : Id} {i : Nat} {data : Bytes} (hpos : positionOf objects id = some (i, data)) :
      OnChain objects id i
  | later {id next : Id} {i j : Nat} {data : Bytes} (hpos : positionOf objects id = some (i, data))
      (hnext : tagTarget data = .ok next) (hlater : OnChain objects next j) : OnChain objects id j

/-- The index has every object of a chain at its position. -/
def Indexed (objects : List (Id × Bytes)) (id : Id) : Prop := ∀ i, OnChain objects id i → i < 2 ^ 32

/-- Every listed tag's chain is in the index. -/
def AllIndexed (artifact : TagsArtifact) : Prop :=
  ∀ tag ∈ artifact.tags, ∀ object, parseId tag.object = some object →
    Indexed (hashedObjects sha1 artifact) object

structure KeptOk (artifact : TagsArtifact) (kept : Kept) : Prop where
  tags : ∀ tag ∈ kept.tags, KeptTagOk sha1 artifact kept.objects tag
  sorted : (kept.tags.map KeptTag.name).Pairwise (· < ·)
  all : (kept.tags.map fun tag => (tag.name, tag.object)).Perm
    (artifact.tags.map fun tag => (tag.name, tag.object))

section Objects

variable {sha1} {artifact : TagsArtifact} {objects : List (Id × Bytes)} {object : Id × Bytes} {id : Id}

theorem mem_of_mem_dedupAfter {last : Id} (h : object ∈ dedupAfter last objects) :
    object ∈ objects := by
  induction objects generalizing last with
  | nil => cases h
  | cons first rest ih =>
      rw [dedupAfter] at h
      split at h
      · exact List.mem_cons_of_mem _ (ih h)
      · rcases List.mem_cons.mp h with rfl | h
        · exact List.mem_cons_self
        · exact List.mem_cons_of_mem _ (ih h)

theorem mem_of_mem_dedupById (h : object ∈ dedupById objects) : object ∈ objects := by
  cases objects with
  | nil => cases h
  | cons first rest =>
      rcases List.mem_cons.mp h with rfl | h
      · exact List.mem_cons_self
      · exact List.mem_cons_of_mem _ (mem_of_mem_dedupAfter h)

/-- No id is lost. -/
theorem mem_ids_dedupAfter {last : Id} (h : object ∈ objects) :
    object.1 = last ∨ object.1 ∈ (dedupAfter last objects).map Prod.fst := by
  induction objects generalizing last with
  | nil => cases h
  | cons first rest ih =>
      rw [dedupAfter]
      rcases List.mem_cons.mp h with rfl | h
      · split
        · next hlast => exact .inl hlast
        · exact .inr List.mem_cons_self
      · split
        · exact ih h
        · rcases ih h with hfirst | hrest
          · exact .inr (List.mem_cons.mpr (.inl hfirst))
          · exact .inr (List.mem_cons_of_mem _ hrest)

theorem mem_ids_dedupById (h : object ∈ objects) : object.1 ∈ (dedupById objects).map Prod.fst := by
  cases objects with
  | nil => cases h
  | cons first rest =>
      rcases List.mem_cons.mp h with rfl | h
      · exact List.mem_cons_self
      · rcases mem_ids_dedupAfter h with hfirst | hrest
        · exact List.mem_cons.mpr (.inl hfirst)
        · exact List.mem_cons_of_mem _ hrest

/-- Every object has the id of its content. -/
theorem mem_hashedObjects (h : object ∈ hashedObjects sha1 artifact) :
    object.2 ∈ artifact.objects ∧ tagObjectId sha1 object.2 = object.1 := by
  obtain ⟨data, hdata, rfl⟩ := List.mem_map.mp (List.mem_mergeSort.mp (mem_of_mem_dedupById h))
  exact ⟨hdata, rfl⟩

theorem id_mem_hashedObjects {data : Bytes} (h : data ∈ artifact.objects) :
    tagObjectId sha1 data ∈ (hashedObjects sha1 artifact).map Prod.fst :=
  mem_ids_dedupById (List.mem_mergeSort.mpr (List.mem_map_of_mem h))

/-- Sorted objects have every id once when neighbours of one id are one. -/
theorem nodup_dedupAfter {last : Id} (hsorted : objects.Pairwise fun a b => a.1.1 ≤ b.1.1)
    (hlast : ∀ object ∈ objects, last.1 ≤ object.1.1) :
    last ∉ (dedupAfter last objects).map Prod.fst ∧ ((dedupAfter last objects).map Prod.fst).Nodup := by
  induction objects generalizing last with
  | nil => simp [dedupAfter]
  | cons first rest ih =>
      obtain ⟨hfirst, hrest⟩ := List.pairwise_cons.mp hsorted
      obtain ⟨hle, hlater⟩ := List.forall_mem_cons.mp hlast
      rw [dedupAfter]
      split
      · exact ih hrest hlater
      · next hne =>
          obtain ⟨hnot, hnodup⟩ := ih hrest hfirst
          refine ⟨?_, List.nodup_cons.mpr ⟨hnot, hnodup⟩⟩
          rw [List.map_cons, List.mem_cons, not_or]
          refine ⟨fun heq => hne heq.symm, fun hmem => ?_⟩
          obtain ⟨object, hobject, hid⟩ := List.mem_map.mp hmem
          have hback : first.1.1 ≤ last.1 := by
            rw [← hid]
            exact hfirst object (mem_of_mem_dedupAfter hobject)
          exact hne (Subtype.ext (List.le_antisymm hback hle))

theorem nodup_hashedObjects : ((hashedObjects sha1 artifact).map Prod.fst).Nodup := by
  have hsorted : ((artifact.objects.map fun data => (tagObjectId sha1 data, data)).mergeSort
      fun a b => decide (a.1.1 ≤ b.1.1)).Pairwise fun a b => a.1.1 ≤ b.1.1 := by
    have htrans : ∀ a b c : Id × Bytes, decide (a.1.1 ≤ b.1.1) = true →
        decide (b.1.1 ≤ c.1.1) = true → decide (a.1.1 ≤ c.1.1) = true := fun _ _ _ hab hbc =>
      decide_eq_true (List.le_trans (of_decide_eq_true hab) (of_decide_eq_true hbc))
    have htotal : ∀ a b : Id × Bytes,
        (decide (a.1.1 ≤ b.1.1) || decide (b.1.1 ≤ a.1.1)) = true := by
      intro a b
      rcases List.le_total a.1.1 b.1.1 with h | h
      · simp [h]
      · simp [h]
    exact (List.pairwise_mergeSort htrans htotal _).imp of_decide_eq_true
  unfold hashedObjects
  revert hsorted
  generalize (artifact.objects.map fun data => (tagObjectId sha1 data, data)).mergeSort
    (fun a b => decide (a.1.1 ≤ b.1.1)) = objects
  intro hsorted
  cases objects with
  | nil => exact List.nodup_nil
  | cons first rest =>
      obtain ⟨hfirst, hrest⟩ := List.pairwise_cons.mp hsorted
      obtain ⟨hnot, hnodup⟩ := nodup_dedupAfter hrest hfirst
      exact List.nodup_cons.mpr ⟨hnot, hnodup⟩

theorem positionOf_some {i : Nat} {data : Bytes} (h : positionOf objects id = some (i, data)) :
    objects[i]? = some (id, data) := by
  obtain ⟨entry, hentry, heq⟩ := Option.map_eq_some_iff.mp h
  obtain ⟨rfl, rfl⟩ := Prod.mk.inj heq
  have hid := List.find?_some (p := fun entry : (Id × Bytes) × Nat => decide (entry.1.1 = id)) hentry
  have hmem := List.mem_reverse.mp (List.mem_of_find?_eq_some hentry)
  rw [← of_decide_eq_true hid]
  exact List.mk_mem_zipIdx_iff_getElem?.mp hmem

theorem positionOf_none : positionOf objects id = none ↔ id ∉ objects.map Prod.fst := by
  rw [positionOf, Option.map_eq_none_iff, List.find?_eq_none]
  simp only [List.mem_reverse, decide_eq_true_eq]
  constructor
  · intro h hmem
    obtain ⟨object, hobject, rfl⟩ := List.mem_map.mp hmem
    obtain ⟨i, hi⟩ := List.getElem?_of_mem hobject
    exact h (object, i) (List.mk_mem_zipIdx_iff_getElem?.mpr hi) rfl
  · rintro h ⟨object, i⟩ hmem rfl
    exact h (List.mem_map_of_mem (List.mem_of_getElem? (List.mk_mem_zipIdx_iff_getElem?.mp hmem)))

theorem indexOf_none : indexOf objects id = none ↔ id ∉ objects.map Prod.fst := by
  rw [indexOf, Option.map_eq_none_iff, positionOf_none]

theorem indexOf_some {i : UInt32} (h : indexOf objects id = some i) :
    ∃ position data, positionOf objects id = some (position, data) ∧ i = UInt32.ofNat position := by
  obtain ⟨⟨position, data⟩, hposition, rfl⟩ := Option.map_eq_some_iff.mp h
  exact ⟨position, data, hposition, rfl⟩

theorem objectAt_eq {i : UInt32} {object : Id × Bytes} (h : objects[i.toNat]? = some object) :
    objectAt objects i = object.2 := by
  rw [objectAt, h]
  rfl

theorem Indexed.toNat {position : Nat} {data : Bytes} (h : Indexed objects id)
    (hposition : positionOf objects id = some (position, data)) :
    (UInt32.ofNat position).toNat = position :=
  UInt32.toNat_ofNat_of_lt' (h position (.here hposition))

theorem Indexed.next {position : Nat} {data : Bytes} {next : Id} (h : Indexed objects id)
    (hposition : positionOf objects id = some (position, data)) (hnext : tagTarget data = .ok next) :
    Indexed objects next :=
  fun i hi => h i (.later hposition hnext hi)

/-- With no more objects than an index can tell apart, every chain is in it. -/
theorem indexed_of_few (h : objects.length ≤ 2 ^ 32) (id : Id) : Indexed objects id := by
  intro i hi
  induction hi with
  | here hposition =>
      have hlt := (List.getElem?_eq_some_iff.mp (positionOf_some hposition)).1
      omega
  | later _ _ _ ih => exact ih

/-- Wherever a chain in the index ends, it was followed from object to object and left them. -/
theorem follow_ok {name : String} {room : Nat} {current last : Id} {chain : List UInt32}
    (hindexed : Indexed (hashedObjects sha1 artifact) current)
    (h : follow (hashedObjects sha1 artifact) name room current = .ok (chain, last)) :
    LeadsTo sha1 artifact (hashedObjects sha1 artifact) current chain last ∧
      (∀ data ∈ artifact.objects, tagObjectId sha1 data ≠ last) ∧ chain.length ≤ room := by
  induction room generalizing current chain with
  | zero =>
      rw [follow] at h
      split at h
      · next hnone =>
          obtain ⟨rfl, rfl⟩ := Prod.mk.inj (pure_eq_ok.mp h)
          refine ⟨rfl, ?_, Nat.le_refl _⟩
          rintro data hdata rfl
          exact indexOf_none.mp hnone (id_mem_hashedObjects hdata)
      · cases h
  | succ room ih =>
      rw [follow] at h
      split at h
      · next hnone =>
          obtain ⟨rfl, rfl⟩ := Prod.mk.inj (pure_eq_ok.mp h)
          refine ⟨rfl, ?_, Nat.zero_le _⟩
          rintro data hdata rfl
          exact indexOf_none.mp hnone (id_mem_hashedObjects hdata)
      · next i hsome =>
          obtain ⟨next, hnext, h⟩ := bind_eq_ok.mp h
          obtain ⟨⟨later, last'⟩, hlater, h⟩ := bind_eq_ok.mp h
          obtain ⟨rfl, rfl⟩ := Prod.mk.inj (pure_eq_ok.mp h)
          obtain ⟨position, data, hposition, rfl⟩ := indexOf_some hsome
          have hget := positionOf_some hposition
          rw [← hindexed.toNat hposition] at hget
          rw [objectAt_eq hget] at hnext
          obtain ⟨hleads, hleft, hlen⟩ := ih (hindexed.next hposition hnext) hlater
          obtain ⟨hdata, hid⟩ := mem_hashedObjects (List.mem_of_getElem? hget)
          exact ⟨⟨data, next, hget, hdata, hid, hnext, hleads⟩, hleft, Nat.succ_le_succ hlen⟩

/-- What is no object has no chain. -/
theorem indexed_of_none (h : indexOf objects id = none) : Indexed objects id := by
  rw [indexOf, Option.map_eq_none_iff] at h
  intro i hi
  cases hi with
  | here hposition => cases h.symm.trans hposition
  | later hposition => cases h.symm.trans hposition

/-- A chain that was followed rightly is in the index: at a wrapped position there is another object. -/
theorem indexed_of_leadsTo {name : String} {room : Nat} {current last : Id} {chain : List UInt32}
    (h : follow (hashedObjects sha1 artifact) name room current = .ok (chain, last))
    (hleads : LeadsTo sha1 artifact (hashedObjects sha1 artifact) current chain last) :
    Indexed (hashedObjects sha1 artifact) current := by
  induction room generalizing current chain with
  | zero =>
      rw [follow] at h
      split at h
      · next hnone => exact indexed_of_none hnone
      · cases h
  | succ room ih =>
      rw [follow] at h
      split at h
      · next hnone => exact indexed_of_none hnone
      next i hsome =>
      obtain ⟨next, hnext, h⟩ := bind_eq_ok.mp h
      obtain ⟨⟨later, last'⟩, hlater, h⟩ := bind_eq_ok.mp h
      obtain ⟨rfl, rfl⟩ := Prod.mk.inj (pure_eq_ok.mp h)
      obtain ⟨position, data, hposition, rfl⟩ := indexOf_some hsome
      obtain ⟨data', next', hget', -, -, hnext', hleads⟩ := hleads
      have hget := positionOf_some hposition
      -- every id stands at one place only
      have hplace : (UInt32.ofNat position).toNat = position := by
        have hids : ((hashedObjects sha1 artifact).map Prod.fst)[(UInt32.ofNat position).toNat]? =
            ((hashedObjects sha1 artifact).map Prod.fst)[position]? := by
          rw [List.getElem?_map, List.getElem?_map, hget', hget]
          rfl
        have hlt : (UInt32.ofNat position).toNat <
            ((hashedObjects sha1 artifact).map Prod.fst).length := by
          rw [List.length_map]
          exact (List.getElem?_eq_some_iff.mp hget').1
        exact (List.getElem?_inj hlt nodup_hashedObjects).mp hids
      rw [objectAt_eq hget', hnext'] at hnext
      obtain rfl := Except.ok.inj hnext
      rw [hplace, hget] at hget'
      obtain rfl := (Prod.mk.inj (Option.some.inj hget')).2
      intro i hi
      cases hi with
      | here hposition' =>
          obtain ⟨rfl, -⟩ := Prod.mk.inj (Option.some.inj (hposition.symm.trans hposition'))
          rw [← hplace]
          exact UInt32.toNat_lt _
      | later hposition' hnext'' hlater' =>
          obtain ⟨-, rfl⟩ := Prod.mk.inj (Option.some.inj (hposition.symm.trans hposition'))
          obtain rfl := Except.ok.inj (hnext'.symm.trans hnext'')
          exact ih hlater hleads i hlater'

theorem readId_ok {hex : String} (h : readId hex = .ok id) : parseId hex = some id := by
  unfold readId at h
  split at h
  · next hparse => rw [hparse, pure_eq_ok.mp h]
  · cases h

theorem checkTag_ok {tag : Tag} {kept : KeptTag}
    (hindexed : ∀ object, parseId tag.object = some object →
      Indexed (hashedObjects sha1 artifact) object)
    (h : checkTag (hashedObjects sha1 artifact) tag = .ok kept) :
    KeptTagOk sha1 artifact (hashedObjects sha1 artifact) kept ∧ kept.name = tag.name ∧
      kept.object = tag.object := by
  obtain ⟨hname, h⟩ := bind_unit_eq_ok.mp h
  obtain ⟨object, hobject, h⟩ := bind_eq_ok.mp h
  have hname := mapError_eq_ok.mp hname
  have hobject := readId_ok hobject
  split at h
  · obtain ⟨hnone, h⟩ := ite_throw_eq_ok.mp h
    obtain rfl := pure_eq_ok.mp h
    rw [Bool.not_eq_true, Option.isSome_eq_false_iff, Option.isNone_iff_eq_none] at hnone
    refine ⟨⟨hname, ⟨object, hobject, rfl⟩, Nat.zero_le _, hobject, ?_⟩, rfl, rfl⟩
    rintro data hdata rfl
    exact indexOf_none.mp hnone (id_mem_hashedObjects hdata)
  · obtain ⟨peeled, hpeeled, h⟩ := bind_eq_ok.mp h
    obtain ⟨⟨chain, last⟩, hfollow, h⟩ := bind_eq_ok.mp h
    obtain ⟨hends, h⟩ := ite_throw_eq_ok.mp h
    obtain rfl := pure_eq_ok.mp h
    rw [not_or, not_not] at hends
    obtain ⟨hleads, hleft, hlen⟩ := follow_ok (hindexed object hobject) hfollow
    obtain rfl := hends.2
    exact ⟨⟨hname, ⟨object, hobject, hleads⟩, hlen, readId_ok hpeeled, hleft⟩, rfl, rfl⟩

/-- A tag that is kept rightly has its chain in the index. -/
theorem indexed_of_checkTag {tag : Tag} {kept : KeptTag}
    (h : checkTag (hashedObjects sha1 artifact) tag = .ok kept)
    (hkept : KeptTagOk sha1 artifact (hashedObjects sha1 artifact) kept) {object : Id}
    (hobject : parseId tag.object = some object) :
    Indexed (hashedObjects sha1 artifact) object := by
  obtain ⟨-, h⟩ := bind_unit_eq_ok.mp h
  obtain ⟨read, hread, h⟩ := bind_eq_ok.mp h
  obtain rfl := Option.some.inj ((readId_ok hread).symm.trans hobject)
  split at h
  · obtain ⟨hnone, -⟩ := ite_throw_eq_ok.mp h
    rw [Bool.not_eq_true, Option.isSome_eq_false_iff, Option.isNone_iff_eq_none] at hnone
    exact indexed_of_none hnone
  · obtain ⟨peeled, hpeeled, h⟩ := bind_eq_ok.mp h
    obtain ⟨⟨chain, last⟩, hfollow, h⟩ := bind_eq_ok.mp h
    obtain ⟨hends, h⟩ := ite_throw_eq_ok.mp h
    obtain rfl := pure_eq_ok.mp h
    rw [not_or, not_not] at hends
    obtain rfl := hends.2
    obtain ⟨named, hnamed, hleads⟩ := hkept.chain
    obtain rfl := Option.some.inj (hnamed.symm.trans hobject)
    exact indexed_of_leadsTo hfollow hleads

end Objects

/-! ## Names -/

/-- Sorted names none of which is next to itself are all apart. -/
theorem names_pairwise {tags : List KeptTag} (hsorted : tags.Pairwise fun a b => a.name ≤ b.name)
    (hapart : namesApart tags = true) : (tags.map KeptTag.name).Pairwise (· < ·) := by
  induction tags with
  | nil => exact .nil
  | cons tag rest ih =>
      obtain ⟨hle, hrest⟩ := List.pairwise_cons.mp hsorted
      cases rest with
      | nil => exact List.pairwise_singleton _ _
      | cons next rest =>
          rw [namesApart, Bool.and_eq_true, decide_eq_true_eq] at hapart
          have hlater := ih hrest hapart.2
          have hnext : tag.name < next.name :=
            lt_of_le_of_ne (hle next List.mem_cons_self) hapart.1
          refine List.Pairwise.cons ?_ hlater
          intro name hname
          rcases List.mem_cons.mp hname with rfl | hname
          · exact hnext
          · exact lt_trans hnext ((List.pairwise_cons.mp hlater).1 name hname)

theorem pairwise_sortedTags (tags : List KeptTag) :
    (tags.mergeSort fun a b => decide (a.name ≤ b.name)).Pairwise fun a b => a.name ≤ b.name := by
  have htrans : ∀ a b c : KeptTag, decide (a.name ≤ b.name) = true →
      decide (b.name ≤ c.name) = true → decide (a.name ≤ c.name) = true := fun _ _ _ hab hbc =>
    decide_eq_true (le_trans (of_decide_eq_true hab) (of_decide_eq_true hbc))
  have htotal : ∀ a b : KeptTag,
      (decide (a.name ≤ b.name) || decide (b.name ≤ a.name)) = true := by
    intro a b
    rcases le_total a.name b.name with h | h
    · simp [h]
    · simp [h]
  exact (List.pairwise_mergeSort htrans htotal tags).imp of_decide_eq_true

theorem checkTags_ok {artifact : TagsArtifact} {listed : List Tag} {tags : List KeptTag}
    (hindexed : ∀ tag ∈ listed, ∀ object, parseId tag.object = some object →
      Indexed (hashedObjects sha1 artifact) object)
    (h : List.Forall₂ (fun tag kept => checkTag (hashedObjects sha1 artifact) tag = .ok kept)
      listed tags) :
    (∀ tag ∈ tags, KeptTagOk sha1 artifact (hashedObjects sha1 artifact) tag) ∧
      tags.map (fun tag => (tag.name, tag.object)) =
        listed.map fun tag => (tag.name, tag.object) := by
  induction h with
  | nil => exact ⟨by simp, rfl⟩
  | cons hfirst _ ih =>
      obtain ⟨hthis, hothers⟩ := List.forall_mem_cons.mp hindexed
      obtain ⟨hkept, hname, hobject⟩ := checkTag_ok hthis hfirst
      obtain ⟨hrest, hlisted⟩ := ih hothers
      refine ⟨List.forall_mem_cons.mpr ⟨hkept, hrest⟩, ?_⟩
      rw [List.map_cons, List.map_cons, hname, hobject, hlisted]

/-- Whatever an artifact is, what the check keeps of it is right exactly when the chains are in the
index. -/
theorem keptOk_iff {artifact : TagsArtifact} {kept : Kept} (h : check sha1 artifact = .ok kept) :
    KeptOk sha1 artifact kept ↔ AllIndexed sha1 artifact := by
  obtain ⟨tags, htags, h⟩ := bind_eq_ok.mp h
  have hchecked := mapM_eq_ok.mp htags
  dsimp only at h
  split at h
  · next hapart =>
      obtain rfl := pure_eq_ok.mp h
      constructor
      · intro hkept tag htag object hobject
        obtain ⟨keptTag, hmem, htag⟩ := forall₂_mem hchecked htag
        exact indexed_of_checkTag htag (hkept.tags keptTag (List.mem_mergeSort.mpr hmem)) hobject
      · intro hindexed
        obtain ⟨hkept, hlisted⟩ := checkTags_ok sha1 hindexed hchecked
        refine ⟨fun tag htag => hkept tag (List.mem_mergeSort.mp htag), ?_, ?_⟩
        · exact names_pairwise (pairwise_sortedTags tags) hapart
        · rw [← hlisted]
          exact (List.mergeSort_perm _ _).map _
  · cases h

theorem length_dedupAfter_le (last : Id) (objects : List (Id × Bytes)) :
    (dedupAfter last objects).length ≤ objects.length := by
  induction objects generalizing last with
  | nil => exact Nat.le_refl _
  | cons first rest ih =>
      rw [dedupAfter]
      split
      · exact (ih last).trans (Nat.le_succ _)
      · exact Nat.succ_le_succ (ih first.1)

theorem length_hashedObjects_le (artifact : TagsArtifact) :
    (hashedObjects sha1 artifact).length ≤ artifact.objects.length := by
  have hdedup : ∀ objects : List (Id × Bytes), (dedupById objects).length ≤ objects.length := by
    intro objects
    cases objects with
    | nil => exact Nat.le_refl _
    | cons first rest => exact Nat.succ_le_succ (length_dedupAfter_le first.1 rest)
  refine (hdedup _).trans (Nat.le_of_eq ?_)
  rw [List.length_mergeSort, List.length_map]

/-- Up to `2 ^ 32` tag objects, every chain is in the index. -/
theorem allIndexed_of_few {artifact : TagsArtifact}
    (h : (hashedObjects sha1 artifact).length ≤ 2 ^ 32) : AllIndexed sha1 artifact :=
  fun _ _ object _ => indexed_of_few h object

end Ripclone.Tags
