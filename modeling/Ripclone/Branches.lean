import Mathlib.Data.List.Dedup
import Mathlib.Data.List.Sort
import Ripclone.Library.Utf8
import Ripclone.Validation

/-!
# The mirror's refs

A listing of the branches and tags of a mirror, as a refresh reads it: names it accepts, each with
the id its ref names, and the branch `HEAD` names when it is one of them. Git's names are bytes and
unique; a listing has them as texts, and two names may read as one text. Listings are compared by
hash. Content hashing is a parameter; the texts that are hashed are spelled out, so that what two
equal hashes say about the listings can be proved.
-/

namespace Ripclone

open Ripclone.Library

structure MirrorRefs where
  /-- The branch the mirror's `HEAD` names. -/
  defaultBranch : Option String
  /-- `(name under refs/heads/, commit)`. -/
  branches : List (String × String)
  /-- `(name under refs/tags/, object id)`. -/
  tags : List (String × String)
  branches_ok : ∀ b ∈ branches, validateCheckoutName b.1 = .ok () ∧ validateObjectId b.2 = true
  tags_ok : ∀ t ∈ tags, validateTagName t.1 = .ok () ∧ validateObjectId t.2 = true
  default_listed : ∀ name ∈ defaultBranch, ∃ b ∈ branches, b.1 = name

/-- A branches artifact, decompressed and decoded. -/
structure Branches where
  defaultBranch : Option String
  /-- The default branch's commit. -/
  base : Option String
  /-- `(name, commit)`. -/
  branches : List (String × String)
  deriving DecidableEq, Repr

/-- `{id} refs/heads/{name}` or `{id} refs/tags/{name}`. -/
def refLine (kind : String) (ref : String × String) : List Char :=
  ref.2.toList ++ ' ' :: (kind.toList ++ ref.1.toList)

/-- The text a listing is hashed as: the default branch, then every branch and tag. -/
def refsText (defaultBranch : Option String) (branches tags : List (String × String)) : List Char :=
  unlines (("HEAD ".toList ++ (defaultBranch.getD "").toList) ::
    (branches.map (refLine "refs/heads/") ++ tags.map (refLine "refs/tags/")))

/-- A ref of the mirror: its name under `refs/heads/` or `refs/tags/`, and the id it names when it
is not symbolic. -/
structure GitRef where
  name : List UInt8
  target : Option String
  target_ok : ∀ id ∈ target, validateObjectId id = true

/-- The refs that name an id, under the text of their names, with the names `accepts` refuses left
out. Sorted by name. -/
def listRefs (accepts : String → Except String Unit) (refs : List GitRef) : List (String × String) :=
  (refs.filterMap fun ref =>
    let name := Utf8.lossy ref.name
    if accepts name = .ok () then ref.target.map fun id => (name, id) else none).mergeSort
  fun a b => decide (a.1 < b.1 ∨ a.1 = b.1 ∧ a.2 ≤ b.2)

theorem mem_listRefs {accepts : String → Except String Unit} {refs : List GitRef}
    {listed : String × String} (h : listed ∈ listRefs accepts refs) :
    accepts listed.1 = .ok () ∧ validateObjectId listed.2 = true := by
  obtain ⟨ref, _, href⟩ := List.mem_filterMap.mp (List.mem_mergeSort.mp h)
  dsimp only at href
  split at href
  · next hname =>
      obtain ⟨id, hid, rfl⟩ := Option.map_eq_some_iff.mp href
      exact ⟨hname, ref.target_ok id hid⟩
  · cases href

namespace MirrorRefs

/-- `head` is the branch the mirror's `HEAD` names. -/
def read (head : Option (List UInt8)) (branches tags : List GitRef) : MirrorRefs where
  defaultBranch := (head.map Utf8.lossy).filter fun name =>
    (listRefs validateCheckoutName branches).any fun b => b.1 = name
  branches := listRefs validateCheckoutName branches
  tags := listRefs validateTagName tags
  branches_ok := fun _ h => mem_listRefs h
  tags_ok := fun _ h => mem_listRefs h
  default_listed := by
    intro name hname
    simpa using (Option.filter_eq_some_iff.mp hname).2

variable (hash : String → String) (refs : MirrorRefs)

/-- `refs_hash` of the listing. -/
def refsHash : String :=
  hash (String.ofList (refsText refs.defaultBranch refs.branches refs.tags))

/-- The hash of the tags' listing alone. -/
def tagsHash : String :=
  hash (String.ofList (unlines (refs.tags.map (refLine ""))))

/-- The default branch's commit. -/
def base : Option String :=
  refs.defaultBranch.bind fun name => (refs.branches.find? fun b => b.1 = name).map Prod.snd

/-- The ids the side pack completes: every branch's but the default branch's, and every tag's,
sorted and deduplicated. -/
def sideTips : List String :=
  (((refs.branches.filter fun b => some b.1 ≠ refs.defaultBranch) ++ refs.tags).map
    Prod.snd).mergeSort (fun a b => decide (a ≤ b)) |>.dedup

/-- The text the side tips are hashed as and written to the mirror's file as. -/
def sideTipsText : String := String.ofList (joinLines (refs.sideTips.map String.toList))

def sideTipsHash : String := hash refs.sideTipsText

/-- The ids of every listed branch and tag. -/
def listed : List String := (refs.branches ++ refs.tags).map Prod.snd

/-- What the branches artifact of the listing holds. -/
def build : Branches := ⟨refs.defaultBranch, refs.base, refs.branches⟩

/-- At most one branch reads as the default branch's name. -/
def DefaultOnce : Prop :=
  ∀ b ∈ refs.branches, ∀ b' ∈ refs.branches,
    some b.1 = refs.defaultBranch → some b'.1 = refs.defaultBranch → b = b'

end MirrorRefs

/-- The lines of a text. -/
def textLines (text : String) : List String := (lines text.toList).map String.ofList

/-! ## What equal hashes say -/

section Injective

variable {refs refs' : MirrorRefs}

theorem mem_sideTips {id : String} :
    id ∈ refs.sideTips ↔
      (∃ b ∈ refs.branches, some b.1 ≠ refs.defaultBranch ∧ b.2 = id) ∨
        ∃ t ∈ refs.tags, t.2 = id := by
  simp only [MirrorRefs.sideTips, List.mem_dedup, List.mem_mergeSort, List.mem_map, List.mem_append,
    List.mem_filter, decide_eq_true_eq]
  constructor
  · rintro ⟨ref, ⟨hb, hne⟩ | ht, rfl⟩
    · exact .inl ⟨ref, hb, hne, rfl⟩
    · exact .inr ⟨ref, ht, rfl⟩
  · rintro (⟨b, hb, hne, rfl⟩ | ⟨t, ht, rfl⟩)
    · exact ⟨b, .inl ⟨hb, hne⟩, rfl⟩
    · exact ⟨t, .inr ht, rfl⟩

/-- The default branch is found under its name when no other branch reads as it. -/
theorem base_of_mem {ref : String × String} (honce : refs.DefaultOnce) (hmem : ref ∈ refs.branches)
    (hdefault : some ref.1 = refs.defaultBranch) : refs.base = some ref.2 := by
  have hfound : (refs.branches.find? fun b => b.1 = ref.1).isSome := by
    rw [List.find?_isSome]
    exact ⟨ref, hmem, by simp⟩
  obtain ⟨found, hfound⟩ := Option.isSome_iff_exists.mp hfound
  have hname : found.1 = ref.1 := by simpa using List.find?_some hfound
  have hsame : found = ref :=
    honce found (List.mem_of_find?_eq_some hfound) ref hmem (by rw [hname, hdefault]) hdefault
  rw [MirrorRefs.base, ← hdefault, Option.bind_some, hfound, hsame, Option.map_some]

/-- A listed id that is not a side tip is the default branch's. -/
theorem mem_sideTips_or_base {id : String} (honce : refs.DefaultOnce) (h : id ∈ refs.listed) :
    id ∈ refs.sideTips ∨ refs.base = some id := by
  obtain ⟨ref, href, rfl⟩ := List.mem_map.mp h
  rcases List.mem_append.mp href with hb | ht
  · by_cases hdefault : some ref.1 = refs.defaultBranch
    · exact .inr (base_of_mem honce hb hdefault)
    · exact .inl (mem_sideTips.mpr (.inl ⟨ref, hb, hdefault, rfl⟩))
  · exact .inl (mem_sideTips.mpr (.inr ⟨ref, ht, rfl⟩))

theorem sideTips_ok {id : String} (h : id ∈ refs.sideTips) : validateObjectId id = true := by
  rcases mem_sideTips.mp h with ⟨b, hb, _, rfl⟩ | ⟨t, ht, rfl⟩
  · exact (refs.branches_ok b hb).2
  · exact (refs.tags_ok t ht).2

/-- The text of the side tips reads back as the side tips. -/
theorem textLines_sideTipsText : textLines refs.sideTipsText = refs.sideTips := by
  have hids : ∀ line ∈ refs.sideTips.map String.toList, OneLine line ∧ line ≠ [] := by
    intro line hline
    obtain ⟨id, hid, rfl⟩ := List.mem_map.mp hline
    obtain ⟨hne, hhex⟩ := validateObjectId_ok (sideTips_ok hid)
    exact ⟨oneLine_of_lowercaseHex hhex, hne⟩
  rw [textLines, MirrorRefs.sideTipsText, String.toList_ofList,
    lines_joinLines (fun line hline => (hids line hline).1) (fun line hline => (hids line hline).2),
    List.map_map]
  simp [Function.comp_def]

/-- The name has no space and the id has none. -/
def RefOk (ref : String × String) : Prop :=
  (∀ c ∈ ref.1.toList, refNameChar c = true) ∧ ∀ c ∈ ref.2.toList, lowercaseHex c = true

theorem RefOk.of_accepted {what : String} {ref : String × String}
    (h : validateRefName what ref.1 = .ok () ∧ validateObjectId ref.2 = true) : RefOk ref :=
  ⟨(validateRefName_ok h.1).2, (validateObjectId_ok h.2).2⟩

/-- Two lines are the same when the ids are and what follows the space is. -/
theorem refLine_eq {kind kind' : String} {ref ref' : String × String} (hkind : ' ' ∉ kind.toList)
    (href : RefOk ref) (h : refLine kind ref = refLine kind' ref') :
    ref.2 = ref'.2 ∧ kind.toList ++ ref.1.toList = kind'.toList ++ ref'.1.toList := by
  have hid : ' ' ∉ ref.2.toList := fun hmem => absurd (href.2 _ hmem) (by decide)
  have hrest : ' ' ∉ kind.toList ++ ref.1.toList := by
    intro hmem
    rcases List.mem_append.mp hmem with hmem | hmem
    · exact hkind hmem
    · exact absurd (href.1 _ hmem) (by decide)
  obtain ⟨hids, _, hrests⟩ := (List.append_cons_inj_of_notMem hid hrest).mp h
  exact ⟨String.toList_inj.mp hids, hrests⟩

theorem refLine_inj {kind : String} {ref ref' : String × String} (hkind : ' ' ∉ kind.toList)
    (href : RefOk ref) (h : refLine kind ref = refLine kind ref') : ref = ref' := by
  obtain ⟨hid, hname⟩ := refLine_eq hkind href h
  exact Prod.ext (String.toList_inj.mp (List.append_cancel_left hname)) hid

theorem oneLine_refLine {kind : String} {ref : String × String} (hkind : OneLine kind.toList)
    (href : RefOk ref) : OneLine (refLine kind ref) := by
  have hname := oneLine_of_refNameChar href.1
  have hid := oneLine_of_lowercaseHex href.2
  constructor
  · simp [refLine, hid.1, hkind.1, hname.1]
  · simp [refLine, hid.2, hkind.2, hname.2]

/-- The names and ids of a listing are accepted, as the mirror's and upstream's are. -/
structure ListingOk (defaultBranch : Option String) (branches tags : List (String × String)) :
    Prop where
  default_ok : ∀ name ∈ defaultBranch, validateCheckoutName name = .ok ()
  branches_ok : ∀ b ∈ branches, validateCheckoutName b.1 = .ok () ∧ validateObjectId b.2 = true
  tags_ok : ∀ t ∈ tags, validateTagName t.1 = .ok () ∧ validateObjectId t.2 = true

theorem MirrorRefs.listingOk (refs : MirrorRefs) :
    ListingOk refs.defaultBranch refs.branches refs.tags where
  default_ok := by
    intro name hname
    obtain ⟨ref, hmem, rfl⟩ := refs.default_listed name hname
    exact (refs.branches_ok ref hmem).1
  branches_ok := refs.branches_ok
  tags_ok := refs.tags_ok

variable {default default' : Option String} {branches branches' tags tags' : List (String × String)}

theorem oneLine_head (h : ∀ name ∈ default, validateCheckoutName name = .ok ()) :
    OneLine ("HEAD ".toList ++ (default.getD "").toList) := by
  have hname : OneLine (default.getD "").toList := by
    cases hdefault : default with
    | none => exact ⟨List.not_mem_nil, List.not_mem_nil⟩
    | some name => exact oneLine_of_refNameChar (validateRefName_ok (h name hdefault)).2
  constructor
  · simp [hname.1]
  · simp [hname.2]

/-- An accepted name is not empty, so a listing without a default branch reads as no other. -/
theorem defaultBranch_eq (hok : ∀ name ∈ default, validateCheckoutName name = .ok ())
    (hok' : ∀ name ∈ default', validateCheckoutName name = .ok ())
    (h : default.getD "" = default'.getD "") : default = default' := by
  have hne : ∀ name, validateCheckoutName name = .ok () → name ≠ "" := by
    rintro name hname rfl
    exact (validateRefName_ok hname).1 rfl
  cases default with
  | none =>
      cases default' with
      | none => rfl
      | some name => exact absurd h.symm (hne name (hok' name rfl))
  | some name =>
      cases default' with
      | none => exact absurd h (hne name (hok name rfl))
      | some name' => exact congrArg some h

/-- The lines of a listing's text. -/
theorem lines_refsText (h : ListingOk default branches tags) :
    lines (refsText default branches tags) = ("HEAD ".toList ++ (default.getD "").toList) ::
      (branches.map (refLine "refs/heads/") ++ tags.map (refLine "refs/tags/")) := by
  refine lines_unlines fun line hline => ?_
  rcases List.mem_cons.mp hline with rfl | hline
  · exact oneLine_head h.default_ok
  rcases List.mem_append.mp hline with hline | hline
  · obtain ⟨ref, href, rfl⟩ := List.mem_map.mp hline
    exact oneLine_refLine (by decide) (RefOk.of_accepted (h.branches_ok ref href))
  · obtain ⟨ref, href, rfl⟩ := List.mem_map.mp hline
    exact oneLine_refLine (by decide) (RefOk.of_accepted (h.tags_ok ref href))

/-- The text of a listing says what the listing is. -/
theorem refsText_eq (hok : ListingOk default branches tags) (hok' : ListingOk default' branches' tags')
    (h : refsText default branches tags = refsText default' branches' tags') :
    default = default' ∧ branches = branches' ∧ tags = tags' := by
  have hlines := congrArg lines h
  rw [lines_refsText hok, lines_refsText hok'] at hlines
  obtain ⟨hhead, hrefs⟩ := List.cons.inj hlines
  have hdefault := defaultBranch_eq hok.default_ok hok'.default_ok
    (String.toList_inj.mp (List.append_cancel_left hhead))
  -- the character after `refs/` tells a branch's line from a tag's
  have hkinds : ∀ {ref ref' : String × String}, RefOk ref → RefOk ref' →
      refLine "refs/heads/" ref ≠ refLine "refs/tags/" ref' := by
    intro ref ref' href _ heq
    have hrest := (refLine_eq (by decide) href heq).2
    have hsixth := congrArg (fun text : List Char => text[5]?) hrest
    simp at hsixth
  obtain ⟨hbranches, htags⟩ := map_append_map_inj
    (fun href _ heq => refLine_inj (by decide) href heq)
    (fun href _ heq => refLine_inj (by decide) href heq) hkinds
    (fun _ href => RefOk.of_accepted (hok.branches_ok _ href))
    (fun _ href => RefOk.of_accepted (hok'.branches_ok _ href))
    (fun _ href => RefOk.of_accepted (hok.tags_ok _ href))
    (fun _ href => RefOk.of_accepted (hok'.tags_ok _ href)) hrefs
  exact ⟨hdefault, hbranches, htags⟩

theorem refsText_inj
    (h : refsText refs.defaultBranch refs.branches refs.tags =
      refsText refs'.defaultBranch refs'.branches refs'.tags) : refs = refs' := by
  obtain ⟨hdefault, hbranches, htags⟩ := refsText_eq refs.listingOk refs'.listingOk h
  cases refs
  cases refs'
  cases hdefault
  cases hbranches
  cases htags
  rfl

variable {hash : String → String}

/-- Listings of one hash are one listing. -/
theorem refsHash_inj (hinj : Function.Injective hash)
    (h : refs.refsHash hash = refs'.refsHash hash) : refs = refs' :=
  refsText_inj (String.ofList_inj.mp (hinj h))

/-- A file that hashes as the side tips do lists them. -/
theorem textLines_of_sideTipsHash (hinj : Function.Injective hash) {text : String}
    (h : hash text = refs.sideTipsHash hash) : textLines text = refs.sideTips := by
  rw [hinj h, textLines_sideTipsText]

theorem sideTips_eq_of_hash (hinj : Function.Injective hash)
    (h : refs.sideTipsHash hash = refs'.sideTipsHash hash) : refs.sideTips = refs'.sideTips := by
  rw [← textLines_sideTipsText, hinj h, textLines_sideTipsText]

end Injective

end Ripclone
