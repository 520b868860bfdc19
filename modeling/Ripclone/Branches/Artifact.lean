import Ripclone.Branches
import Ripclone.Library.Result
import Ripclone.Library.Table
import Ripclone.Library.Text
import Ripclone.Library.Wire
import Ripclone.Tags.Ids

/-!
# The branches artifact

A full clone gets the branches of a listing as one artifact, a compressed message of their names and
commits. The clone decodes it and checks every name and id, that no branch is there twice, and that the
base is the default branch's commit. The compression and the message's decoder are a `Codec`.
-/

namespace Ripclone

open Ripclone.Library

/-- One branch: its name under `refs/heads/` and its commit. -/
structure Branch where
  name : String
  commit : String
  deriving DecidableEq, Repr

structure BranchesArtifact where
  /-- Empty when upstream named none. -/
  defaultBranch : String
  /-- Empty when there is no default branch. -/
  base : String
  branches : List Branch
  deriving DecidableEq, Repr

inductive BranchesError where
  /-- "compress branches artifact" -/
  | compress
  /-- "decompress branches artifact" -/
  | decompress
  /-- "decode branches artifact" -/
  | decode
  /-- "branches artifact integrity error: invalid branch" -/
  | invalidBranch (error : String)
  /-- "branches artifact integrity error: branch …" -/
  | branch (name : String)
  /-- "branches artifact integrity error: a branch is listed twice" -/
  | listedTwice
  /-- "branches artifact integrity error: the default branch is not listed" -/
  | defaultNotListed
  /-- "branches artifact integrity error: the base is not the default branch's commit" -/
  | baseNotDefault
  deriving DecidableEq, Repr

/-! ## The stored message -/

def textField (tag : UInt8) (text : String) : Bytes :=
  Wire.repeated tag Wire.sized (Wire.present [] (Utf8.encode text))

def Branch.encode (branch : Branch) : Bytes := textField 0x0a branch.name ++ textField 0x12 branch.commit

def BranchesArtifact.encodeToVec (artifact : BranchesArtifact) : Bytes :=
  textField 0x0a artifact.defaultBranch ++ (textField 0x12 artifact.base ++
    Wire.repeated 0x1a (fun branch => Wire.sized (Branch.encode branch)) artifact.branches)

theorem textField_inj {tag : UInt8} {a b : String} {r s : Bytes} (hr : r.head? ≠ some tag)
    (hs : s.head? ≠ some tag) (h : textField tag a ++ r = textField tag b ++ s) : a = b ∧ r = s := by
  obtain ⟨htext, hrest⟩ :=
    Wire.repeated_inj (Wire.sized_delimited Function.injective_id) hr hs h
  exact ⟨Utf8.encode_injective (Wire.present_injective htext), hrest⟩

theorem Branch.encode_injective : Function.Injective Branch.encode := by
  intro a b h
  have hcommit : ∀ branch : Branch, (textField 0x12 branch.commit).head? ≠ some 0x0a := fun _ =>
    Wire.head?_repeated (by decide)
  obtain ⟨hname, h⟩ := textField_inj (hcommit a) (hcommit b) h
  have hnil : ([] : Bytes).head? ≠ some 0x12 := by simp
  have hlast := (textField_inj hnil hnil (congrArg (· ++ []) h)).1
  cases a
  cases b
  cases hname
  cases hlast
  rfl

theorem BranchesArtifact.encodeToVec_injective : Function.Injective BranchesArtifact.encodeToVec := by
  intro a b h
  have hbranches : ∀ artifact : BranchesArtifact,
      (Wire.repeated 0x1a (fun branch => Wire.sized (Branch.encode branch)) artifact.branches).head? ≠
        some 0x12 := fun _ => Wire.head?_repeated (by decide)
  have hbase : ∀ artifact : BranchesArtifact, (textField 0x12 artifact.base ++
      Wire.repeated 0x1a (fun branch => Wire.sized (Branch.encode branch)) artifact.branches).head? ≠
        some 0x0a := fun _ => Wire.head?_repeated_append (by decide) (Wire.head?_repeated (by decide))
  obtain ⟨hdefault, h⟩ := textField_inj (hbase a) (hbase b) h
  obtain ⟨hcommit, h⟩ := textField_inj (hbranches a) (hbranches b) h
  have hlast := Wire.repeated_inj_last (Wire.sized_delimited Branch.encode_injective) h
  cases a
  cases b
  cases hdefault
  cases hcommit
  cases hlast
  rfl

namespace BranchesArtifact

/-- How a message is compressed, and how both are undone. -/
structure Codec where
  compress (raw : Bytes) : Option Bytes
  decompress (bytes : Bytes) : Option Bytes
  decodeMessage (raw : Bytes) : Option BranchesArtifact

/-- What is written is read back. -/
structure Codec.Lossless (codec : Codec) : Prop where
  decompress {raw bytes : Bytes} : codec.compress raw = some bytes → codec.decompress bytes = some raw
  decodeMessage (artifact : BranchesArtifact) :
    codec.decodeMessage artifact.encodeToVec = some artifact

end BranchesArtifact

def getOrThrow {α ε : Type} (error : ε) : Option α → Except ε α
  | some a => .ok a
  | none => .error error

namespace MirrorRefs

def artifact (refs : MirrorRefs) : BranchesArtifact where
  defaultBranch := refs.defaultBranch.getD ""
  base := refs.base.getD ""
  branches := refs.branches.map fun b => ⟨b.1, b.2⟩

/-- The stored bytes of `build`. -/
def buildBytes (codec : BranchesArtifact.Codec) (refs : MirrorRefs) : Except BranchesError Bytes :=
  getOrThrow .compress (codec.compress refs.artifact.encodeToVec)

end MirrorRefs

/-! ## Decoding -/

/-- By name, then by commit. -/
def branchLe (a b : String × String) : Bool := decide (a.1 < b.1 ∨ a.1 = b.1 ∧ a.2 ≤ b.2)

def checkBranch (branch : Branch) : Except BranchesError (String × String) := do
  (validateCheckoutName branch.name).mapError .invalidBranch
  let _ ← getOrThrow (.branch branch.name) (Tags.parseId branch.commit)
  return (branch.name, branch.commit)

/-- A field that says nothing when it is empty. -/
def nonEmpty (text : String) : Option String := if text = "" then none else some text

/-- An artifact's branches, checked. -/
def checkArtifact (artifact : BranchesArtifact) : Except BranchesError Branches := do
  let branches ← artifact.branches.mapM checkBranch
  let branches := branches.mergeSort branchLe
  if ¬ branches.IsChain fun a b => a.1 ≠ b.1 then throw .listedTwice
  else
    let default := nonEmpty artifact.defaultBranch
    let base := nonEmpty artifact.base
    let commit := default.bind fun name => (branches.find? fun b => b.1 = name).map Prod.snd
    if default ≠ none ∧ commit = none then throw .defaultNotListed
    else if base ≠ commit then throw .baseNotDefault
    else return ⟨default, base, branches⟩

def decodeBranches (codec : BranchesArtifact.Codec) (bytes : Bytes) : Except BranchesError Branches := do
  let raw ← getOrThrow .decompress (codec.decompress bytes)
  let artifact ← getOrThrow .decode (codec.decodeMessage raw)
  checkArtifact artifact

/-! ## What is accepted -/

theorem getOrThrow_eq_ok {α ε : Type} {error : ε} {x : Option α} {a : α} :
    getOrThrow error x = .ok a ↔ x = some a := by
  cases x with
  | none => simp [getOrThrow]
  | some b => simp [getOrThrow]

/-- A branch that is accepted stands as it is. -/
theorem checkBranch_eq_ok {branch : Branch} {checked : String × String} :
    checkBranch branch = .ok checked ↔ validateCheckoutName branch.name = .ok () ∧
      (∃ id, Tags.parseId branch.commit = some id) ∧ checked = (branch.name, branch.commit) := by
  rw [checkBranch, bind_unit_eq_ok, mapError_eq_ok]
  refine and_congr_right fun _ => ?_
  rw [bind_eq_ok]
  constructor
  · rintro ⟨id, hid, hchecked⟩
    exact ⟨⟨id, getOrThrow_eq_ok.mp hid⟩, (pure_eq_ok.mp hchecked).symm⟩
  · rintro ⟨⟨id, hid⟩, rfl⟩
    exact ⟨id, getOrThrow_eq_ok.mpr hid, rfl⟩

theorem pairwise_branchLe (branches : List (String × String)) :
    (branches.mergeSort branchLe).Pairwise fun a b => branchLe a b = true := by
  apply List.pairwise_mergeSort
  · intro a b c hab hbc
    simp only [branchLe, decide_eq_true_eq] at *
    grind
  · intro a b
    simp only [branchLe, Bool.or_eq_true, decide_eq_true_eq]
    grind

/-- Sorted branches no two neighbours of which have one name are in the order of their names. -/
theorem names_lt {branches : List (String × String)}
    (hsorted : branches.Pairwise fun a b => branchLe a b = true)
    (hapart : branches.IsChain fun a b => a.1 ≠ b.1) : branches.Pairwise fun a b => a.1 < b.1 := by
  induction branches with
  | nil => exact .nil
  | cons first rest ih =>
      obtain ⟨hle, hrest⟩ := List.pairwise_cons.mp hsorted
      cases rest with
      | nil => exact List.pairwise_singleton _ _
      | cons next rest =>
          obtain ⟨hne, hapart⟩ := List.isChain_cons_cons.mp hapart
          have hlater := ih hrest hapart
          have hnext : first.1 < next.1 :=
            (of_decide_eq_true (hle next List.mem_cons_self)).resolve_right fun h => hne h.1
          refine List.pairwise_cons.mpr ⟨?_, hlater⟩
          intro b hb
          rcases List.mem_cons.mp hb with rfl | hb
          · exact hnext
          · exact String.lt_trans hnext ((List.pairwise_cons.mp hlater).1 b hb)

/-- With names in order, a name is found at the one branch that has it. -/
theorem find_branch {branches : List (String × String)}
    (hsorted : branches.Pairwise fun a b => a.1 < b.1) {name commit : String} :
    (branches.find? fun b => b.1 = name).map Prod.snd = some commit ↔ (name, commit) ∈ branches := by
  constructor
  · intro h
    obtain ⟨b, hfind, rfl⟩ := Option.map_eq_some_iff.mp h
    have hname : b.1 = name := by simpa using List.find?_some hfind
    rw [← hname]
    exact List.mem_of_find?_eq_some hfind
  · intro hmem
    have hapart : (branches.map Prod.fst).Nodup := by
      rw [List.Nodup, List.pairwise_map]
      refine hsorted.imp ?_
      intro a b h heq
      rw [heq] at h
      exact String.lt_irrefl _ h
    have hfind : (branches.find? fun b => b.1 = name) = some (name, commit) :=
      Table.lookup_of_mem hapart hmem
    rw [hfind]
    rfl

/-- What a clone relies on in the branches it decoded. -/
structure Branches.Ok (decoded : Branches) : Prop where
  name : ∀ b ∈ decoded.branches, validateCheckoutName b.1 = .ok ()
  id : ∀ b ∈ decoded.branches, ∃ id, Tags.parseId b.2 = some id
  sorted : decoded.branches.Pairwise fun a b => a.1 < b.1
  default_listed : ∀ name ∈ decoded.defaultBranch, ∃ commit, (name, commit) ∈ decoded.branches
  base_iff : ∀ commit, decoded.base = some commit ↔
    ∃ name, decoded.defaultBranch = some name ∧ (name, commit) ∈ decoded.branches

theorem checkArtifact_ok {artifact : BranchesArtifact} {decoded : Branches}
    (h : checkArtifact artifact = .ok decoded) : decoded.Ok := by
  obtain ⟨checked, hchecked, h⟩ := bind_eq_ok.mp h
  dsimp only at h
  split at h
  · cases h
  next hapart =>
  split at h
  · cases h
  next hlisted =>
  split at h
  · cases h
  next hbase =>
  obtain rfl := pure_eq_ok.mp h
  have hsorted := names_lt (pairwise_branchLe checked) (not_not.mp hapart)
  have hmember : ∀ b ∈ checked, validateCheckoutName b.1 = .ok () ∧
      ∃ id, Tags.parseId b.2 = some id := by
    refine (forall₂_map_eq (f := fun branch => branch.name) (g := Prod.fst) (mapM_eq_ok.mp hchecked)
      fun branch _ b hb => ?_).2
    obtain ⟨hname, hid, rfl⟩ := checkBranch_eq_ok.mp hb
    exact ⟨rfl, hname, hid⟩
  have hcommit : ∀ commit, ((nonEmpty artifact.defaultBranch).bind fun name =>
      ((checked.mergeSort branchLe).find? fun b => b.1 = name).map Prod.snd) = some commit ↔
        ∃ name, nonEmpty artifact.defaultBranch = some name ∧
          (name, commit) ∈ checked.mergeSort branchLe := by
    intro commit
    rw [Option.bind_eq_some_iff]
    exact exists_congr fun name => and_congr_right fun _ => find_branch hsorted
  refine ⟨fun b hb => (hmember b (List.mem_mergeSort.mp hb)).1,
    fun b hb => (hmember b (List.mem_mergeSort.mp hb)).2, hsorted, ?_, ?_⟩
  · intro name hname
    have hsome : ((nonEmpty artifact.defaultBranch).bind fun name =>
        ((checked.mergeSort branchLe).find? fun b => b.1 = name).map Prod.snd) ≠ none := by
      intro hnone
      apply hlisted
      refine ⟨?_, hnone⟩
      intro heq
      cases heq.symm.trans hname
    obtain ⟨commit, hsome⟩ := Option.ne_none_iff_exists'.mp hsome
    obtain ⟨name', hname', hmem⟩ := (hcommit commit).mp hsome
    obtain rfl := Option.some.inj (hname.symm.trans hname')
    exact ⟨commit, hmem⟩
  · intro commit
    rw [← hcommit, ← not_not.mp hbase]

theorem decodeBranches_ok {codec : BranchesArtifact.Codec} {bytes : Bytes} {decoded : Branches}
    (h : decodeBranches codec bytes = .ok decoded) : decoded.Ok := by
  obtain ⟨raw, -, h⟩ := bind_eq_ok.mp h
  obtain ⟨artifact, -, h⟩ := bind_eq_ok.mp h
  exact checkArtifact_ok h

/-! ## What a listing gives -/

theorem exists_hexDigit {c : Char} (h : lowercaseHex c = true) : ∃ n < 16, c = Pack.hexDigit n := by
  have hdigit : c.isDigit = (decide (c.val ≥ 48) && decide (c.val ≤ 57)) := rfl
  have hself : Char.ofNat c.toNat = c := Char.ofNat_toNat c
  rw [lowercaseHex, hdigit] at h
  simp only [Bool.or_eq_true, Bool.and_eq_true, decide_eq_true_eq, ge_iff_le, Char.le_def,
    UInt32.le_iff_toNat_le] at h
  rcases h with ⟨hlow, hhigh⟩ | ⟨hlow, hhigh⟩
  · change 48 ≤ c.toNat at hlow
    change c.toNat ≤ 57 at hhigh
    refine ⟨c.toNat - 48, by omega, ?_⟩
    rw [Pack.hexDigit, if_pos (by omega), Nat.add_sub_cancel' hlow, hself]
  · change 97 ≤ c.toNat at hlow
    change c.toNat ≤ 102 at hhigh
    refine ⟨c.toNat - 87, by omega, ?_⟩
    rw [Pack.hexDigit, if_neg (by omega), Nat.add_sub_cancel' (by omega), hself]

theorem hexPairs_isSome {digits : Bytes} (h : ∀ b ∈ digits, (Tags.nibble b).isSome) :
    (Tags.hexPairs digits).isSome := by
  induction digits using Tags.hexPairs.induct with
  | case1 high low rest ih =>
      obtain ⟨hhigh, hrest⟩ := List.forall_mem_cons.mp h
      obtain ⟨hlow, hrest⟩ := List.forall_mem_cons.mp hrest
      obtain ⟨a, ha⟩ := Option.isSome_iff_exists.mp hhigh
      obtain ⟨b, hb⟩ := Option.isSome_iff_exists.mp hlow
      obtain ⟨bytes, hbytes⟩ := Option.isSome_iff_exists.mp (ih hrest)
      rw [Tags.hexPairs, ha, hb, hbytes]
      rfl
  | case2 digits hshort =>
      rw [Tags.hexPairs.eq_2 digits hshort]
      rfl

/-- A SHA-1 id in hex is one the decoder reads. -/
theorem parseId_of_validate {id : String} (hlength : id.length = 40)
    (hvalid : validateObjectId id = true) : ∃ i, Tags.parseId id = some i := by
  have hhex := (validateObjectId_ok hvalid).2
  have hbytes : ∀ text : List Char, (∀ c ∈ text, lowercaseHex c = true) →
      (text.flatMap String.utf8EncodeChar).length = text.length ∧
        ∀ b ∈ text.flatMap String.utf8EncodeChar, (Tags.nibble b).isSome := by
    intro text
    induction text with
    | nil => simp
    | cons c text ih =>
        intro h
        obtain ⟨hc, htext⟩ := List.forall_mem_cons.mp h
        obtain ⟨n, hn, rfl⟩ := exists_hexDigit hc
        obtain ⟨hbyte, hnibble⟩ := Tags.nibble_digitByte n hn
        obtain ⟨hlength, hnibbles⟩ := ih htext
        rw [List.flatMap_cons, hbyte]
        refine ⟨by simp [hlength], ?_⟩
        intro b hb
        rcases List.mem_cons.mp hb with rfl | hb
        · rw [hnibble]
          rfl
        · exact hnibbles b hb
  obtain ⟨hsame, hnibbles⟩ := hbytes id.toList hhex
  have hsize : (Utf8.encode id).length = 40 := by
    rw [Utf8.encode, hsame, String.length_toList, hlength]
  obtain ⟨bytes, hpairs⟩ := Option.isSome_iff_exists.mp (hexPairs_isSome hnibbles)
  have hwidth : bytes.length = 20 := by
    rw [Tags.length_hexPairs hpairs, ← Utf8.encode, hsize]
  exact ⟨⟨bytes, hwidth⟩, Tags.parseId_eq_some.mpr ⟨hsize, hpairs⟩⟩

theorem nonEmpty_getD {name : Option String} (h : name ≠ some "") : nonEmpty (name.getD "") = name := by
  cases name with
  | none => rfl
  | some name =>
      have hne : name ≠ "" := fun heq => h (congrArg some heq)
      exact if_neg hne

theorem mapM_checkBranch {branches : List (String × String)}
    (hok : ∀ b ∈ branches, validateCheckoutName b.1 = .ok () ∧ validateObjectId b.2 = true)
    (hsha1 : ∀ b ∈ branches, b.2.length = 40) :
    (branches.map fun b => (⟨b.1, b.2⟩ : Branch)).mapM checkBranch = .ok branches := by
  rw [mapM_eq_ok, List.forall₂_map_left_iff, List.forall₂_same]
  intro b hb
  exact checkBranch_eq_ok.mpr ⟨(hok b hb).1, parseId_of_validate (hsha1 b hb) (hok b hb).2, rfl⟩

/-- The branches artifact of a listing is decoded to what it was built of. -/
theorem decodeBranches_buildBytes {codec : BranchesArtifact.Codec} (hcodec : codec.Lossless) {refs : MirrorRefs}
    (hsorted : refs.branches.Pairwise fun a b => a.1 < b.1)
    (hsha1 : ∀ b ∈ refs.branches, b.2.length = 40) {bytes : Bytes}
    (hbuild : refs.buildBytes codec = .ok bytes) : decodeBranches codec bytes = .ok refs.build := by
  have hraw := hcodec.decompress (getOrThrow_eq_ok.mp hbuild)
  have hordered : refs.branches.mergeSort branchLe = refs.branches :=
    List.mergeSort_of_pairwise (hsorted.imp fun h => decide_eq_true (.inl h))
  have hapart : refs.branches.IsChain fun a b => a.1 ≠ b.1 := by
    refine (hsorted.imp ?_).isChain
    intro a b h heq
    rw [heq] at h
    exact String.lt_irrefl _ h
  have hdefault : nonEmpty (refs.defaultBranch.getD "") = refs.defaultBranch := by
    apply nonEmpty_getD
    intro hempty
    exact (validateRefName_ok (refs.listingOk.default_ok "" hempty)).1 rfl
  have hbase : nonEmpty (refs.base.getD "") = refs.base := by
    apply nonEmpty_getD
    intro hempty
    obtain ⟨name, -, hfind⟩ := Option.bind_eq_some_iff.mp hempty
    obtain ⟨b, hfind, hcommit⟩ := Option.map_eq_some_iff.mp hfind
    have := hsha1 b (List.mem_of_find?_eq_some hfind)
    rw [hcommit] at this
    cases this
  have hlisted : ¬ (refs.defaultBranch ≠ none ∧ refs.base = none) := by
    rintro ⟨hsome, hnone⟩
    obtain ⟨name, hname⟩ := Option.ne_none_iff_exists'.mp hsome
    obtain ⟨b, hb, rfl⟩ := refs.default_listed name hname
    have hcommit := (find_branch hsorted).mpr (show (b.1, b.2) ∈ refs.branches from hb)
    rw [MirrorRefs.base, hname, Option.bind_some, hcommit] at hnone
    cases hnone
  rw [decodeBranches, hraw]
  show (getOrThrow .decode (codec.decodeMessage _) >>= checkArtifact) = _
  rw [hcodec.decodeMessage]
  show checkArtifact refs.artifact = _
  have hchecked : refs.artifact.branches.mapM checkBranch = .ok refs.branches :=
    mapM_checkBranch refs.branches_ok hsha1
  rw [checkArtifact, hchecked]
  show (if ¬ (refs.branches.mergeSort branchLe).IsChain _ then _ else _) = _
  rw [hordered, if_neg (not_not.mpr hapart)]
  show (if nonEmpty (refs.defaultBranch.getD "") ≠ none ∧
      (nonEmpty (refs.defaultBranch.getD "")).bind _ = none then _ else
    if nonEmpty (refs.base.getD "") ≠ (nonEmpty (refs.defaultBranch.getD "")).bind _ then _
    else pure (⟨nonEmpty (refs.defaultBranch.getD ""), nonEmpty (refs.base.getD ""), refs.branches⟩ :
      Branches)) = _
  rw [hdefault, hbase]
  show (if refs.defaultBranch ≠ none ∧ refs.base = none then _ else
    if refs.base ≠ refs.base then _ else _) = _
  rw [if_neg hlisted, if_neg (not_not.mpr rfl)]
  rfl

/-- Listings with the branches that a clone decodes are told apart by their text, and an artifact gives
back its listing; whatever is decoded is a listing's. -/
theorem branches_exact :
    (∀ (codec : BranchesArtifact.Codec) (refs : MirrorRefs) (bytes : Bytes), codec.Lossless →
      (refs.branches.Pairwise fun a b => a.1 < b.1) → (∀ b ∈ refs.branches, b.2.length = 40) →
      refs.buildBytes codec = .ok bytes →
        decodeBranches codec bytes = .ok ⟨refs.defaultBranch, refs.base, refs.branches⟩) ∧
    (∀ (codec : BranchesArtifact.Codec) (bytes : Bytes) (decoded : Branches),
      decodeBranches codec bytes = .ok decoded → decoded.Ok) ∧
    ∀ (default default' : Option String) (branches branches' tags tags' : List (String × String)),
      ListingOk default branches tags → ListingOk default' branches' tags' →
        (refsText default branches tags = refsText default' branches' tags' ↔
          default = default' ∧ branches = branches' ∧ tags = tags') := by
  refine ⟨?_, fun codec bytes decoded => decodeBranches_ok, ?_⟩
  · intro codec refs bytes hcodec hsorted hsha1 hbuild
    exact decodeBranches_buildBytes hcodec hsorted hsha1 hbuild
  · intro default default' branches branches' tags tags' hok hok'
    constructor
    · exact refsText_eq hok hok'
    · rintro ⟨rfl, rfl, rfl⟩
      rfl

/-! ## One listing -/

def devAndMain : List (String × String) :=
  [("dev", String.ofList (List.replicate 40 'a')), ("main", String.ofList (List.replicate 40 'b'))]

theorem devAndMain_ok : ∀ b ∈ devAndMain, validateCheckoutName b.1 = .ok () ∧
    validateObjectId b.2 = true := forall_mem_of_all (by decide)

theorem devAndMain_noTags : ∀ t ∈ ([] : List (String × String)), validateTagName t.1 = .ok () ∧
    validateObjectId t.2 = true := by simp

theorem main_listed : ∀ name ∈ some "main", ∃ b ∈ devAndMain, b.1 = name := by simp [devAndMain]

def devAndMainRefs : MirrorRefs where
  defaultBranch := some "main"
  branches := devAndMain
  tags := []
  branches_ok := devAndMain_ok
  tags_ok := devAndMain_noTags
  default_listed := main_listed

/-- A codec that compresses nothing. -/
noncomputable def plainCodec : BranchesArtifact.Codec where
  compress := some
  decompress := some
  decodeMessage := Function.partialInv BranchesArtifact.encodeToVec

theorem plainCodec_lossless : plainCodec.Lossless where
  decompress h := by rw [Option.some.inj h]; rfl
  decodeMessage := Function.partialInv_left BranchesArtifact.encodeToVec_injective

theorem devAndMain_read : decodeBranches plainCodec devAndMainRefs.artifact.encodeToVec =
    .ok ⟨some "main", some (String.ofList (List.replicate 40 'b')), devAndMain⟩ := by
  have hsorted : devAndMain.Pairwise fun a b => a.1 < b.1 := by decide
  have hsha1 : ∀ b ∈ devAndMain, b.2.length = 40 := forall_mem_of_all (by decide)
  have hread := branches_exact.1 plainCodec devAndMainRefs devAndMainRefs.artifact.encodeToVec
    plainCodec_lossless hsorted hsha1 rfl
  have hbase : devAndMainRefs.base = some (String.ofList (List.replicate 40 'b')) := by
    decide
  rw [hbase] at hread
  exact hread

end Ripclone
