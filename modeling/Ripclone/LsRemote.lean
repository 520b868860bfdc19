import Ripclone.Library.Lines
import Ripclone.Library.Text
import Ripclone.Library.Utf8
import Ripclone.Validation

/-!
# Reading upstream's refs

Upstream's refs are read from the lines `git ls-remote --symref` prints: `ref: <target>\t<name>` for
a symbolic ref, then `<id>\t<name>`, and `<id>\t<name>^{}` for the commit an annotated tag names.
Names are bytes, as git has them; the lines are read as text, with what is not UTF-8 replaced. The
reader is strict: a line it does not expect fails the listing whole, and of the symbolic refs it
expects `HEAD` alone, at a branch.

What `git ls-remote` prints for a set of refs is spelled out here too: each ref that a pattern matches
at the end of its path.
-/

namespace Ripclone

open Ripclone.Library

/-! ## Upstream -/

/-- A byte git allows in a ref's name. -/
def refByte (b : UInt8) : Bool :=
  decide (0x21 ≤ b) && b ≠ 0x7f && !(Utf8.encode "~^:?*[\\").contains b

/-- A ref of upstream that names an object. -/
structure UpstreamRef where
  /-- `HEAD`, or under `refs/`. -/
  name : List UInt8
  /-- The object it names; for a symbolic ref, the object its target does. -/
  id : String
  /-- What a symbolic ref names. -/
  symref : Option (List UInt8)
  /-- The object an annotated tag names. -/
  peeled : Option String
  name_ok : ∀ b ∈ name, refByte b = true
  id_ok : validateObjectId id = true
  symref_ok : ∀ target ∈ symref, ∀ b ∈ target, refByte b = true
  peeled_ok : ∀ id ∈ peeled, validateObjectId id = true

/-- Upstream's refs in the order git lists them. -/
structure Upstream where
  refs : List UpstreamRef
  named : ∀ ref ∈ refs, ref.name = Utf8.encode "HEAD" ∨ Utf8.encode "refs/" <+: ref.name
  ordered : refs.Pairwise fun ref ref' => ref.name < ref'.name

/-- One name of a listing with its object. -/
structure Entry where
  name : List UInt8
  id : String
  symref : Option (List UInt8)

/-- What the name of the object an annotated tag names ends in. -/
def peel : String := "^\x7b\x7d"

def UpstreamRef.entries (ref : UpstreamRef) : List Entry :=
  ⟨ref.name, ref.id, ref.symref⟩ ::
    (ref.peeled.map fun id => ⟨ref.name ++ Utf8.encode peel, id, none⟩).toList

def Upstream.entries (upstream : Upstream) : List Entry := upstream.refs.flatMap UpstreamRef.entries

def Entry.lines (entry : Entry) : List (List UInt8) :=
  (entry.symref.map fun target =>
      Utf8.encode "ref: " ++ target ++ Utf8.encode "\t" ++ entry.name).toList ++
    [Utf8.encode entry.id ++ Utf8.encode "\t" ++ entry.name]

/-- The lines of a listing, as they are printed. -/
def listing (entries : List Entry) : List UInt8 :=
  entries.flatMap fun entry => entry.lines.flatMap fun line => line ++ Utf8.encode "\n"

/-- Whether a pattern matches a whole text. A `*` stands for any bytes; the other wild characters
never reach git. -/
def glob : List UInt8 → List UInt8 → Bool
  | [], text => text.isEmpty
  | p :: pattern, text =>
    if p = 0x2a then text.tails.any (glob pattern)
    else
      match text with
      | [] => false
      | b :: rest => b = p && glob pattern rest

/-- Whether a pattern matches at the end of a ref's path. -/
def tailMatch (pattern : String) (name : List UInt8) : Bool :=
  glob (Utf8.encode ("*/" ++ pattern)) (Utf8.encode "/" ++ name)

/-- What `git ls-remote --symref` prints for the patterns. -/
def gitLsRemote (upstream : Upstream) (patterns : List String) : List UInt8 :=
  listing (upstream.entries.filter fun entry => patterns.any fun pattern =>
    tailMatch pattern entry.name)

/-! ## The reader -/

structure RemoteTip where
  commit : String
  /-- The full ref that matched. -/
  refName : String
  /-- The branch symbolic `HEAD` points at. -/
  defaultBranch : Option String
  deriving DecidableEq, Repr

/-- The refs `refName` can mean in preference order, which are also the patterns that are asked for.
None for a name that can match nothing. -/
def prepareLsRemote (refName : String) : Except String (List String) :=
  if refName = "HEAD" then return ["HEAD"]
  else
    match validateGitRev refName with
    | .error _ => throw ("invalid ref: " ++ refName)
    | .ok _ =>
      if refName.toList.any fun c => ['*', '?', '['].contains c then return []
      else if "refs/".toList.isPrefixOf refName.toList then return [refName]
      else
        -- a tag's own line names the tag object when it is annotated; the peeled line the commit
        return ["refs/heads/" ++ refName, "refs/tags/" ++ refName ++ peel, "refs/tags/" ++ refName]

/-- The name with every `^{}` at its end taken off; the characters come last first. -/
def dropPeels : List Char → List Char
  | '\x7d' :: '\x7b' :: '^' :: rest => dropPeels rest
  | text => text

def trimPeels (name : String) : String := String.ofList (dropPeels name.toList.reverse).reverse

/-- The branch a symbolic ref's target is, when it is one that can be asked for. -/
def acceptedBranch (branch : List Char) : Option String :=
  if !branch.isEmpty && validateGitRev (String.ofList branch) = .ok () then
    some (String.ofList branch)
  else none

/-- The branch `HEAD` names by this line. -/
def symbolicHead (line : List Char) : Option String :=
  (stripStart "ref: refs/heads/".toList line).bind fun symbolic =>
    ((stripEnd "\tHEAD".toList symbolic).or (stripEnd " HEAD".toList symbolic)).bind acceptedBranch

/-- What the lines so far say. -/
structure Advertised where
  defaultBranch : Option String
  /-- Names with their objects. -/
  refs : List (List Char × List Char)

def readLine (seen : Advertised) (line : List Char) : Except String Advertised :=
  match symbolicHead line with
  | some branch => return { seen with defaultBranch := some branch }
  | none =>
    if "ref: ".toList.isPrefixOf line then throw "git ls-remote returned malformed symbolic ref"
    else
      match splitOnce '\t' line with
      | none => throw "git ls-remote returned malformed advertisement"
      | some (sha, remoteRef) =>
        let sha := trim sha
        if validateObjectId (String.ofList sha) then
          return { seen with refs := seen.refs ++ [(trim remoteRef, sha)] }
        else throw "git ls-remote returned malformed object id"

/-- The first of `candidates` the advertisement lists, and symbolic `HEAD`'s branch when listed. -/
def parseLsRemoteOutput (stdout : List UInt8) (candidates : List String) :
    Except String (Option RemoteTip) := do
  let seen ← (lines (Utf8.lossy stdout).toList).foldlM readLine ⟨none, []⟩
  return candidates.findSome? fun candidate =>
    (seen.refs.find? fun ref => ref.1 = candidate.toList).map fun ref =>
      ⟨String.ofList ref.2, trimPeels candidate, seen.defaultBranch⟩

/-! ## What the reader makes of a listing -/

/-- No byte of a name ends it, in a line or in a field of one. -/
def Plain (bytes : List UInt8) : Prop := ∀ b ∈ bytes, 0x21 ≤ b

structure Entry.Ok (entry : Entry) : Prop where
  name : Plain entry.name
  id : validateObjectId entry.id = true
  symref : ∀ target ∈ entry.symref, Plain target

theorem refByte_plain {bytes : List UInt8} (h : ∀ b ∈ bytes, refByte b = true) : Plain bytes := by
  intro b hb
  have hbyte := h b hb
  simp only [refByte, Bool.and_eq_true, decide_eq_true_eq] at hbyte
  exact hbyte.1.1

theorem Plain.append {a b : List UInt8} (ha : Plain a) (hb : Plain b) : Plain (a ++ b) := by
  intro byte hmem
  rcases List.mem_append.mp hmem with hmem | hmem
  · exact ha byte hmem
  · exact hb byte hmem

theorem plain_peel : Plain (Utf8.encode peel) := forall_mem_of_all (by decide)

theorem UpstreamRef.entries_ok {ref : UpstreamRef} {entry : Entry} (h : entry ∈ ref.entries) :
    entry.Ok := by
  rcases List.mem_cons.mp h with rfl | hpeeled
  · exact ⟨refByte_plain ref.name_ok, ref.id_ok,
      fun target htarget => refByte_plain (ref.symref_ok target htarget)⟩
  · obtain ⟨id, hid, rfl⟩ := Option.map_eq_some_iff.mp (Option.mem_toList.mp hpeeled)
    exact ⟨(refByte_plain ref.name_ok).append plain_peel, ref.peeled_ok id hid, nofun⟩

theorem Upstream.entries_ok {upstream : Upstream} {entry : Entry} (h : entry ∈ upstream.entries) :
    entry.Ok := by
  obtain ⟨ref, _, hentry⟩ := List.mem_flatMap.mp h
  exact UpstreamRef.entries_ok hentry

/-- The text of a name holds no control character and no space. -/
theorem Plain.lossy {bytes : List UInt8} (h : Plain bytes) {c : Char} (hc : c.toNat < 0x21) :
    c ∉ (Utf8.lossy bytes).toList := by
  intro hmem
  have hbyte := h _ (Utf8.mem_of_mem_lossy (by omega) hmem)
  rw [UInt8.le_iff_toNat_le, UInt8.toNat_ofNat_of_lt' (by show c.toNat < 256; omega)] at hbyte
  simp only [UInt8.reduceToNat] at hbyte
  omega

theorem Plain.oneLine {bytes : List UInt8} (h : Plain bytes) : OneLine (Utf8.lossy bytes).toList :=
  ⟨h.lossy (by decide), h.lossy (by decide)⟩

theorem plain_encode {text : String} (h : ∀ c ∈ text.toList, 0x21 ≤ c.toNat) :
    Plain (Utf8.encode text) := by
  intro b hb
  by_contra hlow
  have hk : b.toNat < 0x21 := by
    rw [UInt8.le_iff_toNat_le, Nat.not_le] at hlow
    exact hlow
  rw [← UInt8.ofNat_toNat (x := b)] at hb
  have hc := h _ (Utf8.mem_of_mem_encode (by omega) hb)
  rw [Utf8.toNat_charOfNat (Or.inl (by omega))] at hc
  omega

def Entry.text (entry : Entry) : List Char := (Utf8.lossy entry.name).toList

/-- The branch a listing's line for this name says `HEAD` points at. -/
def Entry.headBranch (entry : Entry) : Option String :=
  if entry.text = "HEAD".toList then
    (entry.symref.bind fun target =>
      stripStart "refs/heads/".toList (Utf8.lossy target).toList).bind acceptedBranch
  else none

/-- A symbolic ref the reader does not expect: any but `HEAD` at a branch that can be asked for. -/
def Entry.refused (entry : Entry) : Bool := entry.symref.isSome && entry.headBranch.isNone

/-- The lines of one name, as text. -/
def Entry.texts (entry : Entry) : List (List Char) :=
  (entry.symref.map fun target =>
      "ref: ".toList ++ ((Utf8.lossy target).toList ++ '\t' :: entry.text)).toList ++
    [entry.id.toList ++ '\t' :: entry.text]

theorem Entry.lossy_lines (entry : Entry) :
    entry.lines.map (fun line => (Utf8.lossy line).toList) = entry.texts := by
  have htab : Utf8.encode "\t" = [UInt8.ofNat 9] := rfl
  have hline : (Utf8.lossy (Utf8.encode entry.id ++ Utf8.encode "\t" ++ entry.name)).toList =
      entry.id.toList ++ '\t' :: entry.text := by
    rw [htab, List.append_assoc, List.singleton_append, Utf8.lossy_append_ascii (by decide),
      Utf8.lossy_encode]
    rfl
  cases hsymref : entry.symref with
  | none =>
      simp only [Entry.lines, Entry.texts, hsymref, Option.map_none, Option.toList_none,
        List.nil_append, List.map_cons, List.map_nil, hline]
  | some target =>
      have hsymbolic : (Utf8.lossy (Utf8.encode "ref: " ++ target ++ Utf8.encode "\t" ++
          entry.name)).toList =
          "ref: ".toList ++ ((Utf8.lossy target).toList ++ '\t' :: entry.text) := by
        rw [List.append_assoc, List.append_assoc, Utf8.lossy_encode_append, htab,
          List.singleton_append, String.toList_append, Utf8.lossy_append_ascii (by decide)]
        rfl
      simp only [Entry.lines, Entry.texts, hsymref, Option.map_some, Option.toList_some,
        List.singleton_append, List.map_cons, List.map_nil, hline, hsymbolic]

/-- The text of a listing. -/
theorem lossy_listing (entries : List Entry) :
    (Utf8.lossy (listing entries)).toList = unlines (entries.flatMap Entry.texts) := by
  have hnewline : Utf8.encode "\n" = [UInt8.ofNat 10] := rfl
  have hlines : ∀ lines : List (List UInt8),
      (Utf8.lossy (lines.flatMap fun line => line ++ Utf8.encode "\n")).toList =
        unlines (lines.map fun line => (Utf8.lossy line).toList) := by
    intro lines
    induction lines with
    | nil => rfl
    | cons line lines ih =>
        rw [List.flatMap_cons, hnewline, List.append_assoc, List.singleton_append,
          Utf8.lossy_append_ascii (by decide), ← hnewline, ih]
        show _ = ((Utf8.lossy line).toList ++ ['\n']) ++ unlines _
        rw [List.append_assoc]
        rfl
  rw [show entries.flatMap Entry.texts =
      (entries.flatMap Entry.lines).map fun line => (Utf8.lossy line).toList by
    rw [List.map_flatMap]
    exact List.flatMap_congr fun entry _ => (entry.lossy_lines).symm, ← hlines, listing,
    List.flatMap_assoc]

/-- No symbolic ref's line starts with an id. -/
theorem not_ref_of_id {id : String} (hid : validateObjectId id = true) {part : List Char}
    (hpart : part.head? = some 'r') (rest : List Char) : ¬ part <+: id.toList ++ rest := by
  obtain ⟨hne, hhex⟩ := validateObjectId_ok hid
  intro hstart
  cases part with
  | nil => cases hpart
  | cons first part =>
      cases hpart
      cases htext : id.toList with
      | nil => exact hne htext
      | cons c text =>
          rw [htext] at hstart hhex
          have hc : 'r' = c := (List.cons_prefix_cons.mp hstart).1
          exact absurd (hhex c List.mem_cons_self) (by rw [← hc]; decide)

theorem lowercaseHex_range {c : Char} (hc : lowercaseHex c = true) :
    (48 ≤ c.toNat ∧ c.toNat ≤ 57) ∨ (97 ≤ c.toNat ∧ c.toNat ≤ 102) := by
  simp only [lowercaseHex, Char.isDigit, Bool.or_eq_true, Bool.and_eq_true, decide_eq_true_eq,
    Char.le_def, UInt32.le_iff_toNat_le, ge_iff_le] at hc
  exact hc

theorem not_whiteSpace_of_lowercaseHex {c : Char} (hc : lowercaseHex c = true) :
    isWhiteSpace c = false := by
  have hrange := lowercaseHex_range hc
  simp only [isWhiteSpace, Bool.or_eq_false_iff, Bool.and_eq_false_iff, decide_eq_false_iff_not]
  omega

theorem trim_id {id : String} (hid : validateObjectId id = true) : trim id.toList = id.toList := by
  obtain ⟨_, hhex⟩ := validateObjectId_ok hid
  exact trim_of_ends
    (fun c hc => not_whiteSpace_of_lowercaseHex (hhex c (List.mem_of_mem_head? hc)))
    (fun c hc => not_whiteSpace_of_lowercaseHex (hhex c (List.mem_of_mem_getLast? hc)))

/-- An id's line adds the name. -/
theorem readLine_id {entry : Entry} (hok : entry.Ok) (seen : Advertised) :
    readLine seen (entry.id.toList ++ '\t' :: entry.text) =
      .ok { seen with refs := seen.refs ++ [(trim entry.text, entry.id.toList)] } := by
  have hsymbolic : symbolicHead (entry.id.toList ++ '\t' :: entry.text) = none := by
    rw [symbolicHead, stripStart_eq_none.mpr (not_ref_of_id hok.id rfl _)]
    rfl
  have href : "ref: ".toList.isPrefixOf (entry.id.toList ++ '\t' :: entry.text) = false := by
    rw [Bool.eq_false_iff]
    intro hstart
    exact not_ref_of_id hok.id rfl _ (List.isPrefixOf_iff_prefix.mp hstart)
  have htab : '\t' ∉ entry.id.toList := by
    intro hmem
    exact absurd ((validateObjectId_ok hok.id).2 _ hmem) (by decide)
  rw [readLine, hsymbolic]
  simp only [href, splitOnce_append htab, trim_id hok.id, String.ofList_toList, hok.id]
  rfl

/-- Where a line's tab stands tells the name, which holds none. -/
theorem stripEnd_head {branch name : List Char} (hbranch : '\t' ∉ branch ∧ ' ' ∉ branch)
    (hname : '\t' ∉ name ∧ ' ' ∉ name) :
    (stripEnd "\tHEAD".toList (branch ++ '\t' :: name)).or
        (stripEnd " HEAD".toList (branch ++ '\t' :: name)) =
      if name = "HEAD".toList then some branch else none := by
  have hspace : stripEnd " HEAD".toList (branch ++ '\t' :: name) = none := by
    rw [Option.eq_none_iff_forall_ne_some]
    intro rest hrest
    have heq := (List.append_cons_inj_of_notMem hbranch.2 hname.2).mp (stripEnd_eq_some.mp hrest)
    exact absurd heq.2.1 (by decide)
  rw [hspace, Option.or_none]
  split
  · next hhead =>
      rw [hhead]
      exact stripEnd_eq_some.mpr rfl
  · next hhead =>
      rw [Option.eq_none_iff_forall_ne_some]
      intro rest hrest
      exact hhead ((List.append_cons_inj_of_notMem hbranch.1 hname.1).mp
        (stripEnd_eq_some.mp hrest)).2.2

theorem symbolicHead_eq {entry : Entry} (hok : entry.Ok) {target : List UInt8}
    (htarget : entry.symref = some target) :
    symbolicHead ("ref: ".toList ++ ((Utf8.lossy target).toList ++ '\t' :: entry.text)) =
      entry.headBranch := by
  have hplain : ∀ c ∈ (Utf8.lossy target).toList, c ≠ '\t' ∧ c ≠ ' ' := by
    intro c hc
    constructor
    · rintro rfl
      exact (hok.symref target htarget).lossy (by decide) hc
    · rintro rfl
      exact (hok.symref target htarget).lossy (by decide) hc
  have hname : '\t' ∉ entry.text ∧ ' ' ∉ entry.text :=
    ⟨hok.name.lossy (by decide), hok.name.lossy (by decide)⟩
  rw [symbolicHead, Entry.headBranch, htarget, Option.bind_some]
  cases hstart : stripStart "refs/heads/".toList (Utf8.lossy target).toList with
  | none =>
      have hnone : stripStart "ref: refs/heads/".toList
          ("ref: ".toList ++ ((Utf8.lossy target).toList ++ '\t' :: entry.text)) = none := by
        rw [stripStart_eq_none] at hstart ⊢
        intro hline
        have hline : "refs/heads/".toList <+: (Utf8.lossy target).toList ++ '\t' :: entry.text :=
          (List.prefix_append_right_inj "ref: ".toList).mp hline
        exact hstart (starts_before (by decide) hline)
      rw [hnone]
      simp
  | some branch =>
      have htext := stripStart_eq_some.mp hstart
      have hbranch : ∀ c ∈ branch, c ≠ '\t' ∧ c ≠ ' ' := fun c hc =>
        hplain c (htext ▸ List.mem_append_right _ hc)
      rw [htext, show "ref: ".toList ++ ("refs/heads/".toList ++ branch ++ '\t' :: entry.text) =
        "ref: refs/heads/".toList ++ (branch ++ '\t' :: entry.text) by simp, stripStart_append,
        Option.bind_some, stripEnd_head ⟨fun h => (hbranch _ h).1 rfl, fun h => (hbranch _ h).2 rfl⟩
          hname]
      split
      · rfl
      · rfl

/-- A symbolic ref's line names `HEAD`'s branch or fails. -/
theorem readLine_symref {entry : Entry} (hok : entry.Ok) {target : List UInt8}
    (htarget : entry.symref = some target) (seen : Advertised) :
    readLine seen ("ref: ".toList ++ ((Utf8.lossy target).toList ++ '\t' :: entry.text)) =
      match entry.headBranch with
      | some branch => .ok { seen with defaultBranch := some branch }
      | none => .error "git ls-remote returned malformed symbolic ref" := by
  rw [readLine, symbolicHead_eq hok htarget]
  cases entry.headBranch with
  | some branch => rfl
  | none =>
      have href : "ref: ".toList.isPrefixOf
          ("ref: ".toList ++ ((Utf8.lossy target).toList ++ '\t' :: entry.text)) = true :=
        List.isPrefixOf_iff_prefix.mpr (List.prefix_append _ _)
      dsimp only
      rw [if_pos href]
      rfl

def malformedSymref : String := "git ls-remote returned malformed symbolic ref"

theorem headBranch_of_direct {entry : Entry} (h : entry.symref = none) : entry.headBranch = none := by
  rw [Entry.headBranch, h]
  split
  · rfl
  · rfl

/-- The lines of one name. -/
theorem foldlM_texts {entry : Entry} (hok : entry.Ok) (seen : Advertised) :
    entry.texts.foldlM readLine seen =
      if entry.refused then .error malformedSymref
      else .ok ⟨entry.headBranch.or seen.defaultBranch,
        seen.refs ++ [(trim entry.text, entry.id.toList)]⟩ := by
  cases hsymref : entry.symref with
  | none =>
      simp only [Entry.texts, Entry.refused, hsymref, Option.map_none, Option.toList_none,
        List.nil_append, List.foldlM_cons, List.foldlM_nil, readLine_id hok, bind_pure,
        headBranch_of_direct hsymref]
      rfl
  | some target =>
      simp only [Entry.texts, Entry.refused, hsymref, Option.map_some, Option.toList_some,
        List.singleton_append, List.foldlM_cons, List.foldlM_nil, readLine_symref hok hsymref]
      cases entry.headBranch with
      | none => rfl
      | some branch =>
          show (readLine _ _ >>= pure) = _
          rw [readLine_id hok]
          rfl

/-- `HEAD`'s branch by a listing. -/
def defaultOf (entries : List Entry) : Option String := (entries.filterMap Entry.headBranch).getLast?

theorem defaultOf_cons (entry : Entry) (entries : List Entry) (seen : Option String) :
    (defaultOf (entry :: entries)).or seen = (defaultOf entries).or (entry.headBranch.or seen) := by
  unfold defaultOf
  rw [List.filterMap_cons]
  cases entry.headBranch with
  | none => rfl
  | some branch =>
      cases hrest : entries.filterMap Entry.headBranch with
      | nil => rfl
      | cons first rest =>
          rw [List.getLast?_cons_cons, Option.some_or]
          cases hlast : (first :: rest).getLast? with
          | none => simp at hlast
          | some last => rfl

theorem foldlM_flatMap_texts {entries : List Entry} (hok : ∀ entry ∈ entries, entry.Ok)
    (seen : Advertised) :
    (entries.flatMap Entry.texts).foldlM readLine seen =
      if entries.any Entry.refused then .error malformedSymref
      else .ok ⟨(defaultOf entries).or seen.defaultBranch,
        seen.refs ++ entries.map fun entry => (trim entry.text, entry.id.toList)⟩ := by
  induction entries generalizing seen with
  | nil => simp [defaultOf, pure, Except.pure]
  | cons entry entries ih =>
      have hrest := ih fun entry hentry => hok entry (List.mem_cons_of_mem _ hentry)
      rw [List.flatMap_cons, List.foldlM_append, foldlM_texts (hok entry List.mem_cons_self)]
      cases hrefused : entry.refused with
      | true =>
          simp only [List.any_cons, hrefused, Bool.true_or, if_true]
          rfl
      | false =>
          simp only [List.any_cons, hrefused, Bool.false_or, Bool.false_eq_true, if_false]
          show List.foldlM readLine _ _ = _
          rw [hrest, defaultOf_cons, List.map_cons, List.append_assoc, List.singleton_append]

theorem oneLine_texts {entry : Entry} (hok : entry.Ok) {text : List Char}
    (h : text ∈ entry.texts) : OneLine text := by
  have hid := oneLine_of_lowercaseHex (validateObjectId_ok hok.id).2
  have hname : OneLine entry.text := hok.name.oneLine
  rcases List.mem_append.mp h with hsymref | hid'
  · obtain ⟨target, htarget, rfl⟩ := Option.map_eq_some_iff.mp (Option.mem_toList.mp hsymref)
    have hsymbolic : OneLine (Utf8.lossy target).toList := (hok.symref target htarget).oneLine
    constructor
    · simp [hsymbolic.1, hname.1]
    · simp [hsymbolic.2, hname.2]
  · rw [List.mem_singleton.mp hid']
    constructor
    · simp [hid.1, hname.1]
    · simp [hid.2, hname.2]

/-- The first of the candidates that a name of the listing reads as. -/
def tipOf (entries : List Entry) (candidates : List String) : Option RemoteTip :=
  candidates.findSome? fun candidate =>
    (entries.find? fun entry => trim entry.text = candidate.toList).map fun entry =>
      ⟨entry.id, trimPeels candidate, defaultOf entries⟩

/-- A listing is read whole unless a symbolic ref in it is refused. It is the same for any bytes of
the same text. -/
theorem parseLsRemoteOutput_of_text {stdout : List UInt8} {entries : List Entry}
    (hok : ∀ entry ∈ entries, entry.Ok)
    (htext : (Utf8.lossy stdout).toList = unlines (entries.flatMap Entry.texts))
    (candidates : List String) :
    parseLsRemoteOutput stdout candidates =
      if entries.any Entry.refused then .error malformedSymref
      else .ok (tipOf entries candidates) := by
  have hlines : ∀ line ∈ entries.flatMap Entry.texts, OneLine line := by
    intro line hline
    obtain ⟨entry, hentry, hmem⟩ := List.mem_flatMap.mp hline
    exact oneLine_texts (hok entry hentry) hmem
  rw [parseLsRemoteOutput, htext, lines_unlines hlines, foldlM_flatMap_texts hok]
  split
  · rfl
  · show Except.ok _ = Except.ok _
    congr 1
    apply congrArg (fun f => candidates.findSome? f)
    funext candidate
    rw [List.nil_append, List.find?_map, Option.map_map, Option.or_none]
    congr 1
    funext entry
    simp

theorem parseLsRemoteOutput_listing {entries : List Entry} (hok : ∀ entry ∈ entries, entry.Ok)
    (candidates : List String) :
    parseLsRemoteOutput (listing entries) candidates =
      if entries.any Entry.refused then .error malformedSymref
      else .ok (tipOf entries candidates) :=
  parseLsRemoteOutput_of_text hok (lossy_listing entries) candidates

end Ripclone
