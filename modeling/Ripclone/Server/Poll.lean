import Ripclone.LsRefs.Agreement
import Ripclone.Server.SidePacks

/-!
# Polling upstream's refs

The poller lists upstream's `HEAD`, branches and tags with one `git ls-remote`, and starts a refresh
when they hash otherwise than the ones the last refresh published. The two hashes come from two
readers: upstream's from the text of the listing, the published one from the mirror's own refs. While
upstream stays as the refresh found it, the poller should be quiet.

The readers part in two places. The listing's tip is read by the strict reader, which fails a listing
with any symbolic ref but `HEAD` at a branch. And a listing with one byte that is not UTF-8 is read as
empty, where the mirror's reader replaces what is not UTF-8 name by name.
-/

namespace Ripclone.Server

open Ripclone.Library Ripclone.LsRefs

/-! ## Reading the listing -/

structure UpstreamRefs where
  /-- The branch `HEAD` points at, when it is one of `branches`. -/
  defaultBranch : Option String
  branches : List (String × String)
  tags : List (String × String)
  deriving DecidableEq, Repr

def sortRefs (refs : List (String × String)) : List (String × String) :=
  refs.mergeSort fun a b => decide (a.1 < b.1 ∨ a.1 = b.1 ∧ a.2 ≤ b.2)

/-- What the lines so far say. -/
structure ScannedRefs where
  head : Option String
  branches : List (String × String)
  tags : List (String × String)

def scanLine (seen : ScannedRefs) (line : List Char) : ScannedRefs :=
  match splitOnce '\t' line with
  | none => seen
  | some (id, name) =>
    match stripStart "ref: ".toList id with
    | some target =>
      if name = "HEAD".toList then
        { seen with head := (stripStart "refs/heads/".toList target).map String.ofList }
      else seen
    | none =>
      if validateObjectId (String.ofList id) then
        match stripStart "refs/heads/".toList name with
        | some branch =>
          if validateCheckoutName (String.ofList branch) = .ok () then
            { seen with branches := seen.branches ++ [(String.ofList branch, String.ofList id)] }
          else seen
        | none =>
          match stripStart "refs/tags/".toList name with
          | some tag =>
            if ¬ peel.toList <:+ tag ∧ validateTagName (String.ofList tag) = .ok () then
              { seen with tags := seen.tags ++ [(String.ofList tag, String.ofList id)] }
            else seen
          | none => seen
      else seen

/-- The branches and tags in a listing. One that is not UTF-8 has none. -/
def parseUpstreamRefs (stdout : List UInt8) : UpstreamRefs :=
  let seen := (lines ((Utf8.strict stdout).getD "").toList).foldl scanLine ⟨none, [], []⟩
  let branches := sortRefs seen.branches
  { defaultBranch := seen.head.filter fun head => branches.any fun b => b.1 = head
    branches
    tags := sortRefs seen.tags }

def upstreamPatterns : List String := ["HEAD", "refs/heads/*", "refs/tags/*"]

/-- Upstream's `HEAD` tip and its branches and tags, from one `ls-remote`. -/
def lsRemoteRefs (runLsRemote : List String → Except String (List UInt8)) :
    Except String (Option RemoteTip × UpstreamRefs) := do
  let stdout ← runLsRemote upstreamPatterns
  let tip ← parseLsRemoteOutput stdout ["HEAD"]
  return (tip, parseUpstreamRefs stdout)

/-- Whether the poller should refresh. A listing that names no default branch leaves the mirror's
`HEAD` where it was, so it compares with the last refresh's default branch. -/
def changed (hash : String → String) (stored : Option RepoRefs) (upstream : UpstreamRefs) : Bool :=
  match stored.bind RepoRefs.branches with
  | none => true
  | some branches =>
    let kept := branches.defaultBranch.filter fun kept =>
      upstream.branches.any fun b => b.1 = kept
    let default := upstream.defaultBranch.or kept
    decide (branches.refsHash ≠
      hash (String.ofList (refsText default upstream.branches upstream.tags)))

/-! ## The mirror after a refresh -/

/-- The refs under `kind`, as a fetch writes them: each names the object upstream's does. -/
def fetchedRefs (kind : String) (upstream : Upstream) : List GitRef :=
  upstream.refs.filterMap fun ref =>
    if (Utf8.encode kind).isPrefixOf ref.name then
      some ⟨ref.name.drop (Utf8.encode kind).length, some ref.id, by
        intro id hid
        cases hid
        exact ref.id_ok⟩
    else none

/-- The mirror's refs after a refresh whose listing of `HEAD` gave `tip`. `HEAD` moves to the default
branch it names, and stays at `prior` when it names none a clone could write. -/
def refreshedRefs (upstream : Upstream) (tip : Option RemoteTip) (prior : Option (List UInt8)) :
    MirrorRefs :=
  let defaultBranch := (tip.bind RemoteTip.defaultBranch).filter fun branch =>
    validateCheckoutName branch = .ok ()
  MirrorRefs.read ((defaultBranch.map Utf8.encode).or prior) (fetchedRefs "refs/heads/" upstream)
    (fetchedRefs "refs/tags/" upstream)

/-! ## What the listing says -/

/-- The ref under `kind` a name of the listing is, when its name is accepted. -/
def listedOf (kind : String) (accepts : String → Except String Unit) (entry : Entry) :
    Option (String × String) :=
  (stripStart kind.toList entry.text).bind fun name =>
    if accepts (String.ofList name) = .ok () then some (String.ofList name, entry.id) else none

def branchOf (entry : Entry) : Option (String × String) :=
  listedOf "refs/heads/" validateCheckoutName entry

def tagOf (entry : Entry) : Option (String × String) :=
  (stripStart "refs/tags/".toList entry.text).bind fun tag =>
    if ¬ peel.toList <:+ tag ∧ validateTagName (String.ofList tag) = .ok () then
      some (String.ofList tag, entry.id)
    else none

theorem scanLine_id {entry : Entry} (hok : entry.Ok) (seen : ScannedRefs) :
    scanLine seen (entry.id.toList ++ '\t' :: entry.text) =
      ⟨seen.head, seen.branches ++ (branchOf entry).toList, seen.tags ++ (tagOf entry).toList⟩ := by
  have htab : '\t' ∉ entry.id.toList := by
    intro hmem
    exact absurd ((validateObjectId_ok hok.id).2 _ hmem) (by decide)
  have href : stripStart "ref: ".toList entry.id.toList = none := by
    have hstart := not_ref_of_id hok.id (show "ref: ".toList.head? = some 'r' from rfl) []
    rw [List.append_nil] at hstart
    exact stripStart_eq_none.mpr hstart
  -- a branch's name is no tag's
  have hkinds : ∀ branch, stripStart "refs/heads/".toList entry.text = some branch →
      stripStart "refs/tags/".toList entry.text = none := by
    intro branch hbranch
    rw [stripStart_eq_none, stripStart_eq_some.mp hbranch]
    intro hstart
    have hsixth := List.IsPrefix.getElem hstart (show 5 < "refs/tags/".toList.length by decide)
    simp at hsixth
  rw [scanLine, splitOnce_append htab]
  simp only [href, String.ofList_toList, hok.id, if_true]
  cases hbranch : stripStart "refs/heads/".toList entry.text with
  | some branch =>
      simp only [branchOf, listedOf, tagOf, hbranch, hkinds branch hbranch, Option.bind_some, Option.bind_none,
        Option.toList_none, List.append_nil]
      split
      · rfl
      · rw [Option.toList_none, List.append_nil]
  | none =>
      simp only [branchOf, listedOf, tagOf, hbranch, Option.bind_none, Option.toList_none, List.append_nil]
      cases htag : stripStart "refs/tags/".toList entry.text with
      | none => rw [Option.bind_none, Option.toList_none, List.append_nil]
      | some tag =>
          rw [Option.bind_some]
          dsimp only
          split
          · rfl
          · rw [Option.toList_none, List.append_nil]

/-- The line of a symbolic ref that is not refused. -/
theorem scanLine_symref {entry : Entry} (hok : entry.Ok) {target : List UInt8}
    (htarget : entry.symref = some target) (hrefused : entry.refused = false) (seen : ScannedRefs) :
    scanLine seen ("ref: ".toList ++ ((Utf8.lossy target).toList ++ '\t' :: entry.text)) =
      { seen with head := entry.headBranch } := by
  have htab : '\t' ∉ "ref: ".toList ++ (Utf8.lossy target).toList := by
    intro hmem
    rcases List.mem_append.mp hmem with hmem | hmem
    · exact absurd hmem (by decide)
    · exact (hok.symref target htarget).lossy (by decide) hmem
  obtain ⟨branch, hbranch⟩ : ∃ branch, entry.headBranch = some branch := by
    cases hbranch : entry.headBranch with
    | none => simp [Entry.refused, htarget, hbranch] at hrefused
    | some branch => exact ⟨branch, rfl⟩
  have hhead := hbranch
  rw [Entry.headBranch] at hhead
  split at hhead
  · next htext =>
      rw [htarget, Option.bind_some] at hhead
      obtain ⟨name, hname, haccepted⟩ := Option.bind_eq_some_iff.mp hhead
      have hsame : String.ofList name = branch := by
        rw [acceptedBranch] at haccepted
        split at haccepted
        · exact Option.some.inj haccepted
        · cases haccepted
      rw [← List.append_assoc, scanLine, splitOnce_append htab]
      simp only [stripStart_append, htext, if_true, hname, Option.map_some, hsame, hbranch]
  · cases hhead

/-- The lines of one name that is not refused. -/
theorem foldl_texts {entry : Entry} (hok : entry.Ok) (hrefused : entry.refused = false)
    (seen : ScannedRefs) :
    entry.texts.foldl scanLine seen =
      ⟨entry.headBranch.or seen.head, seen.branches ++ (branchOf entry).toList,
        seen.tags ++ (tagOf entry).toList⟩ := by
  cases hsymref : entry.symref with
  | none =>
      simp only [Entry.texts, hsymref, Option.map_none, Option.toList_none, List.nil_append,
        List.foldl_cons, List.foldl_nil, scanLine_id hok, headBranch_of_direct hsymref,
        Option.none_or]
  | some target =>
      have hbranch : entry.headBranch.isSome = true := by
        cases hbranch : entry.headBranch with
        | none => simp [Entry.refused, hsymref, hbranch] at hrefused
        | some branch => rfl
      obtain ⟨branch, hbranch⟩ := Option.isSome_iff_exists.mp hbranch
      simp only [Entry.texts, hsymref, Option.map_some, Option.toList_some, List.singleton_append,
        List.foldl_cons, List.foldl_nil, scanLine_symref hok hsymref hrefused, scanLine_id hok,
        hbranch, Option.some_or]

theorem foldl_flatMap_texts {entries : List Entry} (hok : ∀ entry ∈ entries, entry.Ok)
    (hrefused : ∀ entry ∈ entries, entry.refused = false) (seen : ScannedRefs) :
    (entries.flatMap Entry.texts).foldl scanLine seen =
      ⟨(defaultOf entries).or seen.head, seen.branches ++ entries.filterMap branchOf,
        seen.tags ++ entries.filterMap tagOf⟩ := by
  induction entries generalizing seen with
  | nil => simp [defaultOf]
  | cons entry entries ih =>
      rw [List.flatMap_cons, List.foldl_append,
        foldl_texts (hok entry List.mem_cons_self) (hrefused entry List.mem_cons_self),
        ih (fun entry hentry => hok entry (List.mem_cons_of_mem _ hentry))
          (fun entry hentry => hrefused entry (List.mem_cons_of_mem _ hentry)), defaultOf_cons]
      congr 1
      · rw [List.append_assoc, List.filterMap_cons]
        cases branchOf entry <;> rfl
      · rw [List.append_assoc, List.filterMap_cons]
        cases tagOf entry <;> rfl

/-! ## Listings in UTF-8 -/

/-- The name is UTF-8, and so is what it names if it is symbolic. -/
def Entry.InUtf8 (entry : Entry) : Prop :=
  Utf8.encode (Utf8.lossy entry.name) = entry.name ∧
    ∀ target ∈ entry.symref, Utf8.encode (Utf8.lossy target) = target

section InUtf8

/-- A line of a listing is in UTF-8 when the names in it are. -/
theorem encode_lossy_line {entry : Entry} :
    (∀ line ∈ entry.lines, Utf8.encode (Utf8.lossy line) = line) ↔ Entry.InUtf8 entry := by
  have htab : Utf8.encode "\t" = [UInt8.ofNat 9] := rfl
  have hid : Utf8.encode (Utf8.lossy (Utf8.encode entry.id ++ Utf8.encode "\t" ++ entry.name)) =
      Utf8.encode entry.id ++ Utf8.encode "\t" ++ Utf8.encode (Utf8.lossy entry.name) := by
    rw [htab, List.append_assoc, List.singleton_append, Utf8.encode_lossy_ascii (by decide),
      Utf8.lossy_encode, List.append_assoc, List.singleton_append]
  have hsymref : ∀ target, Utf8.encode (Utf8.lossy (Utf8.encode "ref: " ++ target ++
      Utf8.encode "\t" ++ entry.name)) = Utf8.encode "ref: " ++ Utf8.encode (Utf8.lossy target) ++
        Utf8.encode "\t" ++ Utf8.encode (Utf8.lossy entry.name) := by
    intro target
    rw [htab, List.append_assoc, List.singleton_append, Utf8.encode_lossy_ascii (by decide),
      Utf8.lossy_encode_append, Utf8.encode_append, List.append_assoc, List.append_assoc,
      List.append_assoc, List.singleton_append]
  constructor
  · intro hlines
    have hname : Utf8.encode (Utf8.lossy entry.name) = entry.name := by
      have hline := hlines _ (List.mem_append_right _ List.mem_cons_self)
      rw [hid] at hline
      exact List.append_cancel_left hline
    refine ⟨hname, fun target htarget => ?_⟩
    have hline := hlines (Utf8.encode "ref: " ++ target ++ Utf8.encode "\t" ++ entry.name)
      (List.mem_append_left _ (by rw [Option.mem_def.mp htarget]; exact List.mem_cons_self))
    rw [hsymref, hname, List.append_assoc, List.append_assoc, List.append_assoc] at hline
    have hrest := List.append_cancel_left hline
    exact List.append_cancel_right hrest
  · rintro ⟨hname, htargets⟩ line hline
    rcases List.mem_append.mp hline with hsym | hline
    · obtain ⟨target, htarget, rfl⟩ := Option.map_eq_some_iff.mp (Option.mem_toList.mp hsym)
      rw [hsymref, hname, htargets target htarget]
    · rw [List.mem_singleton.mp hline, hid, hname]

/-- Lines are in UTF-8 when each of them is. -/
theorem encode_lossy_lines {lines : List (List UInt8)} (h : ∀ line ∈ lines, UInt8.ofNat 10 ∉ line) :
    Utf8.encode (Utf8.lossy (lines.flatMap fun line => line ++ Utf8.encode "\n")) =
        (lines.flatMap fun line => line ++ Utf8.encode "\n") ↔
      ∀ line ∈ lines, Utf8.encode (Utf8.lossy line) = line := by
  have hnewline : Utf8.encode "\n" = [UInt8.ofNat 10] := rfl
  rw [hnewline]
  induction lines with
  | nil => simp [Utf8.encode, Utf8.lossy, Utf8.decode]
  | cons line lines ih =>
      have hrest := ih fun line hline => h line (List.mem_cons_of_mem _ hline)
      have hline : UInt8.ofNat 10 ∉ Utf8.encode (Utf8.lossy line) := by
        intro hmem
        have hchar : '\n' ∈ (Utf8.lossy line).toList := Utf8.mem_of_mem_encode (by decide) hmem
        exact h line List.mem_cons_self (Utf8.mem_of_mem_lossy (by decide) hchar)
      rw [List.flatMap_cons, List.append_assoc, List.singleton_append,
        Utf8.encode_lossy_ascii (by decide), List.forall_mem_cons]
      constructor
      · intro heq
        obtain ⟨hfirst, hmore⟩ := append_separator_inj hline (h line List.mem_cons_self) heq
        exact ⟨hfirst, hrest.mp hmore⟩
      · rintro ⟨hfirst, hmore⟩
        rw [hfirst, hrest.mpr hmore]

theorem not_newline_of_lines {entry : Entry} (hok : entry.Ok) {line : List UInt8}
    (h : line ∈ entry.lines) : UInt8.ofNat 10 ∉ line := by
  intro hmem
  have hplain : ∀ {bytes : List UInt8}, Plain bytes → UInt8.ofNat 10 ∉ bytes :=
    fun hbytes hmem => absurd (hbytes _ hmem) (by decide)
  rcases List.mem_append.mp h with hsymref | hid
  · obtain ⟨target, htarget, rfl⟩ := Option.map_eq_some_iff.mp (Option.mem_toList.mp hsymref)
    rcases List.mem_append.mp hmem with hmem | hmem
    · rcases List.mem_append.mp hmem with hmem | hmem
      · rcases List.mem_append.mp hmem with hmem | hmem
        · exact absurd hmem (by decide)
        · exact hplain (hok.symref target htarget) hmem
      · exact absurd hmem (by decide)
    · exact hplain hok.name hmem
  · rw [List.mem_singleton.mp hid] at hmem
    rcases List.mem_append.mp hmem with hmem | hmem
    · rcases List.mem_append.mp hmem with hmem | hmem
      · exact hplain (plain_id hok.id) hmem
      · exact absurd hmem (by decide)
    · exact hplain hok.name hmem

theorem strict_listing {entries : List Entry} (hok : ∀ entry ∈ entries, entry.Ok) :
    (Utf8.strict (listing entries)).isSome ↔ ∀ entry ∈ entries, Entry.InUtf8 entry := by
  have hstrict : (Utf8.strict (listing entries)).isSome ↔
      Utf8.encode (Utf8.lossy (listing entries)) = listing entries := by
    rw [Utf8.strict]
    split <;> simp_all
  rw [hstrict, show listing entries = (entries.flatMap Entry.lines).flatMap
    (fun line => line ++ Utf8.encode "\n") by rw [listing, List.flatMap_assoc], encode_lossy_lines]
  · constructor
    · intro hlines entry hentry
      exact encode_lossy_line.mp fun line hline =>
        hlines line (List.mem_flatMap.mpr ⟨entry, hentry, hline⟩)
    · intro hentries line hline
      obtain ⟨entry, hentry, hmem⟩ := List.mem_flatMap.mp hline
      exact encode_lossy_line.mpr (hentries entry hentry) line hmem
  · intro line hline
    obtain ⟨entry, hentry, hmem⟩ := List.mem_flatMap.mp hline
    exact not_newline_of_lines (hok entry hentry) hmem

end InUtf8

/-! ## Both readers -/

section Readers

variable {upstream : Upstream}

theorem caret_of_ref {what name : String} (h : validateRefName what name = .ok ()) :
    '^' ∉ name.toList := by
  intro hmem
  exact absurd ((validateRefName_ok h).2 _ hmem) (by decide)

/-- A tag's name ends in no `^{}` when it is accepted. -/
theorem tagOf_eq (entry : Entry) : tagOf entry = listedOf "refs/tags/" validateTagName entry := by
  unfold tagOf listedOf
  congr 1
  funext tag
  by_cases haccepts : validateTagName (String.ofList tag) = .ok ()
  · have hpeel : ¬ peel.toList <:+ tag := by
      intro hend
      have hcaret := caret_of_ref haccepts
      rw [String.toList_ofList] at hcaret
      exact hcaret (hend.subset List.mem_cons_self)
    rw [if_pos ⟨hpeel, haccepts⟩, if_pos haccepts]
  · rw [if_neg fun h => haccepts h.2, if_neg haccepts]

theorem glob_append {literal : List UInt8} (h : (0x2a : UInt8) ∉ literal)
    (pattern text : List UInt8) (hglob : glob pattern text = true) :
    glob (literal ++ pattern) (literal ++ text) = true := by
  induction literal with
  | nil => exact hglob
  | cons b literal ih =>
      have hb : b ≠ 0x2a := by
        rintro rfl
        exact h List.mem_cons_self
      exact (glob_cons hb _ _).mpr ⟨_, rfl, ih fun hmem => h (List.mem_cons_of_mem _ hmem)⟩

/-- A pattern that ends in `*` matches every name that starts with what is before it. -/
theorem tailMatch_star {kind : String} (hkind : '*' ∉ kind.toList) (rest : List UInt8) :
    tailMatch (kind ++ "*") (Utf8.encode kind ++ rest) = true := by
  have hliteral : (0x2a : UInt8) ∉ Utf8.encode "/" ++ Utf8.encode kind := by
    intro hmem
    rw [← Utf8.encode_append] at hmem
    have hchar : '*' ∈ ("/" ++ kind).toList := Utf8.mem_of_mem_encode (by decide) hmem
    rw [String.toList_append] at hchar
    rcases List.mem_append.mp hchar with hslash | hname
    · exact absurd hslash (by decide)
    · exact hkind hname
  have hany : glob [0x2a] rest = true := by
    rw [glob.eq_def]
    dsimp only
    rw [if_pos rfl, List.any_eq_true]
    exact ⟨[], (List.mem_tails _ _).mpr (List.nil_suffix), rfl⟩
  have hpattern : Utf8.encode ("*/" ++ (kind ++ "*")) =
      0x2a :: ((Utf8.encode "/" ++ Utf8.encode kind) ++ [0x2a]) := by
    rw [Utf8.encode_append, Utf8.encode_append]
    rfl
  rw [tailMatch, hpattern, glob.eq_def]
  dsimp only
  rw [if_pos rfl, List.any_eq_true]
  refine ⟨_, (List.mem_tails _ _).mpr (List.suffix_refl _), ?_⟩
  rw [← List.append_assoc]
  exact glob_append hliteral _ _ hany

/-- A name's text starts with plain characters when its bytes do. -/
theorem stripStart_lossy {kind : String} (hkind : ∀ c ∈ kind.toList, c.toNat < 0x80)
    (bytes : List UInt8) :
    stripStart kind.toList (Utf8.lossy bytes).toList =
      if (Utf8.encode kind).isPrefixOf bytes then
        some (Utf8.lossy (bytes.drop (Utf8.encode kind).length)).toList
      else none := by
  split
  · next hstart =>
      obtain ⟨rest, rfl⟩ := List.isPrefixOf_iff_prefix.mp hstart
      rw [Utf8.lossy_encode_append, String.toList_append, stripStart_append, List.drop_left]
  · next hstart =>
      rw [stripStart_eq_none]
      rintro ⟨rest, hrest⟩
      obtain ⟨after, hbytes, _⟩ := Utf8.lossy_eq_append hkind hrest.symm
      rw [String.ofList_toList] at hbytes
      exact hstart (List.isPrefixOf_iff_prefix.mpr (hbytes ▸ List.prefix_append _ _))

/-- The name of a tag's object is no ref's. -/
theorem listedOf_peeled {kind : String} {accepts : String → Except String Unit}
    (hkind : '^' ∉ kind.toList) (hcaret : ∀ name, accepts name = .ok () → '^' ∉ name.toList)
    {bytes : List UInt8} {id : String} :
    listedOf kind accepts ⟨bytes ++ Utf8.encode peel, id, none⟩ = none := by
  rw [listedOf, Option.bind_eq_none_iff]
  intro name hname
  rw [if_neg]
  intro haccepts
  have hno := hcaret _ haccepts
  rw [String.toList_ofList] at hno
  have htext := stripStart_eq_some.mp hname
  rw [show Entry.text ⟨bytes ++ Utf8.encode peel, id, none⟩ =
    (Utf8.lossy bytes).toList ++ peel.toList from lossy_peel bytes] at htext
  have hmem : '^' ∈ kind.toList ++ name := by
    rw [← htext]
    exact List.mem_append_right _ List.mem_cons_self
  rcases List.mem_append.mp hmem with hmem | hmem
  · exact hkind hmem
  · exact hno hmem

/-- The mirror lists the refs of a kind as the listing does. -/
theorem listRefs_fetched {kind : String} {accepts : String → Except String Unit}
    {patterns : List String} (hkind : ∀ c ∈ kind.toList, c.toNat < 0x80)
    (hstar : '*' ∉ kind.toList) (hpeel : '^' ∉ kind.toList)
    (hcaret : ∀ name, accepts name = .ok () → '^' ∉ name.toList) (hpattern : kind ++ "*" ∈ patterns) :
    listRefs accepts (fetchedRefs kind upstream) =
      sortRefs ((printedEntries upstream patterns).filterMap (listedOf kind accepts)) := by
  have hprinted : (printedEntries upstream patterns).filterMap (listedOf kind accepts) =
      upstream.entries.filterMap (listedOf kind accepts) := by
    rw [printedEntries, List.filterMap_filter]
    apply List.filterMap_congr
    intro entry hentry
    split
    · rfl
    · next hno =>
        rw [listedOf, Entry.text, stripStart_lossy hkind]
        split
        · next hstart =>
            obtain ⟨rest, hrest⟩ := List.isPrefixOf_iff_prefix.mp hstart
            exfalso
            apply hno
            rw [List.any_eq_true]
            exact ⟨_, hpattern, hrest ▸ tailMatch_star hstar rest⟩
        · rfl
  have hentries : upstream.entries.filterMap (listedOf kind accepts) =
      upstream.refs.filterMap fun ref => listedOf kind accepts ⟨ref.name, ref.id, ref.symref⟩ := by
    rw [Upstream.entries]
    induction upstream.refs with
    | nil => rfl
    | cons ref refs ih =>
        rw [List.flatMap_cons, List.filterMap_append, ih, UpstreamRef.entries, List.filterMap_cons,
          List.filterMap_cons]
        cases ref.peeled with
        | none => cases listedOf kind accepts ⟨ref.name, ref.id, ref.symref⟩ <;> rfl
        | some id =>
            simp only [Option.map_some, Option.toList_some, List.filterMap_cons,
              listedOf_peeled hpeel hcaret, List.filterMap_nil]
            cases listedOf kind accepts ⟨ref.name, ref.id, ref.symref⟩ <;> rfl
  rw [hprinted, hentries, listRefs, sortRefs]
  congr 1
  rw [fetchedRefs, List.filterMap_filterMap]
  apply List.filterMap_congr
  intro ref _
  rw [listedOf, Entry.text, stripStart_lossy hkind]
  split
  · simp only [Option.bind_some, String.ofList_toList, Option.map_some]
  · rfl

theorem listRefs_branches :
    (listRefs validateCheckoutName (fetchedRefs "refs/heads/" upstream)) =
      sortRefs ((printedEntries upstream upstreamPatterns).filterMap branchOf) :=
  listRefs_fetched (forall_mem_of_all (by decide)) (by decide) (by decide)
    (fun _ h => caret_of_ref h) (by decide)

theorem listRefs_tags :
    (listRefs validateTagName (fetchedRefs "refs/tags/" upstream)) =
      sortRefs ((printedEntries upstream upstreamPatterns).filterMap tagOf) := by
  rw [show tagOf = listedOf "refs/tags/" validateTagName from funext tagOf_eq]
  exact listRefs_fetched (forall_mem_of_all (by decide)) (by decide) (by decide)
    (fun _ h => caret_of_ref h) (by decide)

/-- The ref's name is one of the kind that is accepted. -/
def Accepted (kind : String) (accepts : String → Except String Unit) (ref : UpstreamRef) : Prop :=
  ∃ rest, ref.name = Utf8.encode kind ++ rest ∧ accepts (Utf8.lossy rest) = .ok ()

theorem listRefs_fetched_eq_nil {kind : String} {accepts : String → Except String Unit} :
    listRefs accepts (fetchedRefs kind upstream) = [] ↔
      ∀ ref ∈ upstream.refs, ¬ Accepted kind accepts ref := by
  rw [listRefs, ← List.length_eq_zero_iff, List.length_mergeSort, List.length_eq_zero_iff,
    List.filterMap_eq_nil_iff]
  constructor
  · rintro h ref href ⟨rest, hname, haccepts⟩
    have hmem : (⟨rest, some ref.id, by intro id hid; cases hid; exact ref.id_ok⟩ : GitRef) ∈
        fetchedRefs kind upstream := by
      rw [fetchedRefs, List.mem_filterMap]
      refine ⟨ref, href, ?_⟩
      have hstart : (Utf8.encode kind).isPrefixOf ref.name = true := by
        rw [hname]
        exact List.isPrefixOf_iff_prefix.mpr (List.prefix_append _ _)
      rw [if_pos hstart]
      simp [hname]
    have hnone := h _ hmem
    simp [haccepts] at hnone
  · intro h gitRef hmem
    rw [fetchedRefs, List.mem_filterMap] at hmem
    obtain ⟨ref, href, hgit⟩ := hmem
    split at hgit
    · next hstart =>
        obtain ⟨rest, hrest⟩ := List.isPrefixOf_iff_prefix.mp hstart
        cases hgit
        have hrefuses : accepts (Utf8.lossy (ref.name.drop (Utf8.encode kind).length)) ≠ .ok () := by
          intro haccepts
          rw [← hrest, List.drop_left] at haccepts
          exact h ref href ⟨rest, hrest.symm, haccepts⟩
        simp [hrefuses]
    · cases hgit

/-- The branch `HEAD` names, by a listing that holds `HEAD` if upstream has one. -/
theorem bind_tipOf {entries : List Entry} :
    (tipOf entries ["HEAD"]).bind RemoteTip.defaultBranch = defaultOf entries := by
  have hhead : ∀ entry ∈ entries, entry.headBranch ≠ none → trim entry.text = "HEAD".toList := by
    intro entry hentry hbranch
    rw [Entry.headBranch] at hbranch
    split at hbranch
    · next htext => rw [htext]; decide
    · exact absurd rfl hbranch
  rw [tipOf, List.findSome?_cons, List.findSome?_nil]
  cases hfind : entries.find? fun entry => trim entry.text = "HEAD".toList with
  | some entry => rfl
  | none =>
      have hnone : entries.filterMap Entry.headBranch = [] := by
        rw [List.filterMap_eq_nil_iff]
        intro entry hentry
        by_contra hbranch
        exact List.find?_eq_none.mp hfind entry hentry (by simpa using hhead entry hentry hbranch)
      rw [defaultOf, hnone]
      rfl

/-- The listing of `HEAD` and the poller's name one default branch. -/
theorem defaultOf_head :
    defaultOf (printedEntries upstream ["HEAD"]) =
      defaultOf (printedEntries upstream upstreamPatterns) := by
  rw [defaultOf_filter, defaultOf_filter (printedEntries upstream upstreamPatterns)]
  congr 1
  rw [printedEntries, printedEntries, List.filter_filter, List.filter_filter]
  apply List.filter_congr
  intro entry hentry
  by_cases htext : entry.text = "HEAD".toList
  · obtain ⟨ref, href, hmem⟩ := List.mem_flatMap.mp hentry
    have hname := (name_of_text_head href hmem htext).2
    have hmatch := tailMatch_self (show '*' ∉ "HEAD".toList by decide)
    simp [upstreamPatterns, hname, hmatch]
  · simp only [htext, decide_false, Bool.false_and]

variable {post : List UInt8 → Option (List UInt8)} {useLsRefs : Bool} {tip : Option RemoteTip}

/-- A refresh reads the default branch the poller's listing names. -/
theorem refreshed_default (hserves : Serves upstream post)
    (htip : lsRemoteTipWith post (fun patterns => .ok (gitLsRemote upstream patterns)) "HEAD"
      useLsRefs = .ok tip) :
    tip.bind RemoteTip.defaultBranch = defaultOf (printedEntries upstream upstreamPatterns) := by
  have hprepare : prepareLsRemote "HEAD" = .ok ["HEAD"] := rfl
  have hgit : ∀ {result : Option RemoteTip}, parseLsRemoteOutput (gitLsRemote upstream ["HEAD"])
      ["HEAD"] = .ok result →
      result.bind RemoteTip.defaultBranch = defaultOf (printedEntries upstream upstreamPatterns) := by
    intro result hresult
    rw [parse_printed] at hresult
    split at hresult
    · cases hresult
    · rw [← Except.ok.inj hresult, bind_tipOf, defaultOf_head]
  cases useLsRefs with
  | false =>
      rw [lsRemoteTipWith_git hprepare (by simp) rfl] at htip
      exact hgit htip
  | true =>
      cases hlines : lsRefs post ["HEAD"] with
      | none =>
          rw [lsRemoteTipWith_unanswered hprepare hlines,
            lsRemoteTipWith_git hprepare (by simp) rfl] at htip
          exact hgit htip
      | some lines =>
          rw [lsRemoteTipWith_answered hprepare (by simp) hlines,
            (parse_asked hserves .head hlines).1] at htip
          split at htip
          · cases htip
          · rw [← Except.ok.inj htip, bind_tipOf, defaultOf_eq .head, defaultOf_head]

/-- The default branch the poller compares with is the mirror's. -/
theorem default_eq {branches : List (String × String)} (named : Option String)
    (prior : Option (List UInt8))
    (hbranches : ∀ b ∈ branches, validateCheckoutName b.1 = .ok ()) :
    let listed := fun name : String => branches.any fun b => b.1 = name
    let head := ((named.filter fun branch => validateCheckoutName branch = .ok ()).map
      Utf8.encode).or prior
    (named.filter listed).or (((head.map Utf8.lossy).filter listed).filter listed) =
      (head.map Utf8.lossy).filter listed := by
  intro listed head
  rw [Option.filter_filter]
  simp only [Bool.and_self]
  cases named with
  | none => rfl
  | some name =>
      by_cases hlisted : listed name = true
      · obtain ⟨b, hb, hname⟩ := List.any_eq_true.mp hlisted
        have hok : validateCheckoutName name = .ok () := by
          rw [← of_decide_eq_true hname]
          exact hbranches b hb
        have hhead : head.map Utf8.lossy = some name := by simp [head, hok]
        rw [hhead]
        simp [Option.filter, hlisted]
      · simp [Option.filter, hlisted]

/-- A listing in UTF-8 without a symbolic ref that is refused says what the mirror does. -/
theorem parseUpstreamRefs_listing
    (hutf8 : ∀ entry ∈ printedEntries upstream upstreamPatterns, Entry.InUtf8 entry)
    (hrefused : ¬ PrintsRefused upstream upstreamPatterns) :
    parseUpstreamRefs (gitLsRemote upstream upstreamPatterns) =
      { defaultBranch := (defaultOf (printedEntries upstream upstreamPatterns)).filter fun head =>
          (listRefs validateCheckoutName (fetchedRefs "refs/heads/" upstream)).any fun b =>
            b.1 = head
        branches := listRefs validateCheckoutName (fetchedRefs "refs/heads/" upstream)
        tags := listRefs validateTagName (fetchedRefs "refs/tags/" upstream) } := by
  have hok : ∀ entry ∈ printedEntries upstream upstreamPatterns, entry.Ok :=
    fun _ hentry => Upstream.entries_ok (mem_printedEntries.mp hentry).1
  have hlines : ∀ line ∈ (printedEntries upstream upstreamPatterns).flatMap Entry.texts,
      OneLine line := by
    intro line hline
    obtain ⟨entry, hentry, hmem⟩ := List.mem_flatMap.mp hline
    exact oneLine_texts (hok entry hentry) hmem
  have hnone : ∀ entry ∈ printedEntries upstream upstreamPatterns, entry.refused = false := by
    intro entry hentry
    rw [Bool.eq_false_iff]
    intro hno
    exact hrefused (printed_any_refused.mp (List.any_eq_true.mpr ⟨entry, hentry, hno⟩))
  obtain ⟨text, htext⟩ := Option.isSome_iff_exists.mp ((strict_listing hok).mpr hutf8)
  have hlossy : text.toList = unlines ((printedEntries upstream upstreamPatterns).flatMap
      Entry.texts) := by
    rw [← lossy_listing, ← Utf8.strict_eq_some.mp htext, Utf8.lossy_encode]
  have hscan : (lines ((Utf8.strict (gitLsRemote upstream upstreamPatterns)).getD "").toList).foldl
      scanLine ⟨none, [], []⟩ =
      ⟨defaultOf (printedEntries upstream upstreamPatterns),
        (printedEntries upstream upstreamPatterns).filterMap branchOf,
        (printedEntries upstream upstreamPatterns).filterMap tagOf⟩ := by
    rw [show gitLsRemote upstream upstreamPatterns =
      listing (printedEntries upstream upstreamPatterns) from rfl, htext, Option.getD_some, hlossy,
      lines_unlines hlines, foldl_flatMap_texts hok hnone]
    simp
  rw [parseUpstreamRefs, hscan, listRefs_branches, listRefs_tags]

/-- A listing that is not UTF-8 is read as empty. -/
theorem parseUpstreamRefs_not_utf8
    (h : ¬ ∀ entry ∈ printedEntries upstream upstreamPatterns, Entry.InUtf8 entry) :
    parseUpstreamRefs (gitLsRemote upstream upstreamPatterns) = ⟨none, [], []⟩ := by
  have hok : ∀ entry ∈ printedEntries upstream upstreamPatterns, entry.Ok :=
    fun _ hentry => Upstream.entries_ok (mem_printedEntries.mp hentry).1
  have hnone : Utf8.strict (gitLsRemote upstream upstreamPatterns) = none := by
    rw [← Option.not_isSome_iff_eq_none]
    exact fun hsome => h ((strict_listing hok).mp hsome)
  rw [parseUpstreamRefs, hnone]
  simp [lines, sortRefs]

end Readers

/-! ## Published rows -/

section Rows

variable {objects : String → Set String} {child : String → String → Prop} {hash : String → String}

/-- The branches name a listing by its hash, and its default branch. -/
def NamesListing (hash : String → String) (branches : RepoBranches) (refs : MirrorRefs) : Prop :=
  branches.refsHash = refs.refsHash hash ∧ branches.defaultBranch = refs.defaultBranch

def RefsState.AllNamed (hash : String → String) (s : RefsState) : Prop :=
  (∀ row ∈ s.stored, ∀ b ∈ row.branches.toList ++ row.ready.toList, ∃ refs, NamesListing hash b refs) ∧
    ∀ b ∈ s.built, ∃ refs, NamesListing hash b refs

theorem builtBranches_names {calls : RefsCalls} {stored : RepoRefs} {file file' : Option String}
    {refs : MirrorRefs} {branches : RepoBranches} (hinj : Function.Injective hash)
    (hstored : ∀ b ∈ stored.branches, ∃ refs', NamesListing hash b refs')
    (h : builtBranches hash calls stored file refs = .ok (branches, file')) :
    NamesListing hash branches refs := by
  simp only [builtBranches] at h
  split at h
  · next previous hprevious =>
      obtain ⟨rfl, _⟩ := Prod.mk.inj (pure_eq_ok.mp h)
      obtain ⟨hmem, hhash⟩ := Option.filter_eq_some_iff.mp hprevious
      obtain ⟨refs', hnames⟩ := hstored _ hmem
      have hsame : refs' = refs := refsHash_inj hinj (hnames.1.symm.trans (of_decide_eq_true hhash))
      rw [← hsame]
      exact hnames
  · obtain ⟨tags, _, h⟩ := bind_eq_ok.mp h
    obtain ⟨artifact, _, h⟩ := bind_eq_ok.mp h
    obtain ⟨forward, _, h⟩ := bind_eq_ok.mp h
    obtain ⟨layers, _, h⟩ := bind_eq_ok.mp h
    obtain ⟨rfl, _⟩ := Prod.mk.inj (pure_eq_ok.mp h)
    exact ⟨rfl, rfl⟩

theorem RefsState.AllNamed.stored {s : RefsState} (hnamed : s.AllNamed hash) :
    ∀ b ∈ (s.stored.getD RepoRefs.default).branches, ∃ refs, NamesListing hash b refs := by
  intro b hb
  cases hstored : s.stored with
  | none =>
      rw [hstored] at hb
      cases hb
  | some row =>
      rw [hstored] at hb
      exact hnamed.1 row hstored b (List.mem_append_left _ (Option.mem_toList.mpr hb))

theorem RefsStep.allNamed {s s' : RefsState} {e : RefsEvent} (hinj : Function.Injective hash)
    (hnamed : s.AllNamed hash) (h : RefsStep objects child hash s e s') : s'.AllNamed hash := by
  cases h with
  | @build calls refs branches file _ h =>
      refine ⟨hnamed.1, fun b hb => ?_⟩
      rcases List.mem_cons.mp hb with rfl | hb
      · exact ⟨refs, builtBranches_names hinj hnamed.stored h⟩
      · exact hnamed.2 b hb
  | publish _ hbuilt h =>
      refine ⟨fun row hrow b hb => ?_, hnamed.2⟩
      cases hrow
      rcases mem_publishedRow h hb with hb | ⟨old, hold, hb⟩
      · exact hnamed.2 b (hbuilt b hb)
      · exact hnamed.1 old hold b hb
  | purge =>
      refine ⟨?_, hnamed.2⟩
      intro row hrow
      cases hrow
  | file => exact hnamed

/-- Every row a run of refreshes leaves names a listing. -/
theorem run_allNamed (hinj : Function.Injective hash) {es : List RefsEvent} {s : RefsState}
    (hrun : Run (RefsStep objects child hash) RefsState.init es s) : s.AllNamed hash := by
  have hinit : RefsState.init.AllNamed hash := by
    constructor
    · intro row hrow
      cases hrow
    · intro b hb
      cases hb
  exact hrun.invariant hinit (fun _ hnamed hstep => hstep.allNamed hinj hnamed) (fun _ _ => trivial)

/-- A publish that was given branches leaves them in the row. -/
theorem publishedRow_branches {calls : RefsCalls} {stored : Option RepoRefs} {refs : MirrorRefs}
    {branches : RepoBranches} {row : RepoRefs}
    (h : publishedRow hash calls stored refs (some branches) = .ok row) :
    row.branches = some branches := by
  obtain ⟨tagged, _, h⟩ := bind_eq_ok.mp h
  split at h
  · next hsame =>
      obtain rfl := pure_eq_ok.mp h
      simpa using hsame
  · obtain ⟨ready, _, h⟩ := bind_eq_ok.mp h
    obtain rfl := pure_eq_ok.mp h
    rfl

/-! ## A quiet poller -/

/-- What upstream has to be for the poller to stay quiet: every symbolic ref its listing holds is
`HEAD` at a branch that can be asked for, and the listing is UTF-8, unless no branch and no tag has a
name that is accepted. -/
structure Quiet (upstream : Upstream) : Prop where
  symbolic : ¬ PrintsRefused upstream upstreamPatterns
  names : (∀ entry ∈ printedEntries upstream upstreamPatterns, Entry.InUtf8 entry) ∨
    ∀ ref ∈ upstream.refs, ¬ Accepted "refs/heads/" validateCheckoutName ref ∧
      ¬ Accepted "refs/tags/" validateTagName ref

def noRefs : MirrorRefs where
  defaultBranch := none
  branches := []
  tags := []
  branches_ok := fun _ hb => absurd hb List.not_mem_nil
  tags_ok := noTags_ok
  default_listed := nofun

theorem refreshedRefs_eq_noRefs {upstream : Upstream} {tip : Option RemoteTip}
    {prior : Option (List UInt8)} :
    refreshedRefs upstream tip prior = noRefs ↔
      ∀ ref ∈ upstream.refs, ¬ Accepted "refs/heads/" validateCheckoutName ref ∧
        ¬ Accepted "refs/tags/" validateTagName ref := by
  constructor
  · intro h ref href
    exact ⟨listRefs_fetched_eq_nil.mp (congrArg MirrorRefs.branches h) ref href,
      listRefs_fetched_eq_nil.mp (congrArg MirrorRefs.tags h) ref href⟩
  · intro h
    have hbranches : listRefs validateCheckoutName (fetchedRefs "refs/heads/" upstream) = [] :=
      listRefs_fetched_eq_nil.mpr fun ref href => (h ref href).1
    have htags : listRefs validateTagName (fetchedRefs "refs/tags/" upstream) = [] :=
      listRefs_fetched_eq_nil.mpr fun ref href => (h ref href).2
    simp [refreshedRefs, MirrorRefs.read, noRefs, hbranches, htags]

theorem lsRemoteRefs_eq (upstream : Upstream) :
    lsRemoteRefs (fun patterns => .ok (gitLsRemote upstream patterns)) =
      if (printedEntries upstream upstreamPatterns).any Entry.refused then .error malformedSymref
      else .ok (tipOf (printedEntries upstream upstreamPatterns) ["HEAD"],
        parseUpstreamRefs (gitLsRemote upstream upstreamPatterns)) := by
  have hok : ∀ entry ∈ printedEntries upstream upstreamPatterns, entry.Ok :=
    fun _ hentry => Upstream.entries_ok (mem_printedEntries.mp hentry).1
  have hparse : parseLsRemoteOutput (gitLsRemote upstream upstreamPatterns) ["HEAD"] = _ :=
    parseLsRemoteOutput_listing hok ["HEAD"]
  simp only [lsRemoteRefs, bind, Except.bind, hparse]
  by_cases hrefused : (printedEntries upstream upstreamPatterns).any Entry.refused = true
  · simp only [if_pos hrefused]
  · simp only [if_neg hrefused]
    rfl

/-- What the poller compares: the published listing's hash, and the hash of what it reads with the
default branch the published listing keeps. -/
theorem changed_eq_false {branches : RepoBranches} {row : RepoRefs} {refs : MirrorRefs}
    {listed : UpstreamRefs} (hbranches : row.branches = some branches)
    (hnames : NamesListing hash branches refs) :
    changed hash (some row) listed = false ↔
      refs.refsHash hash = hash (String.ofList (refsText
        (listed.defaultBranch.or (refs.defaultBranch.filter fun kept =>
          listed.branches.any fun b => b.1 = kept)) listed.branches listed.tags)) := by
  rw [changed, Option.bind_some, hbranches]
  simp only [hnames.1, hnames.2, ne_eq, decide_eq_false_iff_not, not_not]

/-- The poller's listing is accepted exactly when no symbolic ref it holds is refused. -/
theorem accepted_iff (upstream : Upstream) :
    (∃ listed listing, lsRemoteRefs (fun patterns => .ok (gitLsRemote upstream patterns)) =
        .ok (listed, listing)) ↔ ¬ PrintsRefused upstream upstreamPatterns := by
  rw [lsRemoteRefs_eq, ← printed_any_refused]
  split
  · next hrefused => simp [hrefused]
  · next hrefused => simp [hrefused]

theorem accepted_unchanged_iff (hinj : Function.Injective hash) (upstream : Upstream)
    {post : List UInt8 → Option (List UInt8)} (hserves : Serves upstream post) {useLsRefs : Bool}
    {tip : Option RemoteTip} (prior : Option (List UInt8))
    (htip : lsRemoteTipWith post (fun patterns => .ok (gitLsRemote upstream patterns)) "HEAD"
      useLsRefs = .ok tip)
    {es : List RefsEvent} {s : RefsState}
    (hrun : Run (RefsStep objects child hash) RefsState.init es s) {calls calls' : RefsCalls}
    {branches : RepoBranches} {file : Option String}
    (hbuilt : builtBranches hash calls (s.stored.getD RepoRefs.default) s.file
      (refreshedRefs upstream tip prior) = .ok (branches, file))
    {stored : Option RepoRefs} {refs : MirrorRefs} {row : RepoRefs}
    (hrow : publishedRow hash calls' stored refs (some branches) = .ok row) :
    (∃ listed listing, lsRemoteRefs (fun patterns => .ok (gitLsRemote upstream patterns)) =
        .ok (listed, listing) ∧ changed hash (some row) listing = false) ↔
      Quiet upstream := by
  have hnames := builtBranches_names hinj (run_allNamed hinj hrun).stored hbuilt
  have hbranches := publishedRow_branches hrow
  rw [lsRemoteRefs_eq]
  -- A refused default branch fails the listing as a whole, before anything is compared.
  by_cases hrefused : PrintsRefused upstream upstreamPatterns
  · rw [if_pos (printed_any_refused.mpr hrefused)]
    constructor
    · rintro ⟨_, _, haccepted, _⟩
      cases haccepted
    · intro hquiet
      exact absurd hrefused hquiet.symbolic
  · rw [if_neg fun hany => hrefused (printed_any_refused.mp hany)]
    have hunchanged : (∃ listed listing,
        (Except.ok (tipOf (printedEntries upstream upstreamPatterns) ["HEAD"],
          parseUpstreamRefs (gitLsRemote upstream upstreamPatterns)) : Except String _) =
          .ok (listed, listing) ∧ changed hash (some row) listing = false) ↔
        changed hash (some row) (parseUpstreamRefs (gitLsRemote upstream upstreamPatterns)) =
          false := by
      constructor
      · rintro ⟨_, _, heq, hchanged⟩
        cases heq
        exact hchanged
      · intro hchanged
        exact ⟨_, _, rfl, hchanged⟩
    rw [hunchanged, changed_eq_false hbranches hnames]
    -- What is not UTF-8 is read as no listing, which agrees with the refresh only if that has no refs either.
    by_cases hutf8 : ∀ entry ∈ printedEntries upstream upstreamPatterns, Entry.InUtf8 entry
    · refine iff_of_true ?_ ⟨hrefused, .inl hutf8⟩
      have hdefault := default_eq (tip.bind RemoteTip.defaultBranch) prior
        fun b hb => ((refreshedRefs upstream tip prior).branches_ok b hb).1
      rw [parseUpstreamRefs_listing hutf8 hrefused, ← refreshed_default hserves htip]
      exact congrArg (fun default => hash (String.ofList (refsText default
        (refreshedRefs upstream tip prior).branches (refreshedRefs upstream tip prior).tags)))
        hdefault.symm
    · rw [parseUpstreamRefs_not_utf8 hutf8]
      have hempty : (none : Option String).or ((refreshedRefs upstream tip prior).defaultBranch.filter
          fun kept => ([] : List (String × String)).any fun b => b.1 = kept) = none := by
        simp
      rw [hempty]
      constructor
      · intro hsame
        have hnone : refreshedRefs upstream tip prior = noRefs := refsHash_inj hinj hsame
        exact ⟨hrefused, .inr (refreshedRefs_eq_noRefs.mp hnone)⟩
      · intro hquiet
        rcases hquiet.names with hall | hnone
        · exact absurd hall hutf8
        · rw [refreshedRefs_eq_noRefs.mpr hnone]
          rfl

/-- Whatever upstream has, the poller's listing is accepted exactly when no symbolic ref it holds is
refused. After any run of refreshes and one that brought the mirror to upstream's refs and published
them, it is accepted and compares as unchanged exactly when upstream is `Quiet`. -/
theorem poll_unchanged_iff (hinj : Function.Injective hash) (upstream : Upstream) :
    ((∃ listed listing, lsRemoteRefs (fun patterns => .ok (gitLsRemote upstream patterns)) =
        .ok (listed, listing)) ↔ ¬ PrintsRefused upstream upstreamPatterns) ∧
    ∀ {post : List UInt8 → Option (List UInt8)} {useLsRefs : Bool} {tip : Option RemoteTip}
      (prior : Option (List UInt8)) {es : List RefsEvent} {s : RefsState} {calls calls' : RefsCalls}
      {branches : RepoBranches} {file : Option String} {stored : Option RepoRefs} {refs : MirrorRefs}
      {row : RepoRefs}, Serves upstream post →
      lsRemoteTipWith post (fun patterns => .ok (gitLsRemote upstream patterns)) "HEAD" useLsRefs =
        .ok tip →
      Run (RefsStep objects child hash) RefsState.init es s →
      builtBranches hash calls (s.stored.getD RepoRefs.default) s.file
        (refreshedRefs upstream tip prior) = .ok (branches, file) →
      publishedRow hash calls' stored refs (some branches) = .ok row →
      ((∃ listed listing, lsRemoteRefs (fun patterns => .ok (gitLsRemote upstream patterns)) =
          .ok (listed, listing) ∧ changed hash (some row) listing = false) ↔ Quiet upstream) := by
  refine ⟨accepted_iff upstream, ?_⟩
  intro post useLsRefs tip prior es s calls calls' branches file stored refs row hserves htip hrun
    hbuilt hrow
  exact accepted_unchanged_iff hinj upstream hserves prior htip hrun hbuilt hrow

end Rows

/-! ## Two branches

The upstream of `first_refresh`: `HEAD` at `main`, and a side branch. -/

set_option maxRecDepth 10000 in
def twoBranches : Upstream where
  refs :=
    [{ name := Utf8.encode "HEAD"
       id := mainTip
       symref := some (Utf8.encode "refs/heads/main")
       peeled := none
       name_ok := head_refByte
       id_ok := mainTip_ok
       symref_ok := mainTarget_refByte
       peeled_ok := notPeeled },
     { name := Utf8.encode "refs/heads/main"
       id := mainTip
       symref := none
       peeled := none
       name_ok := main_refByte
       id_ok := mainTip_ok
       symref_ok := noTarget_refByte
       peeled_ok := notPeeled },
     { name := Utf8.encode "refs/heads/side"
       id := sideTip
       symref := none
       peeled := none
       name_ok := by decide
       id_ok := sideTip_ok
       symref_ok := noTarget_refByte
       peeled_ok := notPeeled }]
  named := by decide
  ordered := by decide

theorem twoBranches_answerable : Answerable twoBranches where
  fits := by decide
  utf8 := by decide
  few := by decide

def twoBranchesTip : RemoteTip := ⟨mainTip, "HEAD", some "main"⟩

theorem twoBranches_tip :
    lsRemoteTipWith (server twoBranches) (fun patterns => .ok (gitLsRemote twoBranches patterns))
      "HEAD" false = .ok (some twoBranchesTip) := by
  have hprepare : prepareLsRemote "HEAD" = .ok ["HEAD"] := rfl
  rw [lsRemoteTipWith_git hprepare (by simp) rfl, parse_printed]
  exact (if_neg (by decide)).trans (by decide)

theorem twoBranches_refreshed : refreshedRefs twoBranches (some twoBranchesTip) none = firstRefs := by
  have hbranches : listRefs validateCheckoutName (fetchedRefs "refs/heads/" twoBranches) =
      [("main", mainTip), ("side", sideTip)] := by
    rw [listRefs, show ((fetchedRefs "refs/heads/" twoBranches).filterMap fun ref =>
      let name := Utf8.lossy ref.name
      if validateCheckoutName name = .ok () then ref.target.map fun id => (name, id) else none) =
      [("main", mainTip), ("side", sideTip)] by decide]
    exact List.mergeSort_of_pairwise (by decide)
  have htags : listRefs validateTagName (fetchedRefs "refs/tags/" twoBranches) = [] := by
    rw [listRefs, show fetchedRefs "refs/tags/" twoBranches = [] by decide]
    simp
  have hdefault : (((some twoBranchesTip).bind RemoteTip.defaultBranch).filter fun branch =>
      validateCheckoutName branch = .ok ()) = some "main" := by decide
  simp only [refreshedRefs, MirrorRefs.read, hbranches, htags, hdefault, firstRefs]
  simp

/-- The listing of two branches is accepted, and unchanged after the first refresh. -/
theorem twoBranches_unchanged :
    ∃ listed listing, lsRemoteRefs (fun patterns => .ok (gitLsRemote twoBranches patterns)) =
      .ok (listed, listing) ∧ changed id (some firstRow) listing = false := by
  have hrun : Run (RefsStep firstPacked (fun _ _ => False) id) RefsState.init [] RefsState.init :=
    .nil
  refine ((poll_unchanged_iff Function.injective_id twoBranches).2 none
    (serves_server twoBranches_answerable) twoBranches_tip hrun
    (twoBranches_refreshed ▸ firstBranches_built) firstRow_published).mpr ⟨?_, .inl ?_⟩
  · rw [← printed_any_refused]
    decide
  · unfold Entry.InUtf8
    decide

/-- A branch that is a symbolic ref: the listing is not accepted. -/
theorem aliased_listing_refused :
    lsRemoteRefs (fun patterns => .ok (gitLsRemote aliased patterns)) = .error malformedSymref := by
  rw [lsRemoteRefs_eq]
  exact if_pos (by decide)

end Ripclone.Server
