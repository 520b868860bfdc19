import Mathlib.Data.List.Infix
import Ripclone.LsRefs

/-!
# One answer for both ways to ask

A request lists the refs whose names start with a candidate, and `git ls-remote` prints the refs whose
paths end in one. Both listings go to one reader, and the answers are one answer as long as the extra
refs of either listing say nothing to it. They do in two ways: a symbolic ref the reader refuses fails
the listing it is in, and a name that white space follows reads as the name without it.
-/

namespace Ripclone.LsRefs

open Ripclone.Library

/-- The tip of a ref upstream. One request comes first when `useLsRefs`, and `git ls-remote` runs when
that gives no answer. -/
def lsRemoteTipWith (post : List UInt8 → Option (List UInt8))
    (runLsRemote : List String → Except String (List UInt8)) (refName : String) (useLsRefs : Bool) :
    Except String (Option RemoteTip) := do
  let candidates ← prepareLsRemote refName
  if candidates.isEmpty then return none
  else
    match if useLsRefs then lsRefs post candidates else none with
    | some lines => parseLsRemoteOutput lines candidates
    | none =>
      let stdout ← runLsRemote candidates
      parseLsRemoteOutput stdout candidates

section Paths

variable {post : List UInt8 → Option (List UInt8)}
  {runLsRemote : List String → Except String (List UInt8)} {refName : String}
  {candidates : List String}

theorem lsRemoteTipWith_answered {lines : List UInt8}
    (hprepare : prepareLsRemote refName = .ok candidates) (hne : candidates ≠ [])
    (hlines : lsRefs post candidates = some lines) :
    lsRemoteTipWith post runLsRemote refName true = parseLsRemoteOutput lines candidates := by
  have hempty : candidates.isEmpty = false := by simpa using hne
  rw [lsRemoteTipWith, hprepare]
  show (if candidates.isEmpty = true then _ else _) = _
  rw [hempty, hlines]
  rfl

theorem lsRemoteTipWith_git {stdout : List UInt8}
    (hprepare : prepareLsRemote refName = .ok candidates) (hne : candidates ≠ [])
    (hstdout : runLsRemote candidates = .ok stdout) :
    lsRemoteTipWith post runLsRemote refName false = parseLsRemoteOutput stdout candidates := by
  have hempty : candidates.isEmpty = false := by simpa using hne
  rw [lsRemoteTipWith, hprepare]
  show (if candidates.isEmpty = true then _ else _) = _
  rw [hempty]
  show (runLsRemote candidates >>= fun stdout => parseLsRemoteOutput stdout candidates) = _
  rw [hstdout]
  rfl

/-- A request that is not answered leaves the answer to `git ls-remote`. -/
theorem lsRemoteTipWith_unanswered (hprepare : prepareLsRemote refName = .ok candidates)
    (hlines : lsRefs post candidates = none) :
    lsRemoteTipWith post runLsRemote refName true =
      lsRemoteTipWith post runLsRemote refName false := by
  rw [lsRemoteTipWith, lsRemoteTipWith, hprepare]
  show (if candidates.isEmpty = true then _ else _) = (if candidates.isEmpty = true then _ else _)
  rw [hlines]
  rfl

end Paths

/-! ## The candidates -/

/-- What `prepareLsRemote` gives for a name that can match. -/
inductive Candidates : List String → Prop
  | head : Candidates ["HEAD"]
  | full {name : String} (hrefs : "refs/".toList <+: name.toList) (hstar : '*' ∉ name.toList)
      (hlen : name.utf8ByteSize ≤ maxRefLen) : Candidates [name]
  | short {name : String} (hstar : '*' ∉ name.toList) (hlen : name.utf8ByteSize ≤ maxRefLen) :
      Candidates ["refs/heads/" ++ name, "refs/tags/" ++ name ++ peel, "refs/tags/" ++ name]

theorem candidates_of_prepare {refName : String} {candidates : List String}
    (h : prepareLsRemote refName = .ok candidates) (hne : candidates ≠ []) :
    Candidates candidates := by
  unfold prepareLsRemote at h
  split at h
  · cases h
    exact .head
  · cases hrev : validateGitRev refName with
    | error e =>
        rw [hrev] at h
        cases h
    | ok u =>
        rw [hrev] at h
        dsimp only at h
        have hlen : refName.utf8ByteSize ≤ maxRefLen := by
          simp only [validateGitRev, ite_throw_eq_ok] at hrev
          exact Nat.not_lt.mp hrev.2.1
        split at h
        · cases h
          exact absurd rfl hne
        · next hwild =>
            have hstar : '*' ∉ refName.toList := by
              intro hmem
              exact hwild (List.any_eq_true.mpr ⟨'*', hmem, by decide⟩)
            split at h
            · next hrefs =>
                cases h
                exact .full (List.isPrefixOf_iff_prefix.mp hrefs) hstar hlen
            · cases h
              exact .short hstar hlen

section Candidates

variable {candidates : List String} (hcs : Candidates candidates)
include hcs

theorem Candidates.star {c : String} (hc : c ∈ candidates) : '*' ∉ c.toList := by
  cases hcs with
  | head => rw [List.mem_singleton.mp hc]; decide
  | full _ hstar _ => rw [List.mem_singleton.mp hc]; exact hstar
  | short hstar _ =>
      simp only [List.mem_cons, List.not_mem_nil, or_false] at hc
      rcases hc with rfl | rfl | rfl <;> simp [hstar, peel]

theorem Candidates.start {c : String} (hc : c ∈ candidates) :
    candidates = ["HEAD"] ∨ "refs/".toList <+: c.toList := by
  cases hcs with
  | head => exact .inl rfl
  | full hrefs _ _ => rw [List.mem_singleton.mp hc]; exact .inr hrefs
  | @short name _ _ =>
      right
      simp only [List.mem_cons, List.not_mem_nil, or_false] at hc
      rcases hc with rfl | rfl | rfl
      · exact ⟨"heads/".toList ++ name.toList, by simp⟩
      · exact ⟨"tags/".toList ++ name.toList ++ peel.toList, by simp⟩
      · exact ⟨"tags/".toList ++ name.toList, by simp⟩

theorem Candidates.ne_nil {c : String} (hc : c ∈ candidates) : c.toList ≠ [] := by
  rcases hcs.start hc with rfl | ⟨rest, hrest⟩
  · rw [List.mem_singleton.mp hc]
    decide
  · rw [← hrest]
    simp

/-- The candidates are about of one length. -/
theorem Candidates.length_le {c c' : String} (hc : c ∈ candidates) (hc' : c' ∈ candidates) :
    c.toList.length ≤ c'.toList.length + 3 := by
  cases hcs with
  | head => rw [List.mem_singleton.mp hc, List.mem_singleton.mp hc']; exact Nat.le_add_right _ _
  | full _ _ _ => rw [List.mem_singleton.mp hc, List.mem_singleton.mp hc']; exact Nat.le_add_right _ _
  | short _ _ =>
      simp only [List.mem_cons, List.not_mem_nil, or_false] at hc hc'
      rcases hc with rfl | rfl | rfl <;> rcases hc' with rfl | rfl | rfl <;> simp [peel]

/-- Where one candidate ends in white space and another does not, that one is the peeled tag. -/
theorem Candidates.caret {c c' : String} (hc : c ∈ candidates) (hc' : c' ∈ candidates)
    (hlast : ∀ x ∈ c.toList.getLast?, isWhiteSpace x = false)
    (hlast' : ∃ x ∈ c'.toList.getLast?, isWhiteSpace x = true) : '^' ∈ c.toList := by
  have hsame : c ≠ c' := by
    rintro rfl
    obtain ⟨x, hx, hspace⟩ := hlast'
    rw [hlast x hx] at hspace
    cases hspace
  cases hcs with
  | head => exact absurd ((List.mem_singleton.mp hc).trans (List.mem_singleton.mp hc').symm) hsame
  | full _ _ _ => exact absurd ((List.mem_singleton.mp hc).trans (List.mem_singleton.mp hc').symm) hsame
  | @short name _ _ =>
      -- what a candidate that is no peeled tag ends in is what the name does
      have hend : ∀ part : List Char, name.toList ≠ [] →
          (part ++ name.toList).getLast? = name.toList.getLast? := by
        intro part hne
        rw [List.getLast?_append, List.getLast?_eq_some_getLast hne, Option.some_or]
      simp only [List.mem_cons, List.not_mem_nil, or_false] at hc hc'
      by_cases hne : name.toList = []
      · obtain ⟨x, hx, hspace⟩ := hlast'
        have hempty : name = "" := String.toList_inj.mp hne
        subst hempty
        rcases hc' with rfl | rfl | rfl <;> exact absurd hspace (by cases hx; decide)
      · rcases hc with rfl | rfl | rfl
        · rw [String.toList_append, hend _ hne] at hlast
          obtain ⟨x, hx, hspace⟩ := hlast'
          rcases hc' with rfl | rfl | rfl
          · exact absurd rfl hsame
          · rw [String.toList_append, List.getLast?_append] at hx
            cases hx
            exact absurd hspace (by decide)
          · rw [String.toList_append, hend _ hne] at hx
            rw [hlast x hx] at hspace
            cases hspace
        · rw [String.toList_append]
          exact List.mem_append_right _ (by decide)
        · rw [String.toList_append, hend _ hne] at hlast
          obtain ⟨x, hx, hspace⟩ := hlast'
          rcases hc' with rfl | rfl | rfl
          · rw [String.toList_append, hend _ hne] at hx
            rw [hlast x hx] at hspace
            cases hspace
          · rw [String.toList_append, List.getLast?_append] at hx
            cases hx
            exact absurd hspace (by decide)
          · exact absurd rfl hsame

theorem Candidates.fits {c : String} (hc : c ∈ candidates) : (Utf8.encode c).length < 65000 := by
  have hshort : ∀ {name : String}, name.utf8ByteSize ≤ maxRefLen →
      (Utf8.encode name).length ≤ 256 := fun h => by rw [Utf8.length_encode]; exact h
  cases hcs with
  | head => rw [List.mem_singleton.mp hc]; decide
  | full _ _ hlen =>
      rw [List.mem_singleton.mp hc]
      have := hshort hlen
      omega
  | short _ hlen =>
      have := hshort hlen
      simp only [List.mem_cons, List.not_mem_nil, or_false] at hc
      rcases hc with rfl | rfl | rfl <;>
        simp only [Utf8.encode_append, List.length_append, peel,
          show (Utf8.encode "refs/heads/").length = 11 from rfl,
          show (Utf8.encode "refs/tags/").length = 10 from rfl,
          show (Utf8.encode "^\x7b\x7d").length = 3 from rfl] <;> omega

end Candidates

/-- What is taken off the end of a name. -/
theorem trimPeels_append (name : String) :
    ∃ peels : List Char, name.toList = (trimPeels name).toList ++ peels ∧
      ∀ c ∈ peels, c ∈ peel.toList := by
  have hdrop : ∀ text : List Char, ∃ peels : List Char, text = peels ++ dropPeels text ∧
      ∀ c ∈ peels, c ∈ peel.toList := by
    intro text
    fun_induction dropPeels text with
    | case1 rest ih =>
        obtain ⟨peels, htext, hpeels⟩ := ih
        refine ⟨'\x7d' :: '\x7b' :: '^' :: peels, ?_, ?_⟩
        · rw [List.cons_append, List.cons_append, List.cons_append, ← htext]
        · intro c hc
          simp only [List.mem_cons] at hc
          rcases hc with rfl | rfl | rfl | hc
          · decide
          · decide
          · decide
          · exact hpeels c hc
    | case2 text => exact ⟨[], rfl, fun _ hc => absurd hc List.not_mem_nil⟩
  obtain ⟨peels, htext, hpeels⟩ := hdrop name.toList.reverse
  refine ⟨peels.reverse, ?_, fun c hc => hpeels c (List.mem_reverse.mp hc)⟩
  rw [trimPeels, String.toList_ofList, ← List.reverse_append, ← htext, List.reverse_reverse]

theorem trimPeels_peel (name : String) : trimPeels (name ++ peel) = trimPeels name := by
  have hreverse : (name ++ peel).toList.reverse =
      '\x7d' :: '\x7b' :: '^' :: name.toList.reverse := by
    rw [String.toList_append, List.reverse_append]
    rfl
  rw [trimPeels, hreverse, dropPeels]
  rfl

/-- Of two candidates that are no peeled tag, one stands for a branch and one for a tag. -/
theorem Candidates.refName_ne {candidates before after : List String} {c later : String}
    (hcs : Candidates candidates) (hsplit : candidates = before ++ c :: after)
    (hlater : later ∈ after) : '^' ∈ c.toList ∨ trimPeels later ≠ trimPeels c := by
  have hsingle : ∀ name : String, before ++ c :: after ≠ [name] := by
    intro name heq
    have hlen := congrArg List.length heq
    have hpos := List.length_pos_of_mem hlater
    simp at hlen
    omega
  cases hcs with
  | head => exact absurd hsplit.symm (hsingle _)
  | full _ _ _ => exact absurd hsplit.symm (hsingle _)
  | @short name _ _ =>
      rcases before with _ | ⟨first, before⟩
      · -- the branch, and a tag after it: the character after `refs/` tells them apart
        right
        obtain ⟨rfl, rfl⟩ := List.cons.inj hsplit
        intro htrim
        obtain ⟨peels, hbranch, hpeels⟩ := trimPeels_append ("refs/heads/" ++ name)
        obtain ⟨peels', htag, _⟩ := trimPeels_append later
        have htag5 : later.toList[5]? = some 't' := by
          rcases List.mem_cons.mp hlater with rfl | hlater
          · simp
          · simp [List.mem_singleton.mp hlater]
        have hbranch5 : ("refs/heads/" ++ name).toList[5]? = some 'h' := by simp
        rw [hbranch] at hbranch5
        rw [htag, htrim] at htag5
        by_cases hlen : 5 < (trimPeels ("refs/heads/" ++ name)).toList.length
        · rw [List.getElem?_append_left hlen] at hbranch5 htag5
          rw [hbranch5] at htag5
          exact absurd htag5 (by decide)
        · rw [List.getElem?_append_right (Nat.not_lt.mp hlen)] at hbranch5
          exact absurd (hpeels 'h' (List.mem_of_getElem? hbranch5)) (by decide)
      · rcases before with _ | ⟨second, before⟩
        · left
          obtain ⟨_, hrest⟩ := List.cons.inj hsplit
          obtain ⟨rfl, _⟩ := List.cons.inj hrest
          rw [String.toList_append]
          exact List.mem_append_right _ (by decide)
        · have hlen := congrArg List.length hsplit
          have hpos := List.length_pos_of_mem hlater
          simp at hlen
          omega

theorem encode_isPrefix {a b : String} (h : a.toList <+: b.toList) : Utf8.encode a <+: Utf8.encode b := by
  obtain ⟨rest, hrest⟩ := h
  have hb : b = a ++ String.ofList rest := by
    apply String.toList_inj.mp
    rw [String.toList_append, String.toList_ofList, hrest]
  rw [hb, Utf8.encode_append]
  exact List.prefix_append _ _

theorem trimPeels_isPrefix (name : String) : Utf8.encode (trimPeels name) <+: Utf8.encode name := by
  obtain ⟨peels, hname, _⟩ := trimPeels_append name
  exact encode_isPrefix ⟨peels, hname.symm⟩

theorem mem_prefixesOf {candidates : List String} {start : String} :
    start ∈ prefixesOf candidates ↔ ∃ candidate ∈ candidates, trimPeels candidate = start := by
  have hfold : ∀ (candidates seen : List String),
      start ∈ candidates.foldl (fun seen candidate =>
        if trimPeels candidate ∈ seen then seen else seen ++ [trimPeels candidate]) seen ↔
      start ∈ seen ∨ ∃ candidate ∈ candidates, trimPeels candidate = start := by
    intro candidates
    induction candidates with
    | nil => simp
    | cons candidate candidates ih =>
        intro seen
        rw [List.foldl_cons, ih]
        split
        · next hseen =>
            constructor
            · rintro (h | ⟨other, hother, rfl⟩)
              · exact .inl h
              · exact .inr ⟨other, List.mem_cons_of_mem _ hother, rfl⟩
            · rintro (h | ⟨other, hother, rfl⟩)
              · exact .inl h
              · rcases List.mem_cons.mp hother with rfl | hother
                · exact .inl hseen
                · exact .inr ⟨other, hother, rfl⟩
        · rw [List.mem_append, List.mem_singleton, or_assoc]
          simp [eq_comm (a := start)]
  have h := hfold candidates []
  simpa [prefixesOf] using h

/-! ## Which names each way lists -/

theorem glob_cons {p : UInt8} (hp : p ≠ 0x2a) (pattern text : List UInt8) :
    glob (p :: pattern) text = true ↔ ∃ rest, text = p :: rest ∧ glob pattern rest = true := by
  rw [glob.eq_def]
  dsimp only
  rw [if_neg hp]
  cases text with
  | nil => simp
  | cons b rest => simp [and_assoc]

theorem glob_literal {pattern : List UInt8} (h : (0x2a : UInt8) ∉ pattern) (text : List UInt8) :
    glob pattern text = true ↔ text = pattern := by
  induction pattern generalizing text with
  | nil => simp [glob]
  | cons p pattern ih =>
      have hp : p ≠ 0x2a := by
        rintro rfl
        exact h List.mem_cons_self
      have hrest : (0x2a : UInt8) ∉ pattern := fun hmem => h (List.mem_cons_of_mem _ hmem)
      rw [glob_cons hp]
      constructor
      · rintro ⟨rest, rfl, hglob⟩
        rw [(ih hrest rest).mp hglob]
      · rintro rfl
        exact ⟨pattern, rfl, (ih hrest pattern).mpr rfl⟩

theorem tailMatch_iff {pattern : String} (h : '*' ∉ pattern.toList) (name : List UInt8) :
    tailMatch pattern name = true ↔
      Utf8.encode ("/" ++ pattern) <:+ Utf8.encode "/" ++ name := by
  have hpattern : Utf8.encode ("*/" ++ pattern) = 0x2a :: Utf8.encode ("/" ++ pattern) := by
    rw [Utf8.encode_append, Utf8.encode_append]
    rfl
  have hstar : (0x2a : UInt8) ∉ Utf8.encode ("/" ++ pattern) := by
    intro hmem
    have hchar : '*' ∈ ("/" ++ pattern).toList := Utf8.mem_of_mem_encode (by decide) hmem
    rw [String.toList_append] at hchar
    rcases List.mem_append.mp hchar with hslash | hname
    · exact absurd hslash (by decide)
    · exact h hname
  rw [tailMatch, hpattern, glob.eq_def]
  dsimp only
  rw [if_pos rfl, List.any_eq_true]
  constructor
  · rintro ⟨rest, hrest, hglob⟩
    rw [(glob_literal hstar rest).mp hglob] at hrest
    exact (List.mem_tails _ _).mp hrest
  · intro hend
    exact ⟨_, (List.mem_tails _ _).mpr hend, (glob_literal hstar _).mpr rfl⟩

/-- A path ends in the candidate when it is the candidate, or more that a slash ends. -/
theorem tailMatch_cases {pattern : String} (h : '*' ∉ pattern.toList) {name : List UInt8}
    (hmatch : tailMatch pattern name = true) :
    name = Utf8.encode pattern ∨ ∃ before, name = before ++ 0x2f :: Utf8.encode pattern := by
  have hpattern : Utf8.encode ("/" ++ pattern) = 0x2f :: Utf8.encode pattern := by
    rw [Utf8.encode_append]
    rfl
  have hend := (tailMatch_iff h name).mp hmatch
  rw [hpattern, show Utf8.encode "/" ++ name = 0x2f :: name from rfl] at hend
  rcases List.suffix_cons_iff.mp hend with heq | ⟨before, hbefore⟩
  · exact .inl (List.cons.inj heq).2.symm
  · exact .inr ⟨before, hbefore.symm⟩

theorem tailMatch_self {pattern : String} (h : '*' ∉ pattern.toList) :
    tailMatch pattern (Utf8.encode pattern) = true := by
  rw [tailMatch_iff h, Utf8.encode_append]

section Entries

variable {upstream : Upstream} {entry : Entry}

theorem mem_entries :
    entry ∈ upstream.entries ↔ ∃ ref ∈ upstream.refs, entry = ⟨ref.name, ref.id, ref.symref⟩ ∨
      ∃ id, ref.peeled = some id ∧ entry = ⟨ref.name ++ Utf8.encode peel, id, none⟩ := by
  rw [Upstream.entries, List.mem_flatMap]
  constructor
  · rintro ⟨ref, href, hentry⟩
    refine ⟨ref, href, ?_⟩
    rcases List.mem_cons.mp hentry with rfl | hpeeled
    · exact .inl rfl
    · obtain ⟨id, hid, rfl⟩ := Option.map_eq_some_iff.mp (Option.mem_toList.mp hpeeled)
      exact .inr ⟨id, hid, rfl⟩
  · rintro ⟨ref, href, rfl | ⟨id, hid, rfl⟩⟩
    · exact ⟨ref, href, List.mem_cons_self⟩
    · refine ⟨ref, href, List.mem_cons_of_mem _ ?_⟩
      rw [hid]
      exact List.mem_cons_self

/-- A name of git's has no `^`. -/
theorem caret_not_mem (ref : UpstreamRef) : '^' ∉ (Utf8.lossy ref.name).toList := by
  intro hmem
  have hbyte := ref.name_ok _ (Utf8.mem_of_mem_lossy (by decide) hmem)
  exact absurd hbyte (by decide)

theorem lossy_peel (bytes : List UInt8) :
    (Utf8.lossy (bytes ++ Utf8.encode peel)).toList = (Utf8.lossy bytes).toList ++ peel.toList := by
  rw [show Utf8.encode peel = UInt8.ofNat 0x5e :: Utf8.encode "\x7b\x7d" from rfl,
    Utf8.lossy_append_ascii (by decide), Utf8.lossy_encode]
  rfl

/-- The name of a tag's object is the only one with a `^`, and ends in no white space. -/
theorem text_of_caret (hentry : entry ∈ upstream.entries) (hcaret : '^' ∈ entry.text) :
    ∃ before, entry.text = before ++ peel.toList := by
  obtain ⟨ref, _, rfl | ⟨id, _, rfl⟩⟩ := mem_entries.mp hentry
  · exact absurd hcaret (caret_not_mem ref)
  · exact ⟨_, lossy_peel ref.name⟩

/-- A name is `HEAD`'s or starts with `refs/`, and so does its text. -/
theorem text_start (hentry : entry ∈ upstream.entries) :
    "HEAD".toList <+: entry.text ∧ '/' ∉ entry.text ∨ "refs/".toList <+: entry.text := by
  have hstart : ∀ ref ∈ upstream.refs, ∀ rest : String, '/' ∉ rest.toList →
      "HEAD".toList <+: (Utf8.lossy (ref.name ++ Utf8.encode rest)).toList ∧
          '/' ∉ (Utf8.lossy (ref.name ++ Utf8.encode rest)).toList ∨
        "refs/".toList <+: (Utf8.lossy (ref.name ++ Utf8.encode rest)).toList := by
    intro ref href rest hrest
    rcases upstream.named ref href with hhead | ⟨more, hmore⟩
    · left
      rw [hhead, Utf8.lossy_encode_append, Utf8.lossy_encode, String.toList_append]
      refine ⟨List.prefix_append _ _, ?_⟩
      simp [hrest]
    · right
      rw [← hmore, List.append_assoc, Utf8.lossy_encode_append, String.toList_append]
      exact List.prefix_append _ _
  obtain ⟨ref, href, rfl | ⟨id, _, rfl⟩⟩ := mem_entries.mp hentry
  · have h := hstart ref href "" (by decide)
    rw [show Utf8.encode "" = [] from rfl, List.append_nil] at h
    exact h
  · exact hstart ref href peel (by decide)

theorem text_head (hentry : entry ∈ upstream.entries) :
    ∀ c ∈ entry.text.head?, isWhiteSpace c = false := by
  intro c hc
  rcases text_start hentry with ⟨⟨rest, hrest⟩, _⟩ | ⟨rest, hrest⟩
  · rw [← hrest] at hc
    cases hc
    decide
  · rw [← hrest] at hc
    cases hc
    decide

/-- What a name reads as: itself, or itself without white space that follows. -/
theorem read_iff (hentry : entry ∈ upstream.entries) {candidate : List Char} :
    trim entry.text = candidate ↔
      (∀ c ∈ candidate.getLast?, isWhiteSpace c = false) ∧
        ∃ space : List Char, (∀ c ∈ space, isWhiteSpace c = true) ∧ entry.text = candidate ++ space :=
  trim_eq_iff (text_head hentry)

/-- The name of a tag's object reads as itself. -/
theorem text_eq_of_caret (hentry : entry ∈ upstream.entries) {candidate : List Char}
    (hread : trim entry.text = candidate) (hcaret : '^' ∈ candidate) : entry.text = candidate := by
  obtain ⟨_, space, hspace, htext⟩ := (read_iff hentry).mp hread
  obtain ⟨before, hpeel⟩ := text_of_caret hentry (htext ▸ List.mem_append_left _ hcaret)
  rcases List.eq_nil_or_concat space with rfl | ⟨space, c, rfl⟩
  · rw [htext, List.append_nil]
  · have hlast : entry.text.getLast? = some c := by
      rw [htext, List.concat_eq_append, ← List.append_assoc, List.getLast?_concat]
    have hlast' : entry.text.getLast? = some '\x7d' := by
      rw [hpeel, show peel.toList = ['^', '\x7b'] ++ ['\x7d'] from rfl, ← List.append_assoc,
        List.getLast?_concat]
    have hc : c = '\x7d' := by
      rw [hlast] at hlast'
      exact Option.some.inj hlast'
    exact absurd (hspace c (by simp)) (by rw [hc]; decide)

/-- A name stands in a listing once. -/
theorem entry_eq_of_name {entry' : Entry} (hentry : entry ∈ upstream.entries)
    (hentry' : entry' ∈ upstream.entries) (hname : entry.name = entry'.name) : entry = entry' := by
  have hunique : ∀ ref ∈ upstream.refs, ∀ ref' ∈ upstream.refs, ref.name = ref'.name → ref = ref' := by
    intro ref href ref' href' heq
    have hpair := List.pairwise_iff_getElem.mp upstream.ordered
    obtain ⟨i, hi, rfl⟩ := List.mem_iff_getElem.mp href
    obtain ⟨j, hj, rfl⟩ := List.mem_iff_getElem.mp href'
    rcases Nat.lt_trichotomy i j with hlt | rfl | hlt
    · exact absurd (heq ▸ hpair i j hi hj hlt) (List.lt_irrefl _)
    · rfl
    · exact absurd (heq ▸ hpair j i hj hi hlt) (List.lt_irrefl _)
  have hcaret : ∀ ref ref' : UpstreamRef, ref.name ≠ ref'.name ++ Utf8.encode peel := by
    intro ref ref' heq
    have hmem : '^' ∈ (Utf8.lossy ref.name).toList := by
      rw [heq, lossy_peel]
      exact List.mem_append_right _ List.mem_cons_self
    exact caret_not_mem ref hmem
  obtain ⟨ref, href, rfl | ⟨id, hid, rfl⟩⟩ := mem_entries.mp hentry
  · obtain ⟨ref', href', rfl | ⟨id', hid', rfl⟩⟩ := mem_entries.mp hentry'
    · rw [hunique ref href ref' href' hname]
    · exact absurd hname (hcaret ref ref')
  · obtain ⟨ref', href', rfl | ⟨id', hid', rfl⟩⟩ := mem_entries.mp hentry'
    · exact absurd hname.symm (hcaret ref' ref)
    · have href := hunique ref href ref' href' (List.append_cancel_right hname)
      rw [href] at hid ⊢
      rw [Option.some.inj (hid.symm.trans hid')]

end Entries

/-! ## Both listings -/

section Listings

variable {upstream : Upstream} {candidates : List String}

/-- The ref's name starts with a prefix that is asked for. -/
def Asked (candidates : List String) (name : List UInt8) : Prop :=
  ∃ candidate ∈ candidates, Utf8.encode (trimPeels candidate) <+: name

/-- The path ends in a candidate. -/
def Printed (candidates : List String) (name : List UInt8) : Prop :=
  ∃ candidate ∈ candidates, tailMatch candidate name = true

/-- The names a request lists. -/
def askedEntries (upstream : Upstream) (candidates : List String) : List Entry :=
  (under upstream ((prefixesOf candidates).map Utf8.encode)).flatMap UpstreamRef.entries

/-- The names `git ls-remote` prints. -/
def printedEntries (upstream : Upstream) (candidates : List String) : List Entry :=
  upstream.entries.filter fun entry => candidates.any fun pattern => tailMatch pattern entry.name

theorem asked_iff {name : List UInt8} :
    (((prefixesOf candidates).map Utf8.encode).any fun start => start.isPrefixOf name) = true ↔
      Asked candidates name := by
  rw [List.any_eq_true]
  constructor
  · rintro ⟨bytes, hbytes, hname⟩
    obtain ⟨start, hstart, rfl⟩ := List.mem_map.mp hbytes
    obtain ⟨candidate, hcandidate, rfl⟩ := mem_prefixesOf.mp hstart
    exact ⟨candidate, hcandidate, List.isPrefixOf_iff_prefix.mp hname⟩
  · rintro ⟨candidate, hcandidate, hname⟩
    have hstart := mem_prefixesOf.mpr ⟨candidate, hcandidate, rfl⟩
    exact ⟨Utf8.encode (trimPeels candidate), List.mem_map_of_mem hstart,
      List.isPrefixOf_iff_prefix.mpr hname⟩

theorem printed_iff {name : List UInt8} :
    (candidates.any fun pattern => tailMatch pattern name) = true ↔ Printed candidates name := by
  rw [List.any_eq_true, Printed]

theorem mem_under {ref : UpstreamRef} :
    ref ∈ under upstream ((prefixesOf candidates).map Utf8.encode) ↔
      ref ∈ upstream.refs ∧ Asked candidates ref.name := by
  rw [under, List.mem_filter, asked_iff]

theorem mem_askedEntries {entry : Entry} :
    entry ∈ askedEntries upstream candidates ↔
      ∃ ref ∈ upstream.refs, Asked candidates ref.name ∧ entry ∈ ref.entries := by
  rw [askedEntries, List.mem_flatMap]
  constructor
  · rintro ⟨ref, href, hentry⟩
    obtain ⟨href, hasked⟩ := mem_under.mp href
    exact ⟨ref, href, hasked, hentry⟩
  · rintro ⟨ref, href, hasked, hentry⟩
    exact ⟨ref, mem_under.mpr ⟨href, hasked⟩, hentry⟩

theorem mem_printedEntries {entry : Entry} :
    entry ∈ printedEntries upstream candidates ↔
      entry ∈ upstream.entries ∧ Printed candidates entry.name := by
  rw [printedEntries, List.mem_filter, printed_iff]

theorem askedEntries_subset {entry : Entry} (h : entry ∈ askedEntries upstream candidates) :
    entry ∈ upstream.entries := by
  obtain ⟨ref, href, _, hentry⟩ := mem_askedEntries.mp h
  exact List.mem_flatMap.mpr ⟨ref, href, hentry⟩

/-- The symbolic refs the reader refuses: any but `HEAD` at a branch that can be asked for. -/
def refusedRef (ref : UpstreamRef) : Prop :=
  Entry.refused ⟨ref.name, ref.id, ref.symref⟩ = true

theorem refused_entries {ref : UpstreamRef} :
    (∃ entry ∈ ref.entries, entry.refused = true) ↔ refusedRef ref := by
  constructor
  · rintro ⟨entry, hentry, hrefused⟩
    rcases List.mem_cons.mp hentry with rfl | hpeeled
    · exact hrefused
    · obtain ⟨id, _, rfl⟩ := Option.map_eq_some_iff.mp (Option.mem_toList.mp hpeeled)
      cases hrefused
  · intro hrefused
    exact ⟨_, List.mem_cons_self, hrefused⟩

/-- A symbolic ref that is refused is among those a request lists. -/
def AsksRefused (upstream : Upstream) (candidates : List String) : Prop :=
  ∃ ref ∈ upstream.refs, refusedRef ref ∧ Asked candidates ref.name

/-- A symbolic ref that is refused is among those `git ls-remote` prints. -/
def PrintsRefused (upstream : Upstream) (candidates : List String) : Prop :=
  ∃ ref ∈ upstream.refs, refusedRef ref ∧ Printed candidates ref.name

theorem asked_any_refused :
    (askedEntries upstream candidates).any Entry.refused = true ↔
      AsksRefused upstream candidates := by
  rw [List.any_eq_true]
  constructor
  · rintro ⟨entry, hentry, hrefused⟩
    obtain ⟨ref, href, hasked, hentry⟩ := mem_askedEntries.mp hentry
    exact ⟨ref, href, refused_entries.mp ⟨entry, hentry, hrefused⟩, hasked⟩
  · rintro ⟨ref, href, hrefused, hasked⟩
    exact ⟨_, mem_askedEntries.mpr ⟨ref, href, hasked, List.mem_cons_self⟩, hrefused⟩

theorem printed_any_refused :
    (printedEntries upstream candidates).any Entry.refused = true ↔
      PrintsRefused upstream candidates := by
  rw [List.any_eq_true]
  constructor
  · rintro ⟨entry, hentry, hrefused⟩
    obtain ⟨hentry, hprinted⟩ := mem_printedEntries.mp hentry
    obtain ⟨ref, href, rfl | ⟨id, _, rfl⟩⟩ := mem_entries.mp hentry
    · exact ⟨ref, href, hrefused, hprinted⟩
    · cases hrefused
  · rintro ⟨ref, href, hrefused, hprinted⟩
    refine ⟨_, mem_printedEntries.mpr ⟨mem_entries.mpr ⟨ref, href, .inl rfl⟩, hprinted⟩, hrefused⟩

/-- A printed name that reads as a candidate is the candidate. -/
theorem exact_of_printed (hcs : Candidates candidates) {entry : Entry} {c : String}
    (hentry : entry ∈ upstream.entries) (hprinted : Printed candidates entry.name)
    (hc : c ∈ candidates) (hread : trim entry.text = c.toList) : entry.name = Utf8.encode c := by
  obtain ⟨c', hc', hmatch⟩ := hprinted
  have hcases := tailMatch_cases (hcs.star hc') hmatch
  obtain ⟨hlast, space, hspace, htext⟩ := (read_iff hentry).mp hread
  -- the text ends in the candidate that matched
  have hends : ∃ before, entry.text = before ++ c'.toList := by
    rcases hcases with hname | ⟨before, hname⟩
    · exact ⟨[], by rw [Entry.text, hname, Utf8.lossy_encode, List.nil_append]⟩
    · refine ⟨(Utf8.lossy before).toList ++ ['/'], ?_⟩
      rw [Entry.text, hname, show (0x2f : UInt8) = UInt8.ofNat 0x2f from rfl,
        Utf8.lossy_append_ascii (by decide), Utf8.lossy_encode, List.append_assoc]
      rfl
  have hnospace : space = [] := by
    rcases List.eq_nil_or_concat space with hnil | ⟨front, x, hfront⟩
    · exact hnil
    · obtain ⟨before, hbefore⟩ := hends
      have hx : c'.toList.getLast? = some x := by
        have hlast' : entry.text.getLast? = some x := by
          rw [htext, hfront, List.concat_eq_append, ← List.append_assoc, List.getLast?_concat]
        rw [hbefore, List.getLast?_append,
          List.getLast?_eq_some_getLast (hcs.ne_nil hc'), Option.some_or] at hlast'
        rw [List.getLast?_eq_some_getLast (hcs.ne_nil hc'), hlast']
      have hcaret := hcs.caret hc hc' hlast
        ⟨x, hx, hspace x (by rw [hfront, List.concat_eq_append]; simp)⟩
      have hsame := text_eq_of_caret hentry hread hcaret
      rw [htext] at hsame
      exact List.append_cancel_left (hsame.trans (List.append_nil _).symm)
  rw [hnospace, List.append_nil] at htext
  rcases hcases with hname | ⟨before, hname⟩
  · rw [Entry.text, hname, Utf8.lossy_encode] at htext
    rw [hname, String.toList_inj.mp htext]
  · -- what stands before a slash is at least `refs`, and the candidates are too close in length
    have hslash : entry.text = (Utf8.lossy before).toList ++ '/' :: c'.toList := by
      rw [Entry.text, hname, show (0x2f : UInt8) = UInt8.ofNat 0x2f from rfl,
        Utf8.lossy_append_ascii (by decide), Utf8.lossy_encode]
    have hbefore : "refs".toList <+: (Utf8.lossy before).toList := by
      rcases text_start hentry with ⟨_, hnone⟩ | hrefs
      · exact absurd (hslash ▸ List.mem_append_right _ List.mem_cons_self) hnone
      · rw [hslash] at hrefs
        exact starts_before (by decide) (List.IsPrefix.trans ⟨['/'], rfl⟩ hrefs)
    have hlen := congrArg List.length (hslash.symm.trans htext)
    have hshort := hcs.length_le hc hc'
    have hrefs := hbefore.length_le
    simp only [List.length_append, List.length_cons] at hlen
    have : "refs".toList.length = 4 := rfl
    omega

/-- A listed name in UTF-8 reads as the candidate. -/
def Reads (upstream : Upstream) (c : String) : Prop :=
  ∃ entry ∈ upstream.entries, ∃ text : String, entry.name = Utf8.encode text ∧
    trim text.toList = c.toList

/-- The candidate is a listed name. -/
def Listed (upstream : Upstream) (c : String) : Prop :=
  ∃ entry ∈ upstream.entries, entry.name = Utf8.encode c

/-- A request is asked for what reads as a candidate. -/
theorem asked_of_reads {entry : Entry} {c : String} {text : String} (hc : c ∈ candidates)
    (hentry : entry ∈ upstream.entries) (hname : entry.name = Utf8.encode text)
    (hread : trim text.toList = c.toList) : entry ∈ askedEntries upstream candidates := by
  have htext : entry.text = text.toList := by rw [Entry.text, hname, Utf8.lossy_encode]
  rw [← htext] at hread
  obtain ⟨ref, href, hcase⟩ := mem_entries.mp hentry
  refine mem_askedEntries.mpr ⟨ref, href, ⟨c, hc, ?_⟩, ?_⟩
  · rcases hcase with rfl | ⟨id, _, rfl⟩
    · obtain ⟨_, space, _, hspace⟩ := (read_iff hentry).mp hread
      rw [show ref.name = Utf8.encode text from hname]
      exact (trimPeels_isPrefix c).trans (encode_isPrefix ⟨space, by rw [← hspace, htext]⟩)
    · -- the tag's own name is the candidate without what it ends in
      have hpeel : text = Utf8.lossy ref.name ++ peel := by
        apply String.toList_inj.mp
        rw [← htext, String.toList_append]
        exact lossy_peel ref.name
      have hcaret : '^' ∈ c.toList := by
        obtain ⟨_, space, hspace, hsplit⟩ := (read_iff hentry).mp hread
        have hmem : '^' ∈ c.toList ++ space := by
          rw [← hsplit, htext, hpeel, String.toList_append]
          exact List.mem_append_right _ List.mem_cons_self
        rcases List.mem_append.mp hmem with hmem | hmem
        · exact hmem
        · exact absurd (hspace _ hmem) (by decide)
      have hc' : c = Utf8.lossy ref.name ++ peel := by
        rw [← hpeel]
        exact String.toList_inj.mp ((text_eq_of_caret hentry hread hcaret).symm.trans htext)
      have hutf8 : ref.name = Utf8.encode (Utf8.lossy ref.name) := by
        have happend : ref.name ++ Utf8.encode peel =
            Utf8.encode (Utf8.lossy ref.name) ++ Utf8.encode peel := by
          rw [← Utf8.encode_append, ← hpeel]
          exact hname
        exact List.append_cancel_right happend
      rw [hc', trimPeels_peel, hutf8, Utf8.lossy_encode]
      exact trimPeels_isPrefix _
  · rcases hcase with rfl | ⟨id, hid, rfl⟩
    · exact List.mem_cons_self
    · refine List.mem_cons_of_mem _ ?_
      rw [hid]
      exact List.mem_cons_self

variable (hcs : Candidates candidates)
  (hutf8 : ∀ ref ∈ upstream.refs, Asked candidates ref.name →
    Utf8.encode (Utf8.lossy ref.name) = ref.name)

include hutf8 in
/-- The names a request lists are in UTF-8 when it is answered. -/
theorem name_of_asked {entry : Entry} (h : entry ∈ askedEntries upstream candidates) :
    entry.name = Utf8.encode (Utf8.lossy entry.name) := by
  obtain ⟨ref, href, hasked, hentry⟩ := mem_askedEntries.mp h
  have hname := hutf8 ref href hasked
  rcases List.mem_cons.mp hentry with rfl | hpeeled
  · exact hname.symm
  · obtain ⟨id, _, rfl⟩ := Option.map_eq_some_iff.mp (Option.mem_toList.mp hpeeled)
    have hlossy : Utf8.lossy (ref.name ++ Utf8.encode peel) = Utf8.lossy ref.name ++ peel := by
      apply String.toList_inj.mp
      rw [lossy_peel, String.toList_append]
    show ref.name ++ Utf8.encode peel = Utf8.encode (Utf8.lossy (ref.name ++ Utf8.encode peel))
    rw [hlossy, Utf8.encode_append, hname]

include hutf8 in
theorem reads_iff {c : String} (hc : c ∈ candidates) :
    Reads upstream c ↔
      ∃ entry ∈ askedEntries upstream candidates, trim entry.text = c.toList := by
  constructor
  · rintro ⟨entry, hentry, text, hname, hread⟩
    refine ⟨entry, asked_of_reads hc hentry hname hread, ?_⟩
    rw [Entry.text, hname, Utf8.lossy_encode, hread]
  · rintro ⟨entry, hentry, hread⟩
    exact ⟨entry, askedEntries_subset hentry, _, name_of_asked hutf8 hentry, hread⟩

theorem reads_of_printed {entry : Entry} {c : String} (hcs : Candidates candidates)
    (hc : c ∈ candidates) (hentry : entry ∈ printedEntries upstream candidates)
    (hread : trim entry.text = c.toList) : Listed upstream c ∧ Reads upstream c := by
  obtain ⟨hentry, hprinted⟩ := mem_printedEntries.mp hentry
  have hname := exact_of_printed hcs hentry hprinted hc hread
  have htext : entry.text = c.toList := by rw [Entry.text, hname, Utf8.lossy_encode]
  exact ⟨⟨entry, hentry, hname⟩, entry, hentry, c, hname, by rw [← htext, hread]; exact htext.symm⟩

/-- The name of a tag's object holds a `^`. -/
theorem name_of_not_caret {ref : UpstreamRef} {entry : Entry} {text : String}
    (hentry : entry ∈ ref.entries) (hname : entry.name = Utf8.encode text)
    (hcaret : '^' ∉ text.toList) : ref.name = Utf8.encode text := by
  rcases List.mem_cons.mp hentry with rfl | hpeeled
  · exact hname
  · obtain ⟨id, _, rfl⟩ := Option.map_eq_some_iff.mp (Option.mem_toList.mp hpeeled)
    have htext := lossy_peel ref.name
    rw [show ref.name ++ Utf8.encode peel = Utf8.encode text from hname, Utf8.lossy_encode] at htext
    rw [htext] at hcaret
    exact absurd (List.mem_append_right _ List.mem_cons_self) hcaret

/-- A name comes before the names it starts. -/
theorem exact_first {c : String} (hcaret : '^' ∉ c.toList) :
    (askedEntries upstream candidates).Pairwise fun entry later =>
      later.name = Utf8.encode c → ∀ rest : String, '^' ∉ rest.toList →
        entry.name ≠ Utf8.encode (c ++ rest) := by
  rw [askedEntries, List.pairwise_flatMap]
  constructor
  · intro ref _
    rw [UpstreamRef.entries]
    cases hpeeled : ref.peeled with
    | none => simp
    | some id =>
        simp only [Option.map_some, Option.toList_some, List.pairwise_pair]
        intro hname
        have hcaret' : '^' ∈ c.toList := by
          have htext := lossy_peel ref.name
          rw [hname, Utf8.lossy_encode] at htext
          rw [htext]
          exact List.mem_append_right _ List.mem_cons_self
        exact absurd hcaret' hcaret
  · refine (upstream.ordered.filter _).imp ?_
    intro ref ref' hlt entry hentry later hlater hname rest hrest hentryName
    have href' : ref'.name = Utf8.encode c := name_of_not_caret hlater hname hcaret
    have href : ref.name = Utf8.encode (c ++ rest) := by
      refine name_of_not_caret hentry hentryName ?_
      rw [String.toList_append, List.mem_append]
      exact not_or.mpr ⟨hcaret, hrest⟩
    rw [href, href', Utf8.encode_append] at hlt
    exact List.le_append_left hlt

include hutf8 in
/-- A candidate that is a listed name is what a request's listing has for it. -/
theorem find_asked {c : String} (hc : c ∈ candidates) (hlisted : Listed upstream c)
    (hreads : Reads upstream c) :
    ∃ entry ∈ upstream.entries, entry.name = Utf8.encode c ∧
      (askedEntries upstream candidates).find? (fun entry => trim entry.text = c.toList) =
        some entry := by
  obtain ⟨found, hfound⟩ : ∃ found, (askedEntries upstream candidates).find?
      (fun entry => trim entry.text = c.toList) = some found := by
    obtain ⟨entry, hentry, hread⟩ := (reads_iff hutf8 hc).mp hreads
    rw [← Option.isSome_iff_exists, List.find?_isSome]
    exact ⟨entry, hentry, by simpa using hread⟩
  obtain ⟨hread, before, after, hsplit, hbefore⟩ := List.find?_eq_some_iff_append.mp hfound
  have hread : trim found.text = c.toList := by simpa using hread
  have hmem : found ∈ askedEntries upstream candidates := by
    rw [hsplit]
    exact List.mem_append_right _ List.mem_cons_self
  have hentry := askedEntries_subset hmem
  refine ⟨found, hentry, ?_, hfound⟩
  have hname := name_of_asked hutf8 hmem
  obtain ⟨hlast, space, hspace, htext⟩ := (read_iff hentry).mp hread
  -- A name with a caret is read in one way only; without one, trimming might make two names one.
  by_cases hcaret : '^' ∈ c.toList
  · rw [hname, ← String.ofList_toList (s := Utf8.lossy found.name),
      show (Utf8.lossy found.name).toList = c.toList from text_eq_of_caret hentry hread hcaret,
      String.ofList_toList]
  · obtain ⟨exact', hexact, hexactName⟩ := hlisted
    have hexactText : exact'.text = c.toList := by
      rw [Entry.text, hexactName, Utf8.lossy_encode]
    have hcread : trim c.toList = c.toList := by
      rw [← hexactText, (read_iff hexact).mpr ⟨hexactText ▸ hlast, [], by simp, by simp⟩]
    have hexactAsked : exact' ∈ askedEntries upstream candidates :=
      asked_of_reads hc hexact hexactName hcread
    have hspaced : found.name = Utf8.encode (c ++ String.ofList space) := by
      rw [hname]
      congr 1
      apply String.toList_inj.mp
      rw [String.toList_append, String.toList_ofList]
      exact htext
    have hspaceCaret : '^' ∉ (String.ofList space).toList := by
      rw [String.toList_ofList]
      intro hmem
      exact absurd (hspace _ hmem) (by decide)
    rw [hsplit] at hexactAsked
    rcases List.mem_append.mp hexactAsked with hin | hin
    · have hno := hbefore _ hin
      rw [hexactText, hcread] at hno
      simp at hno
    · rcases List.mem_cons.mp hin with heq | hin
      · rw [← heq]
        exact hexactName
      · have hpair : (askedEntries upstream candidates).Pairwise _ := exact_first hcaret
        rw [hsplit, List.pairwise_append] at hpair
        exact absurd hspaced
          ((List.pairwise_cons.mp hpair.2.1).1 _ hin hexactName _ hspaceCaret)

include hcs in
/-- A candidate that is a listed name is what `git ls-remote`'s listing has for it. -/
theorem find_printed {c : String} (hc : c ∈ candidates) {entry : Entry}
    (hentry : entry ∈ upstream.entries) (hname : entry.name = Utf8.encode c)
    (hread : trim entry.text = c.toList) :
    (printedEntries upstream candidates).find? (fun entry => trim entry.text = c.toList) =
      some entry := by
  have hprinted : entry ∈ printedEntries upstream candidates :=
    mem_printedEntries.mpr ⟨hentry, c, hc, hname ▸ tailMatch_self (hcs.star hc)⟩
  obtain ⟨found, hfound⟩ : ∃ found, (printedEntries upstream candidates).find?
      (fun entry => trim entry.text = c.toList) = some found := by
    rw [← Option.isSome_iff_exists, List.find?_isSome]
    exact ⟨entry, hprinted, by simpa using hread⟩
  have hmem := mem_printedEntries.mp (List.mem_of_find?_eq_some hfound)
  have hfoundName := exact_of_printed hcs hmem.1 hmem.2 hc (by simpa using List.find?_some hfound)
  rw [hfound, entry_eq_of_name hmem.1 hentry (hfoundName.trans hname.symm)]

/-! ## The default branch -/

theorem defaultOf_filter (entries : List Entry) :
    defaultOf entries = defaultOf (entries.filter fun entry => entry.text = "HEAD".toList) := by
  unfold defaultOf
  congr 1
  rw [List.filterMap_filter]
  congr 1
  funext entry
  split
  · rfl
  · next hhead =>
      rw [Entry.headBranch, if_neg (by simpa using hhead)]

/-- Only `HEAD` reads as `HEAD`. -/
theorem name_of_text_head {ref : UpstreamRef} (href : ref ∈ upstream.refs) {entry : Entry}
    (hentry : entry ∈ ref.entries) (htext : entry.text = "HEAD".toList) :
    ref.name = Utf8.encode "HEAD" ∧ entry.name = Utf8.encode "HEAD" := by
  have hmem : entry ∈ upstream.entries := List.mem_flatMap.mpr ⟨ref, href, hentry⟩
  rcases List.mem_cons.mp hentry with rfl | hpeeled
  · rcases upstream.named ref href with hname | ⟨rest, hrest⟩
    · exact ⟨hname, hname⟩
    · have hstart : "refs/".toList <+: "HEAD".toList := by
        rw [← htext, Entry.text, ← hrest, Utf8.lossy_encode_append, String.toList_append]
        exact List.prefix_append _ _
      exact absurd hstart (by decide)
  · obtain ⟨id, _, rfl⟩ := Option.map_eq_some_iff.mp (Option.mem_toList.mp hpeeled)
    have hcaret : '^' ∈ "HEAD".toList := by
      rw [← htext, Entry.text, lossy_peel]
      exact List.mem_append_right _ List.mem_cons_self
    exact absurd hcaret (by decide)

include hcs in
/-- A request asks for `HEAD` when `git ls-remote` prints it. -/
theorem asked_head_iff :
    Asked candidates (Utf8.encode "HEAD") ↔ Printed candidates (Utf8.encode "HEAD") := by
  constructor
  · rintro ⟨c, hc, hstart⟩
    rcases hcs.start hc with rfl | ⟨rest, hrest⟩
    · exact ⟨"HEAD", List.mem_cons_self, tailMatch_self (by decide)⟩
    · -- what is left of the candidate still starts with its first character
      exfalso
      obtain ⟨peels, hpeels, hmem⟩ := trimPeels_append c
      obtain ⟨more, hmore⟩ := hstart
      have hhead := congrArg Utf8.lossy hmore
      rw [Utf8.lossy_encode_append, Utf8.lossy_encode] at hhead
      have hchars := congrArg (fun text : String => text.toList.head?) hhead
      simp only [String.toList_append] at hchars
      cases htrim : (trimPeels c).toList with
      | nil =>
          rw [htrim, List.nil_append, ← hrest] at hpeels
          exact absurd (hmem 'r' (hpeels ▸ List.mem_cons_self)) (by decide)
      | cons first text =>
          rw [htrim, ← hrest] at hpeels
          rw [htrim] at hchars
          have hfirst : 'r' = first := (List.cons.inj hpeels).1
          have hfirst' : some first = some 'H' := hchars
          rw [← hfirst] at hfirst'
          exact absurd hfirst' (by decide)
  · rintro ⟨c, hc, hmatch⟩
    rcases hcs.start hc with rfl | ⟨rest, hrest⟩
    · exact ⟨"HEAD", List.mem_cons_self, by decide⟩
    · exfalso
      rcases tailMatch_cases (hcs.star hc) hmatch with hname | ⟨before, hname⟩
      · rw [← Utf8.encode_injective hname] at hrest
        exact absurd (List.cons.inj hrest).1 (by decide)
      · have hslash : (0x2f : UInt8) ∈ Utf8.encode "HEAD" := by
          rw [hname]
          exact List.mem_append_right _ List.mem_cons_self
        exact absurd hslash (by decide)

theorem filter_flatMap_entries {refs : List UpstreamRef} {asked : UpstreamRef → Bool}
    {printed wanted : Entry → Bool} (h : ∀ ref ∈ refs, ∀ entry ∈ ref.entries,
      wanted entry = true → asked ref = printed entry) :
    ((refs.filter asked).flatMap UpstreamRef.entries).filter wanted =
      ((refs.flatMap UpstreamRef.entries).filter printed).filter wanted := by
  induction refs with
  | nil => rfl
  | cons ref refs ih =>
      have hrest := ih fun ref href => h ref (List.mem_cons_of_mem _ href)
      have hfirst : (if asked ref then ref.entries else []).filter wanted =
          (ref.entries.filter printed).filter wanted := by
        rw [List.filter_filter]
        split
        · next hasked =>
            apply List.filter_congr
            intro entry hentry
            cases hwanted : wanted entry with
            | false => rfl
            | true => rw [← h ref List.mem_cons_self entry hentry hwanted, hasked]; rfl
        · next hasked =>
            rw [List.filter_nil, eq_comm, List.filter_eq_nil_iff]
            intro entry hentry hboth
            obtain ⟨hwanted, hprinted⟩ := (Bool.and_eq_true _ _).mp hboth
            rw [← h ref List.mem_cons_self entry hentry hwanted] at hprinted
            exact hasked hprinted
      rw [List.flatMap_cons, List.filter_append, List.filter_append, ← hrest, ← hfirst,
        ← List.filter_append]
      congr 1
      cases hasked : asked ref with
      | false => rw [List.filter_cons_of_neg (by simp [hasked])]; rfl
      | true => rw [List.filter_cons_of_pos hasked, List.flatMap_cons]; rfl

include hcs in
theorem defaultOf_eq :
    defaultOf (askedEntries upstream candidates) = defaultOf (printedEntries upstream candidates) := by
  rw [defaultOf_filter, defaultOf_filter (printedEntries upstream candidates)]
  congr 1
  apply filter_flatMap_entries
  intro ref href entry hentry hwanted
  obtain ⟨hname, hentryName⟩ := name_of_text_head href hentry (by simpa using hwanted)
  rw [Bool.eq_iff_iff, asked_iff, printed_iff, hname, hentryName]
  exact asked_head_iff hcs

end Listings

/-! ## One answer -/

/-- The two ways to ask give one answer: both list a symbolic ref the reader refuses or neither does,
and where neither does, the first candidate a listed name reads as is itself a listed name. -/
structure Agrees (upstream : Upstream) (candidates : List String) : Prop where
  refused : AsksRefused upstream candidates ↔ PrintsRefused upstream candidates
  spaced : ¬ AsksRefused upstream candidates → ∀ before c after, candidates = before ++ c :: after →
    (∀ earlier ∈ before, ¬ Reads upstream earlier) → Reads upstream c → Listed upstream c

section Tips

variable {upstream : Upstream} {candidates : List String} (hcs : Candidates candidates)
  (hutf8 : ∀ ref ∈ upstream.refs, Asked candidates ref.name →
    Utf8.encode (Utf8.lossy ref.name) = ref.name)
include hcs hutf8

omit hcs in
theorem find_asked_eq_none {c : String} (hc : c ∈ candidates) (h : ¬ Reads upstream c) :
    (askedEntries upstream candidates).find? (fun entry => trim entry.text = c.toList) = none := by
  rw [List.find?_eq_none]
  intro entry hentry hread
  exact h ((reads_iff hutf8 hc).mpr ⟨entry, hentry, by simpa using hread⟩)

omit hutf8 in
theorem find_printed_eq_none {c : String} (hc : c ∈ candidates)
    (h : Listed upstream c → ¬ Reads upstream c) :
    (printedEntries upstream candidates).find? (fun entry => trim entry.text = c.toList) = none := by
  rw [List.find?_eq_none]
  intro entry hentry hread
  obtain ⟨hlisted, hreads⟩ := reads_of_printed hcs hc hentry (by simpa using hread)
  exact h hlisted hreads

theorem tipOf_eq_of_listed
    (h : ∀ before c after, candidates = before ++ c :: after →
      (∀ earlier ∈ before, ¬ Reads upstream earlier) → Reads upstream c → Listed upstream c) :
    tipOf (askedEntries upstream candidates) candidates =
      tipOf (printedEntries upstream candidates) candidates := by
  -- induction on the candidates that are left: no listed name reads as one before them
  suffices hrest : ∀ after before, candidates = before ++ after →
      (∀ earlier ∈ before, ¬ Reads upstream earlier) →
      tipOf (askedEntries upstream candidates) after =
        tipOf (printedEntries upstream candidates) after from
      hrest candidates [] rfl fun _ hc => absurd hc List.not_mem_nil
  intro after
  induction after with
  | nil => exact fun _ _ _ => rfl
  | cons c after ih =>
      intro before hsplit hbefore
      have hc : c ∈ candidates := hsplit ▸ List.mem_append_right _ List.mem_cons_self
      unfold tipOf at ih ⊢
      rw [List.findSome?_cons, List.findSome?_cons]
      by_cases hreads : Reads upstream c
      · obtain ⟨entry, hentry, hname, hfound⟩ :=
          find_asked hutf8 hc (h before c after hsplit hbefore hreads) hreads
        have hread : trim entry.text = c.toList := by simpa using List.find?_some hfound
        rw [hfound, find_printed hcs hc hentry hname hread, defaultOf_eq hcs]
        rfl
      · rw [find_asked_eq_none hutf8 hc hreads, find_printed_eq_none hcs hc fun _ => hreads]
        refine ih (before ++ [c]) (by rw [hsplit, List.append_assoc]; rfl) ?_
        intro earlier hearlier
        rcases List.mem_append.mp hearlier with hmem | hmem
        · exact hbefore earlier hmem
        · rw [List.mem_singleton.mp hmem]
          exact hreads

theorem tipOf_ne_of_not_listed {before after : List String} {c : String}
    (hsplit : candidates = before ++ c :: after)
    (hbefore : ∀ earlier ∈ before, ¬ Reads upstream earlier) (hreads : Reads upstream c)
    (hlisted : ¬ Listed upstream c) :
    tipOf (askedEntries upstream candidates) candidates ≠
      tipOf (printedEntries upstream candidates) candidates := by
  have hc : c ∈ candidates := hsplit ▸ List.mem_append_right _ List.mem_cons_self
  have hearlier : ∀ earlier ∈ before, earlier ∈ candidates := by
    intro earlier hmem
    rw [hsplit]
    exact List.mem_append_left _ hmem
  -- a request's listing has something for `c`, and `git ls-remote`'s has nothing
  obtain ⟨found, hfound⟩ : ∃ found, (askedEntries upstream candidates).find?
      (fun entry => trim entry.text = c.toList) = some found := by
    obtain ⟨entry, hentry, hread⟩ := (reads_iff hutf8 hc).mp hreads
    rw [← Option.isSome_iff_exists, List.find?_isSome]
    exact ⟨entry, hentry, by simpa using hread⟩
  intro htips
  unfold tipOf at htips
  have hnone : ∀ {f : String → Option RemoteTip}, (∀ earlier ∈ before, f earlier = none) →
      candidates.findSome? f = (c :: after).findSome? f := by
    intro f hf
    rw [hsplit, List.findSome?_append, List.findSome?_eq_none_iff.mpr hf, Option.none_or]
  rw [hnone fun earlier hmem => by
      rw [find_asked_eq_none hutf8 (hearlier earlier hmem) (hbefore earlier hmem), Option.map_none],
    hnone fun earlier hmem => by
      rw [find_printed_eq_none hcs (hearlier earlier hmem) fun _ => hbefore earlier hmem,
        Option.map_none],
    List.findSome?_cons, List.findSome?_cons, hfound,
    find_printed_eq_none hcs hc fun h => absurd h hlisted] at htips
  obtain ⟨later, hlater, hlaterTip⟩ := List.exists_of_findSome?_eq_some htips.symm
  obtain ⟨entry, _, htip⟩ := Option.map_eq_some_iff.mp hlaterTip
  have hrefName : trimPeels later = trimPeels c := congrArg RemoteTip.refName htip
  rcases hcs.refName_ne hsplit hlater with hcaret | hne
  · obtain ⟨entry, hentry, text, hname, hread⟩ := hreads
    have htext : entry.text = text.toList := by rw [Entry.text, hname, Utf8.lossy_encode]
    have heq := text_eq_of_caret hentry (htext ▸ hread) hcaret
    exact hlisted ⟨entry, hentry, by rw [hname, String.toList_inj.mp (htext.symm.trans heq)]⟩
  · exact hne hrefName

end Tips

/-- What a request that is answered lists. -/
theorem parse_asked {upstream : Upstream} {post : List UInt8 → Option (List UInt8)}
    {candidates : List String} {lines : List UInt8} (hserves : Serves upstream post)
    (hcs : Candidates candidates) (h : lsRefs post candidates = some lines) :
    (parseLsRemoteOutput lines candidates =
        if (askedEntries upstream candidates).any Entry.refused then .error malformedSymref
        else .ok (tipOf (askedEntries upstream candidates) candidates)) ∧
      ∀ ref ∈ upstream.refs, Asked candidates ref.name →
        Utf8.encode (Utf8.lossy ref.name) = ref.name := by
  obtain ⟨body, hbody, h⟩ := Option.bind_eq_some_iff.mp h
  split at h
  · cases h
  · have hstarts : refPrefixes (requestBody candidates) =
        (prefixesOf candidates).map Utf8.encode := by
      apply refPrefixes_requestBody
      intro start hstart
      obtain ⟨c, hc, rfl⟩ := mem_prefixesOf.mp hstart
      exact Nat.lt_of_le_of_lt (trimPeels_isPrefix c).length_le (hcs.fits hc)
    have hfits := hserves.fits hbody
    rw [hserves.answers hbody, hstarts, answerOf] at h
    rw [hstarts] at hfits
    have hne : ∀ ref ∈ under upstream ((prefixesOf candidates).map Utf8.encode), ref.name ≠ [] := by
      intro ref href hnil
      rcases upstream.named ref (mem_under.mp href).1 with hname | hname
      · rw [hnil] at hname
        exact absurd hname (by decide)
      · rw [hnil] at hname
        exact absurd hname (by decide)
    obtain ⟨htext, hnames⟩ := lsRemoteLines_answer hfits hne h
    constructor
    · refine parseLsRemoteOutput_of_text ?_ htext candidates
      intro entry hentry
      exact Upstream.entries_ok (askedEntries_subset hentry)
    · intro ref href hasked
      exact hnames ref (mem_under.mpr ⟨href, hasked⟩)

theorem parse_printed (upstream : Upstream) (candidates : List String) :
    parseLsRemoteOutput (gitLsRemote upstream candidates) candidates =
      if (printedEntries upstream candidates).any Entry.refused then .error malformedSymref
      else .ok (tipOf (printedEntries upstream candidates) candidates) :=
  parseLsRemoteOutput_listing
    (fun _ hentry => Upstream.entries_ok (mem_printedEntries.mp hentry).1) candidates

theorem answers_eq_iff {upstream : Upstream} {post : List UInt8 → Option (List UInt8)}
    {candidates : List String} {lines : List UInt8} (hserves : Serves upstream post)
    (hcs : Candidates candidates) (h : lsRefs post candidates = some lines) :
    parseLsRemoteOutput lines candidates =
        parseLsRemoteOutput (gitLsRemote upstream candidates) candidates ↔
      Agrees upstream candidates := by
  obtain ⟨hasked, hutf8⟩ := parse_asked hserves hcs h
  rw [hasked, parse_printed]
  by_cases hasks : AsksRefused upstream candidates
  · rw [if_pos (asked_any_refused.mpr hasks)]
    by_cases hprints : PrintsRefused upstream candidates
    · rw [if_pos (printed_any_refused.mpr hprints)]
      exact ⟨fun _ => ⟨iff_of_true hasks hprints, fun hno => absurd hasks hno⟩, fun _ => rfl⟩
    · rw [if_neg fun hany => hprints (printed_any_refused.mp hany)]
      exact ⟨nofun, fun hagrees => absurd (hagrees.refused.mp hasks) hprints⟩
  · rw [if_neg fun hany => hasks (asked_any_refused.mp hany)]
    by_cases hprints : PrintsRefused upstream candidates
    · rw [if_pos (printed_any_refused.mpr hprints)]
      exact ⟨nofun, fun hagrees => absurd (hagrees.refused.mpr hprints) hasks⟩
    · rw [if_neg fun hany => hprints (printed_any_refused.mp hany)]
      constructor
      · intro htips
        refine ⟨iff_of_false hasks hprints, fun _ before c after hsplit hbefore hreads => ?_⟩
        by_contra hlisted
        exact tipOf_ne_of_not_listed hcs hutf8 hsplit hbefore hreads hlisted (Except.ok.inj htips)
      · intro hagrees
        rw [tipOf_eq_of_listed hcs hutf8 (hagrees.spaced hasks)]

/-- Whenever a request is answered, it gives the result `git ls-remote` gives exactly when the two
listings agree on the refs the reader refuses and no name is read as another. -/
theorem lsRemoteTipWith_agrees_iff (upstream : Upstream)
    (post : List UInt8 → Option (List UInt8)) (hserves : Serves upstream post) (refName : String)
    (hanswered : ∀ candidates, prepareLsRemote refName = .ok candidates → candidates ≠ [] →
      (lsRefs post candidates).isSome) :
    (lsRemoteTipWith post (fun candidates => .ok (gitLsRemote upstream candidates)) refName true =
        lsRemoteTipWith post (fun candidates => .ok (gitLsRemote upstream candidates)) refName
          false) ↔
      ∀ candidates, prepareLsRemote refName = .ok candidates → Agrees upstream candidates := by
  cases hprepare : prepareLsRemote refName with
  | error e => simp [lsRemoteTipWith, hprepare, bind, Except.bind]
  | ok candidates =>
      cases candidates with
      | nil =>
          have hnone : Agrees upstream [] := by
            refine ⟨iff_of_false ?_ ?_, ?_⟩
            · rintro ⟨_, _, _, c, hc, _⟩
              cases hc
            · rintro ⟨_, _, _, c, hc, _⟩
              cases hc
            · intro _ before c after hsplit
              cases before <;> cases hsplit
          simp [lsRemoteTipWith, hprepare, bind, Except.bind, hnone]
      | cons c rest =>
          have hne := List.cons_ne_nil c rest
          obtain ⟨lines, hlines⟩ := Option.isSome_iff_exists.mp (hanswered _ hprepare hne)
          rw [lsRemoteTipWith_answered hprepare hne hlines, lsRemoteTipWith_git hprepare hne rfl,
            answers_eq_iff hserves (candidates_of_prepare hprepare hne) hlines]
          constructor
          · intro hagrees candidates heq
            cases heq
            exact hagrees
          · intro hagrees
            exact hagrees _ rfl

/-! ## A server that answers -/

def server (upstream : Upstream) (request : List UInt8) : Option (List UInt8) :=
  some (answerOf upstream (refPrefixes request))

/-- Each ref's line is in UTF-8 and fits a packet, and all of them fit an answer. -/
structure Answerable (upstream : Upstream) : Prop where
  fits : ∀ ref ∈ upstream.refs, (answerLine ref).length + 4 < 65536
  utf8 : ∀ ref ∈ upstream.refs, (Utf8.strict (answerLine ref)).isSome
  few : upstream.refs.length ≤ 15

variable {upstream : Upstream}

theorem serves_server (h : Answerable upstream) : Serves upstream (server upstream) where
  answers := by
    intro request answer hanswer
    exact (Option.some.inj hanswer).symm
  fits := fun _ ref href => h.fits ref (List.mem_of_mem_filter href)

theorem lsRemoteLines_isSome {refs : List UpstreamRef}
    (hfits : ∀ ref ∈ refs, (answerLine ref).length + 4 < 65536)
    (hlines : ∀ ref ∈ refs, (refLines (answerLine ref)).isSome) :
    (lsRemoteLines (refs.flatMap (fun ref => PktLine.packet (answerLine ref)) ++
      PktLine.fourHex 0)).isSome := by
  induction refs with
  | nil =>
      rw [List.flatMap_nil, List.nil_append, lsRemoteLines_flush]
      rfl
  | cons ref refs ih =>
      have hrest := ih (fun ref href => hfits ref (List.mem_cons_of_mem _ href))
        (fun ref href => hlines ref (List.mem_cons_of_mem _ href))
      obtain ⟨out, hout⟩ := Option.isSome_iff_exists.mp (hlines ref List.mem_cons_self)
      obtain ⟨more, hmore⟩ := Option.isSome_iff_exists.mp hrest
      rw [List.flatMap_cons, List.append_assoc,
        lsRemoteLines_packet (hfits ref List.mem_cons_self), hout, Option.bind_some, hmore]
      rfl

theorem lsRefs_server (h : Answerable upstream) (candidates : List String) :
    (lsRefs (server upstream) candidates).isSome := by
  have hunder : ∀ starts, ∀ ref ∈ under upstream starts, ref ∈ upstream.refs :=
    fun _ _ href => List.mem_of_mem_filter href
  have hsize : ∀ refs : List UpstreamRef, (∀ ref ∈ refs, ref ∈ upstream.refs) →
      (refs.flatMap fun ref => PktLine.packet (answerLine ref)).length ≤ refs.length * 65536 := by
    intro refs hrefs
    induction refs with
    | nil => simp
    | cons ref refs ih =>
        have hrest := ih fun ref href => hrefs ref (List.mem_cons_of_mem _ href)
        have hfit := h.fits ref (hrefs ref List.mem_cons_self)
        rw [List.flatMap_cons, List.length_append, PktLine.length_packet hfit, List.length_cons]
        omega
  have hne : ∀ ref ∈ upstream.refs, ref.name ≠ [] := by
    intro ref href hnil
    rcases upstream.named ref href with hname | hname
    · rw [hnil] at hname
      exact absurd hname (by decide)
    · rw [hnil] at hname
      exact absurd hname (by decide)
  have hlength : (answerOf upstream (refPrefixes (requestBody candidates))).length ≤ maxAnswer := by
    have hfew : (under upstream (refPrefixes (requestBody candidates))).length ≤ 15 :=
      Nat.le_trans (List.length_filter_le _ _) h.few
    have hbytes := hsize _ (hunder (refPrefixes (requestBody candidates)))
    rw [answerOf, List.length_append, PktLine.length_fourHex, maxAnswer]
    omega
  rw [lsRefs, server, Option.bind_some, if_neg (Nat.not_lt.mpr hlength)]
  refine lsRemoteLines_isSome (fun ref href => h.fits ref (hunder _ ref href)) ?_
  intro ref href
  obtain ⟨text, htext⟩ := Option.isSome_iff_exists.mp (h.utf8 ref (hunder _ ref href))
  rw [refLines_of_strict (hne ref (hunder _ ref href)) htext]
  rfl

theorem head_refByte : ∀ b ∈ Utf8.encode "HEAD", refByte b = true := forall_mem_of_all (by decide)

theorem main_refByte : ∀ b ∈ Utf8.encode "refs/heads/main", refByte b = true :=
  forall_mem_of_all (by decide)

theorem mainTarget_refByte :
    ∀ target ∈ some (Utf8.encode "refs/heads/main"), ∀ b ∈ target, refByte b = true := by
  rintro target htarget
  cases htarget
  exact main_refByte

theorem noTarget_refByte : ∀ target ∈ (none : Option (List UInt8)), ∀ b ∈ target, refByte b = true := by
  simp

theorem notPeeled : ∀ id ∈ (none : Option String), validateObjectId id = true := by simp

/-- A branch, and a symbolic ref whose name starts as the branch's does. -/
def aliased : Upstream where
  refs :=
    [{ name := Utf8.encode "refs/heads/main"
       id := "dbfe46bd1d068a7e5b41086298ce23052c8d521f"
       symref := none
       peeled := none
       name_ok := main_refByte
       id_ok := by decide
       symref_ok := noTarget_refByte
       peeled_ok := notPeeled },
     { name := Utf8.encode "refs/heads/main-alias"
       id := "dbfe46bd1d068a7e5b41086298ce23052c8d521f"
       symref := some (Utf8.encode "refs/heads/main")
       peeled := none
       name_ok := forall_mem_of_all (by decide)
       id_ok := by decide
       symref_ok := mainTarget_refByte
       peeled_ok := notPeeled }]
  named := by decide
  ordered := by decide

theorem aliased_answerable : Answerable aliased where
  fits := by decide
  utf8 := by decide
  few := by decide

/-- Asked for the branch, the request's listing holds the symbolic ref and fails; `git ls-remote`'s
does not hold it, and names the branch's commit. -/
theorem aliased_answers_differ :
    Serves aliased (server aliased) ∧
      (∀ candidates, (lsRefs (server aliased) candidates).isSome) ∧
      lsRemoteTipWith (server aliased) (fun candidates => .ok (gitLsRemote aliased candidates))
        "main" true = .error malformedSymref ∧
      lsRemoteTipWith (server aliased) (fun candidates => .ok (gitLsRemote aliased candidates))
        "main" false =
        .ok (some ⟨"dbfe46bd1d068a7e5b41086298ce23052c8d521f", "refs/heads/main", none⟩) := by
  have hserves := serves_server aliased_answerable
  have hanswered := lsRefs_server aliased_answerable
  have hprepare : prepareLsRemote "main" =
      .ok ["refs/heads/main", "refs/tags/main^\x7b\x7d", "refs/tags/main"] := by decide
  have hcs := candidates_of_prepare hprepare (by simp)
  refine ⟨hserves, hanswered, ?_, ?_⟩
  · obtain ⟨lines, hlines⟩ := Option.isSome_iff_exists.mp
      (hanswered ["refs/heads/main", "refs/tags/main^\x7b\x7d", "refs/tags/main"])
    rw [lsRemoteTipWith_answered hprepare (by simp) hlines, (parse_asked hserves hcs hlines).1]
    exact if_pos (by decide)
  · rw [lsRemoteTipWith_git hprepare (by simp) rfl, parse_printed]
    exact (if_neg (by decide)).trans (by decide)

/-- `HEAD` at a branch, and an annotated tag. -/
def tagged : Upstream where
  refs :=
    [{ name := Utf8.encode "HEAD"
       id := "dbfe46bd1d068a7e5b41086298ce23052c8d521f"
       symref := some (Utf8.encode "refs/heads/main")
       peeled := none
       name_ok := head_refByte
       id_ok := by decide
       symref_ok := mainTarget_refByte
       peeled_ok := notPeeled },
     { name := Utf8.encode "refs/heads/main"
       id := "dbfe46bd1d068a7e5b41086298ce23052c8d521f"
       symref := none
       peeled := none
       name_ok := main_refByte
       id_ok := by decide
       symref_ok := noTarget_refByte
       peeled_ok := notPeeled },
     { name := Utf8.encode "refs/tags/v1"
       id := "0123456789abcdef0123456789abcdef01234567"
       symref := none
       peeled := some "dbfe46bd1d068a7e5b41086298ce23052c8d521f"
       name_ok := forall_mem_of_all (by decide)
       id_ok := by decide
       symref_ok := noTarget_refByte
       peeled_ok := by
         rintro id hid
         cases hid
         decide }]
  named := by decide
  ordered := by decide

theorem tagged_answerable : Answerable tagged where
  fits := by decide
  utf8 := by decide
  few := by decide

/-- Upstreams without a symbolic ref that is refused and without names that white space follows. -/
theorem agrees_of_plain (hrefused : ∀ ref ∈ upstream.refs, ¬ refusedRef ref)
    (hplain : ∀ entry ∈ upstream.entries, trim entry.text = entry.text) (candidates : List String) :
    Agrees upstream candidates := by
  refine ⟨iff_of_false ?_ ?_, ?_⟩
  · rintro ⟨ref, href, hno, _⟩
    exact hrefused ref href hno
  · rintro ⟨ref, href, hno, _⟩
    exact hrefused ref href hno
  · rintro _ _ c _ _ _ ⟨entry, hentry, text, hname, hread⟩
    have htext : entry.text = text.toList := by rw [Entry.text, hname, Utf8.lossy_encode]
    have hc : text = c := by
      have hsame := hplain entry hentry
      rw [htext, hread] at hsame
      exact String.toList_inj.mp hsame.symm
    exact ⟨entry, hentry, by rw [hname, hc]⟩

/-- The tag is found either way. -/
theorem tagged_answers_agree :
    lsRemoteTipWith (server tagged) (fun candidates => .ok (gitLsRemote tagged candidates)) "v1" true =
      lsRemoteTipWith (server tagged) (fun candidates => .ok (gitLsRemote tagged candidates)) "v1"
        false :=
  (lsRemoteTipWith_agrees_iff tagged (server tagged) (serves_server tagged_answerable) "v1"
    fun candidates _ _ => lsRefs_server tagged_answerable candidates).mpr
    fun candidates _ => agrees_of_plain (by unfold refusedRef; decide) (by decide) candidates

end Ripclone.LsRefs
