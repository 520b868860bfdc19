import Ripclone.Provider
import Ripclone.Library.Text

/-!
# Mirrors of different repositories

The path in a mirror's name is escaped, so two repositories of one provider have mirrors of their
own. The provider's id is not: an id that goes on after a `_` reads as one that ends there and a
path that starts with the rest.
-/

namespace Ripclone.Provider

open Ripclone.Library

/-! ## The escape -/

def escapeChar (c : Char) : Text :=
  if c = '%' then ['%', '2', '5'] else if c = '/' then ['%', '2', 'F']
  else if c = '\\' then ['%', '5', 'C'] else [c]

section Escape

variable {c d : Char} {path path' text rest : Text}

theorem escapePath_eq (path : Text) : escapePath path = path.flatMap escapeChar := by
  simp only [escapePath, replace, List.flatMap_assoc]
  congr 1
  funext c
  unfold escapeChar
  split
  · rfl
  · next hpercent =>
      by_cases hslash : c = '/'
      · subst hslash
        rfl
      · simp [hslash]

@[simp] theorem escapePath_nil : escapePath [] = [] := rfl

@[simp] theorem escapePath_cons : escapePath (c :: path) = escapeChar c ++ escapePath path := by
  rw [escapePath_eq, escapePath_eq, List.flatMap_cons]

@[simp] theorem escapePath_append : escapePath (path ++ path') = escapePath path ++ escapePath path' := by
  rw [escapePath_eq, escapePath_eq, escapePath_eq, List.flatMap_append]

/-- What a character's escape is, and how it begins. -/
theorem escapeChar_cases (c : Char) : c ≠ '%' ∧ escapeChar c = [c] ∨
    c = '%' ∧ escapeChar c = ['%', '2', '5'] ∨ c = '/' ∧ escapeChar c = ['%', '2', 'F'] ∨
    c = '\\' ∧ escapeChar c = ['%', '5', 'C'] := by
  unfold escapeChar
  split
  · next h => exact .inr (.inl ⟨h, rfl⟩)
  · next hpercent =>
      split
      · next h => exact .inr (.inr (.inl ⟨h, rfl⟩))
      · split
        · next h => exact .inr (.inr (.inr ⟨h, rfl⟩))
        · exact .inl ⟨hpercent, rfl⟩

/-- The escapes of characters are a code that reads back from the left. -/
theorem escapeChar_append_inj (h : escapeChar c ++ text = escapeChar d ++ rest) :
    c = d ∧ text = rest := by
  rcases escapeChar_cases c with ⟨hc, hec⟩ | ⟨rfl, hec⟩ | ⟨rfl, hec⟩ | ⟨rfl, hec⟩ <;>
    rcases escapeChar_cases d with ⟨hd, hed⟩ | ⟨rfl, hed⟩ | ⟨rfl, hed⟩ | ⟨rfl, hed⟩
  all_goals
    simp only [hec, hed, List.cons_append, List.nil_append, List.cons.injEq] at h
    grind

theorem escapeChar_ne_nil : escapeChar c ≠ [] := by
  rcases escapeChar_cases c with ⟨_, h⟩ | ⟨_, h⟩ | ⟨_, h⟩ | ⟨_, h⟩ <;> simp [h]

theorem escapePath_inj (h : escapePath path = escapePath path') : path = path' := by
  induction path generalizing path' with
  | nil =>
      cases path' with
      | nil => rfl
      | cons d path' =>
          rw [escapePath_cons, escapePath_nil] at h
          exact absurd (List.append_eq_nil_iff.mp h.symm).1 escapeChar_ne_nil
  | cons c path ih =>
      cases path' with
      | nil =>
          rw [escapePath_cons, escapePath_nil] at h
          exact absurd (List.append_eq_nil_iff.mp h).1 escapeChar_ne_nil
      | cons d path' =>
          rw [escapePath_cons, escapePath_cons] at h
          obtain ⟨rfl, hrest⟩ := escapeChar_append_inj h
          rw [ih hrest]

theorem eq_of_underscore_mem (h : '_' ∈ escapeChar c) : c = '_' := by
  rcases escapeChar_cases c with ⟨_, hc⟩ | ⟨_, hc⟩ | ⟨_, hc⟩ | ⟨_, hc⟩
  · rw [hc] at h
    exact (List.mem_singleton.mp h).symm
  all_goals
    rw [hc] at h
    simp at h

/-- An escaped path that goes on after a `_` is the escape of a path that does. -/
theorem escapePath_split (h : escapePath path = text ++ '_' :: escapePath rest) :
    ∃ start, path = start ++ '_' :: rest ∧ text = escapePath start := by
  induction path generalizing text with
  | nil => simp at h
  | cons c path ih =>
      rw [escapePath_cons] at h
      rcases List.append_eq_append_iff.mp h with ⟨more, htext, hmore⟩ | ⟨more, hc, hmore⟩
      · obtain ⟨start, rfl, rfl⟩ := ih hmore
        refine ⟨c :: start, rfl, ?_⟩
        rw [escapePath_cons]
        exact htext
      · -- The `_` is in the escape of `c`, or right after it.
        cases more with
        | nil =>
            rw [List.nil_append] at hmore
            rw [List.append_nil] at hc
            have hrest : escapePath path = [] ++ '_' :: escapePath rest := hmore.symm
            obtain ⟨start, hpath, hstart⟩ := ih hrest
            refine ⟨c :: start, by rw [hpath]; rfl, ?_⟩
            rw [escapePath_cons, ← hstart, List.append_nil]
            exact hc.symm
        | cons first more =>
            obtain ⟨rfl, hrest⟩ := List.cons.inj hmore
            obtain rfl : c = '_' := eq_of_underscore_mem (by rw [hc]; simp)
            have hsingle : ['_'] = text ++ '_' :: more := hc
            obtain ⟨rfl, _⟩ := (List.append_eq_singleton_iff.mp hsingle.symm).resolve_right (by simp)
            obtain rfl : more = [] := by simpa using hsingle
            rw [escapePath_inj hrest]
            exact ⟨[], rfl, rfl⟩

end Escape

/-! ## Which repositories are admitted -/

section Admitted

variable {registry : ProviderRegistry} {provider : ProviderInstance} {repo : RepoId}
variable {start path : Text}

/-- A repository is admitted when its provider is configured, under an id without `/`, and accepts
its path. -/
theorem admits_iff : registry.Admits repo ↔ ∃ provider, registry.get repo.provider = some provider ∧
    '/' ∉ repo.provider ∧ validateRepoPath provider repo = .ok () := by
  constructor
  · rintro ⟨rest, h⟩
    unfold ProviderRegistry.repoFromPath at h
    split at h
    · next found provider hfound =>
        obtain ⟨⟨⟩, hvalid, hrepo⟩ := bind_eq_ok.mp h
        obtain rfl : found = repo := by simpa using hrepo
        unfold ProviderRegistry.resolveRepoId at hfound
        split at hfound
        · next id segment segments hsplit =>
            obtain ⟨instance', hget, hpair⟩ := Option.bind_eq_some_iff.mp hfound
            obtain ⟨rfl, rfl⟩ := Prod.mk.inj (Option.some.inj hpair)
            have hid : instance'.id = id := by simpa using List.find?_some hget
            refine ⟨instance', ?_, ?_, hvalid⟩
            · show registry.get instance'.id = some instance'
              rw [hid]
              exact hget
            · show '/' ∉ instance'.id
              rw [hid]
              exact not_mem_of_mem_splitOn (hsplit ▸ List.mem_cons_self)
        · cases hfound
    · cases h
  · rintro ⟨provider, hget, hslash, hvalid⟩
    have hid : provider.id = repo.provider := by simpa using List.find?_some hget
    refine ⟨repo.provider ++ '/' :: repo.path, ?_⟩
    have hsplit : (repo.provider ++ '/' :: repo.path).splitOn '/' =
        repo.provider :: repo.path.splitOn '/' := List.splitOn_append_cons_self_of_not_mem hslash _
    obtain ⟨segment, segments, hsegments⟩ :=
      List.exists_cons_of_ne_nil (List.splitOn_ne_nil '/' repo.path)
    have hpath : ['/'].intercalate (segment :: segments) = repo.path := by
      rw [← hsegments]
      exact List.intercalate_splitOn '/'
    have hresolve : registry.resolveRepoId (repo.provider ++ '/' :: repo.path) =
        some (repo, provider) := by
      simp only [ProviderRegistry.resolveRepoId, hsplit, hsegments, hget, hpath, hid,
        Option.bind_eq_bind, Option.bind_some, Option.pure_def]
    simp [ProviderRegistry.repoFromPath, hresolve, hvalid, bind, Except.bind, pure, Except.pure]

/-! ### A path with another end -/

theorem byteLen_append (path path' : Text) : byteLen (path ++ path') = byteLen path + byteLen path' := by
  simp [byteLen]

theorem byteLen_pos (h : path ≠ []) : 0 < byteLen path := by
  obtain ⟨c, rest, rfl⟩ := List.exists_cons_of_ne_nil h
  have := c.utf8Size_pos
  simp only [byteLen, List.map_cons, List.sum_cons]
  omega

/-- A path's segments, up to the one an end is put after. -/
theorem splitOn_append_underscore (start path : Text) : ∃ segments last first others,
    (start ++ ['_', 'x']).splitOn '/' = segments ++ [last ++ ['_', 'x']] ∧
    (start ++ '_' :: path).splitOn '/' = segments ++ (last ++ '_' :: first) :: others := by
  induction start with
  | nil =>
      obtain ⟨first, others, hsplit⟩ := List.exists_cons_of_ne_nil (List.splitOn_ne_nil '/' path)
      refine ⟨[], [], first, others, by decide, ?_⟩
      rw [List.nil_append, List.splitOn_cons_eq_if_modifyHead, hsplit]
      rfl
  | cons c start ih =>
      obtain ⟨segments, last, first, others, hshort, hlong⟩ := ih
      rw [List.cons_append, List.cons_append, List.splitOn_cons_eq_if_modifyHead,
        List.splitOn_cons_eq_if_modifyHead, hshort, hlong]
      split
      · exact ⟨[] :: segments, last, first, others, rfl, rfl⟩
      · cases segments with
        | nil => exact ⟨[], c :: last, first, others, rfl, rfl⟩
        | cons segment segments => exact ⟨(c :: segment) :: segments, last, first, others, rfl, rfl⟩

theorem validateOpaquePath_ok {path : Text} : validateOpaquePath path = .ok () ↔
    path ≠ [] ∧ byteLen path ≤ 512 ∧ '\x00' ∉ path ∧ '\\' ∉ path ∧
    (∀ c ∈ path, isControl c = false) ∧ ¬['/'].isPrefixOf path ∧ ['.', '.'] ∉ path.splitOn '/' := by
  simp [validateOpaquePath, and_assoc]

theorem validateRepoIdInner_ok {id : Text} : validateRepoIdInner id = .ok () ↔
    id ≠ [] ∧ byteLen id ≤ 128 ∧ '/' ∉ id ∧ '\\' ∉ id ∧ '\x00' ∉ id ∧ id ≠ ['.'] ∧
    id ≠ ['.', '.'] ∧ ∀ c ∈ id, repoIdChar c = true := by
  simp [validateRepoIdInner, and_assoc]

theorem opaque_with_end (hpath : path ≠ []) (h : validateOpaquePath (start ++ '_' :: path) = .ok ()) :
    validateOpaquePath (start ++ ['_', 'x']) = .ok () := by
  rw [validateOpaquePath_ok] at h ⊢
  obtain ⟨_, hlen, hnul, hback, hcontrol, hslash, hdots⟩ := h
  have hmem : ∀ {c}, c ∈ start ++ ['_', 'x'] → c ≠ 'x' → c ∈ start ++ '_' :: path := by
    intro c hc hne
    simp only [List.mem_append, List.mem_cons, List.not_mem_nil, or_false] at hc ⊢
    rcases hc with hstart | rfl | rfl
    · exact .inl hstart
    · exact .inr (.inl rfl)
    · exact absurd rfl hne
  refine ⟨by simp, ?_, ?_, ?_, ?_, ?_, ?_⟩
  · have hpos := byteLen_pos hpath
    have hlong : byteLen (start ++ '_' :: path) = byteLen start + 1 + byteLen path := by
      rw [byteLen_append]
      show _ + (1 + byteLen path) = _
      omega
    have hshort : byteLen (start ++ ['_', 'x']) = byteLen start + 2 := byteLen_append _ _
    omega
  · exact fun hc => hnul (hmem hc (by decide))
  · exact fun hc => hback (hmem hc (by decide))
  · intro c hc
    by_cases hx : c = 'x'
    · rw [hx]
      decide
    · exact hcontrol c (hmem hc hx)
  · cases start with
    | nil => decide
    | cons c start => simpa using hslash
  · intro hdot
    obtain ⟨segments, last, first, others, hshort, hlong⟩ := splitOn_append_underscore start path
    rw [hshort, List.mem_append, List.mem_singleton] at hdot
    rcases hdot with hsegment | hlast
    · apply hdots
      rw [hlong]
      exact List.mem_append_left _ hsegment
    · have hend := congrArg List.getLast? hlast
      simp at hend

theorem inner_with_end (hpath : path ≠ [])
    (h : validateRepoIdInner (start ++ '_' :: path) = .ok ()) :
    validateRepoIdInner (start ++ ['_', 'x']) = .ok () := by
  rw [validateRepoIdInner_ok] at h ⊢
  obtain ⟨_, hlen, hslash, hback, hnul, _, _, hchars⟩ := h
  have hmem : ∀ {c}, c ∈ start ++ ['_', 'x'] → c ∈ start ++ '_' :: path ∨ c = 'x' := by
    intro c hc
    simp only [List.mem_append, List.mem_cons, List.not_mem_nil, or_false] at hc ⊢
    tauto
  refine ⟨by simp, ?_, ?_, ?_, ?_, ?_, ?_, ?_⟩
  · have hpos := byteLen_pos hpath
    have hlong : byteLen (start ++ '_' :: path) = byteLen start + 1 + byteLen path := by
      rw [byteLen_append]
      show _ + (1 + byteLen path) = _
      omega
    have hshort : byteLen (start ++ ['_', 'x']) = byteLen start + 2 := byteLen_append _ _
    omega
  · exact fun hc => (hmem hc).elim hslash (by decide)
  · exact fun hc => (hmem hc).elim hback (by decide)
  · exact fun hc => (hmem hc).elim hnul (by decide)
  · intro heq
    have hend := congrArg List.getLast? heq
    simp at hend
  · intro heq
    have hend := congrArg List.getLast? heq
    simp at hend
  · intro c hc
    rcases hmem hc with hold | rfl
    · exact hchars c hold
    · decide

theorem repoIdChar_plain {c : Char} (h : repoIdChar c = true) :
    c ≠ '/' ∧ c ≠ '\\' ∧ c ≠ '\x00' ∧ isControl c = false := by
  refine ⟨?_, ?_, ?_, ?_⟩
  · rintro rfl
    exact absurd h (by decide)
  · rintro rfl
    exact absurd h (by decide)
  · rintro rfl
    exact absurd h (by decide)
  · have hletter : c.isAlphanum = (c.isUpper || c.isLower || c.isDigit) := rfl
    have hupper : c.isUpper = decide (65 ≤ c.val ∧ c.val ≤ 90) := rfl
    have hlower : c.isLower = (decide (97 ≤ c.val) && decide (c.val ≤ 122)) := rfl
    have hdigit : c.isDigit = (decide (48 ≤ c.val) && decide (c.val ≤ 57)) := rfl
    simp only [repoIdChar, hletter, hupper, hlower, hdigit, Bool.or_eq_true, Bool.and_eq_true,
      decide_eq_true_eq, UInt32.le_iff_toNat_le] at h
    have hvalue : c.val.toNat = c.toNat := rfl
    have hrange : 0x20 ≤ c.toNat ∧ c.toNat < 0x7f := by
      rcases h with ((((⟨h, h'⟩ | ⟨h, h'⟩) | ⟨h, h'⟩) | rfl) | rfl) | rfl
      · constructor <;> simp at h h' <;> omega
      · constructor <;> simp at h h' <;> omega
      · constructor <;> simp at h h' <;> omega
      all_goals decide
    simp only [isControl, Bool.or_eq_false_iff, Bool.and_eq_false_iff, decide_eq_false_iff_not]
    omega

/-- The owner of a repository on the built-in provider is plain text. -/
theorem opaque_of_owner (h : validateRepoIdInner (start ++ '_' :: path) = .ok ()) :
    validateOpaquePath (start ++ ['_', 'x']) = .ok () := by
  obtain ⟨_, hlen, _, _, _, _, _, hchars⟩ := validateRepoIdInner_ok.mp h
  have hplain : ∀ c ∈ start ++ ['_', 'x'], repoIdChar c = true := by
    intro c hc
    rcases List.mem_append.mp hc with hstart | hend
    · exact hchars c (List.mem_append_left _ hstart)
    · exact forall_mem_of_all (p := fun c => repoIdChar c = true) (by decide) c hend
  have hslash : '/' ∉ start ++ ['_', 'x'] := fun hc => (repoIdChar_plain (hplain _ hc)).1 rfl
  rw [validateOpaquePath_ok]
  refine ⟨by simp, ?_, ?_, ?_, ?_, ?_, ?_⟩
  · have hlong : byteLen (start ++ '_' :: path) = byteLen start + 1 + byteLen path := by
      rw [byteLen_append]
      show _ + (1 + byteLen path) = _
      omega
    have hshort : byteLen (start ++ ['_', 'x']) = byteLen start + 2 := byteLen_append _ _
    omega
  · exact fun hc => (repoIdChar_plain (hplain _ hc)).2.2.1 rfl
  · exact fun hc => (repoIdChar_plain (hplain _ hc)).2.1 rfl
  · exact fun c hc => (repoIdChar_plain (hplain c hc)).2.2.2
  · intro hfirst
    obtain ⟨rest, hrest⟩ := List.isPrefixOf_iff_prefix.mp hfirst
    exact hslash (hrest ▸ List.mem_cons_self)
  · rw [List.splitOn_eq_singleton hslash, List.mem_singleton]
    intro heq
    have hend := congrArg List.getLast? heq
    simp at hend

/-- Whether the path is checked as owner and name. -/
def strict (provider : ProviderInstance) (repo : RepoId) : Prop :=
  provider.kind = .gitHub ∧ provider.isGithubDefault = true ∧ repo.isGithubDefault = true ∧
    '/' ∈ repo.path

theorem withContext_ok {context : String} {x : Except String Unit} :
    withContext context x = .ok () ↔ x = .ok () := by
  cases x <;> simp [withContext]

theorem validateRepoPath_strict (h : strict provider repo) :
    validateRepoPath provider repo = .ok () ↔
      validateRepoIdInner (repo.path.takeWhile fun c => c ≠ '/') = .ok () ∧
      validateRepoIdInner (repo.path.dropWhile fun c => c ≠ '/').tail = .ok () := by
  obtain ⟨hkind, hprovider, hrepo, hslash⟩ := h
  have howner : repo.githubOwnerRepo = some (repo.path.takeWhile (fun c => c ≠ '/'),
      (repo.path.dropWhile fun c => c ≠ '/').tail) := if_pos ⟨hrepo, hslash⟩
  simp only [validateRepoPath, howner, hkind, hprovider, and_self, if_true, bind_unit_eq_ok,
    withContext_ok]

theorem validateRepoPath_of_not_strict (h : ¬strict provider repo) :
    validateRepoPath provider repo = validateOpaquePath repo.path := by
  unfold validateRepoPath
  split
  · next owner name howner =>
      obtain ⟨⟨hrepo, hslash⟩, _⟩ := Option.ite_none_right_eq_some.mp howner
      rw [if_neg]
      exact fun hboth => h ⟨hboth.1, hboth.2, hrepo, hslash⟩
  · rfl

theorem takeWhile_slash (h : '/' ∉ start) (rest : Text) :
    (start ++ '/' :: rest).takeWhile (fun c => c ≠ '/') = start := by
  have hall : ∀ c ∈ start, decide (c ≠ '/') = true := by
    intro c hc
    rw [decide_eq_true_eq]
    rintro rfl
    exact h hc
  rw [List.takeWhile_append_of_pos hall]
  simp

theorem dropWhile_slash (h : '/' ∉ start) (rest : Text) :
    ((start ++ '/' :: rest).dropWhile fun c => c ≠ '/').tail = rest := by
  have hall : ∀ c ∈ start, decide (c ≠ '/') = true := by
    intro c hc
    rw [decide_eq_true_eq]
    rintro rfl
    exact h hc
  rw [List.dropWhile_append_of_pos hall]
  simp

/-- A provider that accepts a path with a `_` in it accepts it with another end. -/
theorem validateRepoPath_with_end {id : Text} (hpath : path ≠ [])
    (h : validateRepoPath provider ⟨id, start ++ '_' :: path⟩ = .ok ()) :
    validateRepoPath provider ⟨id, start ++ ['_', 'x']⟩ = .ok () := by
  by_cases hshort : strict provider ⟨id, start ++ ['_', 'x']⟩
  · -- The split is in `start`, for both ends.
    have hstart : '/' ∈ start := by simpa using hshort.2.2.2
    have hlong : strict provider ⟨id, start ++ '_' :: path⟩ :=
      ⟨hshort.1, hshort.2.1, hshort.2.2.1, List.mem_append_left _ hstart⟩
    rw [validateRepoPath_strict hlong] at h
    rw [validateRepoPath_strict hshort]
    obtain ⟨owner, name, rfl, howner⟩ := List.eq_append_cons_of_mem hstart
    simp only [List.append_assoc, List.cons_append, takeWhile_slash howner,
      dropWhile_slash howner] at h ⊢
    exact ⟨h.1, inner_with_end hpath h.2⟩
  · rw [validateRepoPath_of_not_strict hshort]
    by_cases hlong : strict provider ⟨id, start ++ '_' :: path⟩
    · rw [validateRepoPath_strict hlong] at h
      have hstart : '/' ∉ start := by
        intro hstart
        exact hshort ⟨hlong.1, hlong.2.1, hlong.2.2.1, List.mem_append_left _ hstart⟩
      have hend : '/' ∈ path := by simpa [hstart] using hlong.2.2.2
      obtain ⟨owner, name, rfl, howner⟩ := List.eq_append_cons_of_mem hend
      have hsplit : start ++ '_' :: (owner ++ '/' :: name) =
          (start ++ '_' :: owner) ++ '/' :: name := by simp
      have hfirst : '/' ∉ start ++ '_' :: owner := by simp [hstart, howner]
      have hvalid := h.1
      rw [show (RepoId.mk id (start ++ '_' :: (owner ++ '/' :: name))).path = _ from hsplit,
        takeWhile_slash hfirst] at hvalid
      exact opaque_of_owner hvalid
    · rw [validateRepoPath_of_not_strict hlong] at h
      exact opaque_with_end hpath h

/-- An accepted path is not empty. -/
theorem path_ne_nil (h : validateRepoPath provider repo = .ok ()) : repo.path ≠ [] := by
  by_cases hstrict : strict provider repo
  · exact List.ne_nil_of_mem hstrict.2.2.2
  · rw [validateRepoPath_of_not_strict hstrict] at h
    exact (validateOpaquePath_ok.mp h).1

theorem validateRepoPath_x (provider : ProviderInstance) (id : Text) :
    validateRepoPath provider ⟨id, ['x']⟩ = .ok () := by
  have hloose : ¬strict provider ⟨id, ['x']⟩ := by
    rintro ⟨_, _, _, hslash⟩
    simp at hslash
  rw [validateRepoPath_of_not_strict hloose]
  show validateOpaquePath ['x'] = .ok ()
  decide

end Admitted

/-! ## Mirrors -/

section Mirrors

variable {registry : ProviderRegistry} {a b : RepoId}

/-- What mirrors of different repositories are for: no two share a directory, and none goes with
another's. -/
def ProviderRegistry.MirrorsApart (registry : ProviderRegistry) : Prop :=
  ∀ a b, registry.Admits a → registry.Admits b → a ≠ b →
    a.mirrorDirName ≠ b.mirrorDirName ∧
    ∀ known dirs, b.mirrorDirName ∈ dirs →
      b.mirrorDirName ∈ removeMirror known dirs a ∧
      b.mirrorDirName ∈ removeMirrorOverLimit dirs a ∧
      (b ∈ known → b.mirrorDirName ∈ removeOrphanMirrors known dirs)

/-- No provider's id is that of another, a `_`, and the escape of what a path accepted there can
start with before a `_`. -/
def ProviderRegistry.IdsApart (registry : ProviderRegistry) : Prop :=
  ∀ outer inner, registry.get outer.id = some outer → registry.get inner.id = some inner →
    '/' ∉ inner.id → ∀ start, inner.id = outer.id ++ '_' :: escapePath start →
    validateRepoPath outer ⟨outer.id, start ++ ['_', 'x']⟩ ≠ .ok ()

theorem mirrorDirName_eq : a.mirrorDirName = b.mirrorDirName ↔
    a.provider ++ '_' :: escapePath a.path = b.provider ++ '_' :: escapePath b.path := by
  have hname : ∀ repo : RepoId, repo.mirrorDirName =
      (repo.provider ++ '_' :: escapePath repo.path) ++ ".git".toList := by
    intro repo
    simp [RepoId.mirrorDirName]
  rw [hname a, hname b]
  exact List.append_left_inj _

theorem id_of_get {id : Text} {provider : ProviderInstance} (h : registry.get id = some provider) :
    provider.id = id := by
  simpa using List.find?_some h

/-- Two repositories with one mirror, the id of the first one's provider being the shorter. -/
theorem nested_of_same {text : Text} (hid : b.provider = a.provider ++ text)
    (hname : a.provider ++ '_' :: escapePath a.path = b.provider ++ '_' :: escapePath b.path) :
    a = b ∨ ∃ start, b.provider = a.provider ++ '_' :: escapePath start ∧
      a.path = start ++ '_' :: b.path := by
  rw [hid, List.append_assoc] at hname
  have hrest : '_' :: escapePath a.path = text ++ '_' :: escapePath b.path :=
    List.append_cancel_left hname
  cases text with
  | nil =>
      have hpath := escapePath_inj (List.cons.inj hrest).2
      rw [List.append_nil] at hid
      left
      cases a
      cases b
      simp_all
  | cons first text =>
      obtain ⟨rfl, hpath⟩ := List.cons.inj hrest
      obtain ⟨start, hstart, rfl⟩ := escapePath_split hpath
      exact .inr ⟨start, hid, hstart⟩

/-- An admitted repository whose mirror is that of one of a provider with a longer id. -/
theorem same_of_idsApart (h : registry.IdsApart) (ha : registry.Admits a) (hb : registry.Admits b)
    {text : Text} (hid : b.provider = a.provider ++ text)
    (hname : a.provider ++ '_' :: escapePath a.path = b.provider ++ '_' :: escapePath b.path) :
    a = b := by
  rcases nested_of_same hid hname with heq | ⟨start, hnested, hpath⟩
  · exact heq
  · obtain ⟨outer, houter, _, hvalid⟩ := admits_iff.mp ha
    obtain ⟨inner, hinner, hslash, hinnerValid⟩ := admits_iff.mp hb
    obtain ⟨id, path⟩ := a
    obtain rfl : outer.id = id := id_of_get houter
    obtain rfl : path = start ++ '_' :: b.path := hpath
    have hinnerId := id_of_get hinner
    refine absurd (validateRepoPath_with_end (path_ne_nil hinnerValid) hvalid) ?_
    apply h outer inner houter
    · rw [hinnerId]
      exact hinner
    · rw [hinnerId]
      exact hslash
    · rw [hinnerId]
      exact hnested

theorem mirrorDirName_inj (h : registry.IdsApart) (ha : registry.Admits a)
    (hb : registry.Admits b) (hname : a.mirrorDirName = b.mirrorDirName) : a = b := by
  have heq := mirrorDirName_eq.mp hname
  rcases List.append_eq_append_iff.mp heq with ⟨text, hid, _⟩ | ⟨text, hid, _⟩
  · exact same_of_idsApart h ha hb hid heq
  · exact (same_of_idsApart h hb ha hid heq.symm).symm

/-- Two ids that are not apart have repositories with one mirror. -/
theorem exists_same_mirror {outer inner : ProviderInstance} {start : Text}
    (houter : registry.get outer.id = some outer) (hinner : registry.get inner.id = some inner)
    (hslash : '/' ∉ inner.id) (hid : inner.id = outer.id ++ '_' :: escapePath start)
    (hvalid : validateRepoPath outer ⟨outer.id, start ++ ['_', 'x']⟩ = .ok ()) :
    ∃ a b, registry.Admits a ∧ registry.Admits b ∧ a ≠ b ∧ a.mirrorDirName = b.mirrorDirName := by
  refine ⟨⟨outer.id, start ++ ['_', 'x']⟩, ⟨inner.id, ['x']⟩, ?_, ?_, ?_, ?_⟩
  · refine admits_iff.mpr ⟨outer, houter, ?_, hvalid⟩
    intro hmem
    exact hslash (hid ▸ List.mem_append_left _ hmem)
  · exact admits_iff.mpr ⟨inner, hinner, hslash, validateRepoPath_x inner inner.id⟩
  · intro heq
    have hlen := congrArg (fun repo => repo.provider.length) heq
    simp [hid] at hlen
  · rw [mirrorDirName_eq]
    simp [hid, escapeChar]

theorem mem_removeDir {dirs : List Text} {name other : Text} (hne : other ≠ name)
    (h : other ∈ dirs) : other ∈ removeDir dirs name :=
  List.mem_filter.mpr ⟨h, decide_eq_true hne⟩

/-- Mirrors are apart exactly when the ids of the providers are. -/
theorem mirrorsApart_iff (registry : ProviderRegistry) :
    registry.MirrorsApart ↔ registry.IdsApart := by
  constructor
  · intro h outer inner houter hinner hslash start hid hvalid
    obtain ⟨a, b, ha, hb, hne, hsame⟩ := exists_same_mirror houter hinner hslash hid hvalid
    exact (h a b ha hb hne).1 hsame
  · intro h a b ha hb hne
    have hnames : a.mirrorDirName ≠ b.mirrorDirName :=
      fun hsame => hne (mirrorDirName_inj h ha hb hsame)
    refine ⟨hnames, fun known dirs hthere => ⟨?_, mem_removeDir hnames.symm hthere, ?_⟩⟩
    · unfold removeMirror
      split
      · exact hthere
      · exact mem_removeDir hnames.symm hthere
    · intro hknown
      refine List.mem_filter.mpr ⟨hthere, ?_⟩
      rw [Bool.or_eq_true]
      exact .inr (List.contains_iff_mem.mpr (List.mem_map_of_mem hknown))

/-- Two configured forges, one named as the other and more. -/
def forges : List ProviderConfig := [⟨"a".toList, "gitlab"⟩, ⟨"a_b".toList, "gitlab"⟩]

/-- A purge of the repository of one takes the mirror of the other's. -/
theorem forges_share_mirror : ∃ registry, ProviderRegistry.fromConfig forges = .ok registry ∧
    registry.Admits ⟨"a".toList, "b_c/d".toList⟩ ∧ registry.Admits ⟨"a_b".toList, "c/d".toList⟩ ∧
    RepoId.mirrorDirName ⟨"a".toList, "b_c/d".toList⟩ =
      RepoId.mirrorDirName ⟨"a_b".toList, "c/d".toList⟩ ∧
    removeMirror [⟨"a_b".toList, "c/d".toList⟩] ["a_b_c%2Fd.git".toList]
      ⟨"a".toList, "b_c/d".toList⟩ = [] := by
  refine ⟨_, rfl, ?_, ?_, by decide, by decide⟩
  · exact ⟨"a/b_c/d".toList, by decide⟩
  · exact ⟨"a_b/c/d".toList, by decide⟩

end Mirrors

end Ripclone.Provider
