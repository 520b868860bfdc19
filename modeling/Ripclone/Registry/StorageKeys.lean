import Ripclone.Registry

/-!
# Keys of the control store

The control store names a repository by one text, its provider and its path with the separators of the
path escaped. The provider's id stands as it is, so it may hold the separator too, but after the last one
there is only the escaped path.
-/

namespace Ripclone.Registry

open Ripclone.Library Ripclone.Provider

inductive StorageKeyError where
  /-- "invalid repository storage key …" -/
  | invalid (key : Text)
  deriving DecidableEq, Repr

/-- The path of an escaped one. -/
def unescapePath : Text → Option Text
  | [] => some []
  | c :: rest =>
    if c = '%' then
      match rest with
      | '2' :: '5' :: rest => (unescapePath rest).map ('%' :: ·)
      | '2' :: 'F' :: rest => (unescapePath rest).map ('/' :: ·)
      | '5' :: 'C' :: rest => (unescapePath rest).map ('\\' :: ·)
      | _ => none
    else (unescapePath rest).map (c :: ·)

/-- The repository a key names. -/
def fromStorageKey (key : Text) : Except StorageKeyError RepoId :=
  match rsplitOnce '/' key with
  | none => .error (.invalid key)
  | some (provider, escaped) =>
    match unescapePath escaped with
    | none => .error (.invalid key)
    | some path =>
      if provider.isEmpty || path.isEmpty then .error (.invalid key) else .ok ⟨provider, path⟩

/-! ## Reading a key back -/

theorem unescapePath_escapePath (path : Text) : unescapePath (escapePath path) = some path := by
  induction path with
  | nil => rfl
  | cons c path ih =>
      rw [escapePath_cons]
      rcases escapeChar_cases c with ⟨hplain, hescape⟩ | ⟨rfl, hescape⟩ | ⟨rfl, hescape⟩ | ⟨rfl, hescape⟩
      · rw [hescape, List.singleton_append, unescapePath.eq_def]
        simp [hplain, ih]
      all_goals
        rw [hescape]
        simp [unescapePath, ih]

/-- The separator of a key is the last one in it. -/
theorem slash_not_mem_escapePath (path : Text) : '/' ∉ escapePath path := by
  rw [escapePath_eq, List.mem_flatMap]
  rintro ⟨c, -, hmem⟩
  rcases escapeChar_cases c with ⟨-, hescape⟩ | ⟨-, hescape⟩ | ⟨-, hescape⟩ | ⟨-, hescape⟩
  · rw [hescape, List.mem_singleton] at hmem
    rw [← hmem] at hescape
    exact absurd hescape (by decide)
  all_goals
    rw [hescape] at hmem
    simp at hmem

theorem rsplitOnce_append {separator : Char} {before after : Text} (h : separator ∉ after) :
    rsplitOnce separator (before ++ separator :: after) = some (before, after) := by
  have hreverse : (before ++ separator :: after).reverse = after.reverse ++ separator :: before.reverse := by
    simp
  rw [rsplitOnce, hreverse, splitOnce_append (by simpa using h)]
  simp

theorem fromStorageKey_storageKey {repo : RepoId} (hprovider : repo.provider ≠ [])
    (hpath : repo.path ≠ []) : fromStorageKey repo.storageKey = .ok repo := by
  rw [fromStorageKey, RepoId.storageKey, rsplitOnce_append (slash_not_mem_escapePath repo.path)]
  dsimp only
  rw [unescapePath_escapePath]
  simp [hprovider, hpath]

/-- A repository of a configured provider with a path that is accepted for it. -/
def ProviderRegistry.Accepts (registry : ProviderRegistry) (repo : RepoId) : Prop :=
  ∃ provider, registry.get repo.provider = some provider ∧
    validateRepoPath provider.toProvider repo = .ok ()

theorem ProviderRegistry.Accepts.nonempty {registry : ProviderRegistry} {repo : RepoId}
    (hbuilt : registry.Built) (h : registry.Accepts repo) : repo.provider ≠ [] ∧ repo.path ≠ [] := by
  obtain ⟨provider, hget, hpath⟩ := h
  refine ⟨?_, path_ne_nil hpath⟩
  rw [← ProviderRegistry.id_of_get hget]
  exact hbuilt.keyed.nonempty provider (List.mem_of_find?_eq_some hget)

/-- A repository is read back from its key, so two with one key are the same, also of two registries. -/
theorem storageKey_exact {registry : ProviderRegistry} {a : RepoId} (hbuilt : registry.Built)
    (ha : registry.Accepts a) : fromStorageKey a.storageKey = .ok a ∧
      ∀ (other : ProviderRegistry) (b : RepoId), other.Built → other.Accepts b →
        a.storageKey = b.storageKey → a = b := by
  obtain ⟨hprovider, hpath⟩ := ha.nonempty hbuilt
  refine ⟨fromStorageKey_storageKey hprovider hpath, ?_⟩
  intro other b hother hb hkey
  obtain ⟨hprovider', hpath'⟩ := hb.nonempty hother
  have hread := fromStorageKey_storageKey hprovider hpath
  rw [hkey, fromStorageKey_storageKey hprovider' hpath'] at hread
  exact (Except.ok.inj hread).symm

/-- A provider whose id holds the separator of keys. -/
def nestedForge : ProviderConfig :=
  ⟨"forge/eu".toList, some "gitlab", none, none, none, none⟩

def nestedRegistry : ProviderRegistry :=
  ⟨[⟨"forge/eu".toList, .gitLab, "gitlab.com".toList, none, none⟩,
    ⟨defaultProviderId, .gitHub, "github.com".toList, none, none⟩], []⟩

theorem nestedRegistry_built : nestedRegistry.Built := ⟨[nestedForge], by decide⟩

/-- `forge/eu/group%2F100%25` names a repository of `forge/eu`. -/
theorem nested_key_read : fromStorageKey
      (⟨"forge/eu".toList, "group/100%".toList⟩ : RepoId).storageKey =
        .ok ⟨"forge/eu".toList, "group/100%".toList⟩ :=
  (storageKey_exact nestedRegistry_built
    ⟨⟨"forge/eu".toList, .gitLab, "gitlab.com".toList, none, none⟩, by decide, by decide⟩).1

end Ripclone.Registry
