import Ripclone.Library.Result
import Ripclone.Validation

/-!
# Providers, repositories and their mirrors

A repository is named by a configured provider and a path that only the provider understands. The
server keeps a bare mirror of each in a directory whose name flattens the two.
-/

namespace Ripclone.Provider

open Ripclone.Library

abbrev Text := List Char

/-- The length in bytes. -/
def byteLen (text : Text) : Nat := (text.map Char.utf8Size).sum

inductive ProviderKind where
  | gitHub
  | gitLab
  | gitea
  | generic
  deriving DecidableEq, Repr

def ProviderKind.fromStr (s : String) : Except String ProviderKind :=
  match String.ofList (s.toList.map Char.toLower) with
  | "github" => .ok .gitHub
  | "gitlab" => .ok .gitLab
  | "gitea" | "forgejo" | "codeberg" => .ok .gitea
  | "generic" => .ok .generic
  | _ => .error ("unknown provider kind: " ++ s)

/-- A configured provider, as far as a repository's path depends on it. -/
structure ProviderInstance where
  id : Text
  kind : ProviderKind
  deriving DecidableEq, Repr

def defaultProviderId : Text := "github".toList

def ProviderInstance.isGithubDefault (provider : ProviderInstance) : Bool :=
  provider.id = defaultProviderId

/-- An entry of the config file. -/
structure ProviderConfig where
  id : Text
  kind : String

/-- The configured providers. No two have one id. -/
structure ProviderRegistry where
  providers : List ProviderInstance
  deriving DecidableEq, Repr

namespace ProviderRegistry

def new : ProviderRegistry := ⟨[⟨defaultProviderId, .gitHub⟩]⟩

def get (registry : ProviderRegistry) (id : Text) : Option ProviderInstance :=
  registry.providers.find? fun provider => provider.id = id

/-- An entry replaces the one of its id. -/
def mergeOne (registry : ProviderRegistry) (cfg : ProviderConfig) :
    Except String ProviderRegistry := do
  if cfg.id.isEmpty then throw "provider config entry missing id"
  let kind ← ProviderKind.fromStr cfg.kind
  return ⟨⟨cfg.id, kind⟩ :: registry.providers.filter fun provider => provider.id ≠ cfg.id⟩

def fromConfig (configs : List ProviderConfig) : Except String ProviderRegistry :=
  configs.foldlM mergeOne new

end ProviderRegistry

structure RepoId where
  provider : Text
  path : Text
  deriving DecidableEq, Repr

/-- `str::replace` of one character. -/
def replace (old : Char) (new : Text) (text : Text) : Text :=
  text.flatMap fun c => if c = old then new else [c]

def escapePath (path : Text) : Text :=
  replace '\\' ['%', '5', 'C'] (replace '/' ['%', '2', 'F'] (replace '%' ['%', '2', '5'] path))

namespace RepoId

def isGithubDefault (repo : RepoId) : Bool := repo.provider = defaultProviderId

def storageKey (repo : RepoId) : Text := repo.provider ++ '/' :: escapePath repo.path

def mirrorDirName (repo : RepoId) : Text :=
  repo.provider ++ '_' :: (escapePath repo.path ++ ".git".toList)

/-- Owner and name, split at the first `/`. -/
def githubOwnerRepo (repo : RepoId) : Option (Text × Text) :=
  if repo.isGithubDefault ∧ '/' ∈ repo.path then
    some (repo.path.takeWhile (fun c => c ≠ '/'), (repo.path.dropWhile fun c => c ≠ '/').tail)
  else none

end RepoId

/-! ## Which paths are accepted -/

def repoIdChar (c : Char) : Bool := c.isAlphanum || c = '.' || c = '-' || c = '_'

def validateRepoIdInner (id : Text) : Except String Unit :=
  if id.isEmpty then throw "repo identifier must not be empty"
  else if 128 < byteLen id then
    throw ("repo identifier too long: " ++ toString (byteLen id))
  else if '/' ∈ id ∨ '\\' ∈ id ∨ '\x00' ∈ id then
    throw ("repo identifier contains path separator: " ++ String.ofList id)
  else if id = ['.'] ∨ id = ['.', '.'] then throw "repo identifier cannot be '.' or '..'"
  else if !id.all repoIdChar then
    throw ("repo identifier contains invalid characters: " ++ String.ofList id)
  else return ()

/-- A path of a provider other than the built-in one. -/
def validateOpaquePath (path : Text) : Except String Unit :=
  if path.isEmpty then throw "repo path must not be empty"
  else if 512 < byteLen path then throw ("repo path too long: " ++ toString (byteLen path))
  else if '\x00' ∈ path ∨ '\\' ∈ path then
    throw ("repo path contains unsafe characters: " ++ String.ofList path)
  else if path.any isControl then
    throw ("repo path contains control characters: " ++ String.ofList path)
  else if ['/'].isPrefixOf path then
    throw ("repo path must not start with '/': " ++ String.ofList path)
  else if (path.splitOn '/').any fun segment => segment = ['.', '.'] then
    throw ("repo path must not contain a '..' segment: " ++ String.ofList path)
  else return ()

/-- The error says which of the two is wrong. -/
def withContext (context : String) : Except String Unit → Except String Unit
  | .ok () => .ok ()
  | .error _ => .error context

def validateRepoPath (provider : ProviderInstance) (repo : RepoId) : Except String Unit :=
  match repo.githubOwnerRepo with
  | some (owner, name) =>
    if provider.kind = .gitHub ∧ provider.isGithubDefault then do
      withContext ("invalid owner: " ++ String.ofList owner) (validateRepoIdInner owner)
      withContext ("invalid repo: " ++ String.ofList name) (validateRepoIdInner name)
    else validateOpaquePath repo.path
  | none => validateOpaquePath repo.path

namespace ProviderRegistry

/-- The first segment is the provider's id and the rest is the path. -/
def resolveRepoId (registry : ProviderRegistry) (rest : Text) :
    Option (RepoId × ProviderInstance) :=
  match rest.splitOn '/' with
  | id :: segment :: segments => do
    let provider ← registry.get id
    return (⟨provider.id, ['/'].intercalate (segment :: segments)⟩, provider)
  | _ => none

def repoFromPath (registry : ProviderRegistry) (rest : Text) : Except String RepoId :=
  match registry.resolveRepoId rest with
  | some (repo, provider) => do
    validateRepoPath provider repo
    return repo
  | none => throw "unknown provider"

/-- A repository that some request path names. -/
def Admits (registry : ProviderRegistry) (repo : RepoId) : Prop :=
  ∃ rest, registry.repoFromPath rest = .ok repo

end ProviderRegistry

/-! ## Mirrors -/

section Mirrors

variable (known : List RepoId) (dirs : List Text)

def removeDir (name : Text) : List Text := dirs.filter fun dir => dir ≠ name

/-- After a purge. `known` are the repositories of the control store. -/
def removeMirror (repo : RepoId) : List Text :=
  if repo ∈ known then dirs else removeDir dirs repo.mirrorDirName

def removeMirrorOverLimit (repo : RepoId) : List Text := removeDir dirs repo.mirrorDirName

def removeOrphanMirrors : List Text :=
  dirs.filter fun name =>
    !".git".toList.isSuffixOf name || (known.map RepoId.mirrorDirName).contains name

end Mirrors

end Ripclone.Provider
