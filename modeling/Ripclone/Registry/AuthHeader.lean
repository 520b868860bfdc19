import Ripclone.Library.Base64
import Ripclone.Library.Lines
import Ripclone.Library.Replace
import Ripclone.Library.Utf8
import Ripclone.Registry

/-!
# The header that carries a token

Git is given a token as one header of its requests. The value is the provider's template with the token
in it, or what the kind of provider expects. A header that would start another one is none.
-/

namespace Ripclone.Registry

open Ripclone.Library
open Ripclone.Provider (Text)

/-- A character of a header field's name. -/
def isHeaderNameChar (c : Char) : Bool := c.isAlphanum || "!#$%&'*+-.^_`|~".toList.contains c

/-- `Basic` authentication. -/
def basicValue (user token : Text) : Text :=
  "Basic ".toList ++ Base64.encode (Utf8.encode (String.ofList (user ++ ':' :: token)))

theorem mem_basicValue {user token : Text} {c : Char} (h : c ∈ basicValue user token) :
    c ∈ "Basic ".toList ++ Base64.alphabet ++ ['='] := by
  rcases List.mem_append.mp h with hscheme | hdigit
  · exact List.mem_append_left _ (List.mem_append_left _ hscheme)
  · rcases Base64.mem_encode _ hdigit with halphabet | rfl
    · exact List.mem_append_left _ (List.mem_append_right _ halphabet)
    · exact List.mem_append_right _ List.mem_cons_self

namespace ProviderInstance

/-- The template with the token in it, or what the kind of provider expects. -/
def headerValue (provider : ProviderInstance) (token : Text) : Option Text :=
  match provider.authTemplate with
  | some template => some (replaceAll "{token}".toList token template)
  | none =>
    match provider.kind with
    | .gitHub => some (basicValue "x-access-token".toList token)
    | .gitLab => some (basicValue "oauth2".toList token)
    | .gitea => some ("token ".toList ++ token)
    | .generic => none

/-- The name and the value of the header for a token. -/
def authHeader (provider : ProviderInstance) (token : Text) : Option (Text × Text) := do
  let name := provider.authHeaderName.getD "Authorization".toList
  if name.isEmpty ∨ !name.all isHeaderNameChar then none
  let value ← provider.headerValue token
  if value.any fun c => c = '\r' || c = '\n' || c = '\x00' then none
  return (name, value)

/-- A header does not start another one. -/
theorem oneLine_of_authHeader {provider : ProviderInstance} {token name value : Text}
    (h : provider.authHeader token = some (name, value)) : OneLine value := by
  unfold authHeader at h
  simp only [Option.bind_eq_bind] at h
  split at h
  · cases h
  · obtain ⟨found, -, h⟩ := Option.bind_eq_some_iff.mp h
    split at h
    · cases h
    · next hclean =>
        cases h
        rw [List.any_eq_true] at hclean
        refine ⟨fun hmem => hclean ⟨_, hmem, rfl⟩, fun hmem => hclean ⟨_, hmem, rfl⟩⟩

end ProviderInstance

end Ripclone.Registry
