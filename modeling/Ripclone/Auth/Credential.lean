import Ripclone.Library.Replace
import Ripclone.Registry

/-!
# The secrets of providers

The server reads each provider's token, app key and webhook secret from variables named after the
provider's id, upper-cased and with every other character than a letter or digit as `_`. A secret belongs
to one provider as long as no other provider's id gives the same name, and the registry takes ids that
do.
-/

namespace Ripclone.Auth

open Ripclone.Library Ripclone.Registry
open Ripclone.Provider (Text ProviderKind)

/-- The environment variables that are set. -/
abbrev Env := Text → Option Text

/-- The last part of the names of a provider's variables. -/
def envSuffix (id : Text) : Text := id.map fun c => if c.isAlphanum then c.toUpper else '_'

def envVar (stem id : Text) : Text := stem ++ '_' :: envSuffix id

/-- A blank variable is no secret, and a set one is kept verbatim. -/
def secret (value : Option Text) : Option Text := value.filter fun s => !(trim s).isEmpty

/-! ## Credentials -/

/-- A GitHub App. `κ` is the type of parsed private keys. -/
structure GitHubApp (κ : Type) where
  appId : Nat
  encodingKey : κ
  apiBase : Text

inductive Credential (κ : Type) where
  | token (token : Text)
  | gitHubApp (app : GitHubApp κ)

section Credentials

variable {κ : Type} (fromRsaPem : Text → Except String κ)

/-- The REST API of a `github` provider. -/
def apiBase (provider : ProviderInstance) : Except String Text :=
  let named := "provider '" ++ String.ofList provider.id
  if provider.kind ≠ .gitHub then .error (named ++ "' is not a github provider")
  else
    let host := provider.host.rdropWhile (· = '/')
    if (stripStart "http://".toList host).isSome then
      .error (named ++ "' reads as a GitHub App, so its host must be https")
    else
      let host := (stripStart "https://".toList host).getD host
      if host = "github.com".toList then .ok "https://api.github.com".toList
      else .ok ("https://".toList ++ host ++ "/api/v3".toList)

/-- A key on one line with `\n` escapes is unescaped. -/
def GitHubApp.new (appId : Nat) (privateKey apiBase : Text) : Except String (GitHubApp κ) := do
  let pem := if '\n' ∈ privateKey then privateKey else replaceAll "\\n".toList ['\n'] privateKey
  let encodingKey ← (fromRsaPem pem).mapError fun error =>
    "parse the GitHub App private key (expected an RSA PEM): " ++ error
  return ⟨appId, encodingKey, apiBase⟩

/-- The credential of one provider, if it has one. -/
def credential (registry : ProviderRegistry) (var : Env) (provider : ProviderInstance) :
    Except String (Option (Credential κ)) :=
  let id := provider.id
  let named := "provider '" ++ String.ofList id
  let tokenVar := envVar "RIPCLONE_TOKEN".toList id
  let keyVar := envVar "RIPCLONE_APP_KEY".toList id
  match registry.appId id, secret (var tokenVar), secret (var keyVar) with
  | none, none, none => .ok none
  | none, some token, none => .ok (some (.token token))
  | some appId, none, some key => do
    let app ← GitHubApp.new fromRsaPem appId key (← apiBase provider)
    return some (.gitHubApp app)
  | some _, some _, _ =>
    .error (named ++ "' has an app_id and " ++ String.ofList tokenVar ++ " is set; use one")
  | some _, none, none => .error (named ++ "' has an app_id but " ++ String.ofList keyVar ++ " is not set")
  | none, _, some _ =>
    .error (String.ofList keyVar ++ " is set but " ++ named ++ "' has no app_id")

/-- The credential of every provider that has one, by provider id. -/
structure Credentials (κ : Type) where
  byProvider : List (Text × Credential κ)

namespace Credentials

def fromLookup (registry : ProviderRegistry) (var : Env) : Except String (Credentials κ) := do
  let byProvider ← registry.providers.mapM fun provider =>
    (credential fromRsaPem registry var provider).map fun found =>
      found.map fun found => (provider.id, found)
  return ⟨byProvider.reduceOption⟩

/-- The credential a repository of the provider is read with. -/
def get (credentials : Credentials κ) (provider : Text) : Option (Credential κ) :=
  (credentials.byProvider.find? fun entry => entry.1 = provider).map (·.2)

end Credentials

end Credentials

/-! ## Webhook secrets -/

/-- The webhook secret of every provider that has one, by provider id. -/
structure WebhookConfig where
  secrets : List (Text × Text)
  deriving DecidableEq, Repr

namespace WebhookConfig

def fromEnv (registry : ProviderRegistry) (var : Env) : WebhookConfig where
  secrets := registry.providers.filterMap fun instance_ =>
    (secret (var (envVar "RIPCLONE_WEBHOOK_SECRET".toList instance_.id))).map fun found =>
      (instance_.id, found)

def secret (config : WebhookConfig) (provider : Text) : Option Text :=
  (config.secrets.find? fun entry => entry.1 = provider).map (·.2)

end WebhookConfig

/-! ## What is read for a provider -/

/-- In a table made from entries with distinct keys, each key finds what its own entry gave. -/
theorem find_of_distinct {ι β : Type} (key : ι → Text) {f : ι → Option β} {entries : List ι} {a : ι}
    (hdistinct : (entries.map key).Nodup) (ha : a ∈ entries) :
    ((entries.filterMap fun entry => (f entry).map fun b => (key entry, b)).find?
      fun entry => entry.1 = key a).map (·.2) = f a := by
  induction entries with
  | nil => cases ha
  | cons first rest ih =>
      rw [List.map_cons, List.nodup_cons] at hdistinct
      rcases List.mem_cons.mp ha with rfl | hrest
      · cases hf : f a with
        | some b =>
            rw [List.filterMap_cons_some (by rw [hf, Option.map_some])]
            simp
        | none =>
            -- No other entry has the key, so nothing is found.
            rw [List.filterMap_cons_none (by rw [hf, Option.map_none]), Option.map_eq_none_iff,
              List.find?_eq_none]
            intro entry hentry
            obtain ⟨other, hother, hmap⟩ := List.mem_filterMap.mp hentry
            obtain ⟨b, -, rfl⟩ := Option.map_eq_some_iff.mp hmap
            intro hkey
            exact hdistinct.1 (of_decide_eq_true hkey ▸ List.mem_map_of_mem hother)
      · have hne : key first ≠ key a := by
          intro heq
          exact hdistinct.1 (heq ▸ List.mem_map_of_mem hrest)
        rw [← ih hdistinct.2 hrest]
        cases hf : f first with
        | some b =>
            rw [List.filterMap_cons_some (by rw [hf, Option.map_some]), List.find?_cons_of_neg]
            simpa using hne
        | none => rw [List.filterMap_cons_none (by rw [hf, Option.map_none])]

section Reading

variable {registry : ProviderRegistry} {var var' : Env} {provider : ProviderInstance}

theorem webhookSecret_eq (hkeyed : registry.Keyed) (h : provider ∈ registry.providers) :
    (WebhookConfig.fromEnv registry var).secret provider.id =
      secret (var (envVar "RIPCLONE_WEBHOOK_SECRET".toList provider.id)) :=
  find_of_distinct ProviderInstance.id hkeyed.distinct h

variable {κ : Type} {fromRsaPem : Text → Except String κ} {credentials : Credentials κ}

/-- What a provider reads when its setting is one the server takes. -/
def credentialOr (fromRsaPem : Text → Except String κ) (registry : ProviderRegistry) (var : Env)
    (provider : ProviderInstance) : Option (Credential κ) :=
  (credential fromRsaPem registry var provider).toOption.getD none

theorem mapM_credential {providers : List ProviderInstance}
    {found : List (Option (Text × Credential κ))}
    (h : (providers.mapM fun provider => (credential fromRsaPem registry var provider).map
      fun found => found.map fun found => (provider.id, found)) = .ok found) :
    (found = providers.map fun provider => (credentialOr fromRsaPem registry var provider).map
      fun found => (provider.id, found)) ∧
    ∀ provider ∈ providers, credential fromRsaPem registry var provider =
      .ok (credentialOr fromRsaPem registry var provider) := by
  have hforall := mapM_eq_ok.mp h
  induction hforall with
  | nil => simp
  | @cons provider found providers rest hprovider hrest ih =>
      obtain ⟨hmap, hall⟩ := ih (mapM_eq_ok.mpr hrest)
      cases hcredential : credential fromRsaPem registry var provider with
      | error e =>
          rw [hcredential] at hprovider
          cases hprovider
      | ok read =>
          have hor : credentialOr fromRsaPem registry var provider = read := by
            rw [credentialOr, hcredential]
            rfl
          rw [hcredential] at hprovider
          obtain rfl := Except.ok.inj hprovider
          refine ⟨by rw [List.map_cons, hor, ← hmap], ?_⟩
          intro other hother
          rcases List.mem_cons.mp hother with rfl | hmem
          · rw [hor, hcredential]
          · exact hall other hmem

/-- A load that succeeds gives each provider what its own setting says. -/
theorem credentials_get (hkeyed : registry.Keyed)
    (hload : Credentials.fromLookup fromRsaPem registry var = .ok credentials)
    (h : provider ∈ registry.providers) :
    credential fromRsaPem registry var provider = .ok (credentials.get provider.id) := by
  obtain ⟨found, hfound, hcredentials⟩ := bind_eq_ok.mp hload
  obtain rfl := pure_eq_ok.mp hcredentials
  obtain ⟨rfl, hall⟩ := mapM_credential hfound
  have hreduce {α : Type} (options : List (Option α)) : options.reduceOption = options.filterMap id := rfl
  rw [hall provider h, Credentials.get, hreduce, List.filterMap_map]
  exact congrArg _ (find_of_distinct ProviderInstance.id hkeyed.distinct h).symm

end Reading

/-! ## Whose secrets a variable holds -/

section Names

variable {stem stem' id id' : Text}

theorem envVar_inj (h : envVar stem id = envVar stem id') : envSuffix id = envSuffix id' :=
  (List.cons.inj (List.append_cancel_left h)).2

/-- The names of a provider's three variables differ in their tenth character. -/
theorem envVar_ne_of_stem (hlen : 10 ≤ stem.length) (hlen' : 10 ≤ stem'.length)
    (hne : stem.take 10 ≠ stem'.take 10) : envVar stem id ≠ envVar stem' id' := by
  intro h
  apply hne
  have htake := congrArg (List.take 10) h
  rw [envVar, envVar, List.take_append_of_le_length hlen, List.take_append_of_le_length hlen'] at htake
  exact htake

end Names

/-- The names of a provider's variables. -/
def envVars (id : Text) : List Text :=
  [envVar "RIPCLONE_TOKEN".toList id, envVar "RIPCLONE_APP_KEY".toList id,
    envVar "RIPCLONE_WEBHOOK_SECRET".toList id]

/-- No variable of one provider is one of another whose id gives another name. -/
theorem envVar_not_mem {id id' : Text} (h : envSuffix id' ≠ envSuffix id) :
    ∀ name ∈ envVars id', name ∉ envVars id := by
  have hne : ∀ stem, envVar stem id' ≠ envVar stem id := fun stem heq => h (envVar_inj heq)
  intro name hname
  simp only [envVars, List.mem_cons, List.not_mem_nil, or_false] at hname ⊢
  rw [not_or, not_or]
  rcases hname with rfl | rfl | rfl
  · exact ⟨hne _, envVar_ne_of_stem (by decide) (by decide) (by decide),
      envVar_ne_of_stem (by decide) (by decide) (by decide)⟩
  · exact ⟨envVar_ne_of_stem (by decide) (by decide) (by decide), hne _,
      envVar_ne_of_stem (by decide) (by decide) (by decide)⟩
  · exact ⟨envVar_ne_of_stem (by decide) (by decide) (by decide),
      envVar_ne_of_stem (by decide) (by decide) (by decide), hne _⟩

/-- Two environments that differ in the variables of one provider id only. -/
def DifferOnlyFor (id : Text) (var var' : Env) : Prop := ∀ name, name ∉ envVars id → var name = var' name

/-- Whatever is set for `id`, every other provider has the same webhook secret and, as far as the server
starts, the same credential. -/
def Isolated {κ : Type} (fromRsaPem : Text → Except String κ) (registry : ProviderRegistry) (id : Text) :
    Prop :=
  ∀ var var', DifferOnlyFor id var var' → ∀ other ∈ registry.providers, other.id ≠ id →
    (WebhookConfig.fromEnv registry var).secret other.id =
      (WebhookConfig.fromEnv registry var').secret other.id ∧
    ∀ credentials credentials', Credentials.fromLookup fromRsaPem registry var = .ok credentials →
      Credentials.fromLookup fromRsaPem registry var' = .ok credentials' →
      credentials.get other.id = credentials'.get other.id

section Isolation

variable {κ : Type} {fromRsaPem : Text → Except String κ} {registry : ProviderRegistry} {var var' : Env}
  {other : ProviderInstance} {id : Text}

theorem credential_congr (h : ∀ name ∈ envVars other.id, var name = var' name) :
    credential fromRsaPem registry var other = credential fromRsaPem registry var' other := by
  have htoken := h (envVar "RIPCLONE_TOKEN".toList other.id) (by simp [envVars])
  have hkey := h (envVar "RIPCLONE_APP_KEY".toList other.id) (by simp [envVars])
  unfold credential
  dsimp only
  rw [htoken, hkey]

/-- A provider that shares no name keeps its secrets. -/
theorem secrets_kept (hkeyed : registry.Keyed) (hother : other ∈ registry.providers)
    (hsuffix : envSuffix other.id ≠ envSuffix id) (hdiffer : DifferOnlyFor id var var') :
    (WebhookConfig.fromEnv registry var).secret other.id =
      (WebhookConfig.fromEnv registry var').secret other.id ∧
    ∀ credentials credentials', Credentials.fromLookup fromRsaPem registry var = .ok credentials →
      Credentials.fromLookup fromRsaPem registry var' = .ok credentials' →
      credentials.get other.id = credentials'.get other.id := by
  have hsame : ∀ name ∈ envVars other.id, var name = var' name :=
    fun name hname => hdiffer name (envVar_not_mem hsuffix name hname)
  constructor
  · rw [webhookSecret_eq hkeyed hother, webhookSecret_eq hkeyed hother,
      hsame _ (by simp [envVars])]
  · intro credentials credentials' hload hload'
    have hread := credentials_get hkeyed hload hother
    rw [credential_congr hsame, credentials_get hkeyed hload' hother] at hread
    exact (Except.ok.inj hread).symm

/-- Two providers of one name have one webhook secret. -/
theorem not_isolated_of_shared (hkeyed : registry.Keyed) (hother : other ∈ registry.providers)
    (hne : other.id ≠ id) (hsuffix : envSuffix other.id = envSuffix id) :
    ¬Isolated fromRsaPem registry id := by
  intro h
  let name := envVar "RIPCLONE_WEBHOOK_SECRET".toList id
  have hdiffer : DifferOnlyFor id (fun _ => none) fun asked => if asked = name then some ['x'] else none := by
    intro asked hasked
    have hasked : asked ≠ name := by
      rintro rfl
      exact hasked (by simp [envVars, name])
    exact (if_neg hasked).symm
  have hsame := (h _ _ hdiffer other hother hne).1
  rw [webhookSecret_eq hkeyed hother, webhookSecret_eq hkeyed hother] at hsame
  have hname : envVar "RIPCLONE_WEBHOOK_SECRET".toList other.id = name := by
    rw [envVar, hsuffix]
    rfl
  rw [if_pos hname] at hsame
  exact absurd hsame (by decide)

end Isolation

/-- The variables of a provider id reach no other provider if and only if no other provider's id gives the
same name. -/
theorem isolated_iff {κ : Type} (fromRsaPem : Text → Except String κ) {registry : ProviderRegistry}
    (hbuilt : registry.Built) (id : Text) : Isolated fromRsaPem registry id ↔
      ∀ other ∈ registry.providers, other.id ≠ id → envSuffix other.id ≠ envSuffix id := by
  constructor
  · intro h other hother hne hsuffix
    exact not_isolated_of_shared hbuilt.keyed hother hne hsuffix h
  · intro h var var' hdiffer other hother hne
    exact secrets_kept hbuilt.keyed hother (h other hother hne) hdiffer

section SharedName

/-- Two Gitea hosts. -/
def giteaConfig (id host : String) : ProviderConfig :=
  ⟨id.toList, some "gitea", some host.toList, none, none, none⟩

def giteaInstance (id host : String) : ProviderInstance := ⟨id.toList, .gitea, host.toList, none, none⟩

/-- The default registry with two Gitea hosts. -/
def twoHosts (first second : String) : ProviderRegistry :=
  ⟨[giteaInstance second "b.example", giteaInstance first "a.example",
    ⟨"github".toList, .gitHub, "github.com".toList, none, none⟩], []⟩

theorem apart_isolated : Isolated (κ := Text) .ok (twoHosts "first" "second") "first".toList :=
  (isolated_iff .ok ⟨[giteaConfig "first" "a.example", giteaConfig "second" "b.example"], by decide⟩
    "first".toList).mpr (by decide)

/-- The webhook secret of `my-host` is the webhook secret of `my_host`. -/
theorem shared_not_isolated : (twoHosts "my-host" "my_host").Built ∧
    ¬Isolated (κ := Text) .ok (twoHosts "my-host" "my_host") "my-host".toList := by
  have hbuilt : (twoHosts "my-host" "my_host").Built :=
    ⟨[giteaConfig "my-host" "a.example", giteaConfig "my_host" "b.example"], by decide⟩
  have hother : giteaInstance "my_host" "b.example" ∈ (twoHosts "my-host" "my_host").providers :=
    List.mem_cons_self
  exact ⟨hbuilt, not_isolated_of_shared hbuilt.keyed hother (by decide) (by decide)⟩

end SharedName

end Ripclone.Auth
