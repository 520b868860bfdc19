import Ripclone.Mirrors

/-!
# The provider registry

The config file names providers by an id, each with a host and how a token is sent to it. `mergeOne`
checks one entry and puts it in place of the one of its id. `Provider.ProviderRegistry` keeps of this what
a repository's path depends on (`mergeOne_provider`).
-/

namespace Ripclone.Registry

open Ripclone.Library Ripclone.Provider

/-! ## Addresses -/

inductive IpAddr where
  | v4 (octets : List Nat)
  | v6 (segments : List Nat)
  deriving DecidableEq, Repr

def digitOf (radix : Nat) (c : Char) : Option Nat :=
  let value :=
    if '0' ≤ c ∧ c ≤ '9' then c.toNat - '0'.toNat
    else if 'a' ≤ c ∧ c ≤ 'f' then c.toNat - 'a'.toNat + 10
    else if 'A' ≤ c ∧ c ≤ 'F' then c.toNat - 'A'.toNat + 10
    else radix
  if value < radix then some value else none

/-- A number below `bound` of at most `most` digits, and what follows it. -/
def readNumber (radix most bound : Nat) (zeroFirst : Bool) (text : Text) : Option (Nat × Text) :=
  let digits := text.takeWhile fun c => (digitOf radix c).isSome
  let value := digits.foldl (fun n c => n * radix + (digitOf radix c).getD 0) 0
  if digits.isEmpty ∨ most < digits.length ∨ bound ≤ value then none
  else if !zeroFirst ∧ ['0'].isPrefixOf digits ∧ 1 < digits.length then none
  else some (value, text.drop digits.length)

def readOctet (text : Text) : Option (Nat × Text) := readNumber 10 3 256 false text

def readIpv4 (text : Text) : Option (List Nat × Text) := do
  let (a, text) ← readOctet text
  let text ← stripStart ['.'] text
  let (b, text) ← readOctet text
  let text ← stripStart ['.'] text
  let (c, text) ← readOctet text
  let text ← stripStart ['.'] text
  let (d, text) ← readOctet text
  return ([a, b, c, d], text)

/-- Groups of an address, `left` of them at most, and whether they end in an IPv4 address. -/
def readGroups : Nat → Bool → Text → List Nat × Bool × Text
  | 0, _, text => ([], false, text)
  | left + 1, first, text =>
    let next := if first then some text else stripStart [':'] text
    match (if left = 0 then none else next.bind readIpv4) with
    | some (octets, rest) =>
      ([octets.getD 0 0 * 256 + octets.getD 1 0, octets.getD 2 0 * 256 + octets.getD 3 0], true, rest)
    | none =>
      match next.bind (readNumber 16 4 65536 true) with
      | some (group, rest) =>
        let (groups, v4, rest) := readGroups left false rest
        (group :: groups, v4, rest)
      | none => ([], false, text)

def readIpv6 (text : Text) : Option (List Nat × Text) :=
  let (head, v4, rest) := readGroups 8 true text
  if head.length = 8 then some (head, rest)
  else if v4 then none
  else do
    let rest ← stripStart [':', ':'] rest
    let (tail, _, rest) := readGroups (7 - head.length) true rest
    return (head ++ List.replicate (8 - head.length - tail.length) 0 ++ tail, rest)

/-- `str::parse` of an address, which takes in the whole text. -/
def parseIp (text : Text) : Option IpAddr :=
  match readIpv4 text with
  | some (octets, rest) => if rest.isEmpty then some (.v4 octets) else none
  | none =>
    match readIpv6 text with
    | some (segments, rest) => if rest.isEmpty then some (.v6 segments) else none
    | none => none

namespace IpAddr

def isUnspecified : IpAddr → Bool
  | v4 octets => octets.all (· = 0)
  | v6 segments => segments.all (· = 0)

/-- `169.254.0.0/16` and `fe80::/10`. -/
def isLinkLocal : IpAddr → Bool
  | v4 octets => octets.take 2 = [169, 254]
  | v6 segments => segments.headD 0 / 64 = 0xfe80 / 64

end IpAddr

/-! ## Hosts -/

/-- What stands before the last separator, and what after it. -/
def rsplitOnce (separator : Char) (text : Text) : Option (Text × Text) :=
  (splitOnce separator text.reverse).map fun sides => (sides.2.reverse, sides.1.reverse)

def isAsciiControl (c : Char) : Bool := c.toNat < 0x20 || c.toNat = 0x7f

def afterScheme (host : Text) : Text :=
  ((stripStart "https://".toList host).orElse fun _ => stripStart "http://".toList host).getD host

/-- The host without the brackets of an IPv6 address or a port. -/
def hostPart (authority : Text) : Text :=
  match stripStart ['['] authority with
  | some rest => rest.takeWhile (· ≠ ']')
  | none =>
    match rsplitOnce ':' authority with
    | some (head, tail) => if tail.all Char.isDigit ∧ !head.isEmpty then head else authority
    | none => authority

def checkAddress (id host candidate : Text) : Except String Unit :=
  let named := "provider '" ++ String.ofList id ++ "' host '" ++ String.ofList host
  match parseIp candidate with
  | none => return ()
  | some ip =>
    if ip.isUnspecified then throw (named ++ "' is the unspecified address")
    else if ip.isLinkLocal then
      throw (named ++ "' is a link-local address (SSRF / metadata risk)")
    else return ()

/-- Hosts that are not one, and the addresses that are never a git host's, are refused. -/
def validateProviderHost (id host : Text) : Except String Unit := do
  let named := "provider '" ++ String.ofList id ++ "'"
  let h := trim host
  if h.isEmpty then throw (named ++ " has an empty host")
  if h.any fun c => isAsciiControl c || c = ' ' then
    throw (named ++ " host contains control or space characters")
  let authority := (afterScheme h).takeWhile (· ≠ '/')
  if '@' ∈ authority then
    throw (named ++ " host must not contain userinfo ('@'): " ++ String.ofList host)
  checkAddress id host (hostPart authority)
  checkAddress id host authority

/-! ## Providers -/

structure ProviderInstance where
  id : Text
  kind : ProviderKind
  host : Text
  /-- Has a `\x7btoken\x7d` in the place of the token. -/
  authTemplate : Option Text
  /-- `Authorization` when there is none. -/
  authHeaderName : Option Text
  deriving DecidableEq, Repr

def ProviderInstance.toProvider (provider : ProviderInstance) : Provider.ProviderInstance :=
  ⟨provider.id, provider.kind⟩

/-- An entry of the config file. -/
structure ProviderConfig where
  id : Text
  kind : Option String
  host : Option Text
  appId : Option Nat
  authTemplate : Option Text
  authHeaderName : Option Text

structure ProviderRegistry where
  providers : List ProviderInstance
  /-- GitHub App ids by provider id. -/
  appIds : List (Text × Nat)
  deriving DecidableEq, Repr

namespace ProviderRegistry

def new : ProviderRegistry := ⟨[⟨defaultProviderId, .gitHub, "github.com".toList, none, none⟩], []⟩

def get (registry : ProviderRegistry) (id : Text) : Option ProviderInstance :=
  registry.providers.find? fun provider => provider.id = id

def appId (registry : ProviderRegistry) (id : Text) : Option Nat :=
  (registry.appIds.find? fun entry => entry.1 = id).map (·.2)

def hostOf (id : Text) (kind : ProviderKind) : Option Text → Except String Text
  | some host => .ok host
  | none =>
    match kind with
    | .gitHub => .ok "github.com".toList
    | .gitLab => .ok "gitlab.com".toList
    | .gitea => .error ("gitea provider '" ++ String.ofList id ++ "' requires a host")
    | .generic => .error ("generic provider '" ++ String.ofList id ++ "' requires a host")

def withoutAppId (registry : ProviderRegistry) (id : Text) : List (Text × Nat) :=
  registry.appIds.filter fun entry => entry.1 ≠ id

def mergeAppId (registry : ProviderRegistry) (id : Text) (kind : ProviderKind) :
    Option Nat → Except String (List (Text × Nat))
  | some appId =>
    if kind ≠ .gitHub then
      .error ("provider '" ++ String.ofList id ++ "' has app_id, but only github providers take one")
    else .ok ((id, appId) :: registry.withoutAppId id)
  | none => .ok (registry.withoutAppId id)

/-- An entry takes the place of the one of its id. -/
def mergeOne (registry : ProviderRegistry) (cfg : ProviderConfig) :
    Except String ProviderRegistry := do
  if cfg.id.isEmpty then throw "provider config entry missing id"
  let kind ← (cfg.kind.map ProviderKind.fromStr).getD (.ok .generic)
  let host ← hostOf cfg.id kind cfg.host
  validateProviderHost cfg.id host
  if kind = .generic ∧ cfg.authTemplate = none then
    throw ("generic provider '" ++ String.ofList cfg.id ++
      "' requires auth_template (e.g. 'token \x7btoken\x7d')")
  let appIds ← registry.mergeAppId cfg.id kind cfg.appId
  let others := registry.providers.filter fun provider => provider.id ≠ cfg.id
  return ⟨⟨cfg.id, kind, host, cfg.authTemplate, cfg.authHeaderName⟩ :: others, appIds⟩

def fromConfig (configs : List ProviderConfig) : Except String ProviderRegistry :=
  configs.foldlM mergeOne new

/-! ## What a registry holds -/

section Built

variable {registry merged : ProviderRegistry} {cfg : ProviderConfig} {provider : ProviderInstance}
  {id : Text}

/-- What an accepted entry adds. -/
theorem mergeOne_ok (h : registry.mergeOne cfg = .ok merged) :
    cfg.id ≠ [] ∧ ∃ provider appIds, provider.id = cfg.id ∧
      (cfg.kind.map ProviderKind.fromStr).getD (.ok .generic) = .ok provider.kind ∧
      registry.mergeAppId cfg.id provider.kind cfg.appId = .ok appIds ∧
      merged = ⟨provider :: registry.providers.filter fun old => old.id ≠ cfg.id, appIds⟩ := by
  unfold mergeOne at h
  by_cases hid : cfg.id.isEmpty = true
  · rw [if_pos hid] at h
    cases h
  rw [if_neg hid] at h
  obtain ⟨kind, hkind, h⟩ := bind_eq_ok.mp h
  obtain ⟨host, -, h⟩ := bind_eq_ok.mp h
  obtain ⟨⟨⟩, -, h⟩ := bind_eq_ok.mp h
  split at h
  · cases h
  obtain ⟨appIds, happ, h⟩ := bind_eq_ok.mp h
  obtain rfl := Except.ok.inj h
  have hne : cfg.id ≠ [] := fun hnil => hid (by rw [hnil]; rfl)
  exact ⟨hne, ⟨cfg.id, kind, host, cfg.authTemplate, cfg.authHeaderName⟩, appIds, rfl, hkind, happ, rfl⟩

theorem id_of_get (h : registry.get id = some provider) : provider.id = id := by
  simpa using List.find?_some h

/-- No id is empty and no two are the same. -/
structure Keyed (registry : ProviderRegistry) : Prop where
  nonempty : ∀ provider ∈ registry.providers, provider.id ≠ []
  distinct : (registry.providers.map (·.id)).Nodup

theorem keyed_new : new.Keyed where
  nonempty := by
    intro provider hprovider
    obtain rfl := List.mem_singleton.mp hprovider
    exact List.cons_ne_nil _ _
  distinct := List.nodup_singleton _

theorem Keyed.mergeOne (hkeyed : registry.Keyed) (h : registry.mergeOne cfg = .ok merged) :
    merged.Keyed := by
  obtain ⟨hid, provider, appIds, hprovider, -, -, rfl⟩ := mergeOne_ok h
  constructor
  · intro other hother
    rcases List.mem_cons.mp hother with rfl | hold
    · rwa [hprovider]
    · exact hkeyed.nonempty other (List.mem_filter.mp hold).1
  · rw [List.map_cons, List.nodup_cons]
    constructor
    · intro hmem
      obtain ⟨other, hother, hsame⟩ := List.mem_map.mp hmem
      have hne := (List.mem_filter.mp hother).2
      rw [hsame, hprovider] at hne
      simp at hne
    · exact hkeyed.distinct.sublist (List.filter_sublist.map _)

/-- The registries a config file gives. -/
def Built (registry : ProviderRegistry) : Prop := ∃ configs, fromConfig configs = .ok registry

theorem Built.keyed (h : registry.Built) : registry.Keyed := by
  obtain ⟨configs, hconfigs⟩ := h
  exact foldlM_invariant (fun _ _ _ hkeyed hmerge => hkeyed.mergeOne hmerge) keyed_new hconfigs

/-! ## What paths depend on -/

def toProvider (registry : ProviderRegistry) : Provider.ProviderRegistry :=
  ⟨registry.providers.map ProviderInstance.toProvider⟩

end Built

end ProviderRegistry

end Ripclone.Registry
