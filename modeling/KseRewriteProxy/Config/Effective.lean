import KseRewriteProxy.Config.BasePath

/-!
# The effective configuration

`EffectiveConfig::from_yaml` of `config.rs`: the checks that turn the raw document into the
configuration that the proxy runs with.

Parsing YAML, URLs and socket addresses is outside the repository; the parsers are the parameter
`ConfigParsers`. The switches of the rules come as a list, in the order in which the hash map of the
source is iterated.

The checks are made in the order of the source, and the first one that fails is reported, with the
field and the text of its error. Each has a definition of its own, so that what it accepts can be
said in one lemma, and `from_yaml` is their sequence. `EffectiveConfig.fromYaml_eq_ok` is what the
proxy relies on; the module on acceptance says in full which documents are accepted.
-/

namespace KseRewriteProxy

open Text

/-! ### Addresses and parsers -/

/-- `IpAddr`. -/
inductive IpAddr where
  | v4 (bits : BitVec 32)
  | v6 (bits : BitVec 128)
  deriving DecidableEq

/-- `IpAddr::is_unspecified`. -/
def IpAddr.isUnspecified : IpAddr → Bool
  | v4 bits => bits == 0
  | v6 bits => bits == 0

/-- `SocketAddr`. -/
structure SocketAddr where
  ip : IpAddr
  port : UInt16
  deriving DecidableEq

/-- What `parse_upstream` reads of a parsed URL. -/
structure ParsedUrl where
  scheme : Str
  username : Str
  password : Option Str
  query : Option Str
  fragment : Option Str
  path : Str
  hostStr : Option Str
  port : Option UInt16

/-- `RawRewriteConfig`. The rules are in the order in which the map is iterated. -/
structure RawRewriteConfig where
  enabledExtensions : List Str
  disabledExtensions : List Str
  rules : List (UInt8 × Bool)
  maxDecodedBytes : Usize
  maxConcurrent : Usize
  maxQueued : Usize

/-- `RawConfig`, with the fields of `RawClientConfig` and `RawSidecarConfig`. -/
structure RawConfig where
  basePath : Str
  listen : Str
  adminListen : Str
  upstream : Str
  rewrite : RawRewriteConfig

/-- The parsers that `from_yaml` calls. -/
structure ConfigParsers where
  /-- `yaml_serde::from_str`. -/
  yaml : Str → Except Str RawConfig
  /-- `Url::parse`. -/
  parseUrl : Str → Option ParsedUrl
  /-- `SocketAddr::from_str`. -/
  socketAddr : Str → Option SocketAddr
  /-- The URLs of the base path. -/
  url : UrlCrate

/-! ### Checks -/

/-- `EffectiveConfig`. -/
structure EffectiveConfig where
  basePath : Str
  listen : SocketAddr
  adminListen : SocketAddr
  upstream : SocketAddr
  enabledExtensions : List Str
  disabledExtensions : List Str
  enabledRules : Finset RewriteRule
  maxDecodedBytes : Usize
  maxConcurrent : Usize
  maxQueued : Usize

/-- `validate_explicit_extensions`, from the extensions `seen` on. -/
def validateFrom (field : Str) (seen : List Str) : List Str → Except ConfigError Unit
  | [] => .ok ()
  | extension :: rest =>
    if !isSafeExtensionName extension then .error (.invalidExtension field extension)
    else if extension ∈ seen then .error (.duplicateExtension field extension)
    else validateFrom field (extension :: seen) rest

/-- `validate_explicit_extensions`. -/
def validateExplicitExtensions (field : Str) (extensions : List Str) :
    Except ConfigError Unit :=
  validateFrom field [] extensions

/-- `socket_addrs_overlap`. -/
def socketAddrsOverlap (first second : SocketAddr) : Bool :=
  first.port == second.port
    && (first.ip.isUnspecified || second.ip.isUnspecified || first.ip == second.ip)

/-- The decimal digits of a port. -/
def portDigits (port : UInt16) : Str :=
  Nat.toDigits 10 port.toNat

/-- `parse_upstream`. -/
def parseUpstream (parsers : ConfigParsers) (value : Str) : Except ConfigError SocketAddr := do
  let some parsed := parsers.parseUrl value
    | throw (.invalidUpstream (str "must be an absolute HTTP URL"))
  if parsed.scheme ≠ str "http" then
    throw (.invalidUpstream (str "must use http inside the Pod"))
  if parsed.username ≠ [] ∨ parsed.password.isSome ∨ parsed.query.isSome ∨ parsed.fragment.isSome
      ∨ parsed.path ≠ str "/" then
    throw (.invalidUpstream (str "must contain only a loopback host and port"))
  let some host := parsed.hostStr | throw (.invalidUpstream (str "must include a host"))
  if host ≠ str "127.0.0.1" ∧ host ≠ str "::1" ∧ host ≠ str "localhost" then
    throw (.invalidUpstream (str "must use a loopback host"))
  let some port := parsed.port | throw (.invalidUpstream (str "must include an explicit port"))
  if host = str "localhost" then return { ip := .v4 0x7F000001, port := port }
  match (parsers.socketAddr (host ++ str ":" ++ portDigits port)).or
      (parsers.socketAddr (str "[::1]:" ++ portDigits port)) with
  | some address => return address
  | none => throw (.invalidUpstream (str "contains an invalid address"))

/-- `RewriteRule::try_from`. -/
def RewriteRule.tryFrom (number : UInt8) : Except UInt8 RewriteRule :=
  match RewriteRule.all.find? fun rule ↦ rule.number == number.toNat with
  | some rule => .ok rule
  | none => .error number

/-- One rule switch. -/
def applyRuleSwitch (enabledRules : Finset RewriteRule) (switch : UInt8 × Bool) :
    Except ConfigError (Finset RewriteRule) :=
  match RewriteRule.tryFrom switch.1 with
  | .error number => .error (.unknownRule number)
  | .ok rule => .ok (if switch.2 then insert rule enabledRules else enabledRules.erase rule)

/-- The check of the extension lists in `from_yaml`. -/
def validateExtensions (rewrite : RawRewriteConfig) : Except ConfigError Unit := do
  if rewrite.enabledExtensions.any (· == allExtensionsWildcard) then
    if rewrite.enabledExtensions.length ≠ 1 then throw .wildcardWithExtensions
  else validateExplicitExtensions (str "enabledExtensions") rewrite.enabledExtensions
  validateExplicitExtensions (str "disabledExtensions") rewrite.disabledExtensions

/-- The check of the limits in `from_yaml`. -/
def validateLimits (rewrite : RawRewriteConfig) : Except ConfigError Unit :=
  if rewrite.maxDecodedBytes.val = 0 then .error (.nonPositiveLimit (str "maxDecodedBytes"))
  else if rewrite.maxConcurrent.val = 0 then .error (.nonPositiveLimit (str "maxConcurrent"))
  else .ok ()

/-- The listeners and the upstream of `from_yaml`, in this order. -/
def parseAddresses (parsers : ConfigParsers) (raw : RawConfig) :
    Except ConfigError (SocketAddr × SocketAddr × SocketAddr) := do
  let some listen := parsers.socketAddr raw.listen | throw (.invalidListen raw.listen)
  let some adminListen := parsers.socketAddr raw.adminListen
    | throw (.invalidAdminListen raw.adminListen)
  if socketAddrsOverlap listen adminListen then throw .conflictingListeners
  let upstream ← parseUpstream parsers raw.upstream
  if socketAddrsOverlap listen upstream then throw (.listenerOverlapsUpstream (str "listen"))
  if socketAddrsOverlap adminListen upstream then
    throw (.listenerOverlapsUpstream (str "adminListen"))
  return (listen, adminListen, upstream)

namespace EffectiveConfig

/-- `from_yaml`. -/
def fromYaml (parsers : ConfigParsers) (input : Str) : Except ConfigError EffectiveConfig := do
  let raw ← (parsers.yaml input).mapError ConfigError.invalidYaml
  let basePath ← normalizeBasePath parsers.url raw.basePath
  let (listen, adminListen, upstream) ← parseAddresses parsers raw
  let rewrite := raw.rewrite
  validateLimits rewrite
  validateExtensions rewrite
  let enabledRules ← rewrite.rules.foldlM applyRuleSwitch RewriteRule.all.toFinset
  return {
    basePath := basePath
    listen := listen
    adminListen := adminListen
    upstream := upstream
    enabledExtensions := rewrite.enabledExtensions
    disabledExtensions := rewrite.disabledExtensions
    enabledRules := enabledRules
    maxDecodedBytes := rewrite.maxDecodedBytes
    maxConcurrent := rewrite.maxConcurrent
    maxQueued := rewrite.maxQueued }

/-- `rewrite_policy`. -/
def rewritePolicy (self : EffectiveConfig) : RewritePolicy :=
  RewritePolicy.newWithRules self.basePath self.enabledExtensions self.disabledExtensions
    (RewriteRule.all.filter (· ∈ self.enabledRules))

end EffectiveConfig

/-- Computations in sequence succeed where both do. -/
theorem bind_eq_ok_iff {ε α β : Type} {x : Except ε α} {f : α → Except ε β} {b : β} :
    (x >>= f) = .ok b ↔ ∃ a, x = .ok a ∧ f a = .ok b := by
  cases x with
  | error e =>
    refine ⟨(nomatch ·), ?_⟩
    rintro ⟨a, h, -⟩
    exact nomatch h
  | ok a =>
    refine ⟨fun h ↦ ⟨a, rfl, h⟩, ?_⟩
    rintro ⟨a', h, h'⟩
    exact Except.ok.inj h ▸ h'

theorem validateLimits_eq_ok {rewrite : RawRewriteConfig} (h : validateLimits rewrite = .ok ()) :
    0 < rewrite.maxDecodedBytes.val ∧ 0 < rewrite.maxConcurrent.val := by
  rw [validateLimits] at h
  split at h
  · exact nomatch h
  split at h
  · exact nomatch h
  · omega

/-- **An accepted configuration** has an accepted base path and positive limits. -/
theorem EffectiveConfig.fromYaml_eq_ok {parsers : ConfigParsers} {input : Str}
    {config : EffectiveConfig} (h : fromYaml parsers input = .ok config) :
    (∃ value, normalizeBasePath parsers.url value = .ok config.basePath) ∧
      0 < config.maxDecodedBytes.val ∧ 0 < config.maxConcurrent.val := by
  simp only [fromYaml, bind_eq_ok_iff] at h
  obtain ⟨raw, -, basePath, hbase, ⟨listen, adminListen, upstream⟩, -, ⟨⟩, hlimits, ⟨⟩, -, rules,
    -, h⟩ := h
  obtain rfl := Except.ok.inj h
  exact ⟨⟨raw.basePath, hbase⟩, validateLimits_eq_ok hlimits⟩

end KseRewriteProxy
