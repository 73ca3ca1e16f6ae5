import KseRewriteProxy.Literal.Basic
import Mathlib.Data.Finset.Card

/-!
# The rewrite policy

`RewritePolicy` of `rewrite.rs`: which requests are candidates for a rewrite, and with which
profile. `RewritePolicy.decide` reads the request path below three roots, `proxy`, `jsbundles` and
`extensions-static`, in this order; a path that fails below one root may still match the next.

The three parts of `decide` have definitions of their own, `namedProxyPath`, `jsbundlePath` and
`staticPath`, each of which is the code of one `if let` with its early exits. Sets of extensions and
of rules are finite sets, as in the source, where they are hash sets that are only asked for
membership. Text is compared and split by characters: a slash and the characters of a root are
ASCII, so the code, which works on bytes, cuts at the same places.
-/

namespace KseRewriteProxy

open Text

/-- A string literal. -/
def str (s : String) : Str :=
  s.toList

/-! ### Rules and decisions -/

/-- `RewriteRule`. -/
inductive RewriteRule where
  | consoleV3
  | jsBundle
  | frontendIndexJsBundle
  | namedProxyHtml
  | ys1000Html
  | kubekeyAssetJs
  deriving DecidableEq

namespace RewriteRule

/-- `RewriteRule::ALL`. -/
def all : List RewriteRule :=
  [consoleV3, jsBundle, frontendIndexJsBundle, namedProxyHtml, ys1000Html, kubekeyAssetJs]

/-- `RewriteRule::number`. -/
def number : RewriteRule → ℕ
  | consoleV3 => 1
  | jsBundle => 2
  | frontendIndexJsBundle => 3
  | namedProxyHtml => 4
  | ys1000Html => 5
  | kubekeyAssetJs => 6

end RewriteRule

/-- `RewriteProfile`. -/
inductive RewriteProfile where
  | consoleV3
  | frontendIndexJsBundle
  | ys1000FrontendIndexJsBundle
  | jsBundle
  | kubekeyAssetJs
  | namedProxyHtml
  | ys1000Html
  deriving DecidableEq

/-- `RewriteDecision`. -/
inductive RewriteDecision where
  | bypass
  | rewrite (profile : RewriteProfile) (extension : Str) (headOnly : Bool)
  deriving DecidableEq

/-- `ALL_EXTENSIONS_WILDCARD`. -/
def allExtensionsWildcard : Str :=
  str "*"

/-- `KUBEKEY_LEGACY_ROOT`. -/
def kubekeyLegacyRoot : Str :=
  str "/57516e69-2cb0-4d48-a8a8-2833cfff87a9"

/-- `KUBEKEY_NAME`. -/
def kubekeyName : Str :=
  str "kubekey"

/-- `NAMED_PROXY_ROOT`. -/
def namedProxyRoot : Str :=
  str "/proxy/"

/-- `YS1000_NAME`. -/
def ys1000Name : Str :=
  str "ys1000"

/-- `YS1000_FRONTEND_NAME`. -/
def ys1000FrontendName : Str :=
  str "ys1000-frontend"

/-- `YS1000_FRONTEND_INDEX_PATH`. -/
def ys1000FrontendIndexPath : Str :=
  str "ys1000-frontend/index.js"

/-! ### The policy -/

/-- `ExtensionMatcher`. -/
inductive ExtensionMatcher where
  | all
  | allowlist (enabledExtensions : Finset Str)

/-- `RewritePolicy`. -/
structure RewritePolicy where
  basePath : Str
  extensions : ExtensionMatcher
  disabledExtensions : Finset Str
  enabledRules : Finset RewriteRule

/-- `str::eq_ignore_ascii_case`. -/
def eqIgnoreAsciiCase (a b : Str) : Bool :=
  a.map Char.toLower == b.map Char.toLower

/-- `u8::is_ascii_alphanumeric`. -/
def isAsciiAlphanumeric (byte : UInt8) : Bool :=
  (0x30 ≤ byte && byte ≤ 0x39) || (0x41 ≤ byte && byte ≤ 0x5A) || (0x61 ≤ byte && byte ≤ 0x7A)

/-- `is_safe_extension_name`. -/
def isSafeExtensionName (value : Str) : Bool :=
  !value.isEmpty
    && value.asBytes.length ≤ 128
    && value.asBytes.all
      (fun byte ↦ isAsciiAlphanumeric byte || byte == 0x2D || byte == 0x5F || byte == 0x2E)
    && value.asBytes.head?.any isAsciiAlphanumeric

/-- The last segment of a path, `rsplit('/').next()`. -/
def lastSegment (path : Str) : Str :=
  (path.reverse.takeWhile (· ≠ '/')).reverse

/-- The suffixes of `is_text_asset`. -/
def textAssetSuffixes : List Str :=
  [str ".js", str ".mjs", str ".css", str ".json", str ".html", str ".htm"]

/-- `is_text_asset`. -/
def isTextAsset (assetPath : Str) : Bool :=
  textAssetSuffixes.any fun suffix ↦ suffix.isSuffixOf (lastSegment assetPath)

/-- `jsbundle_asset_path`. -/
def jsbundleAssetPath (extension distributionPath : Str) : Option Str :=
  ((stripPrefix extension distributionPath).bind (stripPrefix (str "/"))).or
    ((stripSuffix (str "-frontend") extension).bind fun distributionName ↦
      (stripPrefix distributionName distributionPath).bind (stripPrefix (str "/")))

namespace RewritePolicy

/-- `new_with_rules`. -/
def newWithRules (basePath : Str) (enabledExtensions disabledExtensions : List Str)
    (enabledRules : List RewriteRule) : RewritePolicy where
  basePath := trimEndMatches (· == '/') basePath
  extensions :=
    if enabledExtensions.toFinset.card = 1 ∧ allExtensionsWildcard ∈ enabledExtensions.toFinset
    then .all
    else .allowlist enabledExtensions.toFinset
  disabledExtensions := disabledExtensions.toFinset
  enabledRules := enabledRules.toFinset

variable (self : RewritePolicy)

/-- `is_rule_enabled`. -/
def isRuleEnabled (rule : RewriteRule) : Bool :=
  rule ∈ self.enabledRules

/-- `is_extension_enabled`. -/
def isExtensionEnabled (extension : Str) : Bool :=
  isSafeExtensionName extension
    && extension ∉ self.disabledExtensions
    && match self.extensions with
      | .all => true
      | .allowlist enabledExtensions => extension ∈ enabledExtensions

/-- The profile below the `proxy` root. -/
def namedProxyProfile (name assetPath : Str) : Option RewriteProfile :=
  if name = ys1000Name then
    if self.isRuleEnabled .ys1000Html then some .ys1000Html
    else if self.isRuleEnabled .namedProxyHtml then some .namedProxyHtml
    else none
  else if !assetPath.isEmpty && (str ".js").isSuffixOf assetPath then
    if name == kubekeyName && (str "assets/").isPrefixOf assetPath
        && self.isRuleEnabled .kubekeyAssetJs then
      some .kubekeyAssetJs
    else none
  else if self.isRuleEnabled .namedProxyHtml then some .namedProxyHtml
  else none

/-- The profile below the `jsbundles` root. -/
def jsbundleProfile (extension distributionPath assetPath : Str) : Option RewriteProfile :=
  let isFrontendIndex :=
    (str "-frontend").isSuffixOf extension && assetPath == str "index.js"
  let isYs1000FrontendIndex :=
    extension == ys1000FrontendName && distributionPath == ys1000FrontendIndexPath
  if isFrontendIndex && self.isRuleEnabled .frontendIndexJsBundle then
    if isYs1000FrontendIndex then some .ys1000FrontendIndexJsBundle
    else some .frontendIndexJsBundle
  else if self.isRuleEnabled .jsBundle then some .jsBundle
  else none

/-- The name and the rest of a path below the `proxy` root. -/
def namedProxyPath (path : Str) : Option (Str × Str) :=
  ((stripPrefix (self.basePath ++ namedProxyRoot) path).bind (splitOnce (str "/"))).filter
    fun nameAndAsset ↦ !nameAndAsset.1.isEmpty

/-- The extension and the profile of a path below the `jsbundles` root. -/
def jsbundlePath (path : Str) : Option (Str × RewriteProfile) := do
  let bundlePath ← stripPrefix (self.basePath ++ str "/jsbundles/") path
  let (extension, distributionPath) ← splitOnce (str "/dist/") bundlePath
  let assetPath ← jsbundleAssetPath extension distributionPath
  if self.isExtensionEnabled extension && !assetPath.isEmpty && !assetPath.contains '/'
      && (str ".js").isSuffixOf assetPath then
    (self.jsbundleProfile extension distributionPath assetPath).map fun profile ↦
      (extension, profile)
  else none

/-- The extension of a path below the `extensions-static` root. -/
def staticPath (path : Str) : Option Str := do
  let extensionPath ← stripPrefix (self.basePath ++ str "/extensions-static/") path
  let (extension, assetPath) ← splitOnce (str "/dist/v3dist/") extensionPath
  if extension.isEmpty || assetPath.isEmpty || extension.contains '/'
      || !self.isRuleEnabled .consoleV3 || !self.isExtensionEnabled extension
      || !isTextAsset assetPath then
    none
  else some extension

/-- `RewritePolicy::decide`. -/
def decide (method path : Str) : RewriteDecision :=
  if self.basePath.isEmpty
      || (!eqIgnoreAsciiCase method (str "GET") && !eqIgnoreAsciiCase method (str "HEAD")) then
    .bypass
  else
    let headOnly := eqIgnoreAsciiCase method (str "HEAD")
    match self.namedProxyPath path with
    | some (name, assetPath) =>
      match self.namedProxyProfile name assetPath with
      | some profile => .rewrite profile name headOnly
      | none => .bypass
    | none =>
      match self.jsbundlePath path with
      | some (extension, profile) => .rewrite profile extension headOnly
      | none =>
        match self.staticPath path with
        | some extension => .rewrite .consoleV3 extension headOnly
        | none => .bypass

end RewritePolicy

end KseRewriteProxy
