import KseRewriteProxy.Literal.Stage
import KseRewriteProxy.Rewrite.MigMeta

/-!
# Building the response rewriter

`build_selected_response_rewriter` of `rewrite.rs` turns a profile, the base path and the extension
into a pipeline. The rule tables are the ones of the source; a table lists its sources as needles,
because every source literal is non-empty.

`responseStages` names the stages of each profile, and `buildSelectedResponseRewriter_eq` says that
the pipeline is built for every profile, base path, extension and limit, from these stages.

So building never fails, although each constructor of the source may: the errors are for an empty
source, for a replacement that does not end with its source, and for a pipeline without stages, and
none of these is possible with the tables (`responseStages_ne_nil`). From here on a pipeline is its
list of stages, and no later module looks at a constructor.
-/

namespace KseRewriteProxy

open Text

/-- A needle with more text behind it. -/
def Needle.extend (s : Needle UInt8) (l : Bytes) : Needle UInt8 :=
  ⟨s.toList ++ l, List.append_ne_nil_of_left_ne_nil s.ne_nil l⟩

/-! ### Console V3 -/

/-- The standalone static root. -/
def staticSource : Needle UInt8 :=
  ⟨bytes "/extensions-static/", by decide⟩

/-- The static root of an extension. -/
def extensionSource (extension : Str) : Needle UInt8 :=
  Needle.extend staticSource (extension.asBytes ++ bytes "/dist/v3dist/")

/-- `exact_rules` of `build_response_rewriter`. -/
def consoleExactRules (basePath : Str) : List (Needle UInt8 × Bytes) :=
  [(⟨bytes "return requestURL.replace(/\\\\/\\\\/+/, '/');", by decide⟩,
      bytes "return requestURL.toLowerCase().startsWith('http://') || requestURL.toLowerCase()"
        ++ bytes ".startsWith('https://') || requestURL.startsWith('//') ? requestURL : "
        ++ bytes "(requestURL.replace(/\\\\/\\\\/+/, '/') === '" ++ basePath.asBytes
        ++ bytes "' || requestURL.replace(/\\\\/\\\\/+/, '/').startsWith('" ++ basePath.asBytes
        ++ bytes "/') ? requestURL.replace(/\\\\/\\\\/+/, '/') : '" ++ basePath.asBytes
        ++ bytes "/'.concat(requestURL.replace(/\\\\/\\\\/+/, '/').replace(/^\\\\/+/, '')));"),
    (⟨bytes "return \"/\".concat(path.trimLeft('/'));", by decide⟩,
      bytes "return path.startsWith('/') ? path : \"/\".concat(path);"),
    (⟨bytes "return \\\"/\\\".concat(path.trimLeft('/'));", by decide⟩,
      bytes "return path.startsWith('/') ? path : \\\"/\\\".concat(path);"),
    (⟨bytes "if (path.startsWith('http')) \x7b", by decide⟩,
      bytes "if (path.toLowerCase().startsWith('http://') || "
        ++ bytes "path.toLowerCase().startsWith('https://')) \x7b")]

/-- `member_expression_rules` of `build_response_rewriter`. -/
def consoleMemberRules (basePath : Str) : List (Needle UInt8 × Needle UInt8 × Bytes) :=
  [(⟨bytes "basename: \"\".concat(", by decide⟩, ⟨bytes ", \"/consolev3\")", by decide⟩,
      bytes "basename: \"" ++ basePath.asBytes ++ bytes "/\".concat("),
    (⟨bytes "basename:\"\".concat(", by decide⟩, ⟨bytes ",\"/consolev3\")", by decide⟩,
      bytes "basename:\"" ++ basePath.asBytes ++ bytes "/\".concat("),
    (⟨bytes "basename: \\\"\\\".concat(", by decide⟩,
      ⟨bytes ", \\\"/consolev3\\\")", by decide⟩,
      bytes "basename: \\\"" ++ basePath.asBytes ++ bytes "/\\\".concat("),
    (⟨bytes "basename:\\\"\\\".concat(", by decide⟩, ⟨bytes ",\\\"/consolev3\\\")", by decide⟩,
      bytes "basename:\\\"" ++ basePath.asBytes ++ bytes "/\\\".concat(")]

/-- The expression that prefixes a path at run time, common to the templates. -/
def prefixedPath (basePath : Str) : Bytes :=
  bytes "{identifier}===\"" ++ basePath.asBytes ++ bytes "\"||{identifier}.startsWith(\""
    ++ basePath.asBytes ++ bytes "/\")?{identifier}:\"" ++ basePath.asBytes
    ++ bytes "/\".concat({identifier}.replace(/^\\/+/,\"\")))"

/-- The rules of `with_identifier_template_patterns` in `build_response_rewriter`. -/
def consoleTemplateRules (basePath : Str) :
    List (Needle UInt8 × Needle UInt8 × Needle UInt8) :=
  [(⟨bytes "\"/\".concat(", by decide⟩, ⟨bytes ".trimLeft(\"/\"))", by decide⟩,
      Needle.extend ⟨bytes "(", by decide⟩ (prefixedPath basePath)),
    (⟨bytes "return\"/\".concat(", by decide⟩, ⟨bytes ".trimLeft(\"/\"))", by decide⟩,
      Needle.extend ⟨bytes "return(", by decide⟩ (prefixedPath basePath)),
    (⟨bytes ")),", by decide⟩, ⟨bytes ".replace(/\\/\\/+/,\"/\")\x7d", by decide⟩,
      Needle.extend ⟨bytes ")),({identifier}={identifier}.replace(/\\/\\/+/,\"/\"),", by decide⟩
        (prefixedPath basePath ++ bytes "\x7d"))]

/-- `build_response_rewriter`. -/
def buildResponseRewriter (basePath : Str) (source replacement : Bytes) (maxBytes : Usize) :
    Except RewriteError StreamingRewritePipeline := do
  let pipeline ← StreamingRewritePipeline.newWithExactAndMemberExpressionPatterns
    [(source, replacement), (staticSource.toList, basePath.asBytes ++ staticSource.toList)]
    ((consoleExactRules basePath).map fun rule ↦ (rule.1.toList, rule.2))
    ((consoleMemberRules basePath).map fun rule ↦ (rule.1.toList, rule.2.1.toList, rule.2.2))
    maxBytes
  pipeline.withIdentifierTemplatePatterns
    ((consoleTemplateRules basePath).map fun rule ↦
      (rule.1.toList, rule.2.1.toList, rule.2.2.toList))

/-! ### The other profiles -/

/-- The head of the template string that the JSBundle rule extends. -/
def templateHead : Needle UInt8 :=
  ⟨bytes "`//$\x7bwindow.location.host\x7d/", by decide⟩

/-- The suffix of the JSBundle rule: the base path without its leading slashes, and a slash. -/
def bundleSuffix (basePath : Str) : Bytes :=
  Str.asBytes (basePath.dropWhile (· == '/')) ++ bytes "/"

/-- `proxy_root`: the root of a named proxy. -/
def proxyRoot (extension : Str) : Bytes :=
  namedProxyRoot.asBytes ++ extension.asBytes ++ bytes "/"

/-- The exact rules of `Ys1000FrontendIndexJsBundle`, one for each quote. -/
def ys1000FrontendRules (basePath : Str) : List (Needle UInt8 × Bytes) :=
  [0x22, 0x27].map fun quote ↦
    (⟨quote :: (proxyRoot ys1000Name ++ [quote]), List.cons_ne_nil _ _⟩,
      quote :: (basePath.asBytes ++ proxyRoot ys1000Name ++ [quote]))

/-- `kubekey_legacy_root_rule`. -/
def kubekeyLegacyRootRule (basePath : Str) : Needle UInt8 × Bytes :=
  (⟨kubekeyLegacyRoot.asBytes, by decide⟩, basePath.asBytes)

/-- The characters before an attribute. -/
def htmlBoundaries : List UInt8 :=
  [0x20, 0x09, 0x0D, 0x0A, 0x0C]

/-- The attributes with their opening quote. -/
def htmlAttributes : List Bytes :=
  [bytes "href=\"", bytes "href='", bytes "src=\"", bytes "src='"]

/-- The attribute rules of the Named Proxy profiles. -/
def htmlRules (basePath extension : Str) : List (Needle UInt8 × Bytes) :=
  htmlBoundaries.flatMap fun boundary ↦ htmlAttributes.map fun attr ↦
    (⟨boundary :: (attr ++ proxyRoot extension), List.cons_ne_nil _ _⟩,
      boundary :: (attr ++ basePath.asBytes ++ proxyRoot extension))

/-- `exact_rules` of the Named Proxy profiles. -/
def namedProxyRules (basePath extension : Str) : List (Needle UInt8 × Bytes) :=
  if extension = kubekeyName then
    htmlRules basePath extension ++ [kubekeyLegacyRootRule basePath]
  else htmlRules basePath extension

/-- `desired_base_uri`. -/
def desiredBaseUri (basePath extension : Str) : Str :=
  basePath ++ namedProxyRoot ++ extension

/-- `build_selected_response_rewriter`. -/
def buildSelectedResponseRewriter (codec : MetadataCodec) (profile : RewriteProfile)
    (basePath extension : Str) (maxBytes : Usize) :
    Except RewriteError StreamingRewritePipeline :=
  match profile with
  | .consoleV3 =>
    let source := (extensionSource extension).toList
    let replacement := basePath.asBytes ++ source
    buildResponseRewriter basePath source replacement maxBytes
  | .frontendIndexJsBundle | .jsBundle =>
    StreamingRewritePipeline.newWithAppendedSuffix templateHead.toList (bundleSuffix basePath)
      maxBytes
  | .ys1000FrontendIndexJsBundle => do
    let pipeline ← StreamingRewritePipeline.newWithAppendedSuffix templateHead.toList
      (bundleSuffix basePath) maxBytes
    pipeline.withExactRules
      ((ys1000FrontendRules basePath).map fun rule ↦ (rule.1.toList, rule.2))
  | .kubekeyAssetJs =>
    StreamingRewritePipeline.newWithExact []
      [((kubekeyLegacyRootRule basePath).1.toList, (kubekeyLegacyRootRule basePath).2)] maxBytes
  | .namedProxyHtml | .ys1000Html => do
    let pipeline ← StreamingRewritePipeline.newWithExact []
      ((namedProxyRules basePath extension).map fun rule ↦ (rule.1.toList, rule.2)) maxBytes
    if profile = .ys1000Html then
      return pipeline.withBufferedTransform fun input ↦
        rewriteMigMetaBaseUri codec input (desiredBaseUri basePath extension)
    else return pipeline

/-! ### The stages of a profile -/

open StreamingRewritePipeline

/-- The stages of the Console V3 pipeline. -/
def consoleStages (basePath extension : Str) : List Stage :=
  [prefixStage (extensionSource extension, basePath.asBytes),
      prefixStage (staticSource, basePath.asBytes)]
    ++ (consoleExactRules basePath).map exactStage
    ++ (consoleMemberRules basePath).map memberStage
    ++ (consoleTemplateRules basePath).map templateStage

/-- The stages of each profile. -/
def responseStages (codec : MetadataCodec) (profile : RewriteProfile)
    (basePath extension : Str) : List Stage :=
  match profile with
  | .consoleV3 => consoleStages basePath extension
  | .frontendIndexJsBundle | .jsBundle => [appendStage templateHead (bundleSuffix basePath)]
  | .ys1000FrontendIndexJsBundle =>
    appendStage templateHead (bundleSuffix basePath) ::
      (ys1000FrontendRules basePath).map exactStage
  | .kubekeyAssetJs => [exactStage (kubekeyLegacyRootRule basePath)]
  | .namedProxyHtml => (namedProxyRules basePath extension).map exactStage
  | .ys1000Html =>
    (namedProxyRules basePath extension).map exactStage ++
      [.buffered fun input ↦
        rewriteMigMetaBaseUri codec input (desiredBaseUri basePath extension)]

theorem namedProxyRules_ne_nil (basePath extension : Str) :
    namedProxyRules basePath extension ≠ [] := by
  rw [namedProxyRules]
  split <;> simp [htmlRules, htmlBoundaries, htmlAttributes]

/-- Every pipeline begins with a literal stage, which checks the encoding. -/
theorem exists_responseStages_eq_cons (codec : MetadataCodec) (profile : RewriteProfile)
    (basePath extension : Str) :
    ∃ source mode stages,
      responseStages codec profile basePath extension = .literal source mode :: stages := by
  have hrules : ∀ {rules : List (Needle UInt8 × Bytes)}, rules ≠ [] → ∀ more,
      ∃ source mode stages, rules.map exactStage ++ more = .literal source mode :: stages := by
    intro rules hne more
    obtain ⟨rule, rules, rfl⟩ := List.exists_cons_of_ne_nil hne
    exact ⟨_, _, _, rfl⟩
  cases profile with
  | namedProxyHtml =>
    have := hrules (namedProxyRules_ne_nil basePath extension) []
    rwa [List.append_nil] at this
  | ys1000Html => exact hrules (namedProxyRules_ne_nil basePath extension) _
  | consoleV3 => exact ⟨_, _, _, rfl⟩
  | frontendIndexJsBundle => exact ⟨_, _, _, rfl⟩
  | ys1000FrontendIndexJsBundle => exact ⟨_, _, _, rfl⟩
  | jsBundle => exact ⟨_, _, _, rfl⟩
  | kubekeyAssetJs => exact ⟨_, _, _, rfl⟩

/-- **Every profile has stages**, so that building its pipeline never fails. -/
theorem responseStages_ne_nil (codec : MetadataCodec) (profile : RewriteProfile)
    (basePath extension : Str) : responseStages codec profile basePath extension ≠ [] := by
  obtain ⟨source, mode, stages, h⟩ :=
    exists_responseStages_eq_cons codec profile basePath extension
  rw [h]
  exact List.cons_ne_nil _ _

/-- **The pipeline of a profile is always built**, from the stages of the profile. -/
theorem buildSelectedResponseRewriter_eq (codec : MetadataCodec) (profile : RewriteProfile)
    (basePath extension : Str) (maxBytes : Usize) :
    buildSelectedResponseRewriter codec profile basePath extension maxBytes =
      .ok (ofStages (responseStages codec profile basePath extension)
        (responseStages_ne_nil codec profile basePath extension) maxBytes) := by
  cases profile with
  | consoleV3 =>
    have hpipeline := newWithExactAndMemberExpressionPatterns_eq
      [(extensionSource extension, basePath.asBytes), (staticSource, basePath.asBytes)]
      (consoleExactRules basePath) (consoleMemberRules basePath) (by simp) maxBytes
    simp only [List.map_cons, List.map_nil] at hpipeline
    simp only [buildSelectedResponseRewriter, buildResponseRewriter]
    rw [hpipeline]
    exact withIdentifierTemplatePatterns_eq _ maxBytes (consoleTemplateRules basePath)
  | frontendIndexJsBundle => exact newWithAppendedSuffix_eq _ _ maxBytes
  | jsBundle => exact newWithAppendedSuffix_eq _ _ maxBytes
  | ys1000FrontendIndexJsBundle =>
    simp only [buildSelectedResponseRewriter]
    rw [newWithAppendedSuffix_eq]
    exact withExactRules_eq _ maxBytes (ys1000FrontendRules basePath)
  | kubekeyAssetJs => exact newWithExact_eq [] [kubekeyLegacyRootRule basePath] (by simp) maxBytes
  | namedProxyHtml =>
    have hne : [].map prefixStage ++ (namedProxyRules basePath extension).map exactStage ≠ [] := by
      simpa using namedProxyRules_ne_nil basePath extension
    have hpipeline := newWithExact_eq [] _ hne maxBytes
    simp only [buildSelectedResponseRewriter]
    rw [show ([] : List (Bytes × Bytes)) = List.map _ [] from rfl, hpipeline]
    rfl
  | ys1000Html =>
    have hne : [].map prefixStage ++ (namedProxyRules basePath extension).map exactStage ≠ [] := by
      simpa using namedProxyRules_ne_nil basePath extension
    have hpipeline := newWithExact_eq [] _ hne maxBytes
    simp only [buildSelectedResponseRewriter]
    rw [show ([] : List (Bytes × Bytes)) = List.map _ [] from rfl, hpipeline]
    exact congrArg Except.ok (withBufferedTransform_eq hne maxBytes _)

end KseRewriteProxy
