import KseRewriteProxy.Rewrite.Idempotence
import KseRewriteProxy.Rewrite.Grammar
import KseRewriteProxy.Text.Segments

/-!
# The attribute rules of the Named Proxy profiles

Each of the twenty rules is a pass over the output of the one before. Their sources begin with HTML
whitespace and have none behind it, and so do their replacements: a rule works on the text between
two whitespace characters alone, where at most one attribute can stand.

* `applyAll_attributeRules`: the rules, in any order, insert the base path at all places of the
  original body where an attribute value begins with the root of the proxy, and change nothing else;
* `run_namedProxyHtml`: so does the pipeline, in every chunking, and for `kubekey` one pass over the
  result replaces the legacy root.

The general fact is `foldl_insertPass_eq_insertWhere` of the text library. What is specific here is
that the twenty keys are keys of one kind (`areKeys_attributeKeys`), and that neither the root of a
proxy nor the base path has whitespace in it: an extension name has none, and a base path has it
encoded.
-/

namespace KseRewriteProxy

open Text Text.Utf8 Streaming StreamingRewritePipeline

/-! ### HTML whitespace -/

/-- A byte before an attribute. -/
def IsHtmlBoundary (byte : UInt8) : Prop :=
  byte ∈ htmlBoundaries

instance (byte : UInt8) : Decidable (IsHtmlBoundary byte) :=
  inferInstanceAs (Decidable (byte ∈ htmlBoundaries))

/-- ASCII whitespace of HTML. -/
def IsHtmlWhitespace (c : Char) : Prop :=
  c = ' ' ∨ c = '\t' ∨ c = '\r' ∨ c = '\n' ∨ c = '\x0C'

instance (c : Char) : Decidable (IsHtmlWhitespace c) :=
  inferInstanceAs (Decidable (_ ∨ _ ∨ _ ∨ _ ∨ _))

/-- A text without HTML whitespace has an encoding without it. -/
theorem free_asBytes {s : Str} (h : Free IsHtmlWhitespace s) :
    Free IsHtmlBoundary s.asBytes := by
  intro byte hbyte hboundary
  have hchar : ∀ c : Char, IsHtmlWhitespace c → c.toNat < 0x80 → UInt8.ofNat c.toNat ≠ byte := by
    rintro c hc hlt rfl
    exact h c (mem_of_mem_encode hlt hbyte) hc
  simp only [IsHtmlBoundary, htmlBoundaries, List.mem_cons, List.not_mem_nil, or_false] at hboundary
  rcases hboundary with rfl | rfl | rfl | rfl | rfl
  · exact hchar ' ' (Or.inl rfl) (by decide) (by decide)
  · exact hchar '\t' (Or.inr (Or.inl rfl)) (by decide) (by decide)
  · exact hchar '\r' (Or.inr (Or.inr (Or.inl rfl))) (by decide) (by decide)
  · exact hchar '\n' (Or.inr (Or.inr (Or.inr (Or.inl rfl)))) (by decide) (by decide)
  · exact hchar '\x0C' (Or.inr (Or.inr (Or.inr (Or.inr rfl)))) (by decide) (by decide)

/-! ### The keys -/

/-- The whitespace and the attribute of each rule. -/
def attributeKeys : List (UInt8 × Bytes) :=
  htmlBoundaries.flatMap fun boundary ↦ htmlAttributes.map fun attr ↦ (boundary, attr)

/-- The rule of a key. -/
def attributeRule (basePath extension : Str) (key : UInt8 × Bytes) : Needle UInt8 × Bytes :=
  (keyNeedle (proxyRoot extension) key,
    key.1 :: (key.2 ++ basePath.asBytes ++ proxyRoot extension))

theorem htmlRules_eq (basePath extension : Str) :
    htmlRules basePath extension = attributeKeys.map (attributeRule basePath extension) := by
  rw [htmlRules, attributeKeys, List.map_flatMap]
  simp only [List.map_map]
  rfl

/-- A key is a boundary and an attribute behind it. -/
theorem mem_attributeKeys_iff {key : UInt8 × Bytes} :
    key ∈ attributeKeys ↔ IsHtmlBoundary key.1 ∧ key.2 ∈ htmlAttributes := by
  simp only [attributeKeys, List.mem_flatMap, List.mem_map, IsHtmlBoundary]
  constructor
  · rintro ⟨boundary, hboundary, attr, hattr, rfl⟩
    exact ⟨hboundary, hattr⟩
  · rintro ⟨hboundary, hattr⟩
    exact ⟨key.1, hboundary, key.2, hattr, rfl⟩

theorem free_htmlAttributes : ∀ attr ∈ htmlAttributes, Free IsHtmlBoundary attr := by
  decide

/-- No attribute with its quote begins another one. -/
theorem eq_of_isPrefix_htmlAttributes :
    ∀ attr ∈ htmlAttributes, ∀ attr' ∈ htmlAttributes, attr <+: attr' → attr = attr' := by
  decide

/-- The keys begin with a boundary, and no key begins another. -/
theorem areKeys_attributeKeys : AreKeys IsHtmlBoundary attributeKeys where
  delimiter key hkey := by
    obtain ⟨hboundary, hattr⟩ := mem_attributeKeys_iff.1 hkey
    exact ⟨hboundary, free_htmlAttributes _ hattr⟩
  nodup := by decide
  eq_of_isPrefix key hkey key' hkey' hboundary hprefix := by
    refine Prod.ext hboundary ?_
    exact eq_of_isPrefix_htmlAttributes _ (mem_attributeKeys_iff.1 hkey).2 _
      (mem_attributeKeys_iff.1 hkey').2 hprefix

/-! ### One pass instead of twenty -/

section

variable {basePath extension : Str}

/-- The root of a proxy has no boundary in it when the name has no whitespace. -/
theorem free_proxyRoot (hextension : Free IsHtmlWhitespace extension) :
    Free IsHtmlBoundary (proxyRoot extension) := by
  have hroot : Free IsHtmlBoundary namedProxyRoot.asBytes := by decide
  have hslash : Free IsHtmlBoundary (bytes "/") := by decide
  exact free_append.2 ⟨free_append.2 ⟨hroot, free_asBytes hextension⟩, hslash⟩

theorem proxyRoot_ne_nil (extension : Str) : proxyRoot extension ≠ [] :=
  List.append_ne_nil_of_right_ne_nil _ (by decide)

/-- **Rules with different keys are one pass over the original body.** -/
theorem applyAll_map_attributeRule (hbase : Free IsHtmlWhitespace basePath)
    (hextension : Free IsHtmlWhitespace extension) {keys : List (UInt8 × Bytes)}
    (hkeys : AreKeys IsHtmlBoundary keys) (body : Bytes) :
    applyAll (keys.map fun key ↦ exactStage (attributeRule basePath extension key)) body =
      insertWhere (behindKey keys (proxyRoot extension)) basePath.asBytes [] body := by
  have hpasses : applyAll (keys.map fun key ↦ exactStage (attributeRule basePath extension key))
      body = keys.foldl (insertPass (proxyRoot extension) basePath.asBytes) body := by
    rw [applyAll, List.foldl_map]
    rfl
  rw [hpasses, foldl_insertPass_eq_insertWhere hkeys (free_proxyRoot hextension)
    (proxyRoot_ne_nil extension) (free_asBytes hbase)]

/-- The attribute rules in any order are one pass over the original body. -/
theorem applyAll_attributeRules (hbase : Free IsHtmlWhitespace basePath)
    (hextension : Free IsHtmlWhitespace extension) {keys : List (UInt8 × Bytes)}
    (hkeys : keys.Perm attributeKeys) (body : Bytes) :
    applyAll (keys.map fun key ↦ exactStage (attributeRule basePath extension key)) body =
      insertWhere (behindKey attributeKeys (proxyRoot extension)) basePath.asBytes [] body := by
  rw [applyAll_map_attributeRule hbase hextension (areKeys_attributeKeys.perm hkeys),
    behindKey_perm hkeys]

/-- What Named Proxy HTML makes of a body: the base path is inserted behind the opening quote of
every attribute value that begins with the root of the proxy. For `kubekey`, the legacy root is
replaced in the result. -/
def prefixedHtml (basePath extension : Str) (body : Bytes) : Bytes :=
  let inserted :=
    insertWhere (behindKey attributeKeys (proxyRoot extension)) basePath.asBytes [] body
  if extension = kubekeyName then
    replaceFrom (kubekeyLegacyRootRule basePath).1 (fun _ _ ↦ basePath.asBytes) [] inserted
  else inserted

/-- The twenty rules in sequence are one pass. -/
theorem applyAll_namedProxyHtml (codec : MetadataCodec)
    (hbase : Free IsHtmlWhitespace basePath)
    (hextension : Free IsHtmlWhitespace extension) (body : Bytes) :
    applyAll (responseStages codec .namedProxyHtml basePath extension) body =
      prefixedHtml basePath extension body := by
  have hattributes := applyAll_attributeRules hbase hextension (List.Perm.refl attributeKeys) body
  have hrules : (htmlRules basePath extension).map exactStage =
      attributeKeys.map fun key ↦ exactStage (attributeRule basePath extension key) := by
    rw [htmlRules_eq, List.map_map]
    rfl
  rw [← hrules] at hattributes
  show applyAll ((namedProxyRules basePath extension).map exactStage) body = _
  rw [namedProxyRules, prefixedHtml, ← hattributes]
  split
  · rw [List.map_append, applyAll_append]
    rfl
  · rfl

/-- **The twenty attribute rules of Named Proxy HTML are one simultaneous pass.** In every chunking
the pipeline computes `prefixedHtml`, and the order of the rules is immaterial. -/
theorem run_namedProxyHtml (codec : MetadataCodec) (hbase : Free IsHtmlWhitespace basePath)
    (hextension : Free IsHtmlWhitespace extension) (maxBytes : Usize) :
    (∃ p, buildSelectedResponseRewriter codec .namedProxyHtml basePath extension maxBytes = .ok p ∧
      ∀ chunks : List Bytes,
        (∀ out, transducer.run p chunks = .ok out →
          out = prefixedHtml basePath extension chunks.flatten) ∧
        (NoByteCountOverflows p chunks.flatten → chunks.flatten.length ≤ maxBytes.val →
          Valid chunks.flatten →
            transducer.run p chunks = .ok (prefixedHtml basePath extension chunks.flatten))) ∧
      ∀ keys : List (UInt8 × Bytes), keys.Perm attributeKeys → ∀ body,
        applyAll (keys.map fun key ↦ exactStage (attributeRule basePath extension key)) body =
          insertWhere (behindKey attributeKeys (proxyRoot extension)) basePath.asBytes [] body := by
  obtain ⟨p, hp, hrun⟩ :=
    run_buildSelectedResponseRewriter codec .namedProxyHtml basePath extension maxBytes
  have hout : ∀ chunks out, transducer.run p chunks = .ok out →
      out = prefixedHtml basePath extension chunks.flatten := by
    intro chunks out hout
    have houtputs : Outputs codec .namedProxyHtml basePath extension chunks.flatten out :=
      ⟨maxBytes, p, chunks, hp, rfl, hout⟩
    rw [← houtputs.valid_and_applyAll.2, applyAll_namedProxyHtml codec hbase hextension]
  refine ⟨⟨p, hp, fun chunks ↦ ⟨hout chunks, fun hfits hlen hvalid ↦ ?_⟩⟩,
    fun keys hkeys body ↦ applyAll_attributeRules hbase hextension hkeys body⟩
  obtain ⟨out, hok⟩ := (hrun chunks hfits).1.2 ⟨hlen, hvalid⟩
  rw [hok, hout chunks out hok]

/-- The texts between the attribute rules are no longer than with the base path at every place. -/
theorem fitsUsize_htmlRules (hbase : Free IsHtmlWhitespace basePath)
    (hextension : Free IsHtmlWhitespace extension) {body : Bytes}
    (hlen : body.length + (body.length + 1) * basePath.asBytes.length ≤ usizeMax) :
    FitsUsize ((htmlRules basePath extension).map exactStage) body := by
  intro k
  have hrules : ((htmlRules basePath extension).map exactStage).take k =
      (attributeKeys.take k).map fun key ↦ exactStage (attributeRule basePath extension key) := by
    rw [htmlRules_eq, List.map_map, List.map_take]
    rfl
  rw [hrules, applyAll_map_attributeRule hbase hextension
    (areKeys_attributeKeys.sublist (List.take_sublist k _))]
  exact (length_insertWhere_le _ _ _ _).trans hlen

end

/-- A page that is cut inside an attribute and has an empty chunk. -/
theorem run_namedProxyHtml_page :
    ∃ p, buildSelectedResponseRewriter .empty .namedProxyHtml (str "/regions/r1") (str "x")
        ⟨64, by decide⟩ = .ok p ∧
      transducer.run p [bytes "<a hr", [], bytes "ef=\"/proxy/x/a\">"] =
        .ok (bytes "<a href=\"/regions/r1/proxy/x/a\">") := by
  have hbase : Free IsHtmlWhitespace (str "/regions/r1") := by decide
  have hextension : Free IsHtmlWhitespace (str "x") := by decide
  obtain ⟨⟨p, hp, hrun⟩, -⟩ := run_namedProxyHtml .empty hbase hextension ⟨64, by decide⟩
  have hfits : NoByteCountOverflows p (bytes "<a href=\"/proxy/x/a\">") := by
    obtain rfl := Except.ok.inj ((buildSelectedResponseRewriter_eq ..).symm.trans hp)
    exact noByteCountOverflows_of_fitsUsize _ (fitsUsize_htmlRules hbase hextension (by decide))
  have hout : prefixedHtml (str "/regions/r1") (str "x") (bytes "<a href=\"/proxy/x/a\">") =
      bytes "<a href=\"/regions/r1/proxy/x/a\">" := by
    decide
  refine ⟨p, hp, ?_⟩
  rw [← hout]
  exact (hrun [bytes "<a hr", [], bytes "ef=\"/proxy/x/a\">"]).2 hfits (by decide) (by decide)

end KseRewriteProxy
