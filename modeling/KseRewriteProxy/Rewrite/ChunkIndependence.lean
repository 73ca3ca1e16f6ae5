import KseRewriteProxy.Rewrite.Builder

/-!
# The response rewriter does not see chunk boundaries

For every profile, base path and extension: a run of the pipeline succeeds exactly when the body is
valid UTF-8 within the limit, and then it computes what the stages compute one after the other,
each alone on the complete output of the one before (`run_buildSelectedResponseRewriter`).

## Encodings

The stages themselves never produce invalid text (`keepsValid_of_mem_dropLast`), which is why the
encoding checks of the later literal stages never fail. The rules are made of literals, of the base
path and of the extension, all of which are UTF-8, and a rule that matches whole literals of valid
text cuts it between characters. The one stage that is not covered is the `_mig_meta` transform; it
is the last of its pipeline.

## Sizes

A stage counts the bytes that it has seen, and its input may be longer than the body, because the
stages before it insert text. `NoByteCountOverflows` says that no such count overflows in a run, and
`fitsUsize_of_noByteCountOverflows` that this is a condition on the body alone: the texts between
the stages are those of the stages run alone.
-/

namespace KseRewriteProxy

open Text Text.Utf8 Streaming StreamingRewritePipeline

/-! ### The stages keep texts valid -/

theorem keepsValid_exactStage {rule : Needle UInt8 × Bytes} (hsource : Valid rule.1.toList)
    (hreplacement : Valid rule.2) : (exactStage rule).KeepsValid :=
  Stage.keepsValid_literal hsource hreplacement

theorem keepsValid_prefixStage {rule : Needle UInt8 × Bytes} (hsource : Valid rule.1.toList)
    (hinserted : Valid rule.2) : (prefixStage rule).KeepsValid :=
  Stage.keepsValid_literal hsource (hinserted.append hsource)

/-- Exact rules keep UTF-8 when their literals are UTF-8. -/
theorem keepsValid_map_exactStage {rules : List (Needle UInt8 × Bytes)}
    (h : ∀ rule ∈ rules, Valid rule.1.toList ∧ Valid rule.2) :
    ∀ s ∈ rules.map exactStage, s.KeepsValid := by
  intro s hs
  obtain ⟨rule, hrule, rfl⟩ := List.mem_map.1 hs
  exact keepsValid_exactStage (h rule hrule).1 (h rule hrule).2

theorem valid_cons_of_ascii {b : UInt8} {l : Bytes} (hb : b.toNat < 0x80) (hl : Valid l) :
    Valid (b :: l) :=
  (valid_of_ascii fun _ hc ↦ (List.mem_singleton.1 hc).symm ▸ hb : Valid [b]).append hl

theorem valid_bundleSuffix (basePath : Str) : Valid (bundleSuffix basePath) :=
  (valid_encode _).append (valid_bytes _)

theorem valid_proxyRoot (extension : Str) : Valid (proxyRoot extension) :=
  ((valid_encode _).append (valid_encode _)).append (valid_bytes _)

theorem valid_consoleExactRules (basePath : Str) :
    ∀ rule ∈ consoleExactRules basePath, Valid rule.1.toList ∧ Valid rule.2 := by
  intro rule hrule
  simp only [consoleExactRules, List.mem_cons, List.not_mem_nil, or_false] at hrule
  rcases hrule with rfl | rfl | rfl | rfl
  all_goals
    refine ⟨valid_bytes _, ?_⟩
    repeat' first
      | exact valid_bytes _
      | exact valid_encode _
      | apply Valid.append

theorem valid_consoleMemberRules (basePath : Str) :
    ∀ rule ∈ consoleMemberRules basePath,
      Valid rule.1.toList ∧ Valid rule.2.1.toList ∧ Valid rule.2.2 := by
  intro rule hrule
  simp only [consoleMemberRules, List.mem_cons, List.not_mem_nil, or_false] at hrule
  rcases hrule with rfl | rfl | rfl | rfl
  all_goals
    exact ⟨valid_bytes _, valid_bytes _,
      ((valid_bytes _).append (valid_encode _)).append (valid_bytes _)⟩

theorem valid_prefixedPath (basePath : Str) : Valid (prefixedPath basePath) := by
  unfold prefixedPath
  repeat' first
    | exact valid_bytes _
    | exact valid_encode _
    | apply Valid.append

theorem valid_consoleTemplateRules (basePath : Str) :
    ∀ rule ∈ consoleTemplateRules basePath,
      Valid rule.1.toList ∧ Valid rule.2.1.toList ∧ Valid rule.2.2.toList := by
  intro rule hrule
  simp only [consoleTemplateRules, List.mem_cons, List.not_mem_nil, or_false] at hrule
  have hpath := valid_prefixedPath basePath
  rcases hrule with rfl | rfl | rfl
  · exact ⟨valid_bytes _, valid_bytes _, (valid_bytes _).append hpath⟩
  · exact ⟨valid_bytes _, valid_bytes _, (valid_bytes _).append hpath⟩
  · exact ⟨valid_bytes _, valid_bytes _, (valid_bytes _).append (hpath.append (valid_bytes _))⟩

theorem valid_ys1000FrontendRules (basePath : Str) :
    ∀ rule ∈ ys1000FrontendRules basePath, Valid rule.1.toList ∧ Valid rule.2 := by
  intro rule hrule
  obtain ⟨quote, hquote, rfl⟩ := List.mem_map.1 hrule
  have hascii : quote.toNat < 0x80 := by
    simp only [List.mem_cons, List.not_mem_nil, or_false] at hquote
    rcases hquote with rfl | rfl <;> decide
  have hlast : Valid [quote] := valid_cons_of_ascii hascii (valid_encode [])
  exact ⟨valid_cons_of_ascii hascii ((valid_proxyRoot _).append hlast),
    valid_cons_of_ascii hascii (((valid_encode _).append (valid_proxyRoot _)).append hlast)⟩

theorem valid_kubekeyLegacyRootRule (basePath : Str) :
    Valid (kubekeyLegacyRootRule basePath).1.toList ∧ Valid (kubekeyLegacyRootRule basePath).2 :=
  ⟨valid_encode _, valid_encode _⟩

theorem toNat_lt_of_mem_htmlBoundaries :
    ∀ boundary ∈ htmlBoundaries, boundary.toNat < 0x80 := by
  intro boundary hboundary
  simp only [htmlBoundaries, List.mem_cons, List.not_mem_nil, or_false] at hboundary
  rcases hboundary with rfl | rfl | rfl | rfl | rfl <;> decide

theorem valid_of_mem_htmlAttributes : ∀ attr ∈ htmlAttributes, Valid attr := by
  intro attr hattr
  simp only [htmlAttributes, List.mem_cons, List.not_mem_nil, or_false] at hattr
  rcases hattr with rfl | rfl | rfl | rfl <;> exact valid_bytes _

/-- The rules of a Named Proxy are UTF-8. -/
theorem valid_namedProxyRules (basePath extension : Str) :
    ∀ rule ∈ namedProxyRules basePath extension, Valid rule.1.toList ∧ Valid rule.2 := by
  have hhtml : ∀ rule ∈ htmlRules basePath extension,
      Valid rule.1.toList ∧ Valid rule.2 := by
    intro rule hrule
    obtain ⟨boundary, hboundary, hrule⟩ := List.mem_flatMap.1 hrule
    obtain ⟨attr, hattr, rfl⟩ := List.mem_map.1 hrule
    have hascii := toNat_lt_of_mem_htmlBoundaries boundary hboundary
    have hvalid := valid_of_mem_htmlAttributes attr hattr
    exact ⟨valid_cons_of_ascii hascii (hvalid.append (valid_proxyRoot _)),
      valid_cons_of_ascii hascii ((hvalid.append (valid_encode _)).append (valid_proxyRoot _))⟩
  intro rule hrule
  rw [namedProxyRules] at hrule
  split at hrule
  · rcases List.mem_append.1 hrule with hrule | hrule
    · exact hhtml rule hrule
    · rw [List.mem_singleton.1 hrule]
      exact valid_kubekeyLegacyRootRule basePath
  · exact hhtml rule hrule

/-- All stages of the console keep UTF-8. -/
theorem keepsValid_consoleStages (basePath extension : Str) :
    ∀ s ∈ consoleStages basePath extension, s.KeepsValid := by
  intro s hs
  simp only [consoleStages, List.mem_append, List.mem_cons, List.not_mem_nil, or_false] at hs
  rcases hs with (((rfl | rfl) | hs) | hs) | hs
  · exact keepsValid_prefixStage
      ((valid_bytes _).append ((valid_encode _).append (valid_bytes _))) (valid_encode _)
  · exact keepsValid_prefixStage (valid_bytes _) (valid_encode _)
  · exact keepsValid_map_exactStage (valid_consoleExactRules basePath) s hs
  · obtain ⟨rule, hrule, rfl⟩ := List.mem_map.1 hs
    obtain ⟨hpre, hsuffix, hreplacement⟩ := valid_consoleMemberRules basePath rule hrule
    exact Stage.keepsValid_expression hpre hsuffix hreplacement
  · obtain ⟨rule, hrule, rfl⟩ := List.mem_map.1 hs
    obtain ⟨hpre, hsuffix, hreplacement⟩ := valid_consoleTemplateRules basePath rule hrule
    exact Stage.keepsValid_expression hpre hsuffix hreplacement

/-- The stages of a profile without the `_mig_meta` transform keep texts valid. -/
theorem keepsValid_of_mem (codec : MetadataCodec) {profile : RewriteProfile}
    (hprofile : profile ≠ .ys1000Html) (basePath extension : Str) :
    ∀ s ∈ responseStages codec profile basePath extension, s.KeepsValid := by
  have happend : (appendStage templateHead (bundleSuffix basePath)).KeepsValid :=
    Stage.keepsValid_literal (valid_bytes _)
      ((valid_bytes _).append (valid_bundleSuffix basePath))
  intro s hs
  cases profile with
  | consoleV3 => exact keepsValid_consoleStages basePath extension s hs
  | frontendIndexJsBundle => exact List.mem_singleton.1 hs ▸ happend
  | jsBundle => exact List.mem_singleton.1 hs ▸ happend
  | kubekeyAssetJs =>
    have hrule := valid_kubekeyLegacyRootRule basePath
    exact List.mem_singleton.1 hs ▸ keepsValid_exactStage hrule.1 hrule.2
  | ys1000FrontendIndexJsBundle =>
    rcases List.mem_cons.1 hs with rfl | hs
    · exact happend
    · exact keepsValid_map_exactStage (valid_ys1000FrontendRules basePath) s hs
  | namedProxyHtml =>
    exact keepsValid_map_exactStage (valid_namedProxyRules basePath extension) s hs
  | ys1000Html => exact absurd rfl hprofile

/-- **Every stage with a stage behind it keeps texts valid.** -/
theorem keepsValid_of_mem_dropLast (codec : MetadataCodec) (profile : RewriteProfile)
    (basePath extension : Str) :
    ∀ s ∈ (responseStages codec profile basePath extension).dropLast, s.KeepsValid := by
  intro s hs
  by_cases hprofile : profile = .ys1000Html
  · subst hprofile
    rw [responseStages, List.dropLast_concat] at hs
    exact keepsValid_map_exactStage (valid_namedProxyRules basePath extension) s hs
  · exact keepsValid_of_mem codec hprofile basePath extension s (List.mem_of_mem_dropLast hs)

/-! ### Runs -/

/-- No stage, run alone behind the ones before it, produces more bytes than a `usize` counts. -/
def NoByteCountOverflows (p : StreamingRewritePipeline) (body : Bytes) : Prop :=
  ∀ k text, StreamingRewriter.transducer.runAlone (p.rewriters.take k) body = .ok text →
    text.length ≤ usizeMax

/-- What the stages make of a text fits, when every intermediate text does. -/
theorem fitsUsize_of_chainDen {stages : List Stage} {input : Bytes} (hvalid : Valid input)
    (hkeeps : ∀ s ∈ stages.dropLast, s.KeepsValid)
    (h : ∀ k text, chainDen StreamingRewriter.residual ((stages.take k).map Stage.rewriter)
      input = some text → text.length ≤ usizeMax) : FitsUsize stages input := by
  induction stages generalizing input with
  | nil => exact fun k ↦ by simpa using h 0 input rfl
  | cons s stages ih =>
    have hinput : input.length ≤ usizeMax := h 0 input rfl
    have hstage : ∀ k text, chainDen StreamingRewriter.residual
        ((stages.take k).map Stage.rewriter) (s.apply input) = some text →
          text.length ≤ usizeMax := by
      intro k text htext
      refine h (k + 1) text ?_
      rw [List.take_succ_cons, List.map_cons, chainDen, s.residual_rewriter hinput hvalid]
      exact htext
    intro k
    cases k with
    | zero => exact hinput
    | succ k =>
      cases stages with
      | nil => simpa using hstage 0 _ rfl
      | cons s' stages =>
        refine ih (hkeeps s (by simp) input hvalid) (fun t ht ↦ hkeeps t ?_) hstage k
        rw [List.dropLast_cons_of_ne_nil (List.cons_ne_nil _ _)]
        exact List.mem_cons_of_mem _ ht

/-- Without an overflow of a byte count the stages fit the body. -/
theorem fitsUsize_of_noByteCountOverflows {stages : List Stage} (hne : stages ≠ [])
    {maxBytes : Usize} {body : Bytes} (hvalid : Valid body)
    (hkeeps : ∀ s ∈ stages.dropLast, s.KeepsValid)
    (h : NoByteCountOverflows (ofStages stages hne maxBytes) body) : FitsUsize stages body := by
  refine fitsUsize_of_chainDen hvalid hkeeps fun k text htext ↦ h k text ?_
  rw [ofStages, ← List.map_take]
  exact (StreamingRewriter.realizes.chainDen_eq_some_iff active_of_mem_rewriters).1 htext

/-- The same for any stages that begin with a literal stage and keep texts valid. -/
theorem run_ofStages_chunks {stages : List Stage} (hne : stages ≠ []) (maxBytes : Usize)
    (hhead : ∃ source mode rest, stages = .literal source mode :: rest)
    (hkeeps : ∀ s ∈ stages.dropLast, s.KeepsValid) {chunks : List Bytes}
    (hfits : NoByteCountOverflows (ofStages stages hne maxBytes) chunks.flatten) :
    ((∃ out, transducer.run (ofStages stages hne maxBytes) chunks = .ok out) ↔
        chunks.flatten.length ≤ maxBytes.val ∧ Valid chunks.flatten) ∧
      ∀ out, transducer.run (ofStages stages hne maxBytes) chunks = .ok out →
        StreamingRewriter.transducer.runAlone (stages.map Stage.rewriter) chunks.flatten =
          .ok out := by
  obtain ⟨source, mode, rest, rfl⟩ := hhead
  refine ⟨⟨?_, ?_⟩, fun out hout ↦ ?_⟩
  · rintro ⟨out, hout⟩
    obtain ⟨hlen, hden⟩ := (run_ofStages _ maxBytes chunks).1 hout
    refine ⟨hlen, Classical.not_not.1 fun hvalid ↦ ?_⟩
    rw [List.map_cons, chainDen, Stage.residual_rewriter_literal_of_not_valid _ _ hvalid] at hden
    exact absurd hden (by simp)
  · rintro ⟨hlen, hvalid⟩
    exact ⟨_, (run_ofStages_eq_ok_iff hkeeps
      (fitsUsize_of_noByteCountOverflows hne hvalid hkeeps hfits)).2 ⟨hlen, hvalid, rfl⟩⟩
  · obtain ⟨-, hden⟩ := (run_ofStages _ maxBytes chunks).1 hout
    exact (StreamingRewriter.realizes.chainDen_eq_some_iff active_of_mem_rewriters).1 hden

/-- **The response rewriter does not see chunk boundaries.** The pipeline of every profile is
built; a run succeeds exactly on the valid bodies within the limit, its output is what the stages
compute one after the other, and another cut of the body gives the same result. -/
theorem run_buildSelectedResponseRewriter (codec : MetadataCodec) (profile : RewriteProfile)
    (basePath extension : Str) (maxBytes : Usize) :
    ∃ p, buildSelectedResponseRewriter codec profile basePath extension maxBytes = .ok p ∧
      ∀ chunks : List Bytes, NoByteCountOverflows p chunks.flatten →
        ((∃ out, transducer.run p chunks = .ok out) ↔
          chunks.flatten.length ≤ maxBytes.val ∧ Valid chunks.flatten) ∧
        (∀ out, transducer.run p chunks = .ok out →
          StreamingRewriter.transducer.runAlone p.rewriters chunks.flatten = .ok out) ∧
        ∀ chunks' : List Bytes, chunks'.flatten = chunks.flatten →
          (transducer.run p chunks').toOption = (transducer.run p chunks).toOption := by
  refine ⟨_, buildSelectedResponseRewriter_eq codec profile basePath extension maxBytes,
    fun chunks hfits ↦ ?_⟩
  obtain ⟨hok, halone⟩ := run_ofStages_chunks (responseStages_ne_nil codec profile basePath
    extension) maxBytes (exists_responseStages_eq_cons codec profile basePath extension)
    (keepsValid_of_mem_dropLast codec profile basePath extension) hfits
  exact ⟨hok, halone, fun chunks' heq ↦
    realizes.run_eq_of_flatten_eq (ofStages_active _ maxBytes) heq⟩

/-- A codec for bodies without metadata: nothing decodes. -/
def MetadataCodec.empty : MetadataCodec where
  Value := Unit
  decode := fun _ ↦ none
  encode := id
  fromSlice := fun _ ↦ none
  toVec := fun _ ↦ none
  baseUri := fun _ ↦ none
  setBaseUri := fun value _ ↦ value

/-- A bundle that is cut inside the template head and has an empty chunk. -/
theorem run_buildSelectedResponseRewriter_bundle :
    ∃ p out, buildSelectedResponseRewriter .empty .jsBundle (str "/b") (str "x")
        ⟨64, by decide⟩ = .ok p ∧
      transducer.run p [bytes "`//$\x7bwindow.loc", [], bytes "ation.host\x7d/x`"] = .ok out := by
  obtain ⟨p, hp, h⟩ := run_buildSelectedResponseRewriter .empty .jsBundle (str "/b") (str "x")
    ⟨64, by decide⟩
  obtain rfl := Except.ok.inj ((buildSelectedResponseRewriter_eq ..).symm.trans hp)
  obtain ⟨hok, -⟩ := h [bytes "`//$\x7bwindow.loc", [], bytes "ation.host\x7d/x`"] (by
    intro k text htext
    rcases k with - | k
    · obtain rfl := Except.ok.inj htext
      decide
    · have hstage : StreamingRewriter.transducer.runAlone
          [(appendStage templateHead (bundleSuffix (str "/b"))).rewriter]
          (bytes "`//$\x7bwindow.location.host\x7d/x`") =
            .ok (bytes "`//$\x7bwindow.location.host\x7d/b/x`") := by
        decide +kernel
      change StreamingRewriter.transducer.runAlone (List.take (k + 1)
        [(appendStage templateHead (bundleSuffix (str "/b"))).rewriter]) _ = _ at htext
      rw [List.take_succ_cons, List.take_nil] at htext
      obtain rfl := Except.ok.inj (hstage.symm.trans htext)
      decide)
  obtain ⟨out, hout⟩ := hok.2 (by decide)
  exact ⟨_, out, hp, hout⟩

end KseRewriteProxy
