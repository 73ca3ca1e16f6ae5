import KseRewriteProxy.Config.BasePath
import KseRewriteProxy.Rewrite.ChunkIndependence
import KseRewriteProxy.Text.Delimiter

/-!
# The bundle rewrites run again

What a second run makes of the output of a first one. A text is `Stable` when every run over it, in
any chunks, returns it; a rewrite is `Idempotent` when all its outputs are stable. Both reduce to
the whole-text functions of the stages: a text that every stage keeps is stable
(`stable_of_forall_apply_eq`), and for stages that only make texts longer these are the only stable
texts (`applyAll_eq_self_iff`).

## Bundles

The JSBundle rewrite is idempotent (`idempotent_jsBundle`). It inserts a suffix behind a template
head, and the suffix ends with a piece of the base path and has no backtick, which the head begins
with. So no head is completed by what was inserted, every head of the output is followed by the
suffix, and the second run, which looks for the suffix in its own input, leaves all of them.

## The index of the `ys1000` frontend

The rewrite of the index is not idempotent: its exact rules consume both quotes around a root, and
two quoted roots that share a quote are rewritten one at a time. `stable_ys1000FrontendIndex_iff`
says that this is all: the output is stable exactly if the body has no two roots with one quote
between them. The stage for bundles in front of these rules neither makes nor breaks such a pair
(`infix_appendStage_apply_iff`).
-/

namespace KseRewriteProxy

open Text Text.Utf8 Streaming StreamingRewritePipeline

/-! ### Runs and whole texts -/

/-- What a fresh stage owes is its whole-text function. -/
theorem Stage.apply_eq_of_residual {s : Stage} {input text : Bytes}
    (h : s.rewriter.residual input = some text) : s.apply input = text := by
  cases s with
  | literal source mode =>
    have h' := (StreamingLiteralRewriter.residual_initial ..).symm.trans h
    split at h'
    · exact Option.some.inj h'
    · exact absurd h' (by simp)
  | expression pre suffix replacement kind emits => exact Option.some.inj h
  | buffered transform => exact Option.some.inj h

/-- What a fresh chain owes is the composition of its stages. -/
theorem applyAll_eq_of_chainDen {stages : List Stage} {input out : Bytes}
    (h : chainDen StreamingRewriter.residual (stages.map Stage.rewriter) input = some out) :
    applyAll stages input = out := by
  induction stages generalizing input with
  | nil => exact Option.some.inj h
  | cons s stages ih =>
    obtain ⟨text, htext, hrest⟩ := Option.bind_eq_some_iff.1 h
    rw [applyAll_cons, Stage.apply_eq_of_residual htext]
    exact ih hrest

/-- Intermediate texts that fit are what the stages, run alone, produce. -/
theorem noByteCountOverflows_of_fitsUsize {stages : List Stage} (hne : stages ≠ [])
    {maxBytes : Usize} {body : Bytes} (h : FitsUsize stages body) :
    NoByteCountOverflows (ofStages stages hne maxBytes) body := by
  intro k text htext
  have hden : chainDen StreamingRewriter.residual ((stages.take k).map Stage.rewriter) body =
      some text := by
    rw [StreamingRewriter.realizes.chainDen_eq_some_iff active_of_mem_rewriters, List.map_take]
    exact htext
  rw [← applyAll_eq_of_chainDen hden]
  exact h k

/-- A text that every stage keeps is what the chain owes for it. -/
theorem chainDen_of_forall_apply_eq {stages : List Stage} {text : Bytes}
    (hlen : text.length ≤ usizeMax) (hvalid : Valid text) (h : ∀ s ∈ stages, s.apply text = text) :
    chainDen StreamingRewriter.residual (stages.map Stage.rewriter) text = some text := by
  induction stages with
  | nil => rfl
  | cons s stages ih =>
    rw [List.map_cons, chainDen, s.residual_rewriter hlen hvalid, h s (List.mem_cons_self ..),
      Option.bind_some]
    exact ih fun t ht ↦ h t (List.mem_cons_of_mem _ ht)

/-- The stage keeps a text or makes it longer. -/
def Stage.Grows (s : Stage) : Prop :=
  ∀ text, s.apply text = text ∨ text.length < (s.apply text).length

/-- **Stages that only make texts longer keep a text together exactly if each keeps it.** -/
theorem applyAll_eq_self_iff {stages : List Stage} (hgrows : ∀ s ∈ stages, s.Grows)
    {text : Bytes} : applyAll stages text = text ↔ ∀ s ∈ stages, s.apply text = text := by
  have hlength : ∀ {stages : List Stage}, (∀ s ∈ stages, s.Grows) → ∀ text,
      text.length ≤ (applyAll stages text).length := by
    intro stages hgrows
    induction stages with
    | nil => exact fun text ↦ Nat.le_refl _
    | cons s stages ih =>
      intro text
      have hrest := ih (fun t ht ↦ hgrows t (List.mem_cons_of_mem _ ht)) (s.apply text)
      rw [applyAll_cons]
      rcases hgrows s (List.mem_cons_self ..) text with h | h
      · rwa [h] at hrest ⊢
      · omega
  induction stages with
  | nil => simp
  | cons s stages ih =>
    have hgrows' : ∀ t ∈ stages, t.Grows := fun t ht ↦ hgrows t (List.mem_cons_of_mem _ ht)
    rw [applyAll_cons, List.forall_mem_cons]
    refine Iff.trans ?_ (and_congr_right fun _ ↦ ih hgrows')
    constructor
    · intro h
      rcases hgrows s (List.mem_cons_self ..) text with hs | hs
      · rw [hs] at h
        exact ⟨hs, h⟩
      · have hlen := hlength hgrows' (s.apply text)
        rw [h] at hlen
        omega
    · rintro ⟨hs, h⟩
      rw [hs, h]

/-- A literal stage that replaces a source by itself or by something longer only makes texts longer.
-/
theorem Stage.grows_literal {source : Needle UInt8} {mode : LiteralRewriteMode}
    (h : ∀ before after, mode.replace source.toList before after = source.toList ∨
      source.length < (mode.replace source.toList before after).length) :
    (Stage.literal source mode).Grows :=
  fun text ↦ replaceFrom_eq_or_length_lt h [] text

/-! ### Running again -/

section

variable (codec : MetadataCodec) (profile : RewriteProfile) (basePath extension : Str)

/-- Some run over the body returns `out`. -/
def Outputs (body out : Bytes) : Prop :=
  ∃ maxBytes p chunks,
    buildSelectedResponseRewriter codec profile basePath extension maxBytes = .ok p ∧
      chunks.flatten = body ∧ transducer.run p chunks = .ok out

/-- Every run over the text returns the text, whatever the chunks are, if it is within the
limit. -/
def Stable (text : Bytes) : Prop :=
  ∀ maxBytes p chunks,
    buildSelectedResponseRewriter codec profile basePath extension maxBytes = .ok p →
      chunks.flatten = text → text.length ≤ maxBytes.val → transducer.run p chunks = .ok text

/-- Every output is stable. -/
def Idempotent : Prop :=
  ∀ body out, Outputs codec profile basePath extension body out →
    Stable codec profile basePath extension out

variable {codec profile basePath extension}

/-- An output comes from a valid body, by all stages. -/
theorem Outputs.valid_and_applyAll {body out : Bytes}
    (h : Outputs codec profile basePath extension body out) :
    Valid body ∧ applyAll (responseStages codec profile basePath extension) body = out := by
  obtain ⟨maxBytes, p, chunks, hp, rfl, hrun⟩ := h
  obtain rfl := Except.ok.inj ((buildSelectedResponseRewriter_eq ..).symm.trans hp)
  obtain ⟨-, hden⟩ := (run_ofStages _ maxBytes chunks).1 hrun
  refine ⟨Classical.not_not.1 fun hvalid ↦ ?_, applyAll_eq_of_chainDen hden⟩
  obtain ⟨source, mode, stages, hstages⟩ :=
    exists_responseStages_eq_cons codec profile basePath extension
  rw [hstages, List.map_cons, chainDen,
    Stage.residual_rewriter_literal_of_not_valid _ _ hvalid] at hden
  exact absurd hden (by simp)

/-- **A text that every stage keeps is stable.** -/
theorem stable_of_forall_apply_eq {text : Bytes} (hvalid : Valid text)
    (h : ∀ s ∈ responseStages codec profile basePath extension, s.apply text = text) :
    Stable codec profile basePath extension text := by
  rintro maxBytes p chunks hp rfl hlen
  obtain rfl := Except.ok.inj ((buildSelectedResponseRewriter_eq ..).symm.trans hp)
  exact (run_ofStages _ maxBytes chunks).2
    ⟨hlen, chainDen_of_forall_apply_eq (hlen.trans maxBytes.val_le) hvalid h⟩

/-- The stages in a row keep a stable text. -/
theorem Stable.applyAll_eq {text : Bytes} (h : Stable codec profile basePath extension text)
    (hlen : text.length ≤ usizeMax) :
    applyAll (responseStages codec profile basePath extension) text = text := by
  have hrun := h .max _ [text] (buildSelectedResponseRewriter_eq ..) (by simp) hlen
  obtain ⟨-, hden⟩ := (run_ofStages _ _ _).1 hrun
  rw [List.flatten_singleton] at hden
  exact applyAll_eq_of_chainDen hden

/-- A valid text whose intermediate texts fit has an output. -/
theorem outputs_applyAll {body : Bytes} (hvalid : Valid body)
    (hfits : FitsUsize (responseStages codec profile basePath extension) body) :
    Outputs codec profile basePath extension body
      (applyAll (responseStages codec profile basePath extension) body) := by
  refine ⟨.max, _, [body], buildSelectedResponseRewriter_eq .., by simp, ?_⟩
  rw [run_ofStages, List.flatten_singleton]
  exact ⟨hfits 0, chainDen_stages hvalid
    (keepsValid_of_mem_dropLast codec profile basePath extension) hfits⟩

theorem valid_applyAll {stages : List Stage} (hkeeps : ∀ s ∈ stages, s.KeepsValid) {text : Bytes}
    (h : Valid text) : Valid (applyAll stages text) := by
  induction stages generalizing text with
  | nil => exact h
  | cons s stages ih =>
    exact ih (fun t ht ↦ hkeeps t (List.mem_cons_of_mem _ ht))
      (hkeeps s (List.mem_cons_self ..) text h)

end

/-! ### The JSBundle rewrite -/

section Bundle

variable {url : UrlCrate} {basePath : Str}

/-- The backtick, which starts the template head. -/
theorem exists_templateHead_eq : ∃ t, templateHead.toList = 0x60 :: t ∧ 0x60 ∉ t :=
  ⟨templateHead.toList.tail, by decide, by decide⟩

theorem not_mem_asBytes {c : Char} (hc : c.toNat < 0x80) {s : Str} (h : c ∉ s) :
    UInt8.ofNat c.toNat ∉ s.asBytes :=
  fun hmem ↦ h (mem_of_mem_encode hc hmem)

/-- The inserted suffix has no backtick, since the base path has it encoded. -/
theorem not_mem_bundleSuffix (hurl : url.Encodes '`') (hbase : IsBasePath url basePath) :
    0x60 ∉ bundleSuffix basePath := by
  have htrimmed : '`' ∉ basePath.dropWhile (· == '/') := fun h ↦
    hbase.not_mem_of_encodes hurl ((List.dropWhile_suffix _).subset h)
  rw [bundleSuffix, List.mem_append, not_or]
  exact ⟨not_mem_asBytes (c := '`') (by decide) htrimmed, by decide⟩

/-- Behind a first run, every template head is followed by the suffix. -/
theorem follows_appendStage (hurl : url.Encodes '`') (hbase : IsBasePath url basePath)
    (text : Bytes) : Follows templateHead.toList (bundleSuffix basePath)
      ((appendStage templateHead (bundleSuffix basePath)).apply text) := by
  obtain ⟨t, heq, ht⟩ := exists_templateHead_eq
  exact follows_replaceFrom_appendAfter heq ht (not_mem_bundleSuffix hurl hbase) [] text

/-- Where that is so, the stage changes nothing. -/
theorem appendStage_apply_of_follows {text : Bytes}
    (h : Follows templateHead.toList (bundleSuffix basePath) text) :
    (appendStage templateHead (bundleSuffix basePath)).apply text = text :=
  h.replaceFrom_appendAfter []

/-- **The JSBundle rewrite is idempotent.** -/
theorem idempotent_jsBundle (codec : MetadataCodec) (hurl : url.Encodes '`')
    (hbase : IsBasePath url basePath) {profile : RewriteProfile}
    (hprofile : profile = .jsBundle ∨ profile = .frontendIndexJsBundle) (extension : Str) :
    Idempotent codec profile basePath extension := by
  intro body out hout
  have hne : profile ≠ .ys1000Html := by
    rintro rfl
    simp at hprofile
  obtain ⟨hvalid, happly⟩ := hout.valid_and_applyAll
  have hstages : responseStages codec profile basePath extension =
      [appendStage templateHead (bundleSuffix basePath)] := by
    rcases hprofile with rfl | rfl <;> rfl
  refine stable_of_forall_apply_eq ?_ ?_
  · rw [← happly]
    exact valid_applyAll (keepsValid_of_mem codec hne basePath extension) hvalid
  · rw [hstages] at happly ⊢
    intro s hs
    rw [List.mem_singleton.1 hs, ← happly]
    exact appendStage_apply_of_follows (follows_appendStage hurl hbase body)

end Bundle

theorem idempotent_jsBundle_regions :
    Idempotent .empty .jsBundle (str "/regions/r1") (str "embed") :=
  idempotent_jsBundle .empty (UrlCrate.unreserved_encodes (by decide)) isBasePath_unreserved
    (Or.inl rfl) (str "embed")

/-! ### The rewrite of the `ys1000` frontend index -/

section FrontendIndex

variable {url : UrlCrate} {basePath : Str}

/-- The root that is prefixed in quotes. -/
def ys1000Root : Bytes :=
  proxyRoot ys1000Name

/-- The rule for one of the quotes. -/
def quotedRootRule (basePath : Str) (quote : UInt8) : Needle UInt8 × Bytes :=
  (⟨quoted quote ys1000Root, List.cons_ne_nil _ _⟩, quoted quote (basePath.asBytes ++ ys1000Root))

/-- Two quoted roots that share a quote. -/
def sharedQuote (quote : UInt8) : Bytes :=
  quote :: (ys1000Root ++ quoted quote ys1000Root)

/-- Each of the quotes. -/
def IsQuoteMark (quote : UInt8) : Prop :=
  quote = 0x22 ∨ quote = 0x27

theorem not_mem_basePath_of_isQuoteMark (hbase : IsBasePath url basePath) {quote : UInt8}
    (hquote : IsQuoteMark quote) : quote ∉ basePath.asBytes := by
  have hnot : ∀ {c}, isForbiddenCharacter c = true → c ∉ basePath := fun hc hmem ↦
    absurd hc (by rw [hbase.isForbiddenCharacter_eq_false hmem]; simp)
  rcases hquote with rfl | rfl
  · exact not_mem_asBytes (c := '"') (by decide) (hnot (by decide))
  · exact not_mem_asBytes (c := '\'') (by decide) (hnot (by decide))

theorem not_mem_bundleSuffix_of_isQuoteMark (hbase : IsBasePath url basePath) {quote : UInt8}
    (hquote : IsQuoteMark quote) : quote ∉ bundleSuffix basePath := by
  have hslash : quote ∉ bytes "/" := by
    rcases hquote with rfl | rfl <;> decide
  have hbytes := not_mem_basePath_of_isQuoteMark hbase hquote
  rw [bundleSuffix, List.mem_append, not_or]
  refine ⟨fun hmem ↦ hbytes ?_, hslash⟩
  obtain ⟨c, hc, hmem⟩ := List.mem_flatMap.1 hmem
  exact List.mem_flatMap.2 ⟨c, (List.dropWhile_suffix _).subset hc, hmem⟩

theorem not_mem_ys1000Root {quote : UInt8} (hquote : IsQuoteMark quote) :
    quote ∉ ys1000Root := by
  rcases hquote with rfl | rfl <;> decide

theorem not_mem_templateHead {quote : UInt8} (hquote : IsQuoteMark quote) :
    quote ∉ templateHead.toList := by
  rcases hquote with rfl | rfl <;> decide

theorem asBytes_ne_nil (hbase : IsBasePath url basePath) : basePath.asBytes ≠ [] := by
  obtain ⟨c, rest, rfl, -⟩ := hbase.exists_eq_cons
  exact List.cons_ne_nil _ _

/-- A quoted-root stage keeps exactly the texts without a quoted root. -/
theorem quotedRoot_apply_eq_self_iff (hbase : IsBasePath url basePath) {quote : UInt8}
    {text : Bytes} : (exactStage (quotedRootRule basePath quote)).apply text = text ↔
      ¬ quoted quote ys1000Root <:+: text := by
  have hpos := List.length_pos_iff.2 (asBytes_ne_nil hbase)
  refine replaceFrom_eq_self_iff (s := (quotedRootRule basePath quote).1) fun u v ↦ ?_
  show (quoted quote ys1000Root).length < (quoted quote (basePath.asBytes ++ ys1000Root)).length
  simp only [quoted, List.length_cons, List.length_append]
  omega

/-- A quoted root is left exactly where two of them share a quote. -/
theorem quotedRoot_infix_iff (hbase : IsBasePath url basePath) {quote : UInt8}
    (hquote : IsQuoteMark quote) (text : Bytes) :
    quoted quote ys1000Root <:+: (exactStage (quotedRootRule basePath quote)).apply text ↔
      sharedQuote quote <:+: text := by
  have hne : ys1000Root ≠ basePath.asBytes ++ ys1000Root := fun h ↦
    asBytes_ne_nil hbase (List.self_eq_append_left.1 h)
  have hmem : quote ∉ basePath.asBytes ++ ys1000Root := by
    rw [List.mem_append, not_or]
    exact ⟨not_mem_basePath_of_isQuoteMark hbase hquote, not_mem_ys1000Root hquote⟩
  exact quoted_infix_replaceFrom_iff (s := (quotedRootRule basePath quote).1) rfl
    (fun _ _ ↦ rfl) (not_mem_ys1000Root hquote) hmem hne [] text

/-- The rule for one quote keeps the texts that begin with the other one. -/
theorem infix_quotedRoot_apply_iff (hbase : IsBasePath url basePath) {quote other : UInt8}
    (hother : IsQuoteMark other) (hne : quote ≠ other) {t : Bytes} (ht : quote ∉ t)
    (text : Bytes) :
    other :: t <:+: (exactStage (quotedRootRule basePath quote)).apply text ↔
      other :: t <:+: text := by
  have hmem : ∀ {m : Bytes}, other ∉ m → other ∉ quoted quote m := by
    intro m hm
    simp only [quoted, List.mem_cons, List.mem_append, List.not_mem_nil, or_false, not_or]
    exact ⟨hne.symm, hm, hne.symm⟩
  have hbytes := not_mem_basePath_of_isQuoteMark hbase hother
  have hroot := not_mem_ys1000Root hother
  refine infix_replaceFrom_iff (s := (quotedRootRule basePath quote).1) (p := (· = quote))
    ⟨_, _, rfl, rfl⟩ (fun _ _ ↦ ⟨_, _, rfl, rfl⟩) (fun a ha heq ↦ ht (heq ▸ ha)) (hmem hroot)
    (fun _ _ ↦ hmem ?_) [] text
  rw [List.mem_append, not_or]
  exact ⟨hbytes, hroot⟩

/-- Inserting the suffix neither makes nor breaks what begins with a quote. -/
theorem infix_appendStage_apply_iff (hbase : IsBasePath url basePath) {quote : UInt8}
    (hquote : IsQuoteMark quote) {t : Bytes} (ht : 0x60 ∉ t) (text : Bytes) :
    quote :: t <:+: (appendStage templateHead (bundleSuffix basePath)).apply text ↔
      quote :: t <:+: text := by
  obtain ⟨u, heq, -⟩ := exists_templateHead_eq
  have hhead := not_mem_templateHead hquote
  refine infix_replaceFrom_iff (s := templateHead) (p := (· = 0x60)) ⟨_, _, heq, rfl⟩
    (headIn_appendAfter heq) (fun a ha h ↦ ht (h ▸ ha)) hhead (fun u v ↦ ?_) [] text
  show quote ∉ appendAfter templateHead (bundleSuffix basePath) u v
  rw [appendAfter]
  split
  · exact hhead
  · rw [List.mem_append, not_or]
    exact ⟨hhead, not_mem_bundleSuffix_of_isQuoteMark hbase hquote⟩

/-- Replacing quoted roots leaves the suffix behind every template head. -/
theorem follows_quotedRoot (hurl : url.Encodes '`') (hbase : IsBasePath url basePath)
    {quote : UInt8} (hquote : IsQuoteMark quote) {text : Bytes}
    (h : Follows templateHead.toList (bundleSuffix basePath) text) :
    Follows templateHead.toList (bundleSuffix basePath)
      ((exactStage (quotedRootRule basePath quote)).apply text) := by
  obtain ⟨u, heq, -⟩ := exists_templateHead_eq
  rw [heq] at h ⊢
  have hhead := not_mem_templateHead hquote
  have htick : ∀ {m : Bytes}, 0x60 ∉ m → 0x60 ∉ quoted quote m := by
    intro m hm
    simp only [quoted, List.mem_cons, List.mem_append, List.not_mem_nil, or_false, not_or]
    rcases hquote with rfl | rfl <;> exact ⟨by decide, hm, by decide⟩
  have hroot : 0x60 ∉ ys1000Root := by decide
  have hbytes : 0x60 ∉ basePath.asBytes :=
    not_mem_asBytes (c := '`') (by decide) (hbase.not_mem_of_encodes hurl)
  refine h.replaceFrom (s := (quotedRootRule basePath quote).1) (p := (· = quote))
    ⟨_, _, rfl, rfl⟩ (fun _ _ ↦ ⟨_, _, rfl, rfl⟩) (fun a ha hq ↦ ?_) (htick hroot)
    (fun _ _ ↦ htick ?_) []
  · rcases List.mem_append.1 ha with ha | ha
    · exact hhead (heq ▸ List.mem_cons_of_mem _ (hq ▸ ha))
    · exact not_mem_bundleSuffix_of_isQuoteMark hbase hquote (hq ▸ ha)
  · rw [List.mem_append, not_or]
    exact ⟨hbytes, hroot⟩

theorem grows_appendStage (basePath : Str) :
    (appendStage templateHead (bundleSuffix basePath)).Grows := by
  refine Stage.grows_literal fun before after ↦ ?_
  have hpos : 0 < (bundleSuffix basePath).length := by
    rw [bundleSuffix, List.length_append]
    exact Nat.lt_add_left _ (by decide)
  show appendAfter templateHead (bundleSuffix basePath) before after = templateHead.toList ∨
    templateHead.length < (appendAfter templateHead (bundleSuffix basePath) before after).length
  rw [appendAfter]
  split
  · exact Or.inl rfl
  · right
    rw [List.length_append, Needle.toList_length]
    omega

theorem grows_quotedRoot (basePath : Str) (quote : UInt8) :
    (exactStage (quotedRootRule basePath quote)).Grows := by
  refine Stage.grows_literal fun before after ↦ ?_
  show quoted quote (basePath.asBytes ++ ys1000Root) = quoted quote ys1000Root ∨
    (quoted quote ys1000Root).length < (quoted quote (basePath.asBytes ++ ys1000Root)).length
  rcases h : basePath.asBytes with - | ⟨b, rest⟩
  · exact Or.inl rfl
  · right
    simp only [quoted, List.length_cons, List.length_append]
    omega

/-- **When the rewrite of the `ys1000` frontend index is idempotent**: its output is stable exactly
if no two quoted roots of the body share a quote. -/
theorem stable_ys1000FrontendIndex_iff (codec : MetadataCodec) (hurl : url.Encodes '`')
    (hbase : IsBasePath url basePath) (extension : Str) {body out : Bytes}
    (h : Outputs codec .ys1000FrontendIndexJsBundle basePath extension body out)
    (hlen : out.length ≤ usizeMax) :
    Stable codec .ys1000FrontendIndexJsBundle basePath extension out ↔
      ¬ sharedQuote 0x22 <:+: body ∧ ¬ sharedQuote 0x27 <:+: body := by
  have hstages : responseStages codec .ys1000FrontendIndexJsBundle basePath extension =
      [appendStage templateHead (bundleSuffix basePath),
        exactStage (quotedRootRule basePath 0x22), exactStage (quotedRootRule basePath 0x27)] :=
    rfl
  obtain ⟨hvalid, happly⟩ := h.valid_and_applyAll
  have hvalidOut : Valid out := happly ▸ valid_applyAll
    (keepsValid_of_mem codec (by simp) basePath extension) hvalid
  have hdouble : IsQuoteMark 0x22 := Or.inl rfl
  have hsingle : IsQuoteMark 0x27 := Or.inr rfl
  -- what the first run leaves of each kind of occurrence
  rw [hstages] at happly
  simp only [applyAll_cons, applyAll_nil] at happly
  have hfollows : Follows templateHead.toList (bundleSuffix basePath) out := happly ▸
    follows_quotedRoot hurl hbase hsingle
      (follows_quotedRoot hurl hbase hdouble (follows_appendStage hurl hbase body))
  have hleft : quoted 0x22 ys1000Root <:+: out ↔ sharedQuote 0x22 <:+: body := by
    rw [← happly, quoted,
      infix_quotedRoot_apply_iff hbase hdouble (by decide) (by decide), ← quoted,
      quotedRoot_infix_iff hbase hdouble, sharedQuote,
      infix_appendStage_apply_iff hbase hdouble (by decide)]
  have hright : quoted 0x27 ys1000Root <:+: out ↔ sharedQuote 0x27 <:+: body := by
    rw [← happly, quotedRoot_infix_iff hbase hsingle, sharedQuote,
      infix_quotedRoot_apply_iff hbase hsingle (by decide) (by decide),
      infix_appendStage_apply_iff hbase hsingle (by decide)]
  have hgrows : ∀ s ∈ responseStages codec .ys1000FrontendIndexJsBundle basePath extension,
      s.Grows := by
    rw [hstages, List.forall_mem_cons, List.forall_mem_cons, List.forall_mem_singleton]
    exact ⟨grows_appendStage basePath, grows_quotedRoot basePath _, grows_quotedRoot basePath _⟩
  have hkept : (∀ s ∈ responseStages codec .ys1000FrontendIndexJsBundle basePath extension,
      s.apply out = out) ↔ ¬ sharedQuote 0x22 <:+: body ∧ ¬ sharedQuote 0x27 <:+: body := by
    rw [hstages, List.forall_mem_cons, List.forall_mem_cons, List.forall_mem_singleton,
      quotedRoot_apply_eq_self_iff hbase, quotedRoot_apply_eq_self_iff hbase, hleft, hright]
    exact and_iff_right (appendStage_apply_of_follows hfollows)
  rw [← hkept]
  exact ⟨fun hstable ↦ (applyAll_eq_self_iff hgrows).1 (hstable.applyAll_eq hlen),
    stable_of_forall_apply_eq hvalidOut⟩

end FrontendIndex

/-- The output of a run over one chunk. -/
theorem outputs_of_run {codec : MetadataCodec} {profile : RewriteProfile}
    {basePath extension : Str} {body out : Bytes}
    (h : transducer.run (ofStages (responseStages codec profile basePath extension)
      (responseStages_ne_nil codec profile basePath extension) .max) [body] = .ok out) :
    Outputs codec profile basePath extension body out :=
  ⟨.max, _, [body], buildSelectedResponseRewriter_eq .., by simp, h⟩

/-- A quoted root alone. -/
theorem stable_ys1000FrontendIndex_iff_root :
    Stable .empty .ys1000FrontendIndexJsBundle (str "/regions/r1") (str "ys1000-frontend")
        (bytes "x='/regions/r1/proxy/ys1000/'") ↔
      ¬ sharedQuote 0x22 <:+: bytes "x='/proxy/ys1000/'" ∧
        ¬ sharedQuote 0x27 <:+: bytes "x='/proxy/ys1000/'" :=
  stable_ys1000FrontendIndex_iff .empty (UrlCrate.unreserved_encodes (by decide))
    isBasePath_unreserved (str "ys1000-frontend") (outputs_of_run (by decide +kernel)) (by decide)

/-- Two quoted roots that share a quote: the second run rewrites the second one. -/
theorem not_idempotent_ys1000FrontendIndex :
    IsBasePath .unreserved (str "/regions/r1") ∧
      ¬ Idempotent .empty .ys1000FrontendIndexJsBundle (str "/regions/r1")
        (str "ys1000-frontend") := by
  refine ⟨isBasePath_unreserved, fun h ↦ ?_⟩
  have hstable := h (bytes "\"/proxy/ys1000/\"/proxy/ys1000/\"")
    (bytes "\"/regions/r1/proxy/ys1000/\"/proxy/ys1000/\"") (outputs_of_run (by decide +kernel))
  have hagain := hstable.applyAll_eq (by decide)
  exact absurd hagain (by decide +kernel)

end KseRewriteProxy
