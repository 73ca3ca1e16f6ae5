import KseRewriteProxy.Proxy.Agreement
import KseRewriteProxy.Rewrite.MigMetaInsertion

/-!
# What a derived tag identifies

The derived tag is a hash of the upstream tag, the base path, the extension and the version of the
rules. The rules that the configuration switches on are not part of it, although they select the
profile. Two sidecars that send the same tag agree on the base path and the extension, so they
disagree on the body where the selected profiles do:

* a page of `ys1000` has its `_mig_meta` exchanged by one and not by the other (`AmbiguousHtml`);
* the index of the `ys1000` frontend has its quoted roots prefixed by one and not by the other
  (`AmbiguousIndex`).

`identifies_iff` says that these are the only ways: everywhere else the tag identifies the body.

## Why there are no others

The grammar of paths gives one path one extension, and below each of the three roots the rules leave
at most two profiles for it. The assets of `kubekey` have one. For a page the two differ by the last
stage, so the bodies differ exactly if that stage has something to exchange in what the attribute
rules have made of the body, which the body itself decides
(`hasExchangeable_applyAll_htmlRules`). For an index the two differ by the stages for quoted roots,
and the stage in front of these neither makes nor breaks a quoted root.

## Which exchanges are meant

`Candidate.Emits` is an exchange with one upstream response: no interim response precedes it.
Behind an interim response the pipeline is gone, and the body under the derived tag is not the
rewritten one; that is a matter of headers and bodies (`agrees_iff`) and not of tags.
`Candidate.Revives` is a 304 with the tag, which sends the client back to a body it holds.
-/

namespace KseRewriteProxy

open Text Text.Utf8 Streaming StreamingRewritePipeline

/-! ### Two configurations on one path -/

namespace PolicyConfig

variable {config config' : PolicyConfig} {path extension : Str} {profile profile' : RewriteProfile}

/-- On the pages of `ys1000` the rule for them decides. -/
theorem NamedProxy.profile_eq_ite (h : config.NamedProxy path profile (str "ys1000")) :
    profile = if .ys1000Html ∈ config.enabledRules then .ys1000Html else .namedProxyHtml := by
  obtain ⟨rest, -, -, -, hprofile⟩ := h
  rcases hprofile with ⟨-, hrule, rfl⟩ | ⟨-, hrule, -, rfl⟩ | ⟨hname, -⟩ | ⟨hname, -⟩
  · rw [if_pos hrule]
  · rw [if_neg hrule]
  · exact absurd hname (by decide)
  · exact absurd rfl hname

/-- On other pages the path decides. -/
theorem NamedProxy.profile_unique (hroot : config.root = config'.root)
    (h : config.NamedProxy path profile extension) (h' : config'.NamedProxy path profile' extension)
    (hname : extension ≠ str "ys1000") : profile = profile' := by
  obtain ⟨rest, hpath, -, -, hprofile⟩ := h
  obtain ⟨rest', hpath', -, -, hprofile'⟩ := h'
  rw [hpath, hroot] at hpath'
  obtain ⟨-, rfl⟩ := List.cons.inj (List.append_cancel_left hpath')
  rcases hprofile with ⟨heq, -⟩ | ⟨heq, -⟩ | ⟨-, -, hjs, -, rfl⟩ | ⟨-, hjs, -, rfl⟩
  · exact absurd heq hname
  · exact absurd heq hname
  · rcases hprofile' with ⟨heq, -⟩ | ⟨heq, -⟩ | ⟨-, -, -, -, rfl⟩ | ⟨-, hjs', -⟩
    · exact absurd heq hname
    · exact absurd heq hname
    · rfl
    · exact absurd hjs hjs'
  · rcases hprofile' with ⟨heq, -⟩ | ⟨heq, -⟩ | ⟨-, -, hjs', -⟩ | ⟨-, -, -, rfl⟩
    · exact absurd heq hname
    · exact absurd heq hname
    · exact absurd hjs' hjs
    · rfl

/-- The index of the `ys1000` frontend, below the base path. -/
def ys1000FrontendIndex : Str :=
  str "/jsbundles/ys1000-frontend/dist/ys1000-frontend/index.js"

/-- A path has one last segment. -/
theorem append_slash_inj {u v file file' : Str} (hfile : '/' ∉ file) (hfile' : '/' ∉ file')
    (h : u ++ '/' :: file = v ++ '/' :: file') : u = v ∧ file = file' := by
  have hreverse := congrArg List.reverse h
  simp only [List.reverse_append, List.reverse_cons, List.append_assoc, List.singleton_append]
    at hreverse
  obtain ⟨hlast, hinit⟩ := append_cons_inj (by simpa using hfile) (by simpa using hfile') hreverse
  exact ⟨List.reverse_inj.1 hinit, List.reverse_inj.1 hlast⟩

/-- The profile of the `ys1000` frontend index is selected on its path, if the rule for indices is
enabled. -/
theorem Jsbundle.profile_eq_iff (h : config.Jsbundle path profile extension) :
    profile = .ys1000FrontendIndexJsBundle ↔
      path = config.root ++ ys1000FrontendIndex ∧ .frontendIndexJsBundle ∈ config.enabledRules := by
  obtain ⟨distribution, file, hpath, hslash, -, henabled, -, hprofile⟩ := h
  constructor
  · rintro rfl
    rcases hprofile with ⟨-, rfl, hrule, hindex⟩ | ⟨-, -, hindex⟩
    · split at hindex
      · rename_i hnames
        obtain ⟨rfl, rfl⟩ := hnames
        refine ⟨?_, hrule⟩
        rw [hpath]
        simp only [List.append_assoc]
        rfl
      · exact absurd hindex (by simp)
    · exact absurd hindex (by simp)
  · rintro ⟨hindex, hrule⟩
    have hname := henabled.1.not_mem_slash
    have heq : extension ++ '/' :: (str "dist/" ++ (distribution ++ '/' :: file)) =
        str "ys1000-frontend" ++ '/' :: (str "dist/" ++ (str "ys1000-frontend" ++
          '/' :: str "index.js")) := by
      have hboth := hpath.symm.trans hindex
      simp only [List.append_assoc] at hboth
      exact (List.append_right_inj (str "/jsbundles/")).1 (List.append_cancel_left hboth)
    obtain ⟨rfl, hrest⟩ := append_cons_inj hname (by decide) heq
    obtain ⟨rfl, rfl⟩ := append_slash_inj hslash (by decide) (List.append_cancel_left hrest)
    rcases hprofile with ⟨-, -, -, rfl⟩ | ⟨hnot, -⟩
    · rw [if_pos ⟨rfl, rfl⟩]
    · exact absurd ⟨by decide, rfl, hrule⟩ hnot

/-- The other profiles of bundles have one pipeline. -/
theorem Jsbundle.responseStages_eq (h : config.Jsbundle path profile extension)
    (hne : profile ≠ .ys1000FrontendIndexJsBundle) (codec : MetadataCodec) (basePath : Str) :
    responseStages codec profile basePath extension =
      [appendStage templateHead (bundleSuffix basePath)] := by
  obtain ⟨distribution, file, -, -, -, -, -, hprofile⟩ := h
  rcases hprofile with ⟨-, -, -, hindex⟩ | ⟨-, -, rfl⟩
  · split at hindex
    · exact absurd hindex hne
    · rw [hindex]
      rfl
  · rfl

end PolicyConfig

/-! ### Where two profiles make the same body -/

/-- The body has a quoted root of `ys1000`. -/
def HasQuotedRoot (body : Bytes) : Prop :=
  ∃ quote, IsQuoteMark quote ∧ quoted quote ys1000Root <:+: body

/-- **When the `ys1000` frontend index becomes what a bundle becomes**: exactly when it has no
quoted root. -/
theorem applyAll_ys1000FrontendIndex_eq_iff (codec : MetadataCodec) {url : UrlCrate}
    {basePath : Str} (hbase : IsBasePath url basePath) (extension : Str) (body : Bytes) :
    applyAll (responseStages codec .ys1000FrontendIndexJsBundle basePath extension) body =
        applyAll [appendStage templateHead (bundleSuffix basePath)] body ↔
      ¬ HasQuotedRoot body := by
  have hdouble : IsQuoteMark 0x22 := Or.inl rfl
  have hsingle : IsQuoteMark 0x27 := Or.inr rfl
  have hstages : responseStages codec .ys1000FrontendIndexJsBundle basePath extension =
      [appendStage templateHead (bundleSuffix basePath)] ++
        [exactStage (quotedRootRule basePath 0x22), exactStage (quotedRootRule basePath 0x27)] :=
    rfl
  have hgrows : ∀ s ∈ [exactStage (quotedRootRule basePath 0x22),
      exactStage (quotedRootRule basePath 0x27)], s.Grows := by
    rw [List.forall_mem_cons, List.forall_mem_singleton]
    exact ⟨grows_quotedRoot basePath _, grows_quotedRoot basePath _⟩
  have hquoted : HasQuotedRoot body ↔
      quoted 0x22 ys1000Root <:+: body ∨ quoted 0x27 ys1000Root <:+: body := by
    constructor
    · rintro ⟨quote, rfl | rfl, hroot⟩
      · exact Or.inl hroot
      · exact Or.inr hroot
    · rintro (hroot | hroot)
      · exact ⟨_, hdouble, hroot⟩
      · exact ⟨_, hsingle, hroot⟩
  -- the appended suffix makes no quoted root and splits none
  rw [hstages, applyAll_append, applyAll_eq_self_iff hgrows, List.forall_mem_cons,
    List.forall_mem_singleton, quotedRoot_apply_eq_self_iff hbase,
    quotedRoot_apply_eq_self_iff hbase, hquoted, not_or, applyAll_cons, applyAll_nil, quoted,
    quoted, infix_appendStage_apply_iff hbase hdouble (by decide),
    infix_appendStage_apply_iff hbase hsingle (by decide)]

section

variable (codec : MetadataCodec) (config config' : EffectiveConfig) (path : Str) (body : Bytes)

/-- The configurations disagree on the rule for pages of `ys1000`, and the path and the body are
those of a page whose `_mig_meta` the rule exchanges. -/
def AmbiguousHtml : Prop :=
  ¬ (.ys1000Html ∈ config.enabledRules ↔ .ys1000Html ∈ config'.enabledRules) ∧
    config.basePath ++ str "/proxy/ys1000/" <+: path ∧
    HasExchangeable codec (desiredBaseUri config.basePath ys1000Name) body

/-- The configurations disagree on the rule for indices, and the path and the body are those of the
`ys1000` frontend index with a quoted root. -/
def AmbiguousIndex : Prop :=
  ¬ (.frontendIndexJsBundle ∈ config.enabledRules ↔
      .frontendIndexJsBundle ∈ config'.enabledRules) ∧
    path = config.basePath ++ PolicyConfig.ys1000FrontendIndex ∧ HasQuotedRoot body

/-- The tag does not tell what the two configurations make of the body. -/
def Ambiguous : Prop :=
  AmbiguousHtml codec config config' path body ∨ AmbiguousIndex config config' path body

end

/-- What the policy of a configuration is configured with. -/
def EffectiveConfig.policyConfig (config : EffectiveConfig) : PolicyConfig where
  basePath := config.basePath
  enabledExtensions := config.enabledExtensions
  disabledExtensions := config.disabledExtensions
  enabledRules := RewriteRule.all.filter (· ∈ config.enabledRules)

theorem EffectiveConfig.mem_policyConfig_iff {config : EffectiveConfig} {rule : RewriteRule} :
    rule ∈ config.policyConfig.enabledRules ↔ rule ∈ config.enabledRules := by
  have hall : rule ∈ RewriteRule.all := by
    cases rule <;> decide
  show rule ∈ RewriteRule.all.filter (· ∈ config.enabledRules) ↔ _
  rw [List.mem_filter, decide_eq_true_eq]
  exact and_iff_right hall

/-- An accepted base path is not trimmed again. -/
theorem IsBasePath.root_eq {url : UrlCrate} {config : EffectiveConfig}
    (hbase : IsBasePath url config.basePath) : config.policyConfig.root = config.basePath := by
  obtain ⟨init, last, heq, hlast⟩ : ∃ init last, config.basePath = init ++ [last] ∧ last ≠ '/' :=
    ⟨_, _, (List.dropLast_concat_getLast hbase.ne_nil).symm, hbase.getLast_ne⟩
  show trimEndMatches (· == '/') config.basePath = _
  rw [heq, trimEndMatches, List.reverse_append, List.reverse_singleton, List.singleton_append,
    List.dropWhile_cons_of_neg (by simpa using hlast), List.reverse_cons, List.reverse_reverse]

/-! ### Where two configurations make the same body -/

section

variable {url : UrlCrate} {codec : MetadataCodec} {config config' : EffectiveConfig}
  {path extension : Str} {profile profile' : RewriteProfile}

/-- A path that is not one of a proxy is not ambiguous as HTML. -/
theorem not_ambiguousHtml_of_eq {c : Char} (hc : c ≠ 'p') {rest : Str}
    (hpath : path = config.basePath ++ '/' :: c :: rest) (body : Bytes) :
    ¬ AmbiguousHtml codec config config' path body := by
  rintro ⟨-, ⟨t, ht⟩, -⟩
  rw [hpath, List.append_assoc] at ht
  exact hc (PolicyConfig.root_unique ht).symm

/-- A path that is not one of a bundle is not ambiguous as an index. -/
theorem not_ambiguousIndex_of_eq {c : Char} (hc : c ≠ 'j') {rest : Str}
    (hpath : path = config.basePath ++ '/' :: c :: rest) (body : Bytes) :
    ¬ AmbiguousIndex config config' path body := by
  rintro ⟨-, ht, -⟩
  rw [hpath] at ht
  exact hc (PolicyConfig.root_unique ht)

/-- Two configurations rewrite HTML alike exactly if it is not ambiguous. -/
theorem applyAll_eq_iff_of_namedProxy (hlawful : codec.Lawful) (hcodec : codec.RejectsQuotes)
    (hbase : IsBasePath url config.basePath) (hsame : config'.basePath = config.basePath)
    (h : config.policyConfig.NamedProxy path profile extension)
    (h' : config'.policyConfig.NamedProxy path profile' extension) (body : Bytes) :
    applyAll (responseStages codec profile config.basePath extension) body =
        applyAll (responseStages codec profile' config.basePath extension) body ↔
      ¬ Ambiguous codec config config' path body := by
  have hroot := hbase.root_eq
  have hroot' : config'.policyConfig.root = config.policyConfig.root :=
    congrArg (trimEndMatches (· == '/')) hsame
  have hindex : ¬ AmbiguousIndex config config' path body := by
    obtain ⟨t, ht⟩ := h.exists_eq
    exact not_ambiguousIndex_of_eq (by decide) (hroot ▸ ht) body
  rw [Ambiguous, or_iff_left hindex]
  by_cases hname : extension = str "ys1000"
  · subst hname
    have hprefix : config.basePath ++ str "/proxy/ys1000/" <+: path := by
      obtain ⟨rest, hpath, -⟩ := h
      refine ⟨rest, ?_⟩
      rw [hpath, hroot]
      simp only [List.append_assoc]
      rfl
    have hprofile := h.profile_eq_ite
    have hprofile' := h'.profile_eq_ite
    simp only [EffectiveConfig.mem_policyConfig_iff] at hprofile hprofile'
    have hpage := applyAll_ys1000Html_eq_iff hlawful hcodec hbase body
    rw [hprofile, hprofile', AmbiguousHtml]
    by_cases hrule : .ys1000Html ∈ config.enabledRules
    · by_cases hrule' : .ys1000Html ∈ config'.enabledRules
      · simp [hrule, hrule']
      · simp only [hrule, hrule', hprefix, if_true, if_false, iff_false, not_true, true_and,
          not_false_iff]
        exact hpage
    · by_cases hrule' : .ys1000Html ∈ config'.enabledRules
      · simp only [hrule, hrule', hprefix, if_true, if_false, iff_true, true_and,
          not_false_iff]
        rw [eq_comm]
        exact hpage
      · simp [hrule, hrule']
  · refine iff_of_true ?_ ?_
    · rw [h.profile_unique hroot'.symm h' hname]
    · rintro ⟨-, ⟨t, ht⟩, -⟩
      obtain ⟨rest, hpath, -, hslash, -⟩ := h
      rw [hpath, hroot] at ht
      simp only [List.append_assoc] at ht
      have hbelow : str "ys1000" ++ '/' :: t = extension ++ '/' :: rest :=
        (List.append_right_inj (str "/proxy/")).1 (List.append_cancel_left ht)
      exact hname (append_cons_inj (by decide) hslash hbelow).1.symm

/-- Two configurations rewrite a bundle alike exactly if it is not ambiguous. -/
theorem applyAll_eq_iff_of_jsbundle
    (hbase : IsBasePath url config.basePath) (hsame : config'.basePath = config.basePath)
    (h : config.policyConfig.Jsbundle path profile extension)
    (h' : config'.policyConfig.Jsbundle path profile' extension) (body : Bytes) :
    applyAll (responseStages codec profile config.basePath extension) body =
        applyAll (responseStages codec profile' config.basePath extension) body ↔
      ¬ Ambiguous codec config config' path body := by
  have hroot := hbase.root_eq
  have hroot' : config'.policyConfig.root = config.policyConfig.root :=
    congrArg (trimEndMatches (· == '/')) hsame
  have hhtml : ¬ AmbiguousHtml codec config config' path body := by
    obtain ⟨t, ht⟩ := h.exists_eq
    exact not_ambiguousHtml_of_eq (by decide) (hroot ▸ ht) body
  rw [Ambiguous, or_iff_right hhtml]
  have hindex := h.profile_eq_iff
  have hindex' := h'.profile_eq_iff
  rw [EffectiveConfig.mem_policyConfig_iff, hroot] at hindex
  rw [EffectiveConfig.mem_policyConfig_iff, hroot', hroot] at hindex'
  have hbundle := applyAll_ys1000FrontendIndex_eq_iff codec hbase extension body
  rw [AmbiguousIndex]
  by_cases hprofile : profile = .ys1000FrontendIndexJsBundle
  · obtain ⟨hpath, hrule⟩ := hindex.1 hprofile
    by_cases hprofile' : profile' = .ys1000FrontendIndexJsBundle
    · have hrule' := (hindex'.1 hprofile').2
      simp [hprofile, hprofile', hrule, hrule']
    · have hrule' : .frontendIndexJsBundle ∉ config'.enabledRules := fun hrule' ↦
        hprofile' (hindex'.2 ⟨hpath, hrule'⟩)
      rw [h'.responseStages_eq hprofile', hprofile, hbundle]
      simp [hrule, hrule', hpath]
  · rw [h.responseStages_eq hprofile]
    by_cases hprofile' : profile' = .ys1000FrontendIndexJsBundle
    · obtain ⟨hpath, hrule'⟩ := hindex'.1 hprofile'
      have hrule : .frontendIndexJsBundle ∉ config.enabledRules := fun hrule ↦
        hprofile (hindex.2 ⟨hpath, hrule⟩)
      rw [hprofile', eq_comm, hbundle]
      simp [hrule, hrule', hpath]
    · refine iff_of_true (by rw [h'.responseStages_eq hprofile']) ?_
      rintro ⟨hdiffer, hpath, -⟩
      refine hdiffer (iff_of_false (fun hrule ↦ ?_) fun hrule' ↦ ?_)
      · exact hprofile (hindex.2 ⟨hpath, hrule⟩)
      · exact hprofile' (hindex'.2 ⟨hpath, hrule'⟩)

/-- **When two configurations make the same of a body**: exactly when it is not one of the two
ambiguous representations. -/
theorem applyAll_eq_iff (hlawful : codec.Lawful) (hcodec : codec.RejectsQuotes)
    (hbase : IsBasePath url config.basePath) (hsame : config'.basePath = config.basePath)
    (h : config.policyConfig.Grammar path profile extension)
    (h' : config'.policyConfig.Grammar path profile' extension) (body : Bytes) :
    applyAll (responseStages codec profile config.basePath extension) body =
        applyAll (responseStages codec profile' config.basePath extension) body ↔
      ¬ Ambiguous codec config config' path body := by
  have hroot := hbase.root_eq
  have hroot' : config'.policyConfig.root = config.policyConfig.root :=
    congrArg (trimEndMatches (· == '/')) hsame
  -- both configurations find the path below the same root
  have hdiffer : ∀ {a b : Char} {t t' : Str}, path = config.policyConfig.root ++ '/' :: a :: t →
      path = config'.policyConfig.root ++ '/' :: b :: t' → a = b := fun ht ht' ↦
    PolicyConfig.root_unique (ht.symm.trans (hroot' ▸ ht'))
  rcases h with h | h | h
  · rcases h' with h' | h' | h'
    · exact applyAll_eq_iff_of_namedProxy hlawful hcodec hbase hsame h h' body
    · obtain ⟨t, ht⟩ := h.exists_eq
      obtain ⟨t', ht'⟩ := h'.exists_eq
      exact absurd (hdiffer ht ht') (by decide)
    · obtain ⟨t, ht⟩ := h.exists_eq
      obtain ⟨t', ht'⟩ := h'.exists_eq
      exact absurd (hdiffer ht ht') (by decide)
  · rcases h' with h' | h' | h'
    · obtain ⟨t, ht⟩ := h.exists_eq
      obtain ⟨t', ht'⟩ := h'.exists_eq
      exact absurd (hdiffer ht ht') (by decide)
    · exact applyAll_eq_iff_of_jsbundle hbase hsame h h' body
    · obtain ⟨t, ht⟩ := h.exists_eq
      obtain ⟨t', ht'⟩ := h'.exists_eq
      exact absurd (hdiffer ht ht') (by decide)
  · obtain ⟨t, ht⟩ := h.exists_eq
    rcases h' with h' | h' | h'
    · obtain ⟨t', ht'⟩ := h'.exists_eq
      exact absurd (hdiffer ht ht') (by decide)
    · obtain ⟨t', ht'⟩ := h'.exists_eq
      exact absurd (hdiffer ht ht') (by decide)
    · refine iff_of_true (by rw [h.profile_eq, h'.profile_eq]) ?_
      rintro (hhtml | hindex)
      · exact not_ambiguousHtml_of_eq (by decide) (hroot ▸ ht) body hhtml
      · exact not_ambiguousIndex_of_eq (by decide) (hroot ▸ ht) body hindex

end

/-! ### Requests -/

/-- What `request_filter` leaves of a request that it decides to rewrite. -/
theorem Admits.facts {self : RewriteProxy} {request : RequestHeader} {ctx : RequestContext}
    (h : Admits self request ctx) {profile : RewriteProfile} {extension : Str} {headOnly : Bool}
    (hdecision : ctx.decision = .rewrite profile extension headOnly) :
    self.policy.decide request.method request.path = .rewrite profile extension headOnly ∧
      ctx.extension = some extension ∧ Visible ctx.requestId := by
  have hvisible : ∀ nanos sequence,
      Visible (self.readRequest request (newCtx nanos sequence)).requestId := fun nanos sequence ↦
    visible_readRequest request (visible_newRequestId nanos sequence)
  have hstart : ∀ profile' extension' ctx' effects,
      (self.startRewrite profile' extension' ctx' effects).ctx.decision = ctx'.decision ∧
        (self.startRewrite profile' extension' ctx' effects).ctx.extension = ctx'.extension ∧
        (self.startRewrite profile' extension' ctx' effects).ctx.requestId = ctx'.requestId := by
    intro profile' extension' ctx' effects
    obtain ⟨rewriter, heq⟩ := self.startRewrite_eq profile' extension' ctx' effects
    rw [heq]
    exact ⟨rfl, rfl, rfl⟩
  cases h with
  | @returned shared nanos sequence result h hok =>
    have hfiltered := self.filtered_requestFilter shared request (newCtx nanos sequence)
    rw [h] at hfiltered
    cases hfiltered with
    | bypass hbypass => cases hbypass.symm.trans hdecision
    | headOnly hhead =>
      obtain ⟨rfl, rfl, rfl⟩ := RewriteDecision.rewrite.inj (hhead.symm.trans hdecision)
      exact ⟨hdecision, rfl, hvisible nanos sequence⟩
    | admitted hrewrite hpermit =>
      obtain ⟨hdecision', hextension, hid⟩ := hstart _ _ _ _
      rw [hdecision'] at hdecision
      obtain ⟨rfl, rfl, rfl⟩ := RewriteDecision.rewrite.inj (hrewrite.symm.trans hdecision)
      exact ⟨hdecision, hextension, by rw [hid]; exact hvisible nanos sequence⟩
  | @woken shared nanos sequence profile' extension' ctx' effects h hok =>
    have hfiltered := self.filtered_requestFilter shared request (newCtx nanos sequence)
    rw [h] at hfiltered
    cases hfiltered with
    | queued hrewrite hpermit hslot =>
      rw [RewriteProxy.requestFilterWoken] at hdecision ⊢
      obtain ⟨hdecision', hextension, hid⟩ := hstart _ _ _ _
      rw [hdecision'] at hdecision
      obtain ⟨rfl, rfl, rfl⟩ := RewriteDecision.rewrite.inj (hrewrite.symm.trans hdecision)
      exact ⟨hdecision, hextension, by rw [hid]; exact hvisible nanos sequence⟩

/-- A request for the path that `request_filter` has let through and decided to rewrite. -/
structure Candidate (proxy : RewriteProxy) (path : Str) where
  request : RequestHeader
  ctx : RequestContext
  profile : RewriteProfile
  extension : Str
  headOnly : Bool
  path_eq : request.path = path
  admits : Admits proxy request ctx
  decision : ctx.decision = .rewrite profile extension headOnly

namespace Candidate

variable {proxy : RewriteProxy} {path : Str} (candidate : Candidate proxy path)

/-- The grammar of the configuration has the path. -/
theorem grammar :
    proxy.config.policyConfig.root ≠ [] ∧
      proxy.config.policyConfig.Grammar path candidate.profile candidate.extension := by
  have hdecide := (candidate.admits.facts candidate.decision).1
  rw [candidate.path_eq] at hdecide
  exact PolicyConfig.grammar_of_decide hdecide

/-- The sidecar treats the upstream response as rewritten, and sends a header with the tag and the
body `out`. The response is the first one that the upstream sends: no interim response precedes
it, behind which `response_filter` would find the pipeline dropped (`agrees_iff`). -/
def Emits (final : ResponseHeader) (upstream : Bytes) (etag : Str) (out : Bytes) : Prop :=
  candidate.headOnly = false ∧ treatment proxy candidate.profile candidate.ctx final = .rewritten ∧
    ∃ chunks last header body, (chunkBytes (chunks ++ [last])).flatten = upstream ∧
      deliver proxy [] final chunks last candidate.ctx = .ok (header, body) ∧
      (header.headers.get (str "etag")).map HeaderValue.asBytes = some etag.asBytes ∧
      (chunkBytes body).flatten = out

/-- The sidecar answers the upstream response with 304, and the header has the tag. -/
def Revives (final : ResponseHeader) (etag : Str) : Prop :=
  treatment proxy candidate.profile candidate.ctx final = .notModified ∧
    ∃ header, (proxy.responseFilter final candidate.ctx).result = .ok header ∧
      (header.headers.get (str "etag")).map HeaderValue.asBytes = some etag.asBytes

/-- What the pipeline of the sidecar makes of the upstream body, in some chunks. -/
def WouldEmit (upstream out : Bytes) : Prop :=
  Outputs proxy.codec candidate.profile proxy.config.basePath candidate.extension upstream out

end Candidate

/-! ### Tags -/

section

variable {self : RewriteProxy}

/-- The end of `response_filter` leaves the derived tag, and no other. -/
theorem get_etag_of_finishHeaders {derivedEtag : Option Str}
    (hetag : ∀ etag ∈ derivedEtag, Visible etag) {stripped header : ResponseHeader}
    {ctx : RequestContext}
    (hheader : (RewriteProxy.finishHeaders derivedEtag stripped ctx).result = .ok header) :
    (header.headers.get (str "etag")).map HeaderValue.asBytes = derivedEtag.map Str.asBytes := by
  cases derivedEtag with
  | none =>
    have hstore : (bytes "no-store").all isHeaderByte = true := by decide
    obtain rfl := Except.ok.inj
      (((stripped.removeHeader (str "etag")).insertHeader_eq _ hstore).symm.trans hheader)
    rw [HeaderMap.get_insert_of_ne _ (by decide)]
    exact congrArg _ (HeaderMap.get_remove_self _ _)
  | some etag =>
    have hvisible := all_isHeaderByte_of_visible (hetag etag rfl)
    rw [RewriteProxy.finishHeaders.eq_def] at hheader
    simp only [stripped.insertHeader_eq _ hvisible] at hheader
    split at hheader
    · obtain rfl := Except.ok.inj hheader
      show (HeaderMap.get (HeaderMap.remove _ _) _).map _ = _
      rw [HeaderMap.get_remove_of_ne _ (by decide), HeaderMap.get_insert_self]
      rfl
    · obtain rfl := Except.ok.inj hheader
      rw [HeaderMap.get_insert_self]
      rfl

/-- A response that is rewritten or not modified has passed the checks. -/
theorem checks_of_treatment {profile : RewriteProfile} {ctx : RequestContext}
    {final : ResponseHeader} (h : treatment self profile ctx final = .rewritten ∨
      treatment self profile ctx final = .notModified) :
    final.status = 200 ∧
      isRewritableContentType profile (final.headers.get (str "content-type")) = true ∧
      isIdentityEncoding (final.headers.get (str "content-encoding")) = true := by
  rw [treatment] at h
  split at h
  · exact absurd h (by simp)
  rename_i hstatus
  split at h
  · split at h <;> exact absurd h (by simp)
  rename_i htype
  split at h
  · exact absurd h (by simp)
  rename_i hencoding
  exact ⟨not_not.1 hstatus, by simpa using htype, by simpa using hencoding⟩

/-- **The tag of a response that is rewritten or not modified is the derived one.** -/
theorem get_etag_of_responseFilter (hcrates : self.crates.EncodesUrlSafe)
    {profile : RewriteProfile} {extension : Str} {headOnly : Bool} {ctx : RequestContext}
    (hdecision : ctx.decision = .rewrite profile extension headOnly)
    (hid : Visible ctx.requestId) {final header : ResponseHeader}
    (htreatment : treatment self profile ctx final = .rewritten ∨
      treatment self profile ctx final = .notModified)
    (hheader : (self.responseFilter final ctx).result = .ok header) :
    (header.headers.get (str "etag")).map HeaderValue.asBytes =
      (self.derivedEtag final ctx).map Str.asBytes := by
  obtain ⟨hstatus, htype, hencoding⟩ := checks_of_treatment htreatment
  obtain ⟨stripped, heq, -⟩ :=
    exists_responseFilter_eq_finishHeaders self hdecision hid hstatus htype hencoding
  rw [heq] at hheader
  exact get_etag_of_finishHeaders (visible_of_mem_derivedEtag hcrates final ctx) hheader

theorem eq_some_of_map_asBytes {derivedEtag : Option Str} {etag : Str}
    (h : some etag.asBytes = derivedEtag.map Str.asBytes) : derivedEtag = some etag := by
  obtain ⟨etag', hetag', hbytes⟩ := Option.map_eq_some_iff.1 h.symm
  rw [hetag', encode_injective hbytes]

end

/-! ### What a tag identifies -/

namespace Candidate

variable {proxy : RewriteProxy} {path : Str} {candidate : Candidate proxy path}
  {final : ResponseHeader} {upstream out : Bytes} {etag : Str}

/-- A body that is sent is what the pipeline makes of the upstream body. -/
theorem Emits.wouldEmit (hcrates : proxy.crates.EncodesUrlSafe)
    (h : candidate.Emits final upstream etag out) :
    candidate.WouldEmit upstream out ∧ proxy.derivedEtag final candidate.ctx = some etag := by
  obtain ⟨hhead, htreatment, chunks, last, header, body, rfl, hdeliver, hetag, rfl⟩ := h
  have hdecision := candidate.decision
  rw [hhead] at hdecision
  obtain ⟨hready, hpipeline⟩ := candidate.admits.ready hdecision
  have hagrees := agrees_of_deliver hcrates hready hpipeline
    (fun _ hmem ↦ absurd hmem List.not_mem_nil) (Or.inl rfl) hdeliver
  rw [Agrees, htreatment] at hagrees
  obtain ⟨-, pipeline, hbuild, hrun⟩ := hagrees
  obtain ⟨ctx', hctx', hheader, -⟩ := deliver_eq_ok_iff.1 hdeliver
  obtain rfl := Except.ok.inj hctx'
  have hderived := get_etag_of_responseFilter hcrates hdecision hready.requestId (Or.inl htreatment)
    hheader
  rw [hetag] at hderived
  exact ⟨⟨_, pipeline, _, hbuild, List.flatten_singleton, hrun⟩, eq_some_of_map_asBytes hderived⟩

/-- A 304 has the tag that is derived from the response. -/
theorem Revives.derivedEtag_eq (hcrates : proxy.crates.EncodesUrlSafe)
    (h : candidate.Revives final etag) : proxy.derivedEtag final candidate.ctx = some etag := by
  obtain ⟨htreatment, header, hheader, hetag⟩ := h
  have hderived := get_etag_of_responseFilter hcrates candidate.decision
    (candidate.admits.facts candidate.decision).2.2 (Or.inr htreatment) hheader
  rw [hetag] at hderived
  exact eq_some_of_map_asBytes hderived

end Candidate

section

variable {codec : MetadataCodec} {crates : DigestCrates} {parsers : ConfigParsers}
  {input input' : Str} {config config' : EffectiveConfig} {path : Str}
  {candidate : Candidate ⟨config, codec, crates⟩ path}
  {candidate' : Candidate ⟨config', codec, crates⟩ path} {final : ResponseHeader} {etag : Str}

/-- **Equal tags come from the same base path and the same extension.** -/
theorem basePath_and_extension_eq (hblake3 : Function.Injective crates.blake3)
    (hbase64 : Function.Injective crates.urlSafeNoPad)
    (hconfig : EffectiveConfig.fromYaml parsers input = .ok config)
    (hconfig' : EffectiveConfig.fromYaml parsers input' = .ok config')
    (h : RewriteProxy.derivedEtag ⟨config, codec, crates⟩ final candidate.ctx = some etag)
    (h' : RewriteProxy.derivedEtag ⟨config', codec, crates⟩ final candidate'.ctx = some etag) :
    config'.basePath = config.basePath ∧ candidate'.extension = candidate.extension := by
  obtain ⟨⟨value, hbase⟩, -⟩ := EffectiveConfig.fromYaml_eq_ok hconfig
  obtain ⟨⟨value', hbase'⟩, -⟩ := EffectiveConfig.fromYaml_eq_ok hconfig'
  obtain ⟨upstream, hupstream, rfl⟩ := Option.map_eq_some_iff.1 h
  obtain ⟨upstream', hupstream', htags⟩ := Option.map_eq_some_iff.1 h'
  obtain ⟨field, -, hreliable⟩ := Option.bind_eq_some_iff.1 hupstream
  obtain ⟨field', -, hreliable'⟩ := Option.bind_eq_some_iff.1 hupstream'
  rw [(candidate.admits.facts candidate.decision).2.1,
    (candidate'.admits.facts candidate'.decision).2.1] at htags
  have hdigest := hblake3 (hbase64 (List.append_cancel_left (List.append_cancel_right htags)))
  exact (eq_of_etagInput_eq hreliable' hreliable hbase' hbase hdigest).2

/-- Two sidecars with the same tag make the same of a body exactly if it is not ambiguous. -/
theorem wouldEmit_eq_iff (hlawful : codec.Lawful) (hcodec : codec.RejectsQuotes)
    (hconfig : EffectiveConfig.fromYaml parsers input = .ok config)
    (hbase : config'.basePath = config.basePath)
    (hextension : candidate'.extension = candidate.extension) {upstream out out' : Bytes}
    (h : candidate.WouldEmit upstream out) (h' : candidate'.WouldEmit upstream out') :
    out = out' ↔ ¬ Ambiguous codec config config' path upstream := by
  obtain ⟨hroot, hgrammar⟩ := candidate.grammar
  obtain ⟨-, hgrammar'⟩ := candidate'.grammar
  obtain ⟨⟨value, hvalue⟩, -⟩ := EffectiveConfig.fromYaml_eq_ok hconfig
  have hpath : IsBasePath parsers.url config.basePath := by
    refine ⟨⟨value, hvalue⟩, fun hnil ↦ hroot ?_⟩
    show trimEndMatches (· == '/') config.basePath = []
    rw [hnil]
    rfl
  rw [hextension] at hgrammar'
  have hsame := applyAll_eq_iff hlawful hcodec hpath hbase hgrammar hgrammar' upstream
  rw [← h.valid_and_applyAll.2, ← h'.valid_and_applyAll.2]
  show applyAll (responseStages codec candidate.profile config.basePath candidate.extension)
    upstream = applyAll (responseStages codec candidate'.profile config'.basePath
      candidate'.extension) upstream ↔ _
  rw [hbase, hextension]
  exact hsame

/-- **When a derived tag identifies the rewritten body**: two sidecars that send the tag for one
upstream response, which no interim response precedes, send one body exactly if the representation
is not ambiguous, and under the same condition a client that a 304 sends back to the body of the one
gets the body of the other. -/
theorem identifies_iff (hlawful : codec.Lawful) (hcodec : codec.RejectsQuotes)
    (hcrates : crates.EncodesUrlSafe) (hblake3 : Function.Injective crates.blake3)
    (hbase64 : Function.Injective crates.urlSafeNoPad)
    (hconfig : EffectiveConfig.fromYaml parsers input = .ok config)
    (hconfig' : EffectiveConfig.fromYaml parsers input' = .ok config') {upstream out : Bytes}
    (h : candidate.Emits final upstream etag out) (out' : Bytes) :
    (candidate'.Emits final upstream etag out' →
      (out = out' ↔ ¬ Ambiguous codec config config' path upstream)) ∧
    (candidate'.Revives final etag → candidate'.WouldEmit upstream out' →
      (out = out' ↔ ¬ Ambiguous codec config config' path upstream)) := by
  obtain ⟨hout, hetag⟩ := h.wouldEmit hcrates
  have hcompare : RewriteProxy.derivedEtag ⟨config', codec, crates⟩ final candidate'.ctx =
      some etag → candidate'.WouldEmit upstream out' →
        (out = out' ↔ ¬ Ambiguous codec config config' path upstream) := by
    intro hetag' hout'
    obtain ⟨hbase, hextension⟩ := basePath_and_extension_eq hblake3 hbase64 hconfig hconfig' hetag
      hetag'
    exact wouldEmit_eq_iff hlawful hcodec hconfig hbase hextension hout hout'
  refine ⟨fun hemits ↦ ?_, fun hrevives hout' ↦ hcompare (hrevives.derivedEtag_eq hcrates) hout'⟩
  obtain ⟨hout', hetag'⟩ := hemits.wouldEmit hcrates
  exact hcompare hetag' hout'

end

/-! ### Two sidecars at the index of the `ys1000` frontend -/

/-- A body that the pipeline of the context rewrites is sent. -/
theorem exists_filterBody_eq {ctx : RequestContext} {pipeline : StreamingRewritePipeline}
    (hrewriter : ctx.rewriter = some pipeline) (hsuppress : ctx.suppressBody = false)
    {upstream out : Bytes} (h : transducer.run pipeline [upstream] = .ok out) :
    ∃ body, filterBody (some upstream) [] ctx = .ok body ∧ (chunkBytes body).flatten = out := by
  rw [Transducer.run] at h
  rcases hpush : transducer.push pipeline upstream with ⟨error | pushed, pipeline'⟩
  · rw [hpush] at h
    exact absurd h (by simp)
  rw [hpush] at h
  simp only [Transducer.run] at h
  rcases hfinish : transducer.finish pipeline' with ⟨error | finished, pipeline''⟩
  · rw [hfinish] at h
    exact absurd h (by simp [Except.map])
  rw [hfinish] at h
  have hpush : pipeline.push upstream = (.ok pushed, pipeline') := hpush
  have hfinish : pipeline'.finish = (.ok finished, pipeline'') := hfinish
  have hresult : (RewriteProxy.responseBodyFilter (some upstream) true ctx).result =
      .ok (if (pushed ++ finished).isEmpty then none else some (pushed ++ finished)) := by
    rw [RewriteProxy.responseBodyFilter.eq_def]
    simp only [hsuppress, hrewriter, Bool.false_eq_true, if_false, if_true, Option.getD_some, hpush,
      hfinish]
  refine ⟨_, by rw [filterBody, hresult]; rfl, ?_⟩
  obtain rfl := Except.ok.inj h
  simp only [chunkBytes, List.map_cons, List.map_nil, List.flatten_singleton, getD_ite_isEmpty]

/-- **What the pipeline makes of a body is sent**, with the derived tag. -/
theorem Candidate.emits_of_run {proxy : RewriteProxy} {path : Str}
    {candidate : Candidate proxy path} (hcrates : proxy.crates.EncodesUrlSafe)
    (hhead : candidate.headOnly = false) {final : ResponseHeader}
    (htreatment : treatment proxy candidate.profile candidate.ctx final = .rewritten) {etag : Str}
    (hetag : proxy.derivedEtag final candidate.ctx = some etag)
    {pipeline : StreamingRewritePipeline} (hrewriter : candidate.ctx.rewriter = some pipeline)
    {upstream out : Bytes} (h : transducer.run pipeline [upstream] = .ok out) :
    candidate.Emits final upstream etag out := by
  have hdecision := candidate.decision
  rw [hhead] at hdecision
  obtain ⟨hready, -⟩ := candidate.admits.ready hdecision
  have htreats := responseFilter_treats hcrates hready final
  rw [htreatment] at htreats
  obtain ⟨⟨header, hheader, -⟩, hctx⟩ := htreats
  obtain ⟨body, hbody, hout⟩ := exists_filterBody_eq hrewriter hready.suppressBody h
  refine ⟨hhead, htreatment, [], some upstream, header, body, List.flatten_singleton,
    deliver_eq_ok_iff.2 ⟨_, rfl, hheader, ?_⟩, ?_, hout⟩
  · rw [hctx]
    exact hbody
  · rw [get_etag_of_responseFilter hcrates hdecision hready.requestId (Or.inl htreatment) hheader,
      hetag]
    rfl

/-- A response that is not modified is answered with the derived tag. -/
theorem Candidate.revives_of_treatment {proxy : RewriteProxy} {path : Str}
    {candidate : Candidate proxy path} (hcrates : proxy.crates.EncodesUrlSafe)
    (hhead : candidate.headOnly = false) {final : ResponseHeader}
    (htreatment : treatment proxy candidate.profile candidate.ctx final = .notModified) {etag : Str}
    (hetag : proxy.derivedEtag final candidate.ctx = some etag) : candidate.Revives final etag := by
  have hdecision := candidate.decision
  rw [hhead] at hdecision
  obtain ⟨hready, -⟩ := candidate.admits.ready hdecision
  have htreats := responseFilter_treats hcrates hready final
  rw [htreatment] at htreats
  obtain ⟨⟨header, hheader, -⟩, -⟩ := htreats
  refine ⟨htreatment, header, hheader, ?_⟩
  rw [get_etag_of_responseFilter hcrates hdecision hready.requestId (Or.inr htreatment) hheader,
    hetag]
  rfl

/-- The context of a request that is admitted at once. -/
def admittedCtx (proxy : RewriteProxy) (request : RequestHeader) (profile : RewriteProfile)
    (extension : Str) : RequestContext :=
  { proxy.rewriteCtx request (newCtx 0 0) extension with
    activePermit := true
    rewriter := some (ofStages
      (responseStages proxy.codec profile proxy.config.basePath extension)
      (responseStages_ne_nil _ _ _ _) proxy.config.maxDecodedBytes) }

/-- A request that finds a free permit is admitted. -/
theorem admits_admittedCtx {proxy : RewriteProxy} {request : RequestHeader}
    {profile : RewriteProfile} {extension : Str}
    (hdecision : proxy.policy.decide request.method request.path =
      .rewrite profile extension false) (hpermit : 0 < proxy.config.maxConcurrent.val) :
    Admits proxy request (admittedCtx proxy request profile extension) := by
  have hadmitted := proxy.requestFilter_admitted proxy.initialShared (newCtx 0 0) hdecision hpermit
  have hstart : proxy.startRewrite profile extension
      { proxy.rewriteCtx request (newCtx 0 0) extension with activePermit := true }
      [.acquireActive, .incActive] =
        { result := .ok false, ctx := admittedCtx proxy request profile extension,
          effects := [.acquireActive, .incActive] } := by
    rw [RewriteProxy.startRewrite, buildSelectedResponseRewriter_eq]
    rfl
  rw [hstart] at hadmitted
  exact .returned hadmitted rfl

/-- The request that is admitted at once, with its context. -/
def admittedCandidate {proxy : RewriteProxy} (request : RequestHeader) {profile : RewriteProfile}
    {extension : Str} (hdecision : proxy.policy.decide request.method request.path =
      .rewrite profile extension false) (hpermit : 0 < proxy.config.maxConcurrent.val) :
    Candidate proxy request.path where
  request := request
  ctx := admittedCtx proxy request profile extension
  profile := profile
  extension := extension
  headOnly := false
  path_eq := rfl
  admits := admits_admittedCtx hdecision hpermit
  decision := hdecision

/-- A configuration document with rule switches. -/
def document (rules : String) : Str :=
  str "client: \x7bbasePath: /regions/r1\x7d\nrewriteSidecar: \x7blisten: '0.0.0.0:8080', "
    ++ str "upstream: 'http://localhost:8000', rewrite: \x7benabledExtensions: ['*'], "
    ++ str "maxDecodedBytes: 1024, maxConcurrent: 1, maxQueued: 1, rules: \x7b"
    ++ str rules ++ str "\x7d\x7d\x7d\n"

/-- What the document contains. -/
def rawDocument (rules : List (UInt8 × Bool)) : RawConfig where
  basePath := str "/regions/r1/"
  listen := str "0.0.0.0:8080"
  adminListen := str "0.0.0.0:9090"
  upstream := str "http://localhost:8000"
  rewrite :=
    { enabledExtensions := [allExtensionsWildcard]
      disabledExtensions := []
      rules := rules
      maxDecodedBytes := regionsProxy.config.maxDecodedBytes
      maxConcurrent := regionsProxy.config.maxConcurrent
      maxQueued := regionsProxy.config.maxQueued }

/-- The parsers on two documents and on what they contain. -/
def documentParsers : ConfigParsers where
  yaml input :=
    if input = document "" then .ok (rawDocument [])
    else if input = document "3: false" then .ok (rawDocument [(3, false)])
    else .error []
  parseUrl value :=
    if value = str "http://localhost:8000" then
      some { scheme := str "http", username := [], password := none, query := none,
             fragment := none, path := str "/", hostStr := some (str "localhost"),
             port := some 8000 }
    else none
  socketAddr value :=
    if value = str "0.0.0.0:8080" then some { ip := .v4 0, port := 8080 }
    else if value = str "0.0.0.0:9090" then some { ip := .v4 0, port := 9090 }
    else none
  url := .unreserved

/-- The sidecar below `/regions/r1`, with another set of rules. -/
def switchedConfig (rules : Finset RewriteRule) : EffectiveConfig :=
  { regionsProxy.config with enabledRules := rules }

/-- A document with switches for rules is accepted with the rules that they leave. -/
theorem fromYaml_document {input : Str} {rules : List (UInt8 × Bool)}
    {enabledRules : Finset RewriteRule}
    (hyaml : documentParsers.yaml input = .ok (rawDocument rules))
    (hrules : rules.foldlM applyRuleSwitch RewriteRule.all.toFinset = .ok enabledRules) :
    EffectiveConfig.fromYaml documentParsers input = .ok (switchedConfig enabledRules) := by
  have haddresses : parseAddresses documentParsers (rawDocument []) =
      .ok ({ ip := .v4 0, port := 8080 }, { ip := .v4 0, port := 9090 },
        { ip := .v4 0x7F000001, port := 8000 }) := by decide +kernel
  simp only [EffectiveConfig.fromYaml, bind_eq_ok_iff]
  exact ⟨rawDocument rules, by rw [hyaml]; rfl, str "/regions/r1", normalizeBasePath_unreserved, _,
    haddresses, (), rfl, (), rfl, enabledRules, hrules, rfl⟩

/-- The path of the index of the `ys1000` frontend. -/
def indexPath : Str :=
  str "/regions/r1/jsbundles/ys1000-frontend/dist/ys1000-frontend/index.js"

/-- A request for the index. -/
def indexRequest (headers : HeaderMap) : RequestHeader where
  method := str "GET"
  path := indexPath
  headers := headers

theorem isHeaderByte_v1 : (bytes "\"v1\"").all isHeaderByte = true := by decide

/-- The script with a reliable tag. -/
def taggedScript : ResponseHeader where
  status := 200
  headers := scriptResponse.headers ++ [(str "etag", ⟨bytes "\"v1\"", isHeaderByte_v1⟩)]

/-- The sidecar with a set of rules. -/
def switchedProxy (rules : Finset RewriteRule) : RewriteProxy where
  config := switchedConfig rules
  codec := baseUriObject
  crates := .ofHash recordedBlake3

/-- All rules but the one for indices. -/
def rulesWithoutIndex : Finset RewriteRule :=
  RewriteRule.all.toFinset.erase .frontendIndexJsBundle

/-- The tag that every such sidecar derives. -/
def indexEtag : Str :=
  deriveEtag (.ofHash recordedBlake3) (bytes "\"v1\"") (str "/regions/r1") ys1000FrontendName

/-- The header fields of a client that holds the tag. -/
def holdingTag : HeaderMap :=
  [(str "if-none-match", ⟨indexEtag.asBytes, by decide +kernel⟩)]

/-- The request at a sidecar that decides on a profile for it. -/
def indexCandidate (headers : HeaderMap) (rules : Finset RewriteRule) (profile : RewriteProfile)
    (hdecision : (switchedProxy rules).policy.decide (str "GET") indexPath =
      .rewrite profile ys1000FrontendName false) :
    Candidate (switchedProxy rules) indexPath :=
  admittedCandidate (indexRequest headers) hdecision Nat.one_pos

/-- With all rules the index has a profile of its own. -/
theorem decide_indexRequest :
    (switchedProxy RewriteRule.all.toFinset).policy.decide (str "GET") indexPath =
      .rewrite .ys1000FrontendIndexJsBundle ys1000FrontendName false := by
  decide +kernel

/-- Without the rule for indices, the one for bundles is used. -/
theorem decide_indexRequest_withoutIndex :
    (switchedProxy rulesWithoutIndex).policy.decide (str "GET") indexPath =
      .rewrite .jsBundle ys1000FrontendName false := by
  decide +kernel

/-- The request at the sidecar with all rules. -/
def indexAtAll : Candidate (switchedProxy RewriteRule.all.toFinset) indexPath :=
  indexCandidate [] _ _ decide_indexRequest

/-- The request at the sidecar without the rule for indices. -/
def indexAtOthers (headers : HeaderMap) :
    Candidate (switchedProxy rulesWithoutIndex) indexPath :=
  indexCandidate headers _ _ decide_indexRequest_withoutIndex

/-- Without switches all rules are on. -/
theorem fromYaml_all : EffectiveConfig.fromYaml documentParsers (document "") =
    .ok (switchedConfig RewriteRule.all.toFinset) := by
  have hyaml : documentParsers.yaml (document "") = .ok (rawDocument []) := by
    simp only [documentParsers, if_true]
  exact fromYaml_document hyaml rfl

/-- The other document switches the rule for indices off. -/
theorem fromYaml_withoutIndex : EffectiveConfig.fromYaml documentParsers (document "3: false") =
    .ok (switchedConfig rulesWithoutIndex) := by
  have hne : document "3: false" ≠ document "" := by
    intro h
    exact absurd (congrArg List.length h) (by decide +kernel)
  have hyaml : documentParsers.yaml (document "3: false") = .ok (rawDocument [(3, false)]) := by
    simp only [documentParsers, if_neg hne, if_true]
  exact fromYaml_document hyaml (by decide +kernel)

/-- A bundle without a quoted root: both sidecars make the same of it. -/
theorem identifies_iff_bundle :
    ¬ Ambiguous baseUriObject (switchedConfig RewriteRule.all.toFinset)
      (switchedConfig rulesWithoutIndex) indexPath
      (bytes "`//$\x7bwindow.location.host\x7d/a`") := by
  have hcrates : (DigestCrates.ofHash recordedBlake3).EncodesUrlSafe :=
    DigestCrates.ofHash_encodesUrlSafe recordedBlake3
  have hemits : indexAtAll.Emits taggedScript
      (bytes "`//$\x7bwindow.location.host\x7d/a`") indexEtag
      (bytes "`//$\x7bwindow.location.host\x7d/regions/r1/a`") :=
    Candidate.emits_of_run hcrates rfl rfl rfl rfl (by decide +kernel)
  have hemits' : (indexAtOthers []).Emits taggedScript
      (bytes "`//$\x7bwindow.location.host\x7d/a`") indexEtag
      (bytes "`//$\x7bwindow.location.host\x7d/regions/r1/a`") :=
    Candidate.emits_of_run hcrates rfl rfl rfl rfl (by decide +kernel)
  exact ((identifies_iff baseUriObject_lawful baseUriObject_rejectsQuotes hcrates
    recordedBlake3_injective (DigestCrates.ofHash_injective recordedBlake3) fromYaml_all
    fromYaml_withoutIndex hemits _).1 hemits').1 rfl

/-- **An index with a quoted root is ambiguous**: two accepted configurations send different bodies
with one tag, and the second one sends a client that holds the tag back to the body of the first. -/
theorem not_identifies_index :
    EffectiveConfig.fromYaml documentParsers (document "") =
        .ok (switchedConfig RewriteRule.all.toFinset) ∧
      EffectiveConfig.fromYaml documentParsers (document "3: false") =
        .ok (switchedConfig rulesWithoutIndex) ∧
      indexAtAll.Emits taggedScript (bytes "'/proxy/ys1000/'") indexEtag
        (bytes "'/regions/r1/proxy/ys1000/'") ∧
      (indexAtOthers []).Emits taggedScript (bytes "'/proxy/ys1000/'") indexEtag
        (bytes "'/proxy/ys1000/'") ∧
      (indexAtOthers holdingTag).Revives taggedScript indexEtag ∧
      (indexAtOthers holdingTag).WouldEmit (bytes "'/proxy/ys1000/'")
        (bytes "'/proxy/ys1000/'") := by
  have hcrates : (DigestCrates.ofHash recordedBlake3).EncodesUrlSafe :=
    DigestCrates.ofHash_encodesUrlSafe recordedBlake3
  refine ⟨fromYaml_all, fromYaml_withoutIndex, ?_, ?_, ?_, ?_⟩
  · exact Candidate.emits_of_run hcrates rfl rfl rfl rfl (by decide +kernel)
  · exact Candidate.emits_of_run hcrates rfl rfl rfl rfl (by decide +kernel)
  · exact Candidate.revives_of_treatment hcrates rfl (by decide +kernel) rfl
  · have hrun : transducer.run (ofStages (responseStages baseUriObject .jsBundle (str "/regions/r1")
        ys1000FrontendName) (responseStages_ne_nil _ _ _ _) ⟨1024, by decide⟩)
          [bytes "'/proxy/ys1000/'"] = .ok (bytes "'/proxy/ys1000/'") := by decide +kernel
    exact ⟨_, _, _, buildSelectedResponseRewriter_eq .., List.flatten_singleton, hrun⟩

end KseRewriteProxy
