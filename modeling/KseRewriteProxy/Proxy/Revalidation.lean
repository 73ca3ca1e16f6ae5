import KseRewriteProxy.Processes.Validation
import KseRewriteProxy.Proxy.IfNoneMatch
import KseRewriteProxy.Proxy.Upstream

/-!
# Clients that revalidate

What the clients of a path see that keep rewritten bodies under their derived tags and revalidate
them, while the upstream publishes versions and the sidecar is replaced by others with other
configurations. The profile of the path is one whose requests are forwarded without conditions.

## The protocol

Every exchange goes through the hooks: `request_filter` reads the tags that the client names,
`upstream_request_filter` makes the request unconditional, and `response_filter` and
`response_body_filter` make the answer (`Asked.Answers`). `refines_validation` says that this is the
general protocol of `Processes.Validation`, of which `System.Reachable.view_sound` is the invariant:
a client sees a version that was current since it asked, up to what the tags do not tell apart.

What the tags do not tell apart are versions with the same upstream tag, and, since the rules of a
configuration are not part of a derived tag, the renderings of sidecars with different rules. The
latter make a difference only for a version on which two configurations are `Ambiguous`.

## Interim responses

The upstream may send interim responses before any answer (`Hints`). Before an answer that is not
rewritten, such as a 304, they change nothing. Before one that is, they drop the pipeline, and the
upstream body is sent and kept under the derived tag. `Hints.Unhinted` excludes exactly this, and
`views_current` is stated under it.
-/

namespace KseRewriteProxy

open Text Text.Utf8 Streaming Processes StreamingRewritePipeline

/-! ### Versions and sidecars -/

/-- A version of the upstream representation, as an unconditional request gets it. -/
structure Version where
  header : ResponseHeader
  body : Bytes
  status_ne : header.status ≠ 304

/-- The reliable tag of a version. -/
def Version.tag (version : Version) : Option Bytes :=
  (version.header.headers.get (str "etag")).bind reliableEtag

/-- The upstream does not tell the versions apart. -/
def Version.SameTag (version version' : Version) : Prop :=
  version = version' ∨ ∃ etag, version.tag = some etag ∧ version'.tag = some etag

/-- A path, the parsers and crates of the sidecars in front of it, and its upstream. -/
structure Site where
  path : Str
  parsers : ConfigParsers
  codec : MetadataCodec
  crates : DigestCrates
  uriCrate : UriCrate
  /-- What the upstream answers to a request while it has a version. -/
  respond : Version → UpstreamRequest → ResponseHeader × Bytes
  /-- A request for the path without conditions and ranges gets the version. -/
  respond_eq : ∀ version request, request.method = str "GET" → request.uri.path = path →
    (∀ name ∈ conditionalHeaders, request.values name = []) →
    respond version request = (version.header, version.body)

/-- What the sidecars rely on. -/
structure Site.Lawful (site : Site) : Prop where
  codec : site.codec.Lawful
  rejectsQuotes : site.codec.RejectsQuotes
  encodesUrlSafe : site.crates.EncodesUrlSafe
  blake3 : Function.Injective site.crates.blake3
  urlSafeNoPad : Function.Injective site.crates.urlSafeNoPad
  uriCrate : site.uriCrate.ReadsOriginForm

/-- A sidecar with an accepted configuration that rewrites the path, and asks for it without
conditions. -/
structure Sidecar (site : Site) where
  config : EffectiveConfig
  accepted : ∃ input, EffectiveConfig.fromYaml site.parsers input = .ok config
  profile : RewriteProfile
  extension : Str
  decision : config.rewritePolicy.decide (str "GET") site.path = .rewrite profile extension false
  unconditional : shouldForceUnconditionalFullResponse profile = true

namespace Sidecar

variable {site : Site} (sidecar : Sidecar site)

/-- The hooks of the sidecar. -/
def proxy : RewriteProxy :=
  ⟨sidecar.config, site.codec, site.crates⟩

theorem exists_normalizeBasePath_eq :
    ∃ value, normalizeBasePath site.parsers.url value = .ok sidecar.config.basePath := by
  obtain ⟨input, hinput⟩ := sidecar.accepted
  exact (EffectiveConfig.fromYaml_eq_ok hinput).1

theorem grammar : sidecar.config.policyConfig.root ≠ [] ∧
    sidecar.config.policyConfig.Grammar site.path sidecar.profile sidecar.extension :=
  PolicyConfig.grammar_of_decide sidecar.decision

theorem isBasePath : IsBasePath site.parsers.url sidecar.config.basePath := by
  refine ⟨sidecar.exists_normalizeBasePath_eq, fun hnil ↦ sidecar.grammar.1 ?_⟩
  show trimEndMatches (· == '/') sidecar.config.basePath = []
  rw [hnil]
  rfl

end Sidecar

/-- What sidecars make of versions: the derived tag, and the body that the stages of the profile
make one after the other. -/
def Site.rendering (site : Site) : Rendering (Sidecar site) Version Bytes Bytes where
  tag sidecar version := version.tag.map fun etag ↦
    (deriveEtag site.crates etag sidecar.config.basePath sidecar.extension).asBytes
  render sidecar version := applyAll
    (responseStages site.codec sidecar.profile sidecar.config.basePath sidecar.extension)
    version.body

section

variable {site : Site} {sidecar sidecar' : Sidecar site} {version version' : Version} {t : Bytes}

/-- The tags of a site are derived tags. -/
theorem exists_isDerived_of_tag (hlawful : site.Lawful)
    (h : site.rendering.tag sidecar version = some t) :
    ∃ etag, IsDerived etag ∧ t = etag.asBytes := by
  obtain ⟨etag, -, rfl⟩ := Option.map_eq_some_iff.1 h
  exact ⟨_, isDerived_deriveEtag hlawful.encodesUrlSafe _ _ _, rfl⟩

/-- **Equal derived tags come from equal upstream tags**, and equal renderings, unless the two
configurations are ambiguous on the body. -/
theorem sameTag_and_render_eq (hlawful : site.Lawful)
    (h : site.rendering.tag sidecar version = some t)
    (h' : site.rendering.tag sidecar' version' = some t)
    (hambiguous : ¬ Ambiguous site.codec sidecar.config sidecar'.config site.path version.body) :
    version.SameTag version' ∧
      site.rendering.render sidecar version = site.rendering.render sidecar' version := by
  obtain ⟨etag, hetag, rfl⟩ := Option.map_eq_some_iff.1 h
  obtain ⟨etag', hetag', htags⟩ := Option.map_eq_some_iff.1 h'
  obtain ⟨value, hvalue⟩ := sidecar.exists_normalizeBasePath_eq
  obtain ⟨value', hvalue'⟩ := sidecar'.exists_normalizeBasePath_eq
  obtain ⟨field, -, hreliable⟩ := Option.bind_eq_some_iff.1 hetag
  obtain ⟨field', -, hreliable'⟩ := Option.bind_eq_some_iff.1 hetag'
  have hdigest := hlawful.blake3 (hlawful.urlSafeNoPad
    (List.append_cancel_left (List.append_cancel_right (encode_injective htags))))
  obtain ⟨rfl, hbase, hextension⟩ :=
    eq_of_etagInput_eq hreliable' hreliable hvalue' hvalue hdigest
  refine ⟨Or.inr ⟨etag', hetag, hetag'⟩, ?_⟩
  have hgrammar := sidecar'.grammar.2
  rw [hextension] at hgrammar
  have hsame := (applyAll_eq_iff hlawful.codec hlawful.rejectsQuotes sidecar.isBasePath hbase
    sidecar.grammar.2 hgrammar version.body).2 hambiguous
  show applyAll _ _ = applyAll (responseStages site.codec sidecar'.profile
    sidecar'.config.basePath sidecar'.extension) version.body
  rw [hbase, hextension]
  exact hsame

end

/-! ### Treatments -/

section

variable {self : RewriteProxy} {profile : RewriteProfile} {ctx : RequestContext}
  {final : ResponseHeader}

/-- A response is not modified when its derived tag matches. -/
theorem exists_matches_of_treatment (h : treatment self profile ctx final = .notModified) :
    ∃ etag, self.derivedEtag final ctx = some etag ∧
      ifNoneMatchMatches ctx.clientIfNoneMatch etag = true := by
  rw [treatment] at h
  split at h
  · exact absurd h (by simp)
  split at h
  · split at h <;> exact absurd h (by simp)
  split at h
  · exact absurd h (by simp)
  split at h
  · exact (Option.any_eq_true _ _).1 (by assumption)
  · exact absurd h (by simp)

/-- A response with status 200 is handed on only where HTML is selected by its type. -/
theorem status_ne_of_treatment (hprofile : shouldForceUnconditionalFullResponse profile = true)
    (h : treatment self profile ctx final = .bypassed) : final.status ≠ 200 := by
  rw [shouldForceUnconditionalFullResponse, Bool.not_eq_true'] at hprofile
  rw [treatment, hprofile, if_neg Bool.false_ne_true] at h
  split at h
  · assumption
  split at h
  · exact absurd h (by simp)
  split at h
  · exact absurd h (by simp)
  split at h <;> exact absurd h (by simp)

end

/-! ### Exchanges -/

/-- A request of a client that a sidecar has admitted. Its `If-None-Match`, if it has one, lists
tags. -/
structure Asked (site : Site) where
  sidecar : Sidecar site
  request : UpstreamRequest
  listed : List ListedTag
  nanos : BitVec 128
  sequence : UInt64
  ctx : RequestContext
  method_eq : request.method = str "GET"
  path_eq : request.uri.path = site.path
  text_eq : ∀ value, request.headers.get (str "if-none-match") = some value →
    value.asBytes = (IfNoneMatch.list listed).text.asBytes
  passes : PassesAt sidecar.proxy request.header nanos sequence ctx

namespace Asked

variable {site : Site} (asked : Asked site)

/-- The tags that the client names. -/
def names : List Bytes :=
  asked.listed.map fun listed ↦ listed.tag.text.asBytes

/-- The sidecar forwards the request. -/
def Forwards (forwarded : UpstreamRequest) : Prop :=
  asked.sidecar.proxy.upstreamRequestFilter site.uriCrate asked.request asked.ctx = .ok forwarded

/-- The sidecar makes the header and the chunks of the answer, which comes behind interim
responses. -/
def Answers (version : Version) (forwarded : UpstreamRequest) (interims : List ResponseHeader)
    (header : ResponseHeader) (body : Bytes) : Prop :=
  (∀ response ∈ interims, response.IsInterim) ∧ ∃ chunks last output,
    (chunkBytes (chunks ++ [last])).flatten = (site.respond version forwarded).2 ∧
    deliver asked.sidecar.proxy interims (site.respond version forwarded).1 chunks last
      asked.ctx = .ok (header, output) ∧
    (chunkBytes output).flatten = body

/-- No interim response comes before the header of a rewritten body. Behind one, the header would
promise a body that the sidecar no longer makes. -/
def Unhinted (version : Version) (interims : List ResponseHeader) : Prop :=
  interims = [] ∨
    treatment asked.sidecar.proxy asked.sidecar.profile asked.ctx version.header ≠ .rewritten

theorem decision_eq :
    asked.ctx.decision = .rewrite asked.sidecar.profile asked.sidecar.extension false := by
  rw [asked.passes.read.2.1]
  show asked.sidecar.proxy.policy.decide asked.request.method asked.request.uri.path = _
  rw [asked.method_eq, asked.path_eq]
  exact asked.sidecar.decision

theorem derivedEtag_eq (version : Version) :
    (asked.sidecar.proxy.derivedEtag version.header asked.ctx).map Str.asBytes =
      site.rendering.tag asked.sidecar version := by
  rw [RewriteProxy.derivedEtag, (asked.passes.admits.facts asked.decision_eq).2.1, Option.map_map]
  rfl

/-- A derived tag that matches the field of the request is one of its tags. -/
theorem exists_listed_of_matches {etag : Str} (hetag : IsDerived etag)
    (hderived : ∀ listed ∈ asked.listed, IsDerived listed.tag.text)
    (h : ifNoneMatchMatches (asked.request.header.headers.get (str "if-none-match")) etag =
      true) : ∃ listed ∈ asked.listed, listed.tag.text = etag := by
  cases hfield : asked.request.headers.get (str "if-none-match") with
  | none =>
    rw [show asked.request.header.headers.get (str "if-none-match") = none from hfield] at h
    exact absurd h (by simp [ifNoneMatchMatches])
  | some value =>
    rw [show asked.request.header.headers.get (str "if-none-match") = some value from hfield] at h
    have htags : (IfNoneMatch.list asked.listed).tags = asked.listed.map ListedTag.tag := rfl
    rcases (ifNoneMatchMatches_eq_true_iff hetag _ (asked.text_eq value hfield)).1 h with
      (hany | ⟨tag, htag, htext⟩) | ⟨tag, htag, hstar⟩
    · exact absurd hany (by simp)
    · obtain ⟨listed, hlisted, rfl⟩ := List.mem_map.1 (htags ▸ htag)
      exact ⟨listed, hlisted, htext⟩
    · -- A derived tag has no comma, so no asterisk stands between two of them.
      obtain ⟨listed, hlisted, rfl⟩ := List.mem_map.1 (htags ▸ htag)
      have hcomma : ',' ∈ listed.tag.opaqueTag := hstar.subset (by decide)
      exact absurd (listed.tag.mem_comma_text_iff.2 hcomma) (hderived listed hlisted).not_mem_comma

variable {asked} {version : Version} {forwarded : UpstreamRequest}
  {interims : List ResponseHeader} {header : ResponseHeader} {body : Bytes}

/-- **The upstream answers in full**: no condition of the client reaches it. -/
theorem Forwards.respond_eq (hlawful : site.Lawful) (h : asked.Forwards forwarded)
    (version : Version) : site.respond version forwarded = (version.header, version.body) := by
  obtain ⟨value, hvalue⟩ := asked.sidecar.exists_normalizeBasePath_eq
  have hforwarded := forwarded_of_upstreamRequestFilter hlawful.uriCrate hvalue
    asked.passes.isRequestId.visible h
  have hscope : ¬ NeedsScope asked.sidecar.proxy.config.basePath asked.request.uri.path := by
    rw [asked.path_eq]
    exact not_needsScope_of_decide hvalue asked.sidecar.decision
  refine site.respond_eq version forwarded (hforwarded.method.trans asked.method_eq) ?_
    fun name hname ↦ ?_
  · rw [hforwarded.uri hscope, asked.path_eq]
  · have hne : name ≠ str "x-request-id" ∧ name ≠ str "accept-encoding" := by
      constructor
      · rintro rfl
        exact absurd hname (by decide)
      · rintro rfl
        exact absurd hname (by decide)
    rw [hforwarded.values name hne.1, asked.decision_eq, candidateValues, if_neg hne.2,
      if_pos ⟨asked.sidecar.unconditional, List.contains_iff_mem.2 hname⟩]

/-- A request for the path is always forwarded. -/
theorem exists_forwards (hlawful : site.Lawful) (asked : Asked site) :
    ∃ forwarded, asked.Forwards forwarded := by
  obtain ⟨value, hvalue⟩ := asked.sidecar.exists_normalizeBasePath_eq
  cases h : asked.sidecar.proxy.upstreamRequestFilter site.uriCrate asked.request asked.ctx with
  | ok forwarded => exact ⟨forwarded, h⟩
  | error error =>
    have hneeds := (refused_of_upstreamRequestFilter hlawful.uriCrate hvalue
      asked.passes.isRequestId.visible h).1
    rw [asked.path_eq] at hneeds
    exact absurd hneeds (not_needsScope_of_decide hvalue asked.sidecar.decision)

/-- What a header says about a version, the body that is sent agrees with. -/
theorem Answers.agrees (hlawful : site.Lawful) (hforward : asked.Forwards forwarded)
    (hunhinted : asked.Unhinted version interims)
    (h : asked.Answers version forwarded interims header body) :
    Agrees asked.sidecar.proxy asked.sidecar.profile asked.sidecar.extension asked.ctx
      version.header header version.body body := by
  obtain ⟨hinterims, chunks, last, output, hchunks, hdeliver, rfl⟩ := h
  rw [hforward.respond_eq hlawful] at hchunks hdeliver
  obtain ⟨hready, hpipeline⟩ := asked.passes.admits.ready asked.decision_eq
  have hagrees := agrees_of_deliver hlawful.encodesUrlSafe hready hpipeline hinterims hunhinted
    hdeliver
  rwa [hchunks] at hagrees

/-- The tag of an answer that is rewritten or not modified is the tag of the version. -/
theorem Answers.get_etag_eq (hlawful : site.Lawful) (hforward : asked.Forwards forwarded)
    (h : asked.Answers version forwarded interims header body)
    (htreatment : treatment asked.sidecar.proxy asked.sidecar.profile asked.ctx version.header =
        .rewritten ∨
      treatment asked.sidecar.proxy asked.sidecar.profile asked.ctx version.header =
        .notModified) :
    (header.headers.get (str "etag")).map HeaderValue.asBytes =
      site.rendering.tag asked.sidecar version := by
  obtain ⟨hinterims, chunks, last, output, -, hdeliver, -⟩ := h
  rw [hforward.respond_eq hlawful] at hdeliver
  obtain ⟨ctx', hctx', hheader, -⟩ := deliver_eq_ok_iff.1 hdeliver
  -- interim responses change nothing that the header depends on
  obtain ⟨ctx'', hctx'', hready, -, hextension, hclient, -⟩ := filterInterims_of_ready
    asked.sidecar.proxy hinterims (asked.passes.admits.ready asked.decision_eq).1
  obtain rfl := Except.ok.inj (hctx'.symm.trans hctx'')
  obtain ⟨hderived, hsame⟩ := treatment_congr asked.sidecar.proxy asked.sidecar.profile hextension
    hclient version.header
  rw [← hsame] at htreatment
  rw [get_etag_of_responseFilter hlawful.encodesUrlSafe hready.decision hready.requestId htreatment
    hheader, hderived, asked.derivedEtag_eq]

/-- **A full answer is the rendering of the version**, with its tag. -/
theorem Answers.full (hlawful : site.Lawful) (hforward : asked.Forwards forwarded)
    (hunhinted : asked.Unhinted version interims)
    (h : asked.Answers version forwarded interims header body) (hstatus : header.status = 200) :
    body = site.rendering.render asked.sidecar version ∧
      (header.headers.get (str "etag")).map HeaderValue.asBytes =
        site.rendering.tag asked.sidecar version := by
  have hagrees := h.agrees hlawful hforward hunhinted
  rw [Agrees] at hagrees
  cases htreatment : treatment asked.sidecar.proxy asked.sidecar.profile asked.ctx
      version.header with
  | rewritten =>
    rw [htreatment] at hagrees
    obtain ⟨-, pipeline, hbuild, hrun⟩ := hagrees
    refine ⟨?_, h.get_etag_eq hlawful hforward (Or.inl htreatment)⟩
    exact (Outputs.valid_and_applyAll
      ⟨_, pipeline, _, hbuild, List.flatten_singleton, hrun⟩).2.symm
  | bypassed =>
    rw [htreatment] at hagrees
    exact absurd ((ResponseHeader.status_of_insertHeader hagrees.1).symm.trans hstatus)
      (status_ne_of_treatment asked.sidecar.unconditional htreatment)
  | notModified =>
    rw [htreatment] at hagrees
    exact absurd (hagrees.1.symm.trans hstatus) (by decide)
  | refused =>
    rw [htreatment] at hagrees
    exact hagrees.elim

/-- **An answer that is not modified has a tag that the client named.** -/
theorem Answers.notModified (hlawful : site.Lawful)
    (hderived : ∀ listed ∈ asked.listed, IsDerived listed.tag.text)
    (hforward : asked.Forwards forwarded) (hunhinted : asked.Unhinted version interims)
    (h : asked.Answers version forwarded interims header body) (hstatus : header.status = 304) :
    ∃ t ∈ asked.names, site.rendering.tag asked.sidecar version = some t ∧
      (header.headers.get (str "etag")).map HeaderValue.asBytes = some t := by
  have hagrees := h.agrees hlawful hforward hunhinted
  rw [Agrees] at hagrees
  cases htreatment : treatment asked.sidecar.proxy asked.sidecar.profile asked.ctx
      version.header with
  | rewritten =>
    rw [htreatment] at hagrees
    exact absurd (hagrees.1.status.symm.trans hstatus) (by decide)
  | bypassed =>
    rw [htreatment] at hagrees
    exact absurd ((ResponseHeader.status_of_insertHeader hagrees.1).symm.trans hstatus)
      version.status_ne
  | refused =>
    rw [htreatment] at hagrees
    exact hagrees.elim
  | notModified =>
    have hetag := h.get_etag_eq hlawful hforward (Or.inr htreatment)
    obtain ⟨etag, hsome, hmatches⟩ := exists_matches_of_treatment htreatment
    have hetag' := asked.derivedEtag_eq version
    rw [hsome, Option.map_some] at hetag'
    obtain ⟨upstream, -, rfl⟩ := Option.map_eq_some_iff.1 hsome
    rw [asked.passes.read.2.2.1] at hmatches
    obtain ⟨tag, htag, htext⟩ := asked.exists_listed_of_matches
      (isDerived_deriveEtag hlawful.encodesUrlSafe _ _ _) hderived hmatches
    refine ⟨_, ?_, hetag'.symm, hetag.trans hetag'.symm⟩
    exact htext ▸ List.mem_map_of_mem htag

end Asked

/-! ### Browsers -/

/-- How far the exchange of a browser has come. -/
inductive Waiting (site : Site) where
  | idle
  | asked (asked : Asked site) (count : ℕ)
  /-- The upstream has got the forwarded request while it had the version. -/
  | fetched (asked : Asked site) (count : ℕ) (forwarded : UpstreamRequest)
    (forwards : asked.Forwards forwarded) (version : Version)

/-- A browser: bodies under the values of their tags, and all that it has shown. -/
structure Browser (site : Site) where
  cache : List (Bytes × Bytes)
  waiting : Waiting site
  views : List (View (Sidecar site) Version Bytes)

/-- The parties in front of a site. -/
inductive Visitor (site : Site) where
  | operator
  | browser (browser : Browser site)

/-- Which interim responses may come before the answer to a request, when the upstream has got it
while it had a version. -/
def Hints (site : Site) :=
  Asked site → Version → List ResponseHeader → Prop

/-- No answer with a rewritten body comes behind an interim response. -/
def Hints.Unhinted {site : Site} (hints : Hints site) : Prop :=
  ∀ asked version interims, hints asked version interims → asked.Unhinted version interims

section

variable {site : Site}

/-- One step of a browser. -/
inductive BrowserStep (hints : Hints site) (r : Resource (Sidecar site) Version) :
    Browser site → Browser site → Prop
  /-- It asks the sidecar, and names some of its tags. -/
  | ask {cache : List (Bytes × Bytes)} {views : List (View (Sidecar site) Version Bytes)}
    (asked : Asked site) (hserver : asked.sidecar = r.server)
    (hnames : ∀ t ∈ asked.names, t ∈ cache.map Prod.fst) :
    BrowserStep hints r ⟨cache, .idle, views⟩ ⟨cache, .asked asked r.past.length, views⟩
  /-- The sidecar forwards the request to the upstream. -/
  | fetch {cache : List (Bytes × Bytes)} {views : List (View (Sidecar site) Version Bytes)}
    {asked : Asked site} {count : ℕ} {forwarded : UpstreamRequest}
    (forwards : asked.Forwards forwarded) :
    BrowserStep hints r ⟨cache, .asked asked count, views⟩
      ⟨cache, .fetched asked count forwarded forwards r.current, views⟩
  /-- It shows a body, and may keep it under the tag of the header. -/
  | shows {cache cache' : List (Bytes × Bytes)} {views : List (View (Sidecar site) Version Bytes)}
    {asked : Asked site} {count : ℕ} {forwarded : UpstreamRequest}
    {forwards : asked.Forwards forwarded} {version : Version} {interims : List ResponseHeader}
    {header : ResponseHeader} {body : Bytes} (hhints : hints asked version interims)
    (hanswers : asked.Answers version forwarded interims header body)
    (hstatus : header.status = 200) (hcache : cache' = cache ∨
      ∃ etag, header.headers.get (str "etag") = some etag ∧
        cache' = (etag.asBytes, body) :: cache) :
    BrowserStep hints r ⟨cache, .fetched asked count forwarded forwards version, views⟩
      ⟨cache', .idle, ⟨asked.sidecar, count, version, some body⟩ :: views⟩
  /-- It shows what it keeps under the tag of the header. -/
  | showsStored {cache : List (Bytes × Bytes)} {views : List (View (Sidecar site) Version Bytes)}
    {asked : Asked site} {count : ℕ} {forwarded : UpstreamRequest}
    {forwards : asked.Forwards forwarded} {version : Version} {interims : List ResponseHeader}
    {header : ResponseHeader} {body : Bytes} (hhints : hints asked version interims)
    (hanswers : asked.Answers version forwarded interims header body)
    (hstatus : header.status = 304) :
    BrowserStep hints r ⟨cache, .fetched asked count forwarded forwards version, views⟩
      ⟨cache, .idle, ⟨asked.sidecar, count, version,
        (header.headers.get (str "etag")).bind fun etag ↦ stored cache etag.asBytes⟩ :: views⟩
  /-- The exchange ends in another way. -/
  | giveUp {cache : List (Bytes × Bytes)} {waiting : Waiting site}
    {views : List (View (Sidecar site) Version Bytes)} :
    BrowserStep hints r ⟨cache, waiting, views⟩ ⟨cache, .idle, views⟩
  | evict {cache cache' : List (Bytes × Bytes)}
    {views : List (View (Sidecar site) Version Bytes)} (hcache : cache' ⊆ cache) :
    BrowserStep hints r ⟨cache, .idle, views⟩ ⟨cache', .idle, views⟩

/-- One step of a party. -/
inductive VisitorStep (hints : Hints site) : Resource (Sidecar site) Version → Visitor site →
    Resource (Sidecar site) Version → Visitor site → Prop
  | deploy {r : Resource (Sidecar site) Version} (sidecar : Sidecar site) :
    VisitorStep hints r .operator (r.deploy sidecar) .operator
  | publish {r : Resource (Sidecar site) Version} (version : Version) :
    VisitorStep hints r .operator (r.publish version) .operator
  | browser {r : Resource (Sidecar site) Version} {b b' : Browser site}
    (h : BrowserStep hints r b b') : VisitorStep hints r (.browser b) r (.browser b')

/-- The browsers in front of a site, whose first sidecar and version are given. -/
def visits (hints : Hints site) (r : Resource (Sidecar site) Version) :
    System (Resource (Sidecar site) Version) (Visitor site) where
  init := r
  Start p := p = .operator ∨ p = .browser ⟨[], .idle, []⟩
  Step := VisitorStep hints

/-! ### The refinement -/

/-- The exchange, as far as the protocol is concerned. -/
def Waiting.exchange : Waiting site → Exchange (Sidecar site) Version Bytes
  | .idle => .idle
  | .asked request count => .asked request.sidecar request.names count
  | .fetched request count _ _ version => .fetched request.sidecar request.names count version

/-- The browser as a client. -/
def Browser.client (b : Browser site) : Client (Sidecar site) Version Bytes Bytes :=
  ⟨b.cache, b.waiting.exchange, b.views⟩

/-- The party as one of the protocol. -/
def Visitor.party : Visitor site → Party (Sidecar site) Version Bytes Bytes
  | .operator => .operator
  | .browser b => .client b.client

/-- The tags that the client has named are derived ones. -/
def Waiting.NamesDerived : Waiting site → Prop
  | .idle => True
  | .asked request _ => ∀ listed ∈ request.listed, IsDerived listed.tag.text
  | .fetched request _ _ _ _ => ∀ listed ∈ request.listed, IsDerived listed.tag.text

/-- All tags of a browser are derived ones. -/
structure Browser.HoldsDerived (b : Browser site) : Prop where
  cache : ∀ entry ∈ b.cache, ∃ etag, IsDerived etag ∧ entry.1 = etag.asBytes
  waiting : b.waiting.NamesDerived

/-- **A step of a browser is one of the protocol**, and all its tags stay derived ones. -/
theorem BrowserStep.clientStep (hlawful : site.Lawful) {hints : Hints site}
    (hunhinted : hints.Unhinted) {r : Resource (Sidecar site) Version}
    {b b' : Browser site} (hstep : BrowserStep hints r b b') (h : b.HoldsDerived) :
    b'.HoldsDerived ∧ ClientStep site.rendering r b.client b'.client := by
  cases hstep with
  | ask asked hserver hnames =>
    refine ⟨⟨h.cache, fun listed hlisted ↦ ?_⟩, ?_⟩
    · obtain ⟨entry, hentry, heq⟩ := List.mem_map.1 (hnames _ (List.mem_map_of_mem hlisted))
      obtain ⟨etag, hetag, htag⟩ := h.cache entry hentry
      rwa [encode_injective (heq.symm.trans htag)]
    · show ClientStep _ _ _ ⟨_, .asked asked.sidecar asked.names r.past.length, _⟩
      rw [hserver]
      exact .ask hnames
  | fetch forwards => exact ⟨⟨h.cache, h.waiting⟩, .fetch⟩
  | @shows cache cache' views asked count forwarded forwards version interims header body hhints
      hanswers hstatus hcache =>
    obtain ⟨rfl, hetag⟩ :=
      hanswers.full hlawful forwards (hunhinted asked version interims hhints) hstatus
    have hkept : cache' = cache ∨ ∃ t, site.rendering.tag asked.sidecar version = some t ∧
        cache' = (t, site.rendering.render asked.sidecar version) :: cache := by
      rcases hcache with rfl | ⟨etag, hsome, rfl⟩
      · exact Or.inl rfl
      · rw [hsome] at hetag
        exact Or.inr ⟨_, hetag.symm, rfl⟩
    refine ⟨⟨?_, trivial⟩, .full hkept⟩
    rcases hkept with rfl | ⟨t, htag, rfl⟩
    · exact h.cache
    · exact List.forall_mem_cons.2 ⟨exists_isDerived_of_tag hlawful htag, h.cache⟩
  | @showsStored cache views asked count forwarded forwards version interims header body hhints
      hanswers hstatus =>
    obtain ⟨t, hnamed, htag, hetag⟩ := hanswers.notModified hlawful h.waiting forwards
      (hunhinted asked version interims hhints) hstatus
    refine ⟨⟨h.cache, trivial⟩, ?_⟩
    obtain ⟨etag, hsome, rfl⟩ := Option.map_eq_some_iff.1 hetag
    rw [hsome]
    exact .notModified htag hnamed
  | giveUp => exact ⟨⟨h.cache, trivial⟩, .giveUp⟩
  | evict hcache =>
    exact ⟨⟨fun entry hentry ↦ h.cache entry (hcache hentry), trivial⟩, .evict hcache⟩

/-- What a party keeps by itself. -/
def Visitor.HoldsDerived (p : Visitor site) : Prop :=
  ∀ b, p = .browser b → b.HoldsDerived

theorem holdsDerived_of_start {hints : Hints site} {r : Resource (Sidecar site) Version}
    {p : Visitor site} (h : (visits hints r).Start p) : p.HoldsDerived := by
  rcases h with rfl | rfl
  · exact fun b hb ↦ absurd hb (by simp)
  · intro b hb
    obtain rfl := Visitor.browser.inj hb
    exact ⟨fun _ hmem ↦ absurd hmem List.not_mem_nil, trivial⟩

/-- A browser stores derived tags only, because a body is stored under the tag it came with. -/
theorem VisitorStep.holdsDerived (hlawful : site.Lawful) {hints : Hints site}
    (hunhinted : hints.Unhinted) {r r' : Resource (Sidecar site) Version}
    {p p' : Visitor site} (h : VisitorStep hints r p r' p') (hp : p.HoldsDerived) :
    p'.HoldsDerived := by
  cases h with
  | deploy => exact hp
  | publish => exact hp
  | browser hstep =>
    intro b hb
    obtain rfl := Visitor.browser.inj hb
    exact (hstep.clientStep hlawful hunhinted (hp _ rfl)).1

/-- **The browsers follow the protocol.** -/
theorem refines_validation (hlawful : site.Lawful) {hints : Hints site}
    (hunhinted : hints.Unhinted) (r : Resource (Sidecar site) Version) :
    Refines ((visits hints r).under Visitor.HoldsDerived) (validation site.rendering r) id
      (some ∘ Visitor.party) where
  init := rfl
  start h := by
    rintro q hq
    obtain rfl := Option.some.inj hq
    rcases h with rfl | rfl
    · exact Or.inl rfl
    · exact Or.inr rfl
  step h := by
    obtain ⟨hp, hstep⟩ := h
    refine Or.inr ⟨_, _, rfl, rfl, ?_⟩
    cases hstep with
    | deploy sidecar => exact .deploy sidecar
    | publish version => exact .publish version
    | browser hbrowser => exact .client (hbrowser.clientStep hlawful hunhinted (hp _ rfl)).2

/-- **What the clients of a site see**: every view shows a body, and it is what the sidecar that
was asked makes of a version that the upstream does not tell apart from one that was current since
the client asked. So neither a publication nor another configuration revives a body that the sidecar
would not make, unless two configurations are ambiguous on a version, or an interim response has
come before the header of a rewritten body. -/
theorem views_current (hlawful : site.Lawful) {hints : Hints site} (hunhinted : hints.Unhinted)
    {r : Resource (Sidecar site) Version}
    {state : State (Resource (Sidecar site) Version) (Visitor site)}
    (h : (visits hints r).Reachable state)
    (hambiguous : ∀ sidecar ∈ state.shared.deployed, ∀ sidecar' ∈ state.shared.deployed,
      ∀ version ∈ state.shared.published,
        ¬ Ambiguous site.codec sidecar.config sidecar'.config site.path version.body)
    {b : Browser site} (hb : .browser b ∈ state.processes) :
    ∀ view ∈ b.views, view.server ∈ state.shared.deployed ∧
      view.version ∈ state.shared.since view.count ∧
      ∃ version ∈ state.shared.published, version.SameTag view.version ∧
        view.shown = some (site.rendering.render view.server version) := by
  have hunder := h.under (P := Visitor.HoldsDerived) (fun _ hp ↦ holdsDerived_of_start hp)
    fun _ _ _ _ hp hstep ↦ VisitorStep.holdsDerived hlawful hunhinted hstep hp
  have hclients := (refines_validation hlawful hunhinted r).reachable hunder
  have hclient : .client b.client ∈ state.processes.filterMap (some ∘ Visitor.party) :=
    List.mem_filterMap.2 ⟨_, hb, rfl⟩
  intro view hview
  obtain ⟨hserver, hversion, body, hshown, hbody⟩ := hclients.view_sound hclient view hview
  refine ⟨hserver, hversion, ?_⟩
  rcases hbody with rfl | ⟨server', hserver', version', hversion', t, htag', htag, rfl⟩
  · exact ⟨view.version, state.shared.since_subset _ hversion, Or.inl rfl, hshown⟩
  · obtain ⟨hsame, hrender⟩ := sameTag_and_render_eq hlawful htag' htag
      (hambiguous server' hserver' view.server hserver version' hversion')
    exact ⟨version', hversion', hsame, hshown.trans (congrArg some hrender)⟩

end

/-! ### A browser in front of one sidecar -/

/-- One configuration is not ambiguous. -/
theorem not_ambiguous_self (codec : MetadataCodec) (config : EffectiveConfig) (path : Str)
    (body : Bytes) : ¬ Ambiguous codec config config path body := by
  rintro (⟨hne, -⟩ | ⟨hne, -⟩)
  · exact hne Iff.rfl
  · exact hne Iff.rfl

/-- A request that is admitted at once passes. -/
theorem passesAt_admittedCtx {proxy : RewriteProxy} {request : RequestHeader}
    {profile : RewriteProfile} {extension : Str}
    (hdecision : proxy.policy.decide request.method request.path =
      .rewrite profile extension false) (hpermit : 0 < proxy.config.maxConcurrent.val) :
    PassesAt proxy request 0 0 (admittedCtx proxy request profile extension) := by
  have hadmitted := proxy.requestFilter_admitted proxy.initialShared (newCtx 0 0) hdecision hpermit
  have hstart : proxy.startRewrite profile extension
      { proxy.rewriteCtx request (newCtx 0 0) extension with activePermit := true }
      [.acquireActive, .incActive] =
        { result := .ok false, ctx := admittedCtx proxy request profile extension,
          effects := [.acquireActive, .incActive] } := by
    rw [RewriteProxy.startRewrite, buildSelectedResponseRewriter_eq]
    rfl
  rw [hstart] at hadmitted
  have hzero : newCtx (0 : BitVec 128).toNat (0 : UInt64).toNat = newCtx 0 0 := rfl
  rw [← hzero] at hadmitted
  exact .returned hadmitted rfl

/-- The index of the `ys1000` frontend, with an upstream that ignores conditions. -/
def indexSite : Site where
  path := indexPath
  parsers := documentParsers
  codec := baseUriObject
  crates := .ofHash recordedBlake3
  uriCrate := .originForm
  respond version _ := (version.header, version.body)
  respond_eq _ _ _ _ _ := rfl

/-- The site is made of crates that keep what they document. -/
theorem indexSite_lawful : indexSite.Lawful where
  codec := baseUriObject_lawful
  rejectsQuotes := baseUriObject_rejectsQuotes
  encodesUrlSafe := DigestCrates.ofHash_encodesUrlSafe recordedBlake3
  blake3 := recordedBlake3_injective
  urlSafeNoPad := DigestCrates.ofHash_injective recordedBlake3
  uriCrate := UriCrate.originForm_readsOriginForm

/-- The sidecar with all rules. -/
def indexSidecar : Sidecar indexSite where
  config := switchedConfig RewriteRule.all.toFinset
  accepted := ⟨_, fromYaml_all⟩
  profile := .ys1000FrontendIndexJsBundle
  extension := ys1000FrontendName
  decision := decide_indexRequest
  unconditional := rfl

/-- An index with a quoted root. -/
def indexVersion : Version where
  header := taggedScript
  body := bytes "'/proxy/ys1000/'"
  status_ne := by decide

theorem all_isOws_nil : ([] : Str).all isOws = true :=
  rfl

theorem all_isTagChar_indexEtag : ((indexEtag.drop 3).dropLast).all isTagChar = true := by
  decide +kernel

/-- The derived tag of the index. -/
def indexTag : ListedTag where
  before := []
  tag :=
    { weak := true
      opaqueTag := (indexEtag.drop 3).dropLast
      all_isTagChar := all_isTagChar_indexEtag }
  after := []
  all_before := all_isOws_nil
  all_after := all_isOws_nil

/-- A request for the index that is admitted at once. -/
def indexAsked (headers : HeaderMap) (listed : List ListedTag)
    (htext : ∀ value, HeaderMap.get headers (str "if-none-match") = some value →
      value.asBytes = (IfNoneMatch.list listed).text.asBytes) : Asked indexSite where
  sidecar := indexSidecar
  request :=
    { method := str "GET"
      uri :=
        { origin := []
          path := indexPath
          query := none
          path_form := Or.inr (Or.inr (by decide))
          mark_not_mem := by decide
          fragment_not_mem := by decide }
      headers := headers }
  listed := listed
  nanos := 0
  sequence := 0
  ctx := admittedCtx indexSidecar.proxy (indexRequest headers) .ys1000FrontendIndexJsBundle
    ys1000FrontendName
  method_eq := rfl
  path_eq := rfl
  text_eq := htext
  passes := passesAt_admittedCtx decide_indexRequest Nat.one_pos

/-- The first request of the browser. -/
def firstAsked : Asked indexSite :=
  indexAsked [] [] fun _ h ↦ absurd h (by simp [HeaderMap.get, HeaderMap.getAll])

/-- The second request names the derived tag. -/
theorem text_eq_holdingTag (value : HeaderValue)
    (h : HeaderMap.get holdingTag (str "if-none-match") = some value) :
    value.asBytes = (IfNoneMatch.list [indexTag]).text.asBytes := by
  have hbytes : (HeaderMap.get holdingTag (str "if-none-match")).map HeaderValue.asBytes =
      some indexEtag.asBytes := rfl
  rw [h] at hbytes
  rw [Option.some.inj hbytes]
  decide +kernel

/-- The second one, which names the tag of the first answer. -/
def secondAsked : Asked indexSite :=
  indexAsked holdingTag [indexTag] text_eq_holdingTag

/-- The first answer is the rewritten index. -/
theorem exists_answers_firstAsked {forwarded : UpstreamRequest}
    (hforward : firstAsked.Forwards forwarded) :
    ∃ header etag, firstAsked.Answers indexVersion forwarded [] header
        (bytes "'/regions/r1/proxy/ys1000/'") ∧
      header.status = 200 ∧ header.headers.get (str "etag") = some etag ∧
      etag.asBytes = indexEtag.asBytes := by
  have hemits : indexAtAll.Emits taggedScript (bytes "'/proxy/ys1000/'") indexEtag
      (bytes "'/regions/r1/proxy/ys1000/'") :=
    Candidate.emits_of_run indexSite_lawful.encodesUrlSafe rfl rfl rfl rfl (by decide +kernel)
  obtain ⟨-, htreatment, chunks, last, header, body, hchunks, hdeliver, hetag, hbody⟩ := hemits
  have hanswers : firstAsked.Answers indexVersion forwarded [] header
      (bytes "'/regions/r1/proxy/ys1000/'") :=
    ⟨fun _ hmem ↦ absurd hmem List.not_mem_nil, chunks, last, body, hchunks, hdeliver, hbody⟩
  have hagrees := hanswers.agrees indexSite_lawful hforward (Or.inl rfl)
  have htreatment' : treatment firstAsked.sidecar.proxy firstAsked.sidecar.profile firstAsked.ctx
      indexVersion.header = .rewritten := htreatment
  rw [Agrees, htreatment'] at hagrees
  obtain ⟨etag, hsome, hbytes⟩ := Option.map_eq_some_iff.1 hetag
  exact ⟨header, etag, hanswers, hagrees.1.status, hsome, hbytes⟩

/-- The second response is not modified. -/
theorem treatment_secondAsked : treatment secondAsked.sidecar.proxy secondAsked.sidecar.profile
    secondAsked.ctx indexVersion.header = .notModified := by
  decide +kernel

theorem isInterim_of_mem_earlyHints : ∀ response ∈ [earlyHints], response.IsInterim := by
  intro response hresponse
  rw [List.mem_singleton.1 hresponse]
  exact ⟨by decide, by decide⟩

/-- The second answer comes behind early hints and is not modified. -/
theorem exists_answers_secondAsked (forwarded : UpstreamRequest) :
    ∃ header body, secondAsked.Answers indexVersion forwarded [earlyHints] header body ∧
      header.status = 304 := by
  have hcrates : secondAsked.sidecar.proxy.crates.EncodesUrlSafe := indexSite_lawful.encodesUrlSafe
  obtain ⟨ctx, hctx, hready, -, hextension, hclient, -⟩ := filterInterims_of_ready
    secondAsked.sidecar.proxy isInterim_of_mem_earlyHints
    (secondAsked.passes.admits.ready secondAsked.decision_eq).1
  have htreats := responseFilter_treats hcrates hready indexVersion.header
  rw [(treatment_congr secondAsked.sidecar.proxy secondAsked.sidecar.profile hextension hclient
    indexVersion.header).2, treatment_secondAsked] at htreats
  obtain ⟨⟨header, hheader, hstatus⟩, hsuppress⟩ := htreats
  obtain ⟨body, hbody, -⟩ := filterBody_of_suppressBody hsuppress [] (some indexVersion.body)
  exact ⟨header, _, ⟨isInterim_of_mem_earlyHints, [], some indexVersion.body, body,
    List.flatten_singleton, deliver_eq_ok_iff.2 ⟨ctx, hctx, hheader, hbody⟩, rfl⟩, hstatus⟩

/-- All interim responses but those before the header of a rewritten body. -/
def unhinted (site : Site) : Hints site :=
  Asked.Unhinted

/-- A browser that asks twice sees the rewritten index twice, the second time from its cache. -/
theorem views_current_index : ∃ state browser,
    (visits (unhinted indexSite) ⟨[], indexSidecar, [], indexVersion⟩).Reachable state ∧
      .browser browser ∈ state.processes ∧ browser.views.length = 2 ∧
      ∀ view ∈ browser.views, view.shown = some (bytes "'/regions/r1/proxy/ys1000/'") := by
  obtain ⟨forwarded, hforward⟩ := firstAsked.exists_forwards indexSite_lawful
  obtain ⟨forwarded', hforward'⟩ := secondAsked.exists_forwards indexSite_lawful
  obtain ⟨header, etag, hanswers, hstatus, hetag, hbytes⟩ := exists_answers_firstAsked hforward
  obtain ⟨header', body', hanswers', hstatus'⟩ := exists_answers_secondAsked forwarded'
  have hhints : firstAsked.Unhinted indexVersion [] := Or.inl rfl
  have hhints' : secondAsked.Unhinted indexVersion [earlyHints] := by
    refine Or.inr ?_
    rw [treatment_secondAsked]
    simp
  have hnames : ∀ t ∈ secondAsked.names,
      t ∈ [(etag.asBytes, bytes "'/regions/r1/proxy/ys1000/'")].map Prod.fst := by
    rw [hbytes]
    decide +kernel
  -- one browser takes all steps
  have hstart := System.Reachable.init
    (S := visits (unhinted indexSite) ⟨[], indexSidecar, [], indexVersion⟩)
  have hrun : ∀ {b b' : Browser indexSite},
      BrowserStep (unhinted indexSite) ⟨[], indexSidecar, [], indexVersion⟩ b b' →
      (visits (unhinted indexSite) ⟨[], indexSidecar, [], indexVersion⟩).Reachable
        ⟨⟨[], indexSidecar, [], indexVersion⟩, [.browser b]⟩ →
      (visits (unhinted indexSite) ⟨[], indexSidecar, [], indexVersion⟩).Reachable
        ⟨⟨[], indexSidecar, [], indexVersion⟩, [.browser b']⟩ := fun hstep hreach ↦
    System.Reachable.run [] [] hreach (.browser hstep)
  have hreach := hrun (.showsStored hhints' hanswers' hstatus') (hrun (.fetch hforward')
    (hrun (.ask secondAsked rfl hnames)
      (hrun (.shows hhints hanswers hstatus (Or.inr ⟨etag, hetag, rfl⟩))
      (hrun (.fetch hforward) (hrun (.ask firstAsked rfl (fun t h ↦ absurd h List.not_mem_nil))
        (hstart.arrive (Or.inr rfl)))))))
  refine ⟨_, _, hreach, List.mem_singleton_self _, rfl, fun view hview ↦ ?_⟩
  obtain ⟨hserver, -, version, hversion, -, hshown⟩ := views_current indexSite_lawful
    (fun _ _ _ hunhinted ↦ hunhinted) hreach
    (fun sidecar hsidecar sidecar' hsidecar' version _ ↦ by
      rw [List.mem_singleton.1 hsidecar, List.mem_singleton.1 hsidecar']
      exact not_ambiguous_self _ _ _ _) (List.mem_singleton_self _) view hview
  have hrender : indexSite.rendering.render indexSidecar indexVersion =
      bytes "'/regions/r1/proxy/ys1000/'" := by decide +kernel
  rw [List.mem_singleton.1 hserver, List.mem_singleton.1 hversion] at hshown
  exact hshown.trans (congrArg some hrender)

end KseRewriteProxy
