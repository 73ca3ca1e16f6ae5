import KseRewriteProxy.Proxy.Downstream
import KseRewriteProxy.Proxy.Identification

/-!
# Requests to the upstream

`upstream_request_filter` of `proxy.rs`: what of a request reaches the upstream. An API request
that lacks the base path gets it, a candidate for a rewrite asks for an identity encoding, and one
that is to be rewritten whatever the response is carries no condition and no range.

## URIs

Parsing a URI is the parameter `UriCrate`, of which `ReadsOriginForm` is what the hook relies on: an
origin form is read as its path and query, or refused. A `Uri` is one that Pingora has built from a
request line, so its path is empty, an asterisk, or absolute (`Uri.path_form`). An absolute path
behind an accepted base path is an origin form again, which is why the hook never reads back
something else than it has written.

## What is forwarded

`Forwarded` is the abstract statement of what the upstream sees, header by header, and
`upstreamRequestFilter_cases` connects it to the hook: the request is forwarded so, or the URI with
the base path is refused. For a candidate the second cannot happen
(`upstreamRequestFilter_of_candidate`): the policy has found its path below the base path, so it
keeps its URI.

## Requests that pass

`PassesAt` are the contexts with which a request leaves `request_filter` towards the upstream, at
once or behind the queue. Such a context has a request id that is visible and short, its own or the
one of the client, and a pipeline only if the request is rewritten.
-/

namespace KseRewriteProxy

open Text

/-! ### URIs -/

/-- `http::Uri`, as Pingora builds it from a request line. -/
structure Uri where
  /-- The scheme and the authority, which an origin form does not have. -/
  origin : Str
  path : Str
  query : Option Str
  /-- A path is empty in an authority form, `*` in an asterisk form, and else absolute. -/
  path_form : path = [] ∨ path = str "*" ∨ str "/" <+: path
  mark_not_mem : '?' ∉ path
  fragment_not_mem : '#' ∉ path ∧ ∀ q ∈ query, '#' ∉ q

/-- A path with its query. -/
def withQuery (path : Str) (query : Option Str) : Str :=
  path ++ query.elim [] ('?' :: ·)

/-- `path_and_query`, and the path where there is none. -/
def Uri.pathAndQuery (self : Uri) : Str :=
  withQuery self.path self.query

/-- `InvalidUri`. -/
structure InvalidUri where
  message : Str

/-- `Uri::from_str`. -/
structure UriCrate where
  parse : Str → Except InvalidUri Uri

/-- A text with the form of an absolute path, maybe with a query. -/
def IsOriginForm (text : Str) : Prop :=
  str "/" <+: text ∧ '#' ∉ text

instance (text : Str) : Decidable (IsOriginForm text) :=
  inferInstanceAs (Decidable (_ ∧ _))

/-- An origin form is parsed into its path and its query. -/
def UriCrate.ReadsOriginForm (crate : UriCrate) : Prop :=
  ∀ text uri, IsOriginForm text → crate.parse text = .ok uri →
    uri.origin = [] ∧ uri.pathAndQuery = text

/-- The first question mark ends the path. -/
theorem withQuery_inj {path path' : Str} {query query' : Option Str} (hpath : '?' ∉ path)
    (hpath' : '?' ∉ path') (h : withQuery path query = withQuery path' query') :
    path = path' ∧ query = query' := by
  rw [withQuery, withQuery] at h
  cases query with
  | none =>
    cases query' with
    | none => exact ⟨List.append_cancel_right h, rfl⟩
    | some q' =>
      have hmem : '?' ∈ path' ++ '?' :: q' := List.mem_append_right _ List.mem_cons_self
      rw [← show path ++ [] = path' ++ '?' :: q' from h, List.append_nil] at hmem
      exact absurd hmem hpath
  | some q =>
    cases query' with
    | none =>
      have hmem : '?' ∈ path ++ '?' :: q := List.mem_append_right _ List.mem_cons_self
      rw [show path ++ '?' :: q = path' ++ [] from h, List.append_nil] at hmem
      exact absurd hmem hpath'
    | some q' =>
      obtain ⟨hpaths, hqueries⟩ := append_cons_inj hpath hpath' h
      exact ⟨hpaths, congrArg some hqueries⟩

/-! ### The hook -/

/-- `RequestHeader`, with the whole URI. -/
structure UpstreamRequest where
  method : Str
  uri : Uri
  headers : HeaderMap

/-- The errors of `upstream_request_filter`. -/
inductive UpstreamError where
  /-- `ErrorType::InternalError`, with the cause. -/
  | internalError (context : Str) (cause : InvalidUri)
  /-- A header value that is refused. -/
  | invalidHttpHeader

namespace UpstreamRequest

/-- What `request_filter` reads of the request. -/
def header (self : UpstreamRequest) : RequestHeader where
  method := self.method
  path := self.uri.path
  headers := self.headers

/-- `RequestHeader::insert_header`. -/
def insertHeader (self : UpstreamRequest) (name : Str) (value : Bytes) :
    Except UpstreamError UpstreamRequest :=
  match HeaderValue.fromBytes value with
  | some value => .ok { self with headers := HeaderMap.insert self.headers name value }
  | none => .error .invalidHttpHeader

/-- `RequestHeader::remove_header`. -/
def removeHeader (self : UpstreamRequest) (name : Str) : UpstreamRequest :=
  { self with headers := HeaderMap.remove self.headers name }

/-- `RequestHeader::set_uri`. -/
def setUri (self : UpstreamRequest) (uri : Uri) : UpstreamRequest :=
  { self with uri := uri }

/-- The values of the headers. -/
def values (self : UpstreamRequest) (name : Str) : List Bytes :=
  (self.headers.getAll name).map HeaderValue.asBytes

/-- An accepted value becomes the only one of its header. -/
theorem exists_insertHeader_eq (self : UpstreamRequest) (name : Str) {value : Bytes}
    (h : value.all isHeaderByte = true) :
    ∃ inserted, self.insertHeader name value = .ok inserted ∧
      inserted.method = self.method ∧ inserted.uri = self.uri ∧
      ∀ other, inserted.values other = if other = name then [value] else self.values other := by
  refine ⟨{ self with headers := HeaderMap.insert self.headers name ⟨value, h⟩ }, ?_, rfl, rfl,
    fun other ↦ ?_⟩
  · rw [insertHeader, HeaderValue.fromBytes, dif_pos h]
  · show (HeaderMap.getAll (HeaderMap.insert _ _ _) other).map _ = _
    split
    · rename_i heq
      rw [heq, HeaderMap.getAll_insert_self]
      rfl
    · rename_i hne
      rw [HeaderMap.getAll_insert_of_ne _ hne]
      rfl

theorem foldl_removeHeader (names : List Str) (self : UpstreamRequest) :
    (names.foldl removeHeader self).method = self.method ∧
      (names.foldl removeHeader self).uri = self.uri ∧
      ∀ name, (names.foldl removeHeader self).values name =
        if name ∈ names then [] else self.values name := by
  induction names generalizing self with
  | nil => exact ⟨rfl, rfl, fun name ↦ (if_neg List.not_mem_nil).symm⟩
  | cons first names ih =>
    obtain ⟨hmethod, huri, hvalues⟩ := ih (self.removeHeader first)
    refine ⟨hmethod, huri, fun name ↦ ?_⟩
    rw [List.foldl_cons, hvalues name]
    by_cases hname : name ∈ names
    · rw [if_pos hname, if_pos (List.mem_cons_of_mem _ hname)]
    · rw [if_neg hname]
      show (HeaderMap.getAll (HeaderMap.remove _ _) name).map _ = _
      rcases eq_or_ne name first with rfl | hfirst
      · rw [if_pos List.mem_cons_self, HeaderMap.getAll_remove_self]
        rfl
      · rw [if_neg (List.not_mem_cons_of_ne_of_not_mem hfirst hname),
          HeaderMap.getAll_remove_of_ne _ hfirst]
        rfl

end UpstreamRequest

/-- `API_PATH_MARKERS`. -/
def apiPathMarkers : List Str :=
  [str "/api/", str "/apis/", str "/kapi/", str "/kapis/"]

/-- `already_scoped` of `api_uri_with_base_path`. -/
def alreadyScoped (path basePath : Str) : Bool :=
  path == basePath
    || (stripPrefix basePath path).any fun suffix ↦ (str "/").isPrefixOf suffix

/-- `api_uri_with_base_path`. -/
def apiUriWithBasePath (crate : UriCrate) (uri : Uri) (basePath : Str) :
    Except InvalidUri (Option Uri) :=
  if basePath.isEmpty || alreadyScoped uri.path basePath
      || !apiPathMarkers.any fun marker ↦ (find marker uri.path).isSome then
    .ok none
  else (crate.parse (basePath ++ uri.pathAndQuery)).map some

/-- The headers that make a request conditional or partial. -/
def conditionalHeaders : List Str :=
  [str "if-none-match", str "if-modified-since", str "range", str "if-range"]

/-- The context of an error of `upstream_request_filter`. -/
def prefixFailed (cause : InvalidUri) : UpstreamError :=
  .internalError (str "failed to prefix API request base path") cause

/-- The end of `upstream_request_filter`: the headers of a candidate for a rewrite. -/
def candidateHeaders (decision : RewriteDecision) (request : UpstreamRequest) :
    Except UpstreamError UpstreamRequest :=
  match decision with
  | .bypass => .ok request
  | .rewrite profile _ _ => do
    let request ← request.insertHeader (str "accept-encoding") (bytes "identity")
    return if shouldForceUnconditionalFullResponse profile then
      conditionalHeaders.foldl UpstreamRequest.removeHeader request
    else request

/-- `upstream_request_filter`. -/
def RewriteProxy.upstreamRequestFilter (self : RewriteProxy) (crate : UriCrate)
    (upstreamRequest : UpstreamRequest) (ctx : RequestContext) :
    Except UpstreamError UpstreamRequest := do
  let request ← upstreamRequest.insertHeader (str "x-request-id") ctx.requestId.asBytes
  let uri ← (apiUriWithBasePath crate request.uri self.config.basePath).mapError prefixFailed
  candidateHeaders ctx.decision (uri.elim request request.setUri)

/-! ### What the upstream sees -/

/-- An API path outside of the base path. -/
def NeedsScope (basePath path : Str) : Prop :=
  basePath ≠ [] ∧ path ≠ basePath ∧ ¬ basePath ++ str "/" <+: path ∧
    ∃ marker ∈ apiPathMarkers, marker <:+: path

instance (basePath path : Str) : Decidable (NeedsScope basePath path) :=
  inferInstanceAs (Decidable (_ ∧ _ ∧ _ ∧ _))

/-- The path under which the upstream gets a request. -/
def scopedPath (basePath path : Str) : Str :=
  if NeedsScope basePath path then basePath ++ path else path

/-- The values of a header that a candidate for a rewrite is forwarded with. -/
def candidateValues (decision : RewriteDecision) (name : Str) (values : List Bytes) : List Bytes :=
  match decision with
  | .bypass => values
  | .rewrite profile _ _ =>
    if name = str "accept-encoding" then [bytes "identity"]
    else if shouldForceUnconditionalFullResponse profile ∧ conditionalHeaders.contains name then []
    else values

/-- What the upstream gets for a request. -/
structure Forwarded (basePath : Str) (ctx : RequestContext) (request forwarded : UpstreamRequest) :
    Prop where
  method : forwarded.method = request.method
  /-- Only a path that needs the base path is changed. -/
  uri : ¬ NeedsScope basePath request.uri.path → forwarded.uri = request.uri
  path : forwarded.uri.path = scopedPath basePath request.uri.path
  query : forwarded.uri.query = request.uri.query
  requestId : forwarded.values (str "x-request-id") = [ctx.requestId.asBytes]
  values : ∀ name ≠ str "x-request-id",
    forwarded.values name = candidateValues ctx.decision name (request.values name)

/-- A path is scoped if it is the base path or below it. -/
theorem alreadyScoped_eq_true_iff {path basePath : Str} :
    alreadyScoped path basePath = true ↔ path = basePath ∨ basePath ++ str "/" <+: path := by
  rw [alreadyScoped, Bool.or_eq_true, beq_iff_eq, Option.any_eq_true]
  refine or_congr_right ⟨?_, ?_⟩
  · rintro ⟨suffix, hsuffix, hslash⟩
    obtain rfl := stripPrefix_eq_some_iff.1 hsuffix
    obtain ⟨t, rfl⟩ := List.isPrefixOf_iff_prefix.1 hslash
    exact ⟨t, List.append_assoc _ _ _⟩
  · rintro ⟨t, rfl⟩
    refine ⟨str "/" ++ t, ?_, List.isPrefixOf_iff_prefix.2 (List.prefix_append _ _)⟩
    rw [List.append_assoc]
    exact stripPrefix_append _ _

theorem needsScope_iff {basePath path : Str} : NeedsScope basePath path ↔
    (basePath.isEmpty || alreadyScoped path basePath
      || !apiPathMarkers.any fun marker ↦ (find marker path).isSome) = false := by
  have hmarkers : (apiPathMarkers.any fun marker ↦ (find marker path).isSome) = true ↔
      ∃ marker ∈ apiPathMarkers, marker <:+: path := by
    rw [List.any_eq_true]
    refine exists_congr fun marker ↦ and_congr_right fun _ ↦ ?_
    rw [← not_iff_not, ← find_eq_none_iff_not_isInfix, Bool.not_eq_true,
      Option.isSome_eq_false_iff, Option.isNone_iff_eq_none]
  rw [NeedsScope, ← hmarkers, Bool.or_eq_false_iff, Bool.or_eq_false_iff, Bool.not_eq_false',
    ← Bool.not_eq_true (alreadyScoped _ _), alreadyScoped_eq_true_iff, not_or, and_assoc, and_assoc,
    ← Bool.not_eq_true (List.isEmpty _), List.isEmpty_iff]

/-- **Which API requests get the base path, and how**: the path and the query are kept, and the
only error is a prefixed URI that the crate refuses. -/
theorem apiUriWithBasePath_cases {crate : UriCrate} (hcrate : crate.ReadsOriginForm)
    {url : UrlCrate} {value basePath : Str} (hbase : normalizeBasePath url value = .ok basePath)
    (uri : Uri) :
    (¬ NeedsScope basePath uri.path ∧ apiUriWithBasePath crate uri basePath = .ok none) ∨
      (NeedsScope basePath uri.path ∧ ∃ prefixed,
        apiUriWithBasePath crate uri basePath = .ok (some prefixed) ∧ prefixed.origin = [] ∧
        prefixed.path = basePath ++ uri.path ∧ prefixed.query = uri.query) ∨
      (NeedsScope basePath uri.path ∧ IsOriginForm (basePath ++ uri.pathAndQuery) ∧ ∃ cause,
        crate.parse (basePath ++ uri.pathAndQuery) = .error cause ∧
        apiUriWithBasePath crate uri basePath = .error cause) := by
  rw [apiUriWithBasePath, needsScope_iff]
  cases hguard : basePath.isEmpty || alreadyScoped uri.path basePath
      || !apiPathMarkers.any fun marker ↦ (find marker uri.path).isSome with
  | true => exact Or.inl ⟨Bool.noConfusion, rfl⟩
  | false =>
    right
    rw [if_neg Bool.false_ne_true]
    have hpath : IsBasePath url basePath := ⟨⟨value, hbase⟩, (needsScope_iff.2 hguard).1⟩
    have hnot : ∀ {c}, isForbiddenCharacter c = true → c ∉ basePath := fun hc hmem ↦
      absurd (hpath.isForbiddenCharacter_eq_false hmem) (by rw [hc]; simp)
    have hform : IsOriginForm (basePath ++ uri.pathAndQuery) := by
      obtain ⟨c, rest, heq, -⟩ := hpath.exists_eq_cons
      obtain ⟨hin, hquery⟩ := uri.fragment_not_mem
      refine ⟨⟨c :: rest ++ uri.pathAndQuery, by rw [heq]; rfl⟩, ?_⟩
      rw [Uri.pathAndQuery, withQuery, List.mem_append, List.mem_append, not_or, not_or]
      refine ⟨hnot rfl, hin, ?_⟩
      cases hq : uri.query with
      | none => exact List.not_mem_nil
      | some q => exact List.not_mem_cons_of_ne_of_not_mem (by decide) (hquery q hq)
    cases hparse : crate.parse (basePath ++ uri.pathAndQuery) with
    | error cause => exact Or.inr ⟨rfl, hform, cause, rfl, rfl⟩
    | ok prefixed =>
      have htext : basePath ++ uri.pathAndQuery = withQuery (basePath ++ uri.path) uri.query := by
        rw [Uri.pathAndQuery, withQuery, withQuery, List.append_assoc]
      obtain ⟨horigin, hread⟩ := hcrate _ prefixed hform hparse
      have hmark : '?' ∉ basePath ++ uri.path := by
        rw [List.mem_append, not_or]
        exact ⟨hnot rfl, uri.mark_not_mem⟩
      obtain ⟨hprefixed, hquery⟩ := withQuery_inj prefixed.mark_not_mem hmark (hread.trans htext)
      exact Or.inl ⟨rfl, prefixed, rfl, horigin, hprefixed, hquery⟩

/-- The headers of a candidate can always be set. -/
theorem exists_candidateHeaders_eq (decision : RewriteDecision) (request : UpstreamRequest) :
    ∃ forwarded, candidateHeaders decision request = .ok forwarded ∧
      forwarded.method = request.method ∧ forwarded.uri = request.uri ∧
      ∀ name, forwarded.values name = candidateValues decision name (request.values name) := by
  cases decision with
  | bypass => exact ⟨request, rfl, rfl, rfl, fun _ ↦ rfl⟩
  | rewrite profile extension headOnly =>
    have hidentity : (bytes "identity").all isHeaderByte = true := by decide
    obtain ⟨inserted, hinserted, hmethod, huri, hvalues⟩ :=
      request.exists_insertHeader_eq (str "accept-encoding") hidentity
    simp only [candidateHeaders, candidateValues, hinserted]
    cases shouldForceUnconditionalFullResponse profile with
    | false =>
      refine ⟨inserted, rfl, hmethod, huri, fun name ↦ ?_⟩
      rw [hvalues name]
      simp only [Bool.false_eq_true, false_and, if_false]
    | true =>
      obtain ⟨hmethod', huri', hremoved⟩ :=
        inserted.foldl_removeHeader conditionalHeaders
      refine ⟨_, rfl, hmethod'.trans hmethod, huri'.trans huri, fun name ↦ ?_⟩
      simp only [true_and]
      -- `Accept-Encoding` is not one of the headers that are removed.
      by_cases hmem : name ∈ conditionalHeaders
      · have hne : name ≠ str "accept-encoding" := by
          rintro rfl
          exact absurd hmem (by decide)
        rw [if_neg hne, if_pos (List.contains_iff_mem.2 hmem)]
        exact (hremoved name).trans (if_pos hmem)
      · rw [if_neg (hmem ∘ List.contains_iff_mem.1), ← hvalues name]
        exact (hremoved name).trans (if_neg hmem)

/-- The hook, up to the URI: what is forwarded for a URI that is set, or for none. -/
theorem exists_upstreamRequestFilter_eq (self : RewriteProxy) (crate : UriCrate)
    {ctx : RequestContext} (hid : Visible ctx.requestId) (request : UpstreamRequest) :
    ∃ forward : Option Uri → UpstreamRequest,
      self.upstreamRequestFilter crate request ctx =
        ((apiUriWithBasePath crate request.uri self.config.basePath).mapError prefixFailed).map
          forward ∧
      ∀ uri, (forward uri).method = request.method ∧ (forward uri).uri = uri.getD request.uri ∧
        (forward uri).values (str "x-request-id") = [ctx.requestId.asBytes] ∧
        ∀ name ≠ str "x-request-id", (forward uri).values name =
          candidateValues ctx.decision name (request.values name) := by
  obtain ⟨inserted, hinserted, hmethod, huri, hvalues⟩ :=
    request.exists_insertHeader_eq (str "x-request-id") (all_isHeaderByte_of_visible hid)
  choose forward hforward hmethod' huri' hvalues' using fun uri : Option Uri ↦
    exists_candidateHeaders_eq ctx.decision (uri.elim inserted inserted.setUri)
  refine ⟨forward, ?_, fun uri ↦ ⟨?_, ?_, ?_, fun name hname ↦ ?_⟩⟩
  · rw [RewriteProxy.upstreamRequestFilter, hinserted, ← huri]
    show ((apiUriWithBasePath crate inserted.uri self.config.basePath).mapError prefixFailed >>=
      fun uri : Option Uri ↦
        candidateHeaders ctx.decision (uri.elim inserted inserted.setUri)) = _
    simp only [hforward]
    cases apiUriWithBasePath crate inserted.uri self.config.basePath <;> rfl
  · rw [hmethod']
    cases uri <;> exact hmethod
  · rw [huri']
    cases uri with
    | none => exact huri
    | some uri => rfl
  · have hsame : (uri.elim inserted inserted.setUri).values (str "x-request-id") =
        inserted.values (str "x-request-id") := by cases uri <;> rfl
    rw [hvalues', hsame, hvalues, if_pos rfl, candidateValues.eq_def]
    split
    · rfl
    · rw [if_neg (by decide), if_neg fun h ↦ absurd h.2 (by decide)]
  · have hsame : (uri.elim inserted inserted.setUri).values name = inserted.values name := by
      cases uri <;> rfl
    rw [hvalues', hsame, hvalues, if_neg hname]

section

variable {self : RewriteProxy} {crate : UriCrate} {url : UrlCrate} {value : Str}
  {ctx : RequestContext} {request : UpstreamRequest}

/-- A request that is forwarded keeps its query, and its path up to the base path. -/
theorem forwarded_of_upstreamRequestFilter (hcrate : crate.ReadsOriginForm)
    (hbase : normalizeBasePath url value = .ok self.config.basePath)
    (hid : Visible ctx.requestId) {forwarded : UpstreamRequest}
    (h : self.upstreamRequestFilter crate request ctx = .ok forwarded) :
    Forwarded self.config.basePath ctx request forwarded := by
  obtain ⟨forward, heq, hforward⟩ := exists_upstreamRequestFilter_eq self crate hid request
  rw [heq] at h
  rcases apiUriWithBasePath_cases hcrate hbase request.uri with ⟨hscope, huri⟩ |
    ⟨hscope, prefixed, huri, -, hpath, hquery⟩ | ⟨-, -, cause, -, huri⟩
  · rw [huri] at h
    obtain rfl := Except.ok.inj h
    obtain ⟨hmethod, huri', hid', hvalues⟩ := hforward none
    refine ⟨hmethod, fun _ ↦ huri', ?_, ?_, hid', hvalues⟩
    · rw [huri', scopedPath, if_neg hscope]
      rfl
    · rw [huri']
      rfl
  · rw [huri] at h
    obtain rfl := Except.ok.inj h
    obtain ⟨hmethod, huri', hid', hvalues⟩ := hforward (some prefixed)
    refine ⟨hmethod, fun hnot ↦ absurd hscope hnot, ?_, ?_, hid', hvalues⟩
    · rw [huri', scopedPath, if_pos hscope]
      exact hpath
    · rw [huri']
      exact hquery
  · rw [huri] at h
    exact absurd h (by simp [Except.map, Except.mapError])

/-- The hook fails only when a prefixed URI is refused. -/
theorem refused_of_upstreamRequestFilter (hcrate : crate.ReadsOriginForm)
    (hbase : normalizeBasePath url value = .ok self.config.basePath)
    (hid : Visible ctx.requestId) {error : UpstreamError}
    (h : self.upstreamRequestFilter crate request ctx = .error error) :
    NeedsScope self.config.basePath request.uri.path ∧
      IsOriginForm (self.config.basePath ++ request.uri.pathAndQuery) ∧ ∃ cause,
      crate.parse (self.config.basePath ++ request.uri.pathAndQuery) = .error cause ∧
      error = prefixFailed cause := by
  obtain ⟨forward, heq, -⟩ := exists_upstreamRequestFilter_eq self crate hid request
  rw [heq] at h
  rcases apiUriWithBasePath_cases hcrate hbase request.uri with ⟨-, huri⟩ |
    ⟨-, prefixed, huri, -⟩ | ⟨hscope, hform, cause, hparse, huri⟩
  · rw [huri] at h
    exact absurd h (by simp [Except.map, Except.mapError])
  · rw [huri] at h
    exact absurd h (by simp [Except.map, Except.mapError])
  · rw [huri] at h
    exact ⟨hscope, hform, cause, hparse, (Except.error.inj h).symm⟩

end

/-- **What the upstream gets of a request**: the hook fails only when a prefixed URI is refused,
and else the upstream gets the method, the path, the query and the headers that `Forwarded`
says. -/
theorem upstreamRequestFilter_cases {self : RewriteProxy} {crate : UriCrate}
    (hcrate : crate.ReadsOriginForm) {url : UrlCrate} {value : Str}
    (hbase : normalizeBasePath url value = .ok self.config.basePath) {ctx : RequestContext}
    (hid : Visible ctx.requestId) (request : UpstreamRequest) :
    (∃ forwarded, self.upstreamRequestFilter crate request ctx = .ok forwarded ∧
        Forwarded self.config.basePath ctx request forwarded) ∨
      (NeedsScope self.config.basePath request.uri.path ∧
        IsOriginForm (self.config.basePath ++ request.uri.pathAndQuery) ∧ ∃ cause,
        crate.parse (self.config.basePath ++ request.uri.pathAndQuery) = .error cause ∧
        self.upstreamRequestFilter crate request ctx = .error (prefixFailed cause)) := by
  cases h : self.upstreamRequestFilter crate request ctx with
  | ok forwarded =>
    exact Or.inl ⟨forwarded, rfl, forwarded_of_upstreamRequestFilter hcrate hbase hid h⟩
  | error error =>
    obtain ⟨hscope, hform, cause, hparse, rfl⟩ :=
      refused_of_upstreamRequestFilter hcrate hbase hid h
    exact Or.inr ⟨hscope, hform, cause, hparse, rfl⟩

/-! ### Requests that pass -/

/-- The request id that `request_filter` takes from the client. -/
def clientRequestId (headers : HeaderMap) : Option Str :=
  ((headers.get (str "x-request-id")).bind HeaderValue.toStr).filter
    fun value ↦ !value.isEmpty && value.asBytes.length ≤ 128

/-- A request id that the next `request_filter` takes. -/
structure IsRequestId (id : Str) : Prop where
  visible : Visible id
  ne_nil : id ≠ []
  length_le : id.asBytes.length ≤ 128

/-- What `request_filter` takes from a client is a request id. -/
theorem isRequestId_of_clientRequestId {headers : HeaderMap} {id : Str}
    (h : clientRequestId headers = some id) : IsRequestId id := by
  obtain ⟨hread, hid⟩ := Option.filter_eq_some_iff.1 h
  obtain ⟨field, -, hfield⟩ := Option.bind_eq_some_iff.1 hread
  rw [Bool.and_eq_true, Bool.not_eq_true', List.isEmpty_eq_false_iff, decide_eq_true_eq] at hid
  exact ⟨HeaderValue.visible_of_toStr hfield, hid.1, hid.2⟩

/-- A request id that is forwarded is taken. -/
theorem IsRequestId.clientRequestId_eq {id : Str} (h : IsRequestId id) {headers : HeaderMap}
    (hvalues : (headers.getAll (str "x-request-id")).map HeaderValue.asBytes = [id.asBytes]) :
    clientRequestId headers = some id := by
  obtain ⟨field, hfield, hbytes⟩ : ∃ field, headers.getAll (str "x-request-id") = [field] ∧
      field.asBytes = id.asBytes := by
    obtain ⟨field, hfield⟩ := List.length_eq_one_iff.1
      ((List.length_map _).symm.trans (congrArg List.length hvalues))
    rw [hfield] at hvalues
    exact ⟨field, hfield, List.head_eq_of_cons_eq hvalues⟩
  rw [clientRequestId, HeaderMap.get, hfield, List.head?_cons, Option.bind_some,
    HeaderValue.toStr_of_visible h.visible hbytes, Option.filter_some, if_pos]
  rw [Bool.and_eq_true, Bool.not_eq_true', List.isEmpty_eq_false_iff, decide_eq_true_eq]
  exact ⟨h.ne_nil, h.length_le⟩

/-- A request id that `new_request_id` makes is taken. -/
theorem isRequestId_newRequestId (nanos : BitVec 128) (sequence : UInt64) :
    IsRequestId (newRequestId nanos.toNat sequence.toNat) := by
  have hvisible := visible_newRequestId nanos.toNat sequence.toNat
  refine ⟨hvisible, by rw [newRequestId]; simp [str], ?_⟩
  have hnanos : (hexDigits nanos.toNat).length ≤ 32 :=
    (Nat.length_toDigits_le_iff (by decide) (by decide)).2 (lt_of_lt_of_le nanos.isLt (by decide))
  have hsequence : (hexDigits sequence.toNat).length ≤ 16 :=
    (Nat.length_toDigits_le_iff (by decide) (by decide)).2
      (lt_of_lt_of_le sequence.toNat_lt (by decide))
  have hfixed : (str "kserw-").length = 6 ∧ (str "-").length = 1 := by decide
  rw [hvisible.asBytes_eq, List.length_map, newRequestId, List.length_append, List.length_append,
    List.length_append]
  omega

/-- `request_filter` lets the request through, which came at a time and with a sequence number,
and leaves the context. -/
inductive PassesAt (self : RewriteProxy) (request : RequestHeader) (nanos : BitVec 128)
    (sequence : UInt64) : RequestContext → Prop
  | returned {shared : Shared} {result : HookResult Bool}
    (h : self.requestFilter shared request (newCtx nanos.toNat sequence.toNat) = .returned result)
    (hok : result.result = .ok false) : PassesAt self request nanos sequence result.ctx
  | woken {shared : Shared} {profile : RewriteProfile} {extension : Str} {ctx : RequestContext}
    {effects : List Effect}
    (h : self.requestFilter shared request (newCtx nanos.toNat sequence.toNat) =
      .queued profile extension ctx effects)
    (hok : (self.requestFilterWoken profile extension ctx).result = .ok false) :
    PassesAt self request nanos sequence (self.requestFilterWoken profile extension ctx).ctx

section

variable {self : RewriteProxy} {request : RequestHeader} {nanos : BitVec 128} {sequence : UInt64}
  {ctx : RequestContext}

/-- Every request passes a sidecar with a free permit. -/
theorem exists_passesAt (self : RewriteProxy) (request : RequestHeader) (nanos : BitVec 128)
    (sequence : UInt64) (hpermit : 0 < self.config.maxConcurrent.val) :
    ∃ ctx, PassesAt self request nanos sequence ctx := by
  have hfiltered := self.filtered_requestFilter self.initialShared request
    (newCtx nanos.toNat sequence.toNat)
  generalize heq : self.requestFilter self.initialShared request
    (newCtx nanos.toNat sequence.toNat) = progress at hfiltered
  cases hfiltered with
  | bypass => exact ⟨_, .returned heq rfl⟩
  | headOnly => exact ⟨_, .returned heq rfl⟩
  | @admitted profile extension =>
    obtain ⟨rewriter, hstart⟩ := self.startRewrite_eq profile extension
      { self.rewriteCtx request (newCtx nanos.toNat sequence.toNat) extension with
        activePermit := true } [.acquireActive, .incActive]
    exact ⟨_, .returned heq (by rw [hstart])⟩
  | queued hdecision hnone => exact absurd hnone (Nat.ne_of_gt hpermit)
  | rejected hdecision hnone => exact absurd hnone (Nat.ne_of_gt hpermit)

theorem PassesAt.admits (h : PassesAt self request nanos sequence ctx) :
    Admits self request ctx := by
  cases h with
  | returned h hok => exact .returned h hok
  | woken h hok => exact .woken h hok

/-- What `request_filter` has read of a request stays in its context, and a request that is not
rewritten has no pipeline. -/
theorem PassesAt.read (h : PassesAt self request nanos sequence ctx) :
    ctx.requestId = (clientRequestId request.headers).getD
        (newRequestId nanos.toNat sequence.toNat) ∧
      ctx.decision = self.policy.decide request.method request.path ∧
      ctx.clientIfNoneMatch = request.headers.get (str "if-none-match") ∧
      ctx.extension = ctx.decision.target.map (·.2) ∧
      (ctx.decision = .bypass → ctx.rewriter = none ∧ ctx.suppressBody = false) := by
  have hextension : ∀ {profile extension headOnly},
      (self.readRequest request (newCtx nanos.toNat sequence.toNat)).decision =
        .rewrite profile extension headOnly → some extension =
      (self.readRequest request (newCtx nanos.toNat sequence.toNat)).decision.target.map (·.2) := by
    intro profile extension headOnly hdecision
    rw [hdecision]
    rfl
  cases h with
  | @returned shared result h hok =>
    have hfiltered := self.filtered_requestFilter shared request
      (newCtx nanos.toNat sequence.toNat)
    rw [h] at hfiltered
    cases hfiltered with
    | bypass hdecision => exact ⟨rfl, rfl, rfl, by rw [hdecision]; rfl, fun _ ↦ ⟨rfl, rfl⟩⟩
    | headOnly hdecision =>
      exact ⟨rfl, rfl, rfl, hextension hdecision, fun _ ↦ ⟨rfl, rfl⟩⟩
    | admitted hdecision hpermit =>
      obtain ⟨rewriter, heq⟩ := self.startRewrite_eq _ _ _ _
      rw [heq]
      exact ⟨rfl, rfl, rfl, hextension hdecision, fun hbypass ↦
        absurd (hbypass.symm.trans hdecision) (by simp)⟩
  | @woken shared profile extension ctx effects h hok =>
    have hfiltered := self.filtered_requestFilter shared request
      (newCtx nanos.toNat sequence.toNat)
    rw [h] at hfiltered
    cases hfiltered with
    | queued hdecision hpermit hslot =>
      obtain ⟨rewriter, heq⟩ := self.startRewrite_eq profile extension
        { self.rewriteCtx request (newCtx nanos.toNat sequence.toNat) extension with
          outcome := str "queued", activePermit := true } [.releaseQueued, .decQueued, .incActive]
      rw [RewriteProxy.requestFilterWoken, heq]
      exact ⟨rfl, rfl, rfl, hextension hdecision, fun hbypass ↦
        absurd (hbypass.symm.trans hdecision) (by simp)⟩

theorem PassesAt.isRequestId (h : PassesAt self request nanos sequence ctx) :
    IsRequestId ctx.requestId := by
  rw [h.read.1]
  cases hid : clientRequestId request.headers with
  | none => exact isRequestId_newRequestId nanos sequence
  | some id => exact isRequestId_of_clientRequestId hid

/-- The path of a candidate for a rewrite is below the base path. -/
theorem not_needsScope_of_decide {url : UrlCrate} {value : Str}
    (hbase : normalizeBasePath url value = .ok self.config.basePath) {method path : Str}
    {profile : RewriteProfile} {extension : Str} {headOnly : Bool}
    (hdecide : self.policy.decide method path = .rewrite profile extension headOnly) :
    ¬ NeedsScope self.config.basePath path := by
  rintro ⟨hne, -, hnot, -⟩
  have hroot := IsBasePath.root_eq ⟨⟨value, hbase⟩, hne⟩
  have hbelow : ∃ t, path = self.config.policyConfig.root ++ '/' :: t := by
    have hgrammar : self.config.policyConfig.policy.decide method path = _ := hdecide
    rcases (PolicyConfig.grammar_of_decide hgrammar).2 with hnamed | hbundle | hstatic
    · exact ⟨_, hnamed.exists_eq.choose_spec⟩
    · exact ⟨_, hbundle.exists_eq.choose_spec⟩
    · exact ⟨_, hstatic.exists_eq.choose_spec⟩
  obtain ⟨t, ht⟩ := hbelow
  exact hnot ⟨t, by rw [ht, hroot, List.append_assoc]; rfl⟩

/-- **A candidate for a rewrite keeps its path.** It is forwarded under its own URI, so that a
sidecar with the same configuration behind decides the same; it asks for an identity encoding; and
unless the profile selects HTML by the response, no condition and no range is left. -/
theorem upstreamRequestFilter_of_candidate {crate : UriCrate} (hcrate : crate.ReadsOriginForm)
    {url : UrlCrate} {value : Str}
    (hbase : normalizeBasePath url value = .ok self.config.basePath)
    {upstreamRequest : UpstreamRequest}
    (h : PassesAt self upstreamRequest.header nanos sequence ctx) {profile : RewriteProfile}
    {extension : Str} {headOnly : Bool}
    (hdecision : ctx.decision = .rewrite profile extension headOnly) :
    ∃ forwarded, self.upstreamRequestFilter crate upstreamRequest ctx = .ok forwarded ∧
      forwarded.uri = upstreamRequest.uri ∧
      self.policy.decide forwarded.method forwarded.uri.path = ctx.decision ∧
      forwarded.values (str "accept-encoding") = [bytes "identity"] ∧
      ∀ name ∈ conditionalHeaders, forwarded.values name =
        if selectsHtmlByResponseContentType profile then upstreamRequest.values name else [] := by
  have hdecide : self.policy.decide upstreamRequest.method upstreamRequest.uri.path =
      .rewrite profile extension headOnly := h.read.2.1.symm.trans hdecision
  have hscope : ¬ NeedsScope self.config.basePath upstreamRequest.uri.path :=
    not_needsScope_of_decide hbase hdecide
  cases heq : self.upstreamRequestFilter crate upstreamRequest ctx with
  | error error =>
    exact absurd
      (refused_of_upstreamRequestFilter hcrate hbase h.isRequestId.visible heq).1 hscope
  | ok forwarded =>
    have hforwarded :=
      forwarded_of_upstreamRequestFilter hcrate hbase h.isRequestId.visible heq
    have huri := hforwarded.uri hscope
    refine ⟨forwarded, rfl, huri, ?_, ?_, fun name hname ↦ ?_⟩
    · rw [hforwarded.method, huri, hdecision, hdecide]
    · rw [hforwarded.values _ (by decide), hdecision]
      rfl
    · have hne : name ≠ str "x-request-id" ∧ name ≠ str "accept-encoding" := by
        constructor
        · rintro rfl
          exact absurd hname (by decide)
        · rintro rfl
          exact absurd hname (by decide)
      rw [hforwarded.values name hne.1, hdecision, candidateValues, if_neg hne.2,
        shouldForceUnconditionalFullResponse]
      cases selectsHtmlByResponseContentType profile with
      | true => rw [if_neg (by simp), if_pos rfl]
      | false => rw [if_pos ⟨rfl, List.contains_iff_mem.2 hname⟩, if_neg Bool.false_ne_true]

end

/-! ### A parser of origin forms -/

/-- A parser that reads origin forms, and no other URIs. -/
def UriCrate.originForm : UriCrate where
  parse text :=
    if h : IsOriginForm text then
      .ok
        { origin := []
          path := text.takeWhile (· != '?')
          query := (text.dropWhile (· != '?')).tail?
          path_form := by
            obtain ⟨t, rfl⟩ := h.1
            exact Or.inr (Or.inr ⟨t.takeWhile (· != '?'), rfl⟩)
          mark_not_mem := fun hmem ↦
            absurd (List.all_eq_true.1 List.all_takeWhile '?' hmem) (by decide)
          fragment_not_mem := ⟨fun hmem ↦ h.2 ((List.takeWhile_sublist _).subset hmem), by
            intro q hq hmem
            obtain ⟨c, hcons⟩ : ∃ c, text.dropWhile (· != '?') = c :: q := by
              cases hdrop : text.dropWhile (· != '?') with
              | nil => rw [hdrop] at hq; cases hq
              | cons c t => rw [hdrop] at hq; exact ⟨c, by rw [Option.some.inj hq]⟩
            refine h.2 ((List.dropWhile_sublist (· != '?')).subset ?_)
            rw [hcons]
            exact List.mem_cons_of_mem _ hmem⟩ }
    else .error ⟨str "invalid uri character"⟩

/-- The crate reads an origin form as it is written. -/
theorem UriCrate.originForm_readsOriginForm : UriCrate.originForm.ReadsOriginForm := by
  intro text uri hform h
  simp only [originForm, dif_pos hform] at h
  obtain rfl := Except.ok.inj h
  refine ⟨rfl, ?_⟩
  show text.takeWhile (· != '?') ++ ((text.dropWhile (· != '?')).tail?).elim [] ('?' :: ·) = text
  cases hdrop : text.dropWhile (· != '?') with
  | nil =>
    have hsplit := List.takeWhile_append_dropWhile (p := (· != '?')) (l := text)
    rwa [hdrop] at hsplit
  | cons c t =>
    have hc : c = '?' := by
      have hhead := List.head_dropWhile_not (· != '?') (l := text) (by rw [hdrop]; simp)
      simpa only [hdrop, List.head_cons, bne_eq_false_iff_eq] using hhead
    have hsplit := List.takeWhile_append_dropWhile (p := (· != '?')) (l := text)
    rwa [hdrop, hc] at hsplit

/-- An origin form is not refused. -/
theorem UriCrate.originForm_parse_ne {text : Str} (h : IsOriginForm text) {cause : InvalidUri} :
    UriCrate.originForm.parse text ≠ .error cause := by
  simp only [originForm, dif_pos h]
  simp

/-- A request for an API outside of the base path. -/
def apiRequest : UpstreamRequest where
  method := str "GET"
  uri :=
    { origin := []
      path := str "/kapis/tenant.kubesphere.io/v1alpha2/workspaces"
      query := some (str "limit=20")
      path_form := Or.inr (Or.inr (by decide))
      mark_not_mem := by decide
      fragment_not_mem := by decide }
  headers := []

/-- The API request gets the base path and keeps its query. -/
theorem upstreamRequestFilter_cases_api :
    ∃ forwarded, regionsProxy.upstreamRequestFilter .originForm apiRequest (newCtx 0 0) =
        .ok forwarded ∧
      forwarded.uri.path = str "/regions/r1/kapis/tenant.kubesphere.io/v1alpha2/workspaces" ∧
      forwarded.uri.query = some (str "limit=20") := by
  have hid : Visible (newCtx 0 0).requestId := visible_newRequestId 0 0
  have hbase : normalizeBasePath .unreserved (str "/regions/r1/") =
    .ok regionsProxy.config.basePath := normalizeBasePath_unreserved
  rcases upstreamRequestFilter_cases UriCrate.originForm_readsOriginForm hbase hid apiRequest with
    ⟨forwarded, heq, hforwarded⟩ | ⟨-, hform, cause, hparse, -⟩
  · exact ⟨forwarded, heq, hforwarded.path.trans (by decide), hforwarded.query⟩
  · exact absurd hparse (UriCrate.originForm_parse_ne hform)

/-- A conditional request for the script of Kubekey. -/
def scriptRequest : UpstreamRequest where
  method := str "GET"
  uri :=
    { origin := []
      path := kubekeyRequest.path
      query := none
      path_form := Or.inr (Or.inr (by decide))
      mark_not_mem := by decide
      fragment_not_mem := by decide }
  headers := [(str "if-none-match", ⟨bytes "\"v1\"", isHeaderByte_v1⟩)]

/-- The script is requested without the condition. -/
theorem upstreamRequestFilter_of_candidate_script :
    ∃ ctx forwarded, regionsProxy.upstreamRequestFilter .originForm scriptRequest ctx =
        .ok forwarded ∧ forwarded.uri = scriptRequest.uri ∧
      forwarded.values (str "if-none-match") = [] := by
  have hbase : normalizeBasePath .unreserved (str "/regions/r1/") =
    .ok regionsProxy.config.basePath := normalizeBasePath_unreserved
  obtain ⟨ctx, hpass⟩ := exists_passesAt regionsProxy scriptRequest.header 0 0 (by decide)
  obtain ⟨forwarded, heq, huri, -, -, hconditional⟩ :=
    upstreamRequestFilter_of_candidate UriCrate.originForm_readsOriginForm hbase hpass
      (hpass.read.2.1.trans decide_kubekeyRequest)
  exact ⟨ctx, forwarded, heq, huri, hconditional _ (by decide)⟩

end KseRewriteProxy
