import KseRewriteProxy.Proxy.Upstream

/-!
# Chains of sidecars

A request that goes through several sidecars, and the response on its way back. `Relays` is the
way of the request: at each sidecar `request_filter` lets it through and `upstream_request_filter`
forwards it. `Returns` is the way of a response header through `response_filter` at each of them,
and `ReturnsBody` the way of a body through `response_body_filter`. An upstream may send interim
responses in front of the final one, so a sidecar may have filtered any responses before the one
that is followed (`afterResponses`), and a body is cut into chunks anew between two sidecars.

What one sidecar does to a request is `Forwarded` and what it does to a response is
`relayed_of_responseFilter`; the results here are inductions along the chain. Each rests on a
fixed point of one sidecar:

- `relays_path`: the base path that has been put in front of an API path is the reason not to put it
  there again (`scopedPath_scopedPath`), so a chain adds it once.
- `relays_requestId`: `upstream_request_filter` sends the id of the context, and `request_filter` of
  the next sidecar takes an id that another sidecar has sent (`IsRequestId.clientRequestId_eq`), so
  every sidecar works under the id of the first one.
- `relays_transparent`: without a decision to rewrite, `response_filter` leaves the context alone,
  so there is neither a pipeline nor a suppressed body when the chunks come.
- `head_alike_get`: the policy reads the method only to set `head_only`, which `response_filter`
  does not look at (`ReadsAlike`).
-/

namespace KseRewriteProxy

open Text

/-- A sidecar with the context of the request. -/
abbrev Hop :=
  RewriteProxy × RequestContext

/-- The request goes through the sidecars in order. -/
inductive Relays (crate : UriCrate) : List Hop → UpstreamRequest → UpstreamRequest → Prop
  | nil {request : UpstreamRequest} : Relays crate [] request request
  | cons {self : RewriteProxy} {ctx : RequestContext} {nanos : BitVec 128} {sequence : UInt64}
    {request forwarded last : UpstreamRequest} {hops : List Hop}
    (hpass : PassesAt self request.header nanos sequence ctx)
    (hforward : self.upstreamRequestFilter crate request ctx = .ok forwarded)
    (hrest : Relays crate hops forwarded last) : Relays crate ((self, ctx) :: hops) request last

/-- The context after some responses, of which all but the last are interim ones. -/
def afterResponses (self : RewriteProxy) (responses : List ResponseHeader) (ctx : RequestContext) :
    RequestContext :=
  responses.foldl (fun ctx response ↦ (self.responseFilter response ctx).ctx) ctx

/-- The header of a response comes back through the sidecars in order, at each of them behind any
earlier responses. -/
inductive Returns : List Hop → ResponseHeader → ResponseHeader → Prop
  | nil {response : ResponseHeader} : Returns [] response response
  | cons {self : RewriteProxy} {ctx : RequestContext} {earlier : List ResponseHeader}
    {response between header : ResponseHeader} {hops : List Hop}
    (hrest : Returns hops response between)
    (hfilter : (self.responseFilter between (afterResponses self earlier ctx)).result =
      .ok header) :
    Returns ((self, ctx) :: hops) response header

/-- The body of a response comes back through the sidecars in order, behind any responses at each
of them and cut into any chunks in front of it. -/
inductive ReturnsBody : List Hop → Bytes → Bytes → Prop
  | nil {body : Bytes} : ReturnsBody [] body body
  | cons {self : RewriteProxy} {ctx : RequestContext} {responses : List ResponseHeader}
    {body : Bytes} {chunks sent : List (Option Bytes)} {last : Option Bytes} {hops : List Hop}
    (hrest : ReturnsBody hops body (chunkBytes (chunks ++ [last])).flatten)
    (hfilter : filterBody last chunks (afterResponses self responses ctx) = .ok sent) :
    ReturnsBody ((self, ctx) :: hops) body (chunkBytes sent).flatten

/-- The sidecars have accepted base paths. -/
def AcceptedHops (url : UrlCrate) (hops : List Hop) : Prop :=
  ∀ hop ∈ hops, ∃ value, normalizeBasePath url value = .ok hop.1.config.basePath

section

variable {crate : UriCrate} {url : UrlCrate} {hops : List Hop} {request last : UpstreamRequest}

/-! ### Paths -/

/-- A path with a marker is absolute. -/
theorem NeedsScope.root_prefix {basePath : Str} {uri : Uri} (h : NeedsScope basePath uri.path) :
    str "/" <+: uri.path := by
  obtain ⟨-, -, -, marker, hmarker, hinfix⟩ := h
  have hlong : ∀ marker ∈ apiPathMarkers, 1 < marker.length := by decide
  have hlength : 1 < uri.path.length := (hlong marker hmarker).trans_le hinfix.length_le
  rcases uri.path_form with hnil | hstar | hroot
  · rw [hnil] at hlength
    exact absurd hlength (by decide)
  · rw [hstar] at hlength
    exact absurd hlength (by decide)
  · exact hroot

/-- A path that has got the base path does not need it again. -/
theorem scopedPath_scopedPath (basePath : Str) (uri : Uri) :
    scopedPath basePath (scopedPath basePath uri.path) = scopedPath basePath uri.path := by
  by_cases hneeds : NeedsScope basePath uri.path
  · have hscoped : scopedPath basePath uri.path = basePath ++ uri.path := if_pos hneeds
    have hnot : ¬ NeedsScope basePath (basePath ++ uri.path) := by
      rintro ⟨-, -, hprefix, -⟩
      obtain ⟨t, ht⟩ := hneeds.root_prefix
      exact hprefix ⟨t, by rw [List.append_assoc, ht]⟩
    rw [hscoped, scopedPath, if_neg hnot]
  · have hscoped : scopedPath basePath uri.path = uri.path := if_neg hneeds
    rw [hscoped, hscoped]

/-- What one sidecar forwards of a request that passes. -/
theorem forwarded_of_passes (hcrate : crate.ReadsOriginForm) {self : RewriteProxy} {value : Str}
    (hbase : normalizeBasePath url value = .ok self.config.basePath) {nanos : BitVec 128}
    {sequence : UInt64} {ctx : RequestContext} {forwarded : UpstreamRequest}
    (hpass : PassesAt self request.header nanos sequence ctx)
    (hforward : self.upstreamRequestFilter crate request ctx = .ok forwarded) :
    Forwarded self.config.basePath ctx request forwarded :=
  forwarded_of_upstreamRequestFilter hcrate hbase hpass.isRequestId.visible hforward

/-- The path is scoped by each sidecar in turn. -/
theorem Relays.path_eq (hcrate : crate.ReadsOriginForm) (h : Relays crate hops request last)
    (hbase : AcceptedHops url hops) :
    last.uri.path = hops.foldl (fun path hop ↦ scopedPath hop.1.config.basePath path)
        request.uri.path ∧
      last.uri.query = request.uri.query ∧ last.method = request.method := by
  induction h with
  | nil => exact ⟨rfl, rfl, rfl⟩
  | cons hpass hforward hrest ih =>
    obtain ⟨⟨value, hvalue⟩, hbases⟩ := List.forall_mem_cons.1 hbase
    have hforwarded := forwarded_of_passes hcrate hvalue hpass hforward
    obtain ⟨hpath, hquery, hmethod⟩ := ih hbases
    refine ⟨?_, hquery.trans hforwarded.query, hmethod.trans hforwarded.method⟩
    rw [hpath, hforwarded.path, List.foldl_cons]

/-- **Any number of sidecars with one base path add it once**, to an API request that lacks it, and
keep the query. -/
theorem relays_path (hcrate : crate.ReadsOriginForm) (h : Relays crate hops request last)
    {value basePath : Str} (hbase : normalizeBasePath url value = .ok basePath)
    (hsame : ∀ hop ∈ hops, hop.1.config.basePath = basePath) (hne : hops ≠ []) :
    last.uri.path = scopedPath basePath request.uri.path ∧
      last.uri.query = request.uri.query := by
  have haccepted : AcceptedHops url hops := fun hop hmem ↦ ⟨value, by rw [hsame hop hmem, hbase]⟩
  obtain ⟨hpath, hquery, -⟩ := h.path_eq hcrate haccepted
  refine ⟨hpath.trans ?_, hquery⟩
  -- After the first sidecar the path is a fixed point.
  have hfixed : ∀ (hops : List Hop) (path : Str),
      (∀ hop ∈ hops, hop.1.config.basePath = basePath) → scopedPath basePath path = path →
      hops.foldl (fun path hop ↦ scopedPath hop.1.config.basePath path) path = path := by
    intro hops
    induction hops with
    | nil => exact fun _ _ _ ↦ rfl
    | cons hop hops ih =>
      intro path hsame hpath
      obtain ⟨hhop, hsame⟩ := List.forall_mem_cons.1 hsame
      rw [List.foldl_cons, hhop, hpath]
      exact ih path hsame hpath
  cases hops with
  | nil => exact absurd rfl hne
  | cons hop hops =>
    obtain ⟨hhop, hsame⟩ := List.forall_mem_cons.1 hsame
    rw [List.foldl_cons, hhop]
    exact hfixed hops _ hsame (scopedPath_scopedPath basePath request.uri)

/-! ### Request ids -/

/-- A request id that has come from a client or from a sidecar before is the id at every
sidecar. -/
theorem Relays.requestId_eq (hcrate : crate.ReadsOriginForm) (h : Relays crate hops request last)
    (hbase : AcceptedHops url hops) {id : Str} (hid : clientRequestId request.headers = some id) :
    (∀ hop ∈ hops, hop.2.requestId = id) ∧
      (hops ≠ [] → last.values (str "x-request-id") = [id.asBytes]) := by
  induction h with
  | nil => exact ⟨fun hop hmem ↦ absurd hmem List.not_mem_nil, fun hne ↦ absurd rfl hne⟩
  | @cons self ctx nanos sequence request forwarded last hops hpass hforward hrest ih =>
    obtain ⟨⟨value, hvalue⟩, hbases⟩ := List.forall_mem_cons.1 hbase
    have hforwarded := forwarded_of_passes hcrate hvalue hpass hforward
    have hctx : ctx.requestId = id := by
      rw [hpass.read.1, show clientRequestId request.header.headers = some id from hid,
        Option.getD_some]
    have hvalues := hforwarded.requestId
    rw [hctx] at hvalues
    obtain ⟨hhops, hlast⟩ :=
      ih hbases ((isRequestId_of_clientRequestId hid).clientRequestId_eq hvalues)
    refine ⟨List.forall_mem_cons.2 ⟨hctx, hhops⟩, fun _ ↦ ?_⟩
    cases hrest with
    | nil => exact hvalues
    | cons => exact hlast (List.cons_ne_nil _ _)

/-- Responses change neither the request id nor the decision. -/
theorem afterResponses_keeps (self : RewriteProxy) (responses : List ResponseHeader)
    (ctx : RequestContext) : (afterResponses self responses ctx).requestId = ctx.requestId ∧
      (afterResponses self responses ctx).decision = ctx.decision := by
  induction responses generalizing ctx with
  | nil => exact ⟨rfl, rfl⟩
  | cons response responses ih =>
    obtain ⟨hid, hdecision, -⟩ := responseFilter_keeps self response ctx
    obtain ⟨hid', hdecision'⟩ := ih (self.responseFilter response ctx).ctx
    exact ⟨hid'.trans hid, hdecision'.trans hdecision⟩

/-- A response that comes back has the id of the sidecars. -/
theorem Returns.requestId_eq {id : Str} {response header : ResponseHeader}
    (h : Returns hops response header) (hhops : ∀ hop ∈ hops, hop.2.requestId = id)
    (hne : hops ≠ []) : header.values (str "x-request-id") = [id.asBytes] := by
  cases h with
  | nil => exact absurd rfl hne
  | @cons self ctx earlier response between header hops hrest hfilter =>
    rw [requestId_of_responseFilter hfilter, (afterResponses_keeps self earlier ctx).1,
      (List.forall_mem_cons.1 hhops).1]

/-- **One request id along a chain of sidecars**: every sidecar works under one id, the upstream
gets it and no other, and the client gets it back and no other. It is the id of the client if that
has one that `request_filter` takes. -/
theorem relays_requestId (hcrate : crate.ReadsOriginForm) (h : Relays crate hops request last)
    (hbase : AcceptedHops url hops) (hne : hops ≠ []) :
    ∃ id, IsRequestId id ∧ (∀ hop ∈ hops, hop.2.requestId = id) ∧
      last.values (str "x-request-id") = [id.asBytes] ∧
      (∀ id', clientRequestId request.headers = some id' → id' = id) ∧
      ∀ response header, Returns hops response header →
        header.values (str "x-request-id") = [id.asBytes] := by
  cases h with
  | nil => exact absurd rfl hne
  | @cons self ctx nanos sequence _ forwarded _ hops hpass hforward hrest =>
    obtain ⟨⟨value, hvalue⟩, hbases⟩ := List.forall_mem_cons.1 hbase
    have hforwarded := forwarded_of_passes hcrate hvalue hpass hforward
    obtain ⟨hhops, hlast⟩ := hrest.requestId_eq hcrate hbases
      (hpass.isRequestId.clientRequestId_eq hforwarded.requestId)
    have hall : ∀ hop ∈ (self, ctx) :: hops, hop.2.requestId = ctx.requestId :=
      List.forall_mem_cons.2 ⟨rfl, hhops⟩
    refine ⟨ctx.requestId, hpass.isRequestId, hall, ?_, fun id' hid' ↦ ?_,
      fun _ _ hreturns ↦ hreturns.requestId_eq hall hne⟩
    · cases hrest with
      | nil => exact hforwarded.requestId
      | cons => exact hlast (List.cons_ne_nil _ _)
    · rw [hpass.read.1, show clientRequestId request.header.headers = some id' from hid',
        Option.getD_some]

/-! ### Requests that are not rewritten -/

/-- `response_filter` leaves the context of a request that is not rewritten. -/
theorem afterResponses_of_bypass (self : RewriteProxy) (responses : List ResponseHeader)
    {ctx : RequestContext} (hdecision : ctx.decision = .bypass) :
    afterResponses self responses ctx = ctx := by
  have hstep : ∀ response, (self.responseFilter response ctx).ctx = ctx := by
    intro response
    rw [RewriteProxy.responseFilter, hdecision]
    split <;> rfl
  induction responses with
  | nil => rfl
  | cons response responses ih =>
    show afterResponses self responses (self.responseFilter response ctx).ctx = ctx
    rw [hstep, ih]

/-- A sidecar with the context of a request that is not rewritten. -/
structure Hop.Bypasses (hop : Hop) : Prop where
  decision : hop.2.decision = .bypass
  visible : Visible hop.2.requestId
  rewriter : hop.2.rewriter = none
  suppressBody : hop.2.suppressBody = false

/-- What passes and is not rewritten leaves no pipeline behind. -/
theorem Relays.bypasses (h : Relays crate hops request last)
    (hbypass : ∀ hop ∈ hops, hop.2.decision = .bypass) : ∀ hop ∈ hops, hop.Bypasses := by
  induction h with
  | nil => exact fun hop hmem ↦ absurd hmem List.not_mem_nil
  | cons hpass hforward hrest ih =>
    obtain ⟨hfirst, hothers⟩ := List.forall_mem_cons.1 hbypass
    obtain ⟨hrewriter, hsuppress⟩ := hpass.read.2.2.2.2 hfirst
    exact List.forall_mem_cons.2
      ⟨⟨hfirst, hpass.isRequestId.visible, hrewriter, hsuppress⟩, ih hothers⟩

/-- **A chunk passes** a sidecar that does not rewrite, and leaves the context to the next one. -/
theorem Hop.Bypasses.responseBodyFilter_eq {hop : Hop} (h : hop.Bypasses)
    (responses : List ResponseHeader) (body : Option Bytes) (endOfStream : Bool) :
    RewriteProxy.responseBodyFilter body endOfStream (afterResponses hop.1 responses hop.2) =
      { result := .ok body, ctx := hop.2, effects := [] } := by
  rw [afterResponses_of_bypass _ _ h.decision, RewriteProxy.responseBodyFilter, h.suppressBody,
    h.rewriter, if_neg Bool.false_ne_true]

/-- **A response comes back** through sidecars that do not rewrite. -/
theorem exists_returns (hbypasses : ∀ hop ∈ hops, hop.Bypasses) (response : ResponseHeader) :
    ∃ header, Returns hops response header := by
  induction hops with
  | nil => exact ⟨response, .nil⟩
  | cons hop hops ih =>
    obtain ⟨hfirst, hothers⟩ := List.forall_mem_cons.1 hbypasses
    obtain ⟨between, hrest⟩ := ih hothers
    have hinsert := between.insertHeader_eq (str "x-request-id")
      (all_isHeaderByte_of_visible hfirst.visible)
    have hfilter : (hop.1.responseFilter between (afterResponses hop.1 [] hop.2)).result =
        between.insertHeader (str "x-request-id") hop.2.requestId.asBytes := by
      rw [afterResponses, List.foldl_nil, RewriteProxy.responseFilter, hinsert]
      simp only [hfirst.decision]
    exact ⟨_, .cons hrest (hfilter.trans hinsert)⟩

/-- What comes back through sidecars that do not rewrite is what the upstream sent. -/
theorem Returns.eq_of_bypasses {response header : ResponseHeader}
    (h : Returns hops response header) (hbypasses : ∀ hop ∈ hops, hop.Bypasses) :
    header.status = response.status ∧
      ∀ name ≠ str "x-request-id", header.values name = response.values name := by
  induction h with
  | nil => exact ⟨rfl, fun _ _ ↦ rfl⟩
  | cons hrest hfilter ih =>
    obtain ⟨hfirst, hothers⟩ := List.forall_mem_cons.1 hbypasses
    rw [afterResponses_of_bypass _ _ hfirst.decision] at hfilter
    obtain ⟨hstatus, hvalues⟩ := relayed_of_responseFilter hfilter
      fun _ _ _ hrewrite ↦ absurd (hrewrite.symm.trans hfirst.decision) (by simp)
    obtain ⟨hstatus', hvalues'⟩ := ih hothers
    exact ⟨hstatus.trans hstatus', fun name hname ↦
      (hvalues name hname).trans (hvalues' name hname)⟩

/-- **A body comes back as it is** through sidecars that do not rewrite, however it is cut. -/
theorem returnsBody_iff_of_bypasses (hbypasses : ∀ hop ∈ hops, hop.Bypasses) {body sent : Bytes} :
    ReturnsBody hops body sent ↔ sent = body := by
  have hpasses : ∀ {hop : Hop}, hop.Bypasses → ∀ responses chunks last,
      filterBody last chunks (afterResponses hop.1 responses hop.2) = .ok (chunks ++ [last]) := by
    intro hop hhop responses chunks last
    rw [afterResponses_of_bypass _ _ hhop.decision,
      filterBody_of_rewriter_eq_none hhop.rewriter hhop.suppressBody]
  constructor
  · intro h
    induction h with
    | nil => rfl
    | cons hrest hfilter ih =>
      obtain ⟨hfirst, hothers⟩ := List.forall_mem_cons.1 hbypasses
      obtain rfl := Except.ok.inj ((hpasses hfirst _ _ _).symm.trans hfilter)
      exact ih hothers
  · rintro rfl
    induction hops with
    | nil => exact .nil
    | cons hop hops ih =>
      obtain ⟨hfirst, hothers⟩ := List.forall_mem_cons.1 hbypasses
      -- The body as one chunk.
      have hbytes : (chunkBytes ([] ++ [some sent])).flatten = sent := List.append_nil sent
      have hreturns := ReturnsBody.cons (hbytes.symm ▸ ih hothers)
        (hpasses hfirst [] [] (some sent))
      rwa [hbytes] at hreturns

/-- **A request that is not rewritten is relayed as it is**, by any chain of sidecars: the upstream
gets the method, the query and all headers but the request id; every response comes back to the
client with its status and all headers but the request id; every body comes back byte for byte,
however it is cut on the way; and each sidecar hands on every chunk when it comes, with its context
unchanged. -/
theorem relays_transparent (hcrate : crate.ReadsOriginForm) (h : Relays crate hops request last)
    (hbase : AcceptedHops url hops) (hbypass : ∀ hop ∈ hops, hop.2.decision = .bypass) :
    (last.method = request.method ∧ last.uri.query = request.uri.query ∧
        ∀ name ≠ str "x-request-id", last.values name = request.values name) ∧
      (∀ response, (∃ header, Returns hops response header) ∧
        ∀ header, Returns hops response header → header.status = response.status ∧
          ∀ name ≠ str "x-request-id", header.values name = response.values name) ∧
      (∀ body sent, ReturnsBody hops body sent ↔ sent = body) ∧
      ∀ hop ∈ hops, ∀ responses body endOfStream,
        RewriteProxy.responseBodyFilter body endOfStream (afterResponses hop.1 responses hop.2) =
          { result := .ok body, ctx := hop.2, effects := [] } := by
  have hpath := h.path_eq hcrate hbase
  have hbypasses := h.bypasses hbypass
  refine ⟨⟨hpath.2.2, hpath.2.1, ?_⟩, fun response ↦ ⟨exists_returns hbypasses response,
    fun header hreturns ↦ hreturns.eq_of_bypasses hbypasses⟩,
    fun body sent ↦ returnsBody_iff_of_bypasses hbypasses,
    fun hop hmem ↦ (hbypasses hop hmem).responseBodyFilter_eq⟩
  clear hpath hbypasses
  induction h with
  | nil => exact fun _ _ ↦ rfl
  | cons hpass hforward hrest ih =>
    obtain ⟨⟨value, hvalue⟩, hbases⟩ := List.forall_mem_cons.1 hbase
    obtain ⟨hfirst, hothers⟩ := List.forall_mem_cons.1 hbypass
    have hforwarded := forwarded_of_passes hcrate hvalue hpass hforward
    intro name hname
    rw [ih hbases hothers name hname, hforwarded.values name hname, hfirst]
    rfl

end

/-! ### `HEAD` and `GET` -/

/-- What is rewritten does not depend on which of the two methods reads it. -/
theorem target_decide (policy : RewritePolicy) {get head : Str}
    (hget : eqIgnoreAsciiCase get (str "GET") = true)
    (hhead : eqIgnoreAsciiCase head (str "HEAD") = true) (path : Str) :
    (policy.decide head path).target = (policy.decide get path).target := by
  simp only [RewritePolicy.decide, hget, hhead, Bool.not_true, Bool.and_false, Bool.false_and,
    Bool.or_false]
  split
  · rfl
  rcases policy.namedProxyPath path with - | ⟨name, assetPath⟩
  · rcases policy.jsbundlePath path with - | ⟨extension, profile⟩
    · rcases policy.staticPath path with - | extension
      · rfl
      · rfl
    · rfl
  · rcases hprofile : policy.namedProxyProfile name assetPath with - | profile
    · simp only [hprofile]
    · simp only [hprofile]
      rfl

/-- The two contexts stay alike through responses. -/
theorem ReadsAlike.afterResponses {self : RewriteProxy} {ctx ctx' : RequestContext}
    (h : ReadsAlike ctx ctx') (responses : List ResponseHeader) :
    ReadsAlike (afterResponses self responses ctx) (afterResponses self responses ctx') := by
  induction responses generalizing ctx ctx' with
  | nil => exact h
  | cons response responses ih =>
    obtain ⟨hid, hdecision, hextension, hclient⟩ := responseFilter_keeps self response ctx
    obtain ⟨hid', hdecision', hextension', hclient'⟩ := responseFilter_keeps self response ctx'
    refine ih ⟨?_, ?_, ?_, by rw [hid]; exact h.visible, by rw [hid']; exact h.visible'⟩
    · rw [hdecision, hdecision', h.target]
    · rw [hextension, hextension', h.extension_eq]
    · rw [hclient, hclient', h.clientIfNoneMatch]

/-- **`HEAD` is answered like `GET`, and takes no permit**: for two requests that differ in the
method only, `response_filter` answers every upstream response alike, whatever responses came
before; and a `HEAD` request is let through at once in every state of the semaphores, with no effect
on them and without a pipeline. -/
theorem head_alike_get {self : RewriteProxy} {get head : RequestHeader}
    (hget : eqIgnoreAsciiCase get.method (str "GET") = true)
    (hhead : eqIgnoreAsciiCase head.method (str "HEAD") = true) (hpath : head.path = get.path)
    (hheaders : head.headers = get.headers) {nanos nanos' : BitVec 128}
    {sequence sequence' : UInt64} {ctx ctx' : RequestContext}
    (h : PassesAt self get nanos sequence ctx)
    (h' : PassesAt self head nanos' sequence' ctx') :
    (∀ responses response,
      AlikeResults (self.responseFilter response (afterResponses self responses ctx)).result
        (self.responseFilter response (afterResponses self responses ctx')).result) ∧
      ∀ shared nanos sequence, ∃ ctx'', self.requestFilter shared head (newCtx nanos sequence) =
        .returned { result := .ok false, ctx := ctx'', effects := [] } ∧
        ctx''.rewriter = none ∧ ctx''.activePermit = false := by
  obtain ⟨-, hdecision, hclient, hextension, -⟩ := h.read
  obtain ⟨-, hdecision', hclient', hextension', -⟩ := h'.read
  have htarget : ctx.decision.target = ctx'.decision.target := by
    rw [hdecision, hdecision', hpath, target_decide self.policy hget hhead]
  constructor
  · have halike : ReadsAlike ctx ctx' := by
      refine ⟨htarget, ?_, ?_, h.isRequestId.visible, h'.isRequestId.visible⟩
      · rw [hextension, hextension', htarget]
      · rw [hclient, hclient', hheaders]
    exact fun responses response ↦
      responseFilter_alike self (halike.afterResponses responses) response
  · intro shared nanos sequence
    have hnot : ∀ {profile extension}, (self.readRequest head (newCtx nanos sequence)).decision ≠
        .rewrite profile extension false := by
      intro profile extension hrewrite
      have hmethod : self.config.policyConfig.policy.decide head.method head.path = _ := hrewrite
      by_cases hguard : self.config.policyConfig.root = [] ∨ ¬ PolicyConfig.IsRead head.method
      · exact absurd ((PolicyConfig.decide_eq_bypass hguard _).symm.trans hmethod) (by simp)
      · have hfalse := ((PolicyConfig.decide_eq_rewrite_iff hguard).1 hmethod).1
        rw [hhead] at hfalse
        exact absurd hfalse (by decide)
    have hfiltered := self.filtered_requestFilter shared head (newCtx nanos sequence)
    generalize self.requestFilter shared head (newCtx nanos sequence) = progress at hfiltered
    cases hfiltered with
    | bypass => exact ⟨_, rfl, rfl, rfl⟩
    | headOnly => exact ⟨_, rfl, rfl, rfl⟩
    | admitted hrewrite => exact absurd hrewrite hnot
    | queued hrewrite => exact absurd hrewrite hnot
    | rejected hrewrite => exact absurd hrewrite hnot

/-! ### Chains of one sidecar -/

/-- A request goes through any number of sidecars with free permits, when no URI is refused. -/
theorem exists_relays {crate : UriCrate} (hcrate : crate.ReadsOriginForm)
    (hparse : ∀ {text cause}, IsOriginForm text → crate.parse text ≠ .error cause) {url : UrlCrate}
    (proxies : List RewriteProxy) (hproxies : ∀ self ∈ proxies,
      0 < self.config.maxConcurrent.val ∧
        ∃ value, normalizeBasePath url value = .ok self.config.basePath)
    (request : UpstreamRequest) :
    ∃ hops last, Relays crate hops request last ∧ hops.map (·.1) = proxies := by
  induction proxies generalizing request with
  | nil => exact ⟨[], request, .nil, rfl⟩
  | cons self proxies ih =>
    obtain ⟨⟨hpermit, value, hvalue⟩, hproxies⟩ := List.forall_mem_cons.1 hproxies
    obtain ⟨ctx, hpass⟩ := exists_passesAt self request.header 0 0 hpermit
    cases heq : self.upstreamRequestFilter crate request ctx with
    | ok forwarded =>
      obtain ⟨hops, last, hrest, hmap⟩ := ih hproxies forwarded
      exact ⟨(self, ctx) :: hops, last, .cons hpass heq hrest, by rw [List.map_cons, hmap]⟩
    | error error =>
      obtain ⟨-, hform, cause, herror, -⟩ :=
        refused_of_upstreamRequestFilter hcrate hvalue hpass.isRequestId.visible heq
      exact absurd herror (hparse hform)

/-- The API request through some copies of one sidecar. -/
theorem exists_relays_api (count : ℕ) : ∃ hops last, Relays .originForm hops apiRequest last ∧
    hops.length = count ∧ AcceptedHops .unreserved hops ∧ ∀ hop ∈ hops, hop.1 = regionsProxy := by
  obtain ⟨hops, last, hrelays, hmap⟩ := exists_relays UriCrate.originForm_readsOriginForm
    (fun hform ↦ UriCrate.originForm_parse_ne hform) (List.replicate count regionsProxy)
    (fun self hself ↦ ⟨by rw [List.eq_of_mem_replicate hself]; decide, str "/regions/r1/",
      by rw [List.eq_of_mem_replicate hself]; exact normalizeBasePath_unreserved⟩) apiRequest
  have hall : ∀ hop ∈ hops, hop.1 = regionsProxy := fun hop hmem ↦
    List.eq_of_mem_replicate (hmap ▸ List.mem_map_of_mem hmem)
  refine ⟨hops, last, hrelays, ?_, fun hop hmem ↦ ⟨str "/regions/r1/", ?_⟩, hall⟩
  · rw [← List.length_map (·.1), hmap, List.length_replicate]
  · rw [hall hop hmem]
    exact normalizeBasePath_unreserved

/-- Three sidecars add the base path once. -/
theorem relays_path_api : ∃ hops last, Relays .originForm hops apiRequest last ∧
    hops.length = 3 ∧
    last.uri.path = str "/regions/r1/kapis/tenant.kubesphere.io/v1alpha2/workspaces" := by
  obtain ⟨hops, last, hrelays, hlength, -, hall⟩ := exists_relays_api 3
  have hne : hops ≠ [] := List.ne_nil_of_length_eq_add_one hlength
  have hpath := relays_path UriCrate.originForm_readsOriginForm hrelays
    normalizeBasePath_unreserved (fun hop hmem ↦ by rw [hall hop hmem]; rfl) hne
  exact ⟨hops, last, hrelays, hlength, hpath.1.trans (by decide)⟩

/-- The API request is rewritten nowhere, with the base path or without it. -/
theorem bypass_of_relays_api {hops : List Hop} {request last : UpstreamRequest}
    (h : Relays .originForm hops request last) (haccepted : AcceptedHops .unreserved hops)
    (hall : ∀ hop ∈ hops, hop.1 = regionsProxy) (hmethod : request.method = str "GET")
    (hpath : request.uri.path = apiRequest.uri.path ∨
      request.uri.path = scopedPath (str "/regions/r1") apiRequest.uri.path) :
    ∀ hop ∈ hops, hop.2.decision = .bypass := by
  induction h with
  | nil => exact fun hop hmem ↦ absurd hmem List.not_mem_nil
  | @cons self ctx nanos sequence request forwarded last hops hpass hforward hrest ih =>
    obtain ⟨⟨value, hvalue⟩, hbases⟩ := List.forall_mem_cons.1 haccepted
    obtain ⟨hself, hselves⟩ := List.forall_mem_cons.1 hall
    obtain rfl : self = regionsProxy := hself
    have hforwarded := forwarded_of_passes UriCrate.originForm_readsOriginForm hvalue hpass hforward
    refine List.forall_mem_cons.2 ⟨?_, ih hbases hselves (hforwarded.method.trans hmethod) ?_⟩
    · show ctx.decision = .bypass
      have hmethod' : request.header.method = str "GET" := hmethod
      rcases hpath with hpath | hpath
      · have hpath' : request.header.path = apiRequest.uri.path := hpath
        rw [hpass.read.2.1, hmethod', hpath']
        decide +kernel
      · have hpath' : request.header.path = _ := hpath
        rw [hpass.read.2.1, hmethod', hpath']
        decide +kernel
    · have hbasePath : regionsProxy.config.basePath = str "/regions/r1" := rfl
      refine Or.inr (hforwarded.path.trans ?_)
      rcases hpath with hpath | hpath
      · rw [hpath, hbasePath]
      · rw [hpath, hbasePath, scopedPath_scopedPath]

/-- The answer to the API request. -/
def apiResponse : ResponseHeader where
  status := 200
  headers := [(str "content-type", ⟨bytes "application/json", by decide⟩)]

/-- Three sidecars work under one request id, which the client gets with the answer. -/
theorem relays_requestId_api : ∃ hops last id header, Relays .originForm hops apiRequest last ∧
    hops.length = 3 ∧ (∀ hop ∈ hops, hop.2.requestId = id) ∧
    last.values (str "x-request-id") = [id.asBytes] ∧ Returns hops apiResponse header ∧
    header.values (str "x-request-id") = [id.asBytes] := by
  obtain ⟨hops, last, hrelays, hlength, haccepted, hall⟩ := exists_relays_api 3
  have hbypass := bypass_of_relays_api hrelays haccepted hall rfl (Or.inl rfl)
  obtain ⟨header, hreturns⟩ := exists_returns (hrelays.bypasses hbypass) apiResponse
  obtain ⟨id, -, hhops, hlast, -, hback⟩ := relays_requestId UriCrate.originForm_readsOriginForm
    hrelays haccepted (List.ne_nil_of_length_eq_add_one hlength)
  exact ⟨hops, last, id, header, hrelays, hlength, hhops, hlast, hreturns,
    hback _ _ hreturns⟩

/-- Three sidecars relay the API request, and the answer with its body, which each of them hands on
chunk by chunk behind early hints. -/
theorem relays_transparent_api : ∃ hops last header, Relays .originForm hops apiRequest last ∧
    hops.length = 3 ∧ last.method = str "GET" ∧ last.uri.query = some (str "limit=20") ∧
    Returns hops apiResponse header ∧ header.status = 200 ∧
    header.values (str "content-type") = [bytes "application/json"] ∧
    ReturnsBody hops (bytes "[]") (bytes "[]") ∧
    ∀ hop ∈ hops, filterBody none [some (bytes "["), some (bytes "]")]
      (afterResponses hop.1 [earlyHints, apiResponse] hop.2) =
        .ok [some (bytes "["), some (bytes "]"), none] := by
  obtain ⟨hops, last, hrelays, hlength, haccepted, hall⟩ := exists_relays_api 3
  have hbypass := bypass_of_relays_api hrelays haccepted hall rfl (Or.inl rfl)
  obtain ⟨⟨hmethod, hquery, -⟩, hresponses, hbodies, hchunks⟩ :=
    relays_transparent UriCrate.originForm_readsOriginForm hrelays haccepted hbypass
  obtain ⟨⟨header, hreturns⟩, hsame⟩ := hresponses apiResponse
  obtain ⟨hstatus, hvalues⟩ := hsame header hreturns
  refine ⟨hops, last, header, hrelays, hlength, hmethod, hquery, hreturns, hstatus,
    (hvalues _ (by decide)).trans (by decide), (hbodies _ _).2 rfl, fun hop hmem ↦ ?_⟩
  have hctx := afterResponses_of_bypass hop.1 [earlyHints, apiResponse] (hbypass hop hmem)
  have hstep := hchunks hop hmem [earlyHints, apiResponse]
  rw [hctx] at hstep ⊢
  simp only [filterBody, hstep]
  rfl

/-- A `HEAD` request for the script of Kubekey. -/
def kubekeyHead : RequestHeader :=
  { kubekeyRequest with method := str "HEAD" }

/-- The script is answered alike, with and without a body. -/
theorem head_alike_get_script : ∃ ctx ctx', PassesAt regionsProxy kubekeyRequest 0 0 ctx ∧
    PassesAt regionsProxy kubekeyHead 1 1 ctx' ∧
    AlikeResults (regionsProxy.responseFilter scriptResponse ctx).result
      (regionsProxy.responseFilter scriptResponse ctx').result := by
  obtain ⟨ctx, hpass⟩ := exists_passesAt regionsProxy kubekeyRequest 0 0 (by decide)
  obtain ⟨ctx', hpass'⟩ := exists_passesAt regionsProxy kubekeyHead 1 1 (by decide)
  have hhead : eqIgnoreAsciiCase kubekeyHead.method (str "HEAD") = true := by decide
  have hpath : kubekeyHead.path = kubekeyRequest.path := rfl
  exact ⟨ctx, ctx', hpass, hpass',
    (head_alike_get (by decide) hhead hpath rfl hpass hpass').1 [] scriptResponse⟩

end KseRewriteProxy
