import KseRewriteProxy.Proxy.Representation
import KseRewriteProxy.Config.Effective
import KseRewriteProxy.Rewrite.ChunkIndependence

/-!
# The hooks of the proxy

`KseRewriteProxy` of `proxy.rs`: what its hooks do with the context of one request.

A hook is a function from the context to a result, the new context, and the effects that it has on
what the requests share: the two semaphores and the two gauges. The code between two awaits of a
hook is one function. `request_filter` awaits a permit in between, so it has two:
`RewriteProxy.requestFilter`, and `RewriteProxy.requestFilterWoken` for the rest.

A guard that is dropped is an effect, too. The permits and the guards of the gauges are fields of
the context in the source, so assigning `None` to such a field gives back what it held. The model
keeps whether they are there, and lists what dropping them does where the source drops them.

`Filtered` is the inversion of `request_filter`: its five exits, each with what it has done to the
context. All later results about the hook go through it.
-/

namespace KseRewriteProxy

open Text

/-! ### What the requests share -/

/-- `Admission` and the two gauges of `Metrics`. -/
structure Shared where
  /-- The available permits of `active`. -/
  activePermits : ℕ
  /-- The available permits of `queued`. -/
  queuedPermits : ℕ
  activeGauge : ℤ
  queuedGauge : ℤ
  deriving DecidableEq

/-- An effect of a hook on what the requests share. -/
inductive Effect where
  | acquireActive
  | releaseActive
  | acquireQueued
  | releaseQueued
  | incActive
  | decActive
  | incQueued
  | decQueued
  deriving DecidableEq

/-- One effect. -/
def Shared.apply (shared : Shared) : Effect → Shared
  | .acquireActive => { shared with activePermits := shared.activePermits - 1 }
  | .releaseActive => { shared with activePermits := shared.activePermits + 1 }
  | .acquireQueued => { shared with queuedPermits := shared.queuedPermits - 1 }
  | .releaseQueued => { shared with queuedPermits := shared.queuedPermits + 1 }
  | .incActive => { shared with activeGauge := shared.activeGauge + 1 }
  | .decActive => { shared with activeGauge := shared.activeGauge - 1 }
  | .incQueued => { shared with queuedGauge := shared.queuedGauge + 1 }
  | .decQueued => { shared with queuedGauge := shared.queuedGauge - 1 }

/-- Effects in their order. -/
def Shared.applyAll (shared : Shared) (effects : List Effect) : Shared :=
  effects.foldl Shared.apply shared

/-! ### The context of a request -/

/-- `RequestContext`. -/
structure RequestContext where
  requestId : Str
  method : Str
  path : Str
  extension : Option Str
  decision : RewriteDecision
  rewriter : Option StreamingRewritePipeline
  /-- The permit of `active` is held. -/
  activePermit : Bool
  clientIfNoneMatch : Option HeaderValue
  suppressBody : Bool
  inputBytes : ℕ
  outputBytes : ℕ
  outcome : Str

/-- What a hook returns, the context that it leaves, and its effects. -/
structure HookResult (α : Type) where
  result : Except ProxyError α
  ctx : RequestContext
  effects : List Effect

/-- A response that the proxy writes itself. -/
structure WrittenResponse where
  header : ResponseHeader
  body : Bytes

/-- How far `request_filter` has come. -/
inductive RequestProgress where
  /-- It has returned. -/
  | returned (result : HookResult Bool)
  /-- It holds a queue slot and awaits a permit. -/
  | queued (profile : RewriteProfile) (extension : Str) (ctx : RequestContext)
    (effects : List Effect)
  /-- It writes a response and then ends the request. -/
  | responding (response : WrittenResponse) (ctx : RequestContext)

/-- How far `admit_rewrite` has come. -/
inductive AdmissionProgress where
  | admitted (ctx : RequestContext) (effects : List Effect)
  | queued (ctx : RequestContext) (effects : List Effect)
  | rejected (ctx : RequestContext)

/-- The labels and counts that `logging` reports. -/
structure LogRecord where
  outcome : Str
  metricsExtension : Str
  inputBytes : ℕ
  outputBytes : ℕ
  deriving DecidableEq

/-- The digits of `{:x}`. -/
def hexDigits (n : ℕ) : Str :=
  Nat.toDigits 16 n

/-- `new_request_id`, at a time and with a sequence number. -/
def newRequestId (nanos sequence : ℕ) : Str :=
  str "kserw-" ++ hexDigits nanos ++ str "-" ++ hexDigits sequence

/-- `new_ctx`. -/
def newCtx (nanos sequence : ℕ) : RequestContext where
  requestId := newRequestId nanos sequence
  method := []
  path := []
  extension := none
  decision := .bypass
  rewriter := none
  activePermit := false
  clientIfNoneMatch := none
  suppressBody := false
  inputBytes := 0
  outputBytes := 0
  outcome := str "bypass"

/-! ### Admission -/

/-- `admit_rewrite` up to its await. -/
def admitRewrite (shared : Shared) (ctx : RequestContext) : AdmissionProgress :=
  if 0 < shared.activePermits then
    .admitted { ctx with activePermit := true } [.acquireActive, .incActive]
  else if 0 < shared.queuedPermits then
    .queued { ctx with outcome := str "queued" } [.acquireQueued, .incQueued]
  else .rejected { ctx with outcome := str "queue_full" }

/-- `stop_rewrite`. -/
def stopRewrite (ctx : RequestContext) (outcome : Str) : RequestContext × List Effect :=
  ({ ctx with rewriter := none, outcome := outcome, activePermit := false },
    if ctx.activePermit then [.releaseActive, .decActive] else [])

/-- What `write_response` sends. -/
def writeResponse (status : ℕ) (contentType : Str) (body : Bytes)
    (extraHeader : Option (Str × Str)) : Except ProxyError WrittenResponse := do
  let response : ResponseHeader := { status := status, headers := [] }
  let response ← response.insertHeader (str "content-type") contentType.asBytes
  let response ← response.insertHeader (str "content-length")
    (Str.asBytes (Nat.toDigits 10 body.length))
  let response ← match extraHeader with
    | some (name, value) => response.insertHeader name value.asBytes
    | none => pure response
  return { header := response, body := body }

theorem status_of_writeResponse {status : ℕ} {contentType : Str} {body : Bytes}
    {extraHeader : Option (Str × Str)} {response : WrittenResponse}
    (h : writeResponse status contentType body extraHeader = .ok response) :
    response.header.status = status := by
  cases extraHeader with
  | none =>
    simp only [writeResponse, bind_eq_ok_iff] at h
    obtain ⟨first, hfirst, second, hsecond, third, hthird, h⟩ := h
    obtain rfl := Except.ok.inj h
    obtain rfl := Except.ok.inj hthird
    rw [ResponseHeader.status_of_insertHeader hsecond, ResponseHeader.status_of_insertHeader hfirst]
  | some field =>
    simp only [writeResponse, bind_eq_ok_iff] at h
    obtain ⟨first, hfirst, second, hsecond, third, hthird, h⟩ := h
    obtain rfl := Except.ok.inj h
    rw [ResponseHeader.status_of_insertHeader hthird,
      ResponseHeader.status_of_insertHeader hsecond, ResponseHeader.status_of_insertHeader hfirst]

/-- The response to a request that finds the queue full. -/
def queueFullResponse : Except ProxyError WrittenResponse :=
  writeResponse 503 (str "text/plain; charset=utf-8") (bytes "rewrite queue is full\n")
    (some (str "retry-after", str "1"))

/-- `metrics_extension_label`. -/
def RewritePolicy.metricsExtensionLabel (self : RewritePolicy) (profile : RewriteProfile)
    (extension : Str) : Str :=
  match profile with
  | .kubekeyAssetJs => str "kubekey-assets"
  | .namedProxyHtml => str "proxy-html"
  | .ys1000Html => str "ys1000-html"
  | .consoleV3 | .frontendIndexJsBundle | .ys1000FrontendIndexJsBundle | .jsBundle =>
    match self.extensions with
    | .all => allExtensionsWildcard
    | .allowlist _ => extension

/-- `KseRewriteProxy`, with the crates that it calls. -/
structure RewriteProxy where
  config : EffectiveConfig
  codec : MetadataCodec
  crates : DigestCrates

namespace RewriteProxy

variable (self : RewriteProxy)

/-- The field `policy`, which `new` takes from the configuration. -/
def policy : RewritePolicy :=
  self.config.rewritePolicy

/-- The semaphores and gauges of `new`. -/
def initialShared : Shared where
  activePermits := self.config.maxConcurrent.val
  queuedPermits := self.config.maxQueued.val
  activeGauge := 0
  queuedGauge := 0

/-! ### `request_filter` -/

/-- What `request_filter` reads of the request, with the decision. -/
def readRequest (request : RequestHeader) (ctx : RequestContext) : RequestContext :=
  let requestId := ((request.headers.get (str "x-request-id")).bind HeaderValue.toStr).filter
    fun value ↦ !value.isEmpty && value.asBytes.length ≤ 128
  { ctx with
    method := request.method
    path := request.path
    requestId := requestId.getD ctx.requestId
    clientIfNoneMatch := request.headers.get (str "if-none-match")
    decision := self.policy.decide request.method request.path }

/-- The end of `request_filter`: the pipeline of an admitted request. -/
def startRewrite (profile : RewriteProfile) (extension : Str) (ctx : RequestContext)
    (effects : List Effect) : HookResult Bool :=
  match buildSelectedResponseRewriter self.codec profile self.config.basePath extension
    self.config.maxDecodedBytes with
  | .ok rewriter =>
    { result := .ok false, ctx := { ctx with rewriter := some rewriter }, effects := effects }
  | .error cause =>
    { result := .error (.internalError (str "failed to initialize rewrite pipeline") cause)
      ctx := ctx
      effects := effects }

/-- `request_filter` up to its await. -/
def requestFilter (shared : Shared) (request : RequestHeader) (ctx : RequestContext) :
    RequestProgress :=
  let ctx := self.readRequest request ctx
  match ctx.decision with
  | .bypass => .returned { result := .ok false, ctx := ctx, effects := [] }
  | .rewrite profile extension headOnly =>
    let ctx := { ctx with extension := some extension, outcome := str "rewrite" }
    if headOnly then .returned { result := .ok false, ctx := ctx, effects := [] }
    else
      match admitRewrite shared ctx with
      | .admitted ctx effects => .returned (self.startRewrite profile extension ctx effects)
      | .queued ctx effects => .queued profile extension ctx effects
      | .rejected ctx =>
        match queueFullResponse with
        | .ok response => .responding response ctx
        | .error error => .returned { result := .error error, ctx := ctx, effects := [] }

/-- `request_filter` from its await on, when a permit has been acquired. -/
def requestFilterWoken (profile : RewriteProfile) (extension : Str) (ctx : RequestContext) :
    HookResult Bool :=
  self.startRewrite profile extension { ctx with activePermit := true }
    [.releaseQueued, .decQueued, .incActive]

/-! ### `response_filter` -/

/-- The headers that describe the upstream representation. -/
def representationHeaders : List Str :=
  [str "content-length", str "content-encoding", str "content-md5", str "content-digest",
    str "repr-digest", str "digest", str "content-range", str "last-modified",
    str "accept-ranges"]

/-- The headers of a response that is rewritten. -/
def stripRepresentation (response : ResponseHeader) : Except ProxyError ResponseHeader := do
  let response := representationHeaders.foldl ResponseHeader.removeHeader response
  let response ← response.insertHeader (str "accept-ranges") (bytes "none")
  ensureVaryAcceptEncoding response

/-- `derived_etag` of `response_filter`. -/
def derivedEtag (response : ResponseHeader) (ctx : RequestContext) : Option Str :=
  ((response.headers.get (str "etag")).bind reliableEtag).map fun etag ↦
    deriveEtag self.crates etag self.config.basePath (ctx.extension.getD [])

/-- The end of `response_filter`, when the response is rewritten. -/
def finishHeaders (derivedEtag : Option Str) (response : ResponseHeader) (ctx : RequestContext) :
    HookResult ResponseHeader :=
  match derivedEtag with
  | some etag =>
    match response.insertHeader (str "etag") etag.asBytes with
    | .error error => { result := .error error, ctx := ctx, effects := [] }
    | .ok response =>
      if ifNoneMatchMatches ctx.clientIfNoneMatch etag then
        let (ctx, effects) :=
          stopRewrite { ctx with suppressBody := true, rewriter := none } (str "not_modified")
        { result := .ok (ResponseHeader.removeHeader { response with status := 304 }
            (str "content-type"))
          ctx := ctx
          effects := effects }
      else { result := .ok response, ctx := ctx, effects := [] }
  | none =>
    { result := (response.removeHeader (str "etag")).insertHeader (str "cache-control")
        (bytes "no-store")
      ctx := ctx
      effects := [] }

/-- `response_filter`. -/
def responseFilter (upstreamResponse : ResponseHeader) (ctx : RequestContext) :
    HookResult ResponseHeader :=
  match upstreamResponse.insertHeader (str "x-request-id") ctx.requestId.asBytes with
  | .error error => { result := .error error, ctx := ctx, effects := [] }
  | .ok response =>
    match ctx.decision with
    | .bypass => { result := .ok response, ctx := ctx, effects := [] }
    | .rewrite profile _ _ =>
      if response.status ≠ 200 then
        let (ctx, effects) := stopRewrite ctx (str "upstream_status_bypass")
        { result := .ok response, ctx := ctx, effects := effects }
      else if !isRewritableContentType profile (response.headers.get (str "content-type")) then
        let (ctx, effects) := stopRewrite ctx (str "invalid_content_type")
        { result :=
            if selectsHtmlByResponseContentType profile then .ok response
            else .error (.httpStatus 502
              (str "target rewrite response has a non-text Content-Type") none)
          ctx := ctx
          effects := effects }
      else if !isIdentityEncoding (response.headers.get (str "content-encoding")) then
        let (ctx, effects) := stopRewrite ctx (str "unexpected_content_encoding")
        { result := .error (.httpStatus 502
            (str "target rewrite response was not decoded by the upstream") none)
          ctx := ctx
          effects := effects }
      else
        match stripRepresentation response with
        | .error error => { result := .error error, ctx := ctx, effects := [] }
        | .ok stripped => finishHeaders (self.derivedEtag response ctx) stripped ctx

/-! ### `response_body_filter` and `logging` -/

/-- The error of a rewrite. -/
def rewriteFailed (cause : RewriteError) : ProxyError :=
  .httpStatus 502 (str "response rewrite failed") (some cause)

/-- `response_body_filter`. -/
def responseBodyFilter (body : Option Bytes) (endOfStream : Bool) (ctx : RequestContext) :
    HookResult (Option Bytes) :=
  if ctx.suppressBody then { result := .ok none, ctx := ctx, effects := [] }
  else
    match ctx.rewriter with
    | none => { result := .ok body, ctx := ctx, effects := [] }
    | some rewriter =>
      let input := body.getD []
      let ctx := { ctx with inputBytes := ctx.inputBytes + input.length }
      let (pushed, rewriter) := rewriter.push input
      let (finished, rewriter) :=
        match pushed with
        | .ok _ => if endOfStream then rewriter.finish else (.ok [], rewriter)
        | .error _ => (.ok [], rewriter)
      let ctx := { ctx with rewriter := some rewriter }
      match pushed, finished with
      | .error cause, _ => { result := .error (rewriteFailed cause), ctx := ctx, effects := [] }
      | _, .error cause => { result := .error (rewriteFailed cause), ctx := ctx, effects := [] }
      | .ok pushed, .ok finished =>
        let output := pushed ++ finished
        { result := .ok (if output.isEmpty then none else some output)
          ctx := { ctx with outputBytes := ctx.outputBytes + output.length }
          effects := [] }

/-- `logging`. -/
def logging (failed : Bool) (ctx : RequestContext) : LogRecord × RequestContext × List Effect :=
  let effects : List Effect := if ctx.activePermit then [.releaseActive, .decActive] else []
  let metricsExtension :=
    match ctx.decision, ctx.extension with
    | .rewrite profile _ _, some extension =>
      self.policy.metricsExtensionLabel profile extension
    | _, _ => str "none"
  ({ outcome := if failed then str "error" else ctx.outcome
     metricsExtension := metricsExtension
     inputBytes := ctx.inputBytes
     outputBytes := ctx.outputBytes },
    { ctx with activePermit := false }, effects)

/-! ### What `request_filter` does -/

/-- The context of a request with a rewrite decision. -/
def rewriteCtx (request : RequestHeader) (ctx : RequestContext) (extension : Str) :
    RequestContext :=
  { self.readRequest request ctx with extension := some extension, outcome := str "rewrite" }

/-- The ways in which `request_filter` goes up to its await. -/
inductive Filtered (shared : Shared) (request : RequestHeader) (ctx : RequestContext) :
    RequestProgress → Prop
  | bypass (hdecision : (self.readRequest request ctx).decision = .bypass) :
    Filtered shared request ctx
      (.returned { result := .ok false, ctx := self.readRequest request ctx, effects := [] })
  | headOnly {profile : RewriteProfile} {extension : Str}
    (hdecision : (self.readRequest request ctx).decision = .rewrite profile extension true) :
    Filtered shared request ctx
      (.returned
        { result := .ok false, ctx := self.rewriteCtx request ctx extension, effects := [] })
  | admitted {profile : RewriteProfile} {extension : Str}
    (hdecision : (self.readRequest request ctx).decision = .rewrite profile extension false)
    (hpermit : 0 < shared.activePermits) :
    Filtered shared request ctx
      (.returned (self.startRewrite profile extension
        { self.rewriteCtx request ctx extension with activePermit := true }
        [.acquireActive, .incActive]))
  | queued {profile : RewriteProfile} {extension : Str}
    (hdecision : (self.readRequest request ctx).decision = .rewrite profile extension false)
    (hpermit : shared.activePermits = 0) (hslot : 0 < shared.queuedPermits) :
    Filtered shared request ctx
      (.queued profile extension
        { self.rewriteCtx request ctx extension with outcome := str "queued" }
        [.acquireQueued, .incQueued])
  | rejected {profile : RewriteProfile} {extension : Str} {response : WrittenResponse}
    (hdecision : (self.readRequest request ctx).decision = .rewrite profile extension false)
    (hpermit : shared.activePermits = 0) (hslot : shared.queuedPermits = 0)
    (hresponse : queueFullResponse = .ok response) :
    Filtered shared request ctx
      (.responding response
        { self.rewriteCtx request ctx extension with outcome := str "queue_full" })

/-- **Every call of `request_filter` goes one of these ways.** -/
theorem filtered_requestFilter (shared : Shared) (request : RequestHeader)
    (ctx : RequestContext) :
    self.Filtered shared request ctx (self.requestFilter shared request ctx) := by
  rw [requestFilter]
  simp only
  cases hdecision : (self.readRequest request ctx).decision with
  | bypass => exact .bypass hdecision
  | rewrite profile extension headOnly =>
    cases headOnly with
    | true =>
      have h : self.Filtered shared request ctx _ := .headOnly hdecision
      rwa [rewriteCtx, hdecision] at h
    | false =>
      simp only [Bool.false_eq_true, if_false]
      rw [admitRewrite]
      by_cases hpermit : 0 < shared.activePermits
      · have h := Filtered.admitted hdecision hpermit
        rw [if_pos hpermit]
        rwa [rewriteCtx, hdecision] at h
      rw [if_neg hpermit]
      by_cases hslot : 0 < shared.queuedPermits
      · have h := Filtered.queued hdecision (Nat.eq_zero_of_not_pos hpermit) hslot
        rw [if_pos hslot]
        rwa [rewriteCtx, hdecision] at h
      rw [if_neg hslot]
      obtain ⟨response, hresponse⟩ : ∃ response, queueFullResponse = .ok response := ⟨_, rfl⟩
      have h := Filtered.rejected hdecision (Nat.eq_zero_of_not_pos hpermit)
        (Nat.eq_zero_of_not_pos hslot) hresponse
      rw [hresponse]
      rwa [rewriteCtx, hdecision] at h

/-- With a free permit a request is admitted. -/
theorem requestFilter_admitted (shared : Shared) {request : RequestHeader} (ctx : RequestContext)
    {profile : RewriteProfile} {extension : Str}
    (hdecision : self.policy.decide request.method request.path =
      .rewrite profile extension false) (hpermit : 0 < shared.activePermits) :
    self.requestFilter shared request ctx =
      .returned (self.startRewrite profile extension
        { self.rewriteCtx request ctx extension with activePermit := true }
        [.acquireActive, .incActive]) := by
  have hread : (self.readRequest request ctx).decision = _ := hdecision
  have hfiltered := self.filtered_requestFilter shared request ctx
  generalize self.requestFilter shared request ctx = progress at hfiltered
  cases hfiltered with
  | bypass h => exact nomatch hread.symm.trans h
  | headOnly h => exact nomatch hread.symm.trans h
  | admitted h =>
    obtain ⟨rfl, rfl, -⟩ := RewriteDecision.rewrite.inj (h.symm.trans hread)
    rfl
  | queued h hnone => exact absurd hnone (Nat.ne_of_gt hpermit)
  | rejected h hnone => exact absurd hnone (Nat.ne_of_gt hpermit)

/-- Without a free permit a request waits for one in a free queue slot. -/
theorem requestFilter_queued (shared : Shared) {request : RequestHeader} (ctx : RequestContext)
    {profile : RewriteProfile} {extension : Str}
    (hdecision : self.policy.decide request.method request.path =
      .rewrite profile extension false) (hpermit : shared.activePermits = 0)
    (hslot : 0 < shared.queuedPermits) :
    self.requestFilter shared request ctx =
      .queued profile extension
        { self.rewriteCtx request ctx extension with outcome := str "queued" }
        [.acquireQueued, .incQueued] := by
  have hread : (self.readRequest request ctx).decision = _ := hdecision
  have hfiltered := self.filtered_requestFilter shared request ctx
  generalize self.requestFilter shared request ctx = progress at hfiltered
  cases hfiltered with
  | bypass h => exact nomatch hread.symm.trans h
  | headOnly h => exact nomatch hread.symm.trans h
  | admitted h hsome => exact absurd hpermit (Nat.ne_of_gt hsome)
  | queued h =>
    obtain ⟨rfl, rfl, -⟩ := RewriteDecision.rewrite.inj (h.symm.trans hread)
    rfl
  | rejected h _ hnone => exact absurd hnone (Nat.ne_of_gt hslot)

theorem startRewrite_ctx (profile : RewriteProfile) (extension : Str) (ctx : RequestContext)
    (effects : List Effect) :
    (self.startRewrite profile extension ctx effects).ctx.activePermit = ctx.activePermit ∧
      (self.startRewrite profile extension ctx effects).effects = effects := by
  rw [startRewrite]
  split <;> exact ⟨rfl, rfl⟩

/-- The pipeline of an admitted request is always built. -/
theorem startRewrite_eq (profile : RewriteProfile) (extension : Str) (ctx : RequestContext)
    (effects : List Effect) :
    ∃ rewriter, self.startRewrite profile extension ctx effects =
      { result := .ok false, ctx := { ctx with rewriter := some rewriter },
        effects := effects } := by
  rw [startRewrite, buildSelectedResponseRewriter_eq]
  exact ⟨_, rfl⟩

end RewriteProxy

/-! ### A sidecar -/

/-- A sidecar below `/regions/r1` for all extensions and rules, with one permit and one queue
slot. -/
def regionsProxy : RewriteProxy where
  config :=
    { basePath := str "/regions/r1"
      listen := { ip := .v4 0, port := 8080 }
      adminListen := { ip := .v4 0, port := 9090 }
      upstream := { ip := .v4 0x7F000001, port := 8000 }
      enabledExtensions := [allExtensionsWildcard]
      disabledExtensions := []
      enabledRules := RewriteRule.all.toFinset
      maxDecodedBytes := ⟨1024, by decide⟩
      maxConcurrent := ⟨1, by decide⟩
      maxQueued := ⟨1, by decide⟩ }
  codec := .empty
  crates := .ofHash recordedBlake3

/-- A request for an asset of Kubekey. -/
def kubekeyRequest : RequestHeader where
  method := str "GET"
  path := str "/regions/r1/proxy/kubekey/assets/app.js"
  headers := []

/-- The request is rewritten as a script of Kubekey. -/
theorem decide_kubekeyRequest :
    regionsProxy.policy.decide kubekeyRequest.method kubekeyRequest.path =
      .rewrite .kubekeyAssetJs kubekeyName false := by
  decide +kernel

end KseRewriteProxy
