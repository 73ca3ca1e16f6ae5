import KseRewriteProxy.Proxy.Hooks
import KseRewriteProxy.Rewrite.Idempotence

/-!
# Headers and bodies agree

A response passes `response_filter` once for each interim response and once for the final one, and
then its body passes `response_body_filter` chunk by chunk. `Treatment` names what the header says
about the body, `responseFilter_treats` that the hook treats a response so, and `Agrees` that
the body that is sent is what the header says.

## What the two hooks share

They share the context: a header that is relayed has dropped the pipeline (`stopRewrite`), one that
is rewritten has left it there, and a 304 has set the flag that suppresses the body. So for a single
response the body agrees with the header, chunk by chunk (`run_of_filterBody`,
`filterBody_of_rewriter_eq_none`, `filterBody_of_suppressBody`).

## Where they disagree

An interim response has a status other than 200 and is therefore relayed, which drops the pipeline,
although no body belongs to it (`filterInterims_of_ready`). The treatment of the final response does
not look at the pipeline, so its header may promise a rewritten body that nothing makes any more.
`agrees_iff` says that this is the only disagreement: header and body agree for every body exactly
if no interim response comes before a final response that is rewritten.
-/

namespace KseRewriteProxy

open Text Text.Utf8 Streaming StreamingRewritePipeline

/-! ### Texts of the proxy itself -/

theorem visible_hexDigits (n : ℕ) : Visible (hexDigits n) := by
  have hdigit : ∀ d : ℕ, d < 16 → Visible [d.digitChar] := by
    have hall : ∀ d : Fin 16, 0x20 ≤ (d.val.digitChar).toNat ∧ (d.val.digitChar).toNat < 0x7F := by
      decide
    intro d hd c hc
    rw [List.mem_singleton.1 hc]
    exact Or.inl (hall ⟨d, hd⟩)
  induction n using Nat.strong_induction_on with
  | _ n ih =>
    rw [hexDigits, Nat.toDigits_eq_if (by decide)]
    split
    · exact hdigit n (by assumption)
    · exact (ih (n / 16) (by omega)).append (hdigit _ (Nat.mod_lt _ (by decide)))

theorem visible_newRequestId (nanos sequence : ℕ) : Visible (newRequestId nanos sequence) := by
  rw [newRequestId]
  exact (((visible_str (by decide)).append (visible_hexDigits nanos)).append
    (visible_str (by decide))).append (visible_hexDigits sequence)

/-! ### Admitted requests -/

section

variable (self : RewriteProxy)

/-- `request_filter` has let the request through and left the context, at once or after a wait in
the queue. -/
inductive Admits (request : RequestHeader) : RequestContext → Prop
  | returned {shared : Shared} {nanos sequence : ℕ} {result : HookResult Bool}
    (h : self.requestFilter shared request (newCtx nanos sequence) = .returned result)
    (hok : result.result = .ok false) : Admits request result.ctx
  | woken {shared : Shared} {nanos sequence : ℕ} {profile : RewriteProfile} {extension : Str}
    {ctx : RequestContext} {effects : List Effect}
    (h : self.requestFilter shared request (newCtx nanos sequence) =
      .queued profile extension ctx effects)
    (hok : (self.requestFilterWoken profile extension ctx).result = .ok false) :
    Admits request (self.requestFilterWoken profile extension ctx).ctx

/-- What the hooks of the response rely on. -/
structure ReadyFor (profile : RewriteProfile) (extension : Str) (ctx : RequestContext) :
    Prop where
  decision : ctx.decision = .rewrite profile extension false
  suppressBody : ctx.suppressBody = false
  requestId : Visible ctx.requestId

/-- The pipeline of the request. -/
structure HasPipeline (profile : RewriteProfile) (extension : Str) (ctx : RequestContext) :
    Prop where
  extension_eq : ctx.extension = some extension
  exists_rewriter : ∃ rewriter, ctx.rewriter = some rewriter ∧
    buildSelectedResponseRewriter self.codec profile self.config.basePath extension
      self.config.maxDecodedBytes = .ok rewriter

variable {self}

theorem visible_readRequest (request : RequestHeader) {ctx : RequestContext}
    (h : Visible ctx.requestId) : Visible (self.readRequest request ctx).requestId := by
  rw [RewriteProxy.readRequest]
  cases hid : ((request.headers.get (str "x-request-id")).bind HeaderValue.toStr).filter
      fun value ↦ !value.isEmpty && value.asBytes.length ≤ 128 with
  | none => exact h
  | some value =>
    obtain ⟨field, -, hfield⟩ := Option.bind_eq_some_iff.1 (Option.filter_eq_some_iff.1 hid).1
    exact HeaderValue.visible_of_toStr hfield

/-- **An admitted request is ready to be rewritten.** -/
theorem Admits.ready {request : RequestHeader} {ctx : RequestContext}
    (h : Admits self request ctx) {profile : RewriteProfile} {extension : Str}
    (hdecision : ctx.decision = .rewrite profile extension false) :
    ReadyFor profile extension ctx ∧ HasPipeline self profile extension ctx := by
  have hvisible : ∀ nanos sequence,
      Visible (self.readRequest request (newCtx nanos sequence)).requestId := fun nanos sequence ↦
    visible_readRequest request (visible_newRequestId nanos sequence)
  -- The pipeline is the last thing that `request_filter` sets, on both ways.
  have hstart : ∀ {profile' extension' ctx' effects},
      (self.startRewrite profile' extension' ctx' effects).result = .ok false →
      ∃ rewriter, (self.startRewrite profile' extension' ctx' effects).ctx =
        { ctx' with rewriter := some rewriter } ∧
        buildSelectedResponseRewriter self.codec profile' self.config.basePath extension'
          self.config.maxDecodedBytes = .ok rewriter := by
    intro profile' extension' ctx' effects hok
    rw [RewriteProxy.startRewrite] at hok ⊢
    split at hok
    · exact ⟨_, rfl, by assumption⟩
    · cases hok
  cases h with
  | @returned shared nanos sequence result h hok =>
    have hfiltered := self.filtered_requestFilter shared request (newCtx nanos sequence)
    rw [h] at hfiltered
    cases hfiltered with
    | bypass hbypass => cases hbypass.symm.trans hdecision
    | headOnly hhead => cases hhead.symm.trans hdecision
    | admitted hrewrite hpermit =>
      obtain ⟨rewriter, hctx, hbuild⟩ := hstart hok
      rw [hctx] at hdecision ⊢
      obtain ⟨rfl, rfl, -⟩ := RewriteDecision.rewrite.inj (hrewrite.symm.trans hdecision)
      exact ⟨⟨hdecision, rfl, hvisible nanos sequence⟩, ⟨rfl, rewriter, rfl, hbuild⟩⟩
  | @woken shared nanos sequence profile' extension' ctx' effects h hok =>
    have hfiltered := self.filtered_requestFilter shared request (newCtx nanos sequence)
    rw [h] at hfiltered
    cases hfiltered with
    | queued hrewrite hpermit hslot =>
      obtain ⟨rewriter, hctx, hbuild⟩ := hstart hok
      rw [RewriteProxy.requestFilterWoken, hctx] at hdecision ⊢
      obtain ⟨rfl, rfl, -⟩ := RewriteDecision.rewrite.inj (hrewrite.symm.trans hdecision)
      exact ⟨⟨hdecision, rfl, hvisible nanos sequence⟩, ⟨rfl, rewriter, rfl, hbuild⟩⟩

end

/-! ### What a header says about the body -/

/-- How `response_filter` treats a response. -/
inductive Treatment where
  /-- It returns early and leaves the headers alone. -/
  | bypassed
  /-- It fails with 502. -/
  | refused
  /-- It turns the response into 304. -/
  | notModified
  /-- It makes the headers those of a rewritten body. -/
  | rewritten
  deriving DecidableEq

/-- The headers of a rewritten body: no `Content-Length` or other header of the upstream
representation is left, and there is a derived tag or the response is not stored. -/
structure IsRewritten (derivedEtag : Option Str) (header : ResponseHeader) : Prop where
  status : header.status = 200
  acceptRanges : (header.headers.get (str "accept-ranges")).map HeaderValue.asBytes =
    some (bytes "none")
  get_eq_none : ∀ name ∈ RewriteProxy.representationHeaders, name ≠ str "accept-ranges" →
    header.headers.get name = none
  validator :
    (∃ etag, derivedEtag = some etag ∧
      (header.headers.get (str "etag")).map HeaderValue.asBytes = some etag.asBytes) ∨
    (header.headers.get (str "etag") = none ∧
      (header.headers.get (str "cache-control")).map HeaderValue.asBytes =
        some (bytes "no-store"))

section

variable (self : RewriteProxy)

/-- The treatment of a response, by the checks of `response_filter` in their order. -/
def treatment (profile : RewriteProfile) (ctx : RequestContext) (response : ResponseHeader) :
    Treatment :=
  if response.status ≠ 200 then .bypassed
  else if !isRewritableContentType profile (response.headers.get (str "content-type")) then
    if selectsHtmlByResponseContentType profile then .bypassed else .refused
  else if !isIdentityEncoding (response.headers.get (str "content-encoding")) then .refused
  else if (self.derivedEtag response ctx).any (ifNoneMatchMatches ctx.clientIfNoneMatch) then
    .notModified
  else .rewritten

/-- What `response_filter` does when it treats a response so. -/
def Treats (response : ResponseHeader) (ctx : RequestContext) :
    Treatment → HookResult ResponseHeader → Prop
  | .bypassed, result =>
    response.insertHeader (str "x-request-id") ctx.requestId.asBytes = result.result ∧
      result.ctx.suppressBody = ctx.suppressBody ∧ result.ctx.rewriter = none
  | .refused, result => ∃ context, result.result = .error (.httpStatus 502 context none)
  | .notModified, result => (∃ header, result.result = .ok header ∧ header.status = 304) ∧
      result.ctx.suppressBody = true
  | .rewritten, result => (∃ header, result.result = .ok header ∧
      IsRewritten (self.derivedEtag response ctx) header) ∧ result.ctx = ctx

variable {self}

theorem get_foldl_removeHeader (names : List Str) (response : ResponseHeader) :
    (names.foldl ResponseHeader.removeHeader response).status = response.status ∧
      ∀ name, (names.foldl ResponseHeader.removeHeader response).headers.get name =
        if name ∈ names then none else response.headers.get name := by
  induction names generalizing response with
  | nil => exact ⟨rfl, fun name ↦ (if_neg List.not_mem_nil).symm⟩
  | cons first names ih =>
    obtain ⟨hstatus, hget⟩ := ih (response.removeHeader first)
    refine ⟨hstatus, fun name ↦ ?_⟩
    rw [List.foldl_cons, hget name]
    by_cases hname : name ∈ names
    · rw [if_pos hname, if_pos (List.mem_cons_of_mem _ hname)]
    · rw [if_neg hname]
      by_cases hfirst : name = first
      · subst hfirst
        rw [if_pos List.mem_cons_self]
        exact HeaderMap.get_remove_self _ _
      · rw [if_neg (List.not_mem_cons_of_ne_of_not_mem hfirst hname)]
        exact HeaderMap.get_remove_of_ne _ hfirst

/-- The headers are always those of a rewritten body, up to the validator. -/
theorem exists_stripRepresentation_eq (response : ResponseHeader) :
    ∃ stripped, RewriteProxy.stripRepresentation response = .ok stripped ∧
      stripped.status = response.status ∧
      (stripped.headers.get (str "accept-ranges")).map HeaderValue.asBytes =
        some (bytes "none") ∧
      ∀ name ∈ RewriteProxy.representationHeaders, name ≠ str "accept-ranges" →
        stripped.headers.get name = none := by
  obtain ⟨hstatus, hremoved⟩ :=
    get_foldl_removeHeader RewriteProxy.representationHeaders response
  have hnone : (bytes "none").all isHeaderByte = true := by decide
  generalize hbase : RewriteProxy.representationHeaders.foldl ResponseHeader.removeHeader
    response = base at hstatus hremoved
  have hinsert := base.insertHeader_eq (str "accept-ranges") hnone
  obtain ⟨headers, hvary, hkept⟩ := exists_ensureVaryAcceptEncoding_eq
    { base with headers := HeaderMap.insert base.headers (str "accept-ranges") ⟨_, hnone⟩ }
  have hget : ∀ name ≠ str "vary", HeaderMap.get headers name = HeaderMap.get
      (HeaderMap.insert base.headers (str "accept-ranges") ⟨_, hnone⟩) name := by
    intro name hname
    rw [HeaderMap.get, hkept name hname]
    rfl
  refine ⟨{ base with headers := headers }, ?_, hstatus, ?_, fun name hname hranges ↦ ?_⟩
  · rw [RewriteProxy.stripRepresentation, hbase]
    exact bind_eq_ok_iff.2 ⟨_, hinsert, hvary⟩
  · show (HeaderMap.get headers _).map _ = _
    rw [hget _ (by decide), HeaderMap.get_insert_self]
    rfl
  · have hvary : name ≠ str "vary" := by
      rintro rfl
      exact absurd hname (by decide)
    show HeaderMap.get headers name = none
    rw [hget name hvary, HeaderMap.get_insert_of_ne _ hranges, hremoved name, if_pos hname]

/-- The end of `response_filter`: 304 for a client that holds the tag, and else the headers of a
rewritten body. -/
theorem finishHeaders_cases {derivedEtag : Option Str} (hetag : ∀ etag ∈ derivedEtag, Visible etag)
    {stripped : ResponseHeader} (hstatus : stripped.status = 200)
    (hranges : (stripped.headers.get (str "accept-ranges")).map HeaderValue.asBytes =
      some (bytes "none"))
    (hremoved : ∀ name ∈ RewriteProxy.representationHeaders, name ≠ str "accept-ranges" →
      stripped.headers.get name = none) (ctx : RequestContext) :
    if derivedEtag.any (ifNoneMatchMatches ctx.clientIfNoneMatch) then
      (∃ header, (RewriteProxy.finishHeaders derivedEtag stripped ctx).result = .ok header ∧
        header.status = 304) ∧
      (RewriteProxy.finishHeaders derivedEtag stripped ctx).ctx.suppressBody = true
    else
      (∃ header, (RewriteProxy.finishHeaders derivedEtag stripped ctx).result = .ok header ∧
        IsRewritten derivedEtag header) ∧
      (RewriteProxy.finishHeaders derivedEtag stripped ctx).ctx = ctx := by
  cases derivedEtag with
  | none =>
    have hstore : (bytes "no-store").all isHeaderByte = true := by decide
    refine ⟨⟨_, (stripped.removeHeader (str "etag")).insertHeader_eq _ hstore, hstatus, ?_,
      fun name hname hne ↦ ?_, Or.inr ⟨?_, ?_⟩⟩, rfl⟩
    · rw [HeaderMap.get_insert_of_ne _ (by decide), ← hranges]
      exact congrArg _ (HeaderMap.get_remove_of_ne _ (by decide))
    · have hcache : name ≠ str "cache-control" := by
        rintro rfl
        exact absurd hname (by decide)
      have hetag : name ≠ str "etag" := by
        rintro rfl
        exact absurd hname (by decide)
      rw [HeaderMap.get_insert_of_ne _ hcache]
      exact (HeaderMap.get_remove_of_ne _ hetag).trans (hremoved name hname hne)
    · rw [HeaderMap.get_insert_of_ne _ (by decide)]
      exact HeaderMap.get_remove_self _ _
    · rw [HeaderMap.get_insert_self]
      rfl
  | some etag =>
    have hvisible := all_isHeaderByte_of_visible (hetag etag rfl)
    rw [RewriteProxy.finishHeaders.eq_def]
    simp only [stripped.insertHeader_eq _ hvisible, Option.any_some]
    split
    · exact ⟨⟨_, rfl, rfl⟩, rfl⟩
    · refine ⟨⟨_, rfl, hstatus, ?_, fun name hname hne ↦ ?_, Or.inl ⟨etag, rfl, ?_⟩⟩, rfl⟩
      · rw [HeaderMap.get_insert_of_ne _ (by decide), hranges]
      · have hetag : name ≠ str "etag" := by
          rintro rfl
          exact absurd hname (by decide)
        rw [HeaderMap.get_insert_of_ne _ hetag, hremoved name hname hne]
      · rw [HeaderMap.get_insert_self]
        rfl

/-- The request id does not change what `response_filter` reads. -/
theorem exists_insertHeader_requestId {ctx : RequestContext} (hid : Visible ctx.requestId)
    (response : ResponseHeader) :
    ∃ headers, response.insertHeader (str "x-request-id") ctx.requestId.asBytes =
        .ok { response with headers := headers } ∧
      ∀ name ≠ str "x-request-id", HeaderMap.get headers name = response.headers.get name :=
  ⟨_, response.insertHeader_eq _ (all_isHeaderByte_of_visible hid), fun _ hname ↦
    HeaderMap.get_insert_of_ne _ hname _⟩

/-- A response that passes the checks goes to the end of `response_filter`. -/
theorem exists_responseFilter_eq_finishHeaders (self : RewriteProxy) {profile : RewriteProfile}
    {extension : Str} {headOnly : Bool} {ctx : RequestContext}
    (hdecision : ctx.decision = .rewrite profile extension headOnly)
    (hid : Visible ctx.requestId) {response : ResponseHeader} (hstatus : response.status = 200)
    (htype : isRewritableContentType profile (response.headers.get (str "content-type")) = true)
    (hencoding : isIdentityEncoding (response.headers.get (str "content-encoding")) = true) :
    ∃ stripped, self.responseFilter response ctx =
        RewriteProxy.finishHeaders (self.derivedEtag response ctx) stripped ctx ∧
      stripped.status = 200 ∧
      (stripped.headers.get (str "accept-ranges")).map HeaderValue.asBytes =
        some (bytes "none") ∧
      ∀ name ∈ RewriteProxy.representationHeaders, name ≠ str "accept-ranges" →
        stripped.headers.get name = none := by
  obtain ⟨headers, hinsert, hget⟩ := exists_insertHeader_requestId hid response
  obtain ⟨stripped, hstrip, hstatus', hranges, hremoved⟩ :=
    exists_stripRepresentation_eq { response with headers := headers }
  refine ⟨stripped, ?_, hstatus'.trans hstatus, hranges, hremoved⟩
  have hderived : self.derivedEtag { response with headers := headers } ctx =
      self.derivedEtag response ctx := by
    rw [RewriteProxy.derivedEtag, hget (str "etag") (by decide), RewriteProxy.derivedEtag]
  rw [RewriteProxy.responseFilter, hinsert]
  simp only [hdecision, hget (str "content-type") (by decide),
    hget (str "content-encoding") (by decide)]
  rw [if_neg (not_not.2 hstatus), htype, Bool.not_true, if_neg Bool.false_ne_true, hencoding,
    Bool.not_true, if_neg Bool.false_ne_true, hstrip, ← hderived]

/-- A derived tag can be sent. -/
theorem visible_of_mem_derivedEtag (hcrates : self.crates.EncodesUrlSafe)
    (response : ResponseHeader) (ctx : RequestContext) :
    ∀ etag ∈ self.derivedEtag response ctx, Visible etag := by
  intro etag hmem
  obtain ⟨upstream, -, rfl⟩ := Option.map_eq_some_iff.1 (Option.mem_def.1 hmem)
  exact visible_deriveEtag hcrates _ _ _

/-- **`response_filter` treats a response as its checks say.** -/
theorem responseFilter_treats (hcrates : self.crates.EncodesUrlSafe) {profile : RewriteProfile}
    {extension : Str} {ctx : RequestContext} (h : ReadyFor profile extension ctx)
    (response : ResponseHeader) :
    Treats self response ctx (treatment self profile ctx response)
      (self.responseFilter response ctx) := by
  obtain ⟨headers, hinsert, hget⟩ := exists_insertHeader_requestId h.requestId response
  -- the checks in their order
  by_cases hstatus : response.status ≠ 200
  · rw [treatment, if_pos hstatus, RewriteProxy.responseFilter, hinsert]
    simp only [h.decision]
    rw [if_pos hstatus]
    exact ⟨hinsert, rfl, rfl⟩
  cases htype : isRewritableContentType profile (response.headers.get (str "content-type")) with
  | false =>
    rw [treatment, if_neg hstatus, htype, Bool.not_false, if_pos rfl, RewriteProxy.responseFilter,
      hinsert]
    simp only [h.decision, hget (str "content-type") (by decide)]
    rw [if_neg hstatus, htype, Bool.not_false, if_pos rfl]
    cases hhtml : selectsHtmlByResponseContentType profile with
    | true => exact ⟨hinsert, rfl, rfl⟩
    | false => exact ⟨_, rfl⟩
  | true =>
    cases hencoding : isIdentityEncoding (response.headers.get (str "content-encoding")) with
    | false =>
      rw [treatment, if_neg hstatus, htype, Bool.not_true, if_neg Bool.false_ne_true, hencoding,
        Bool.not_false, if_pos rfl, RewriteProxy.responseFilter, hinsert]
      simp only [h.decision, hget (str "content-type") (by decide),
        hget (str "content-encoding") (by decide)]
      rw [if_neg hstatus, htype, Bool.not_true, if_neg Bool.false_ne_true, hencoding,
        Bool.not_false, if_pos rfl]
      exact ⟨_, rfl⟩
    | true =>
      obtain ⟨stripped, heq, hstatus', hranges, hremoved⟩ :=
        exists_responseFilter_eq_finishHeaders self h.decision h.requestId (not_not.1 hstatus)
          htype hencoding
      have hfinish := finishHeaders_cases (visible_of_mem_derivedEtag hcrates response ctx) hstatus'
        hranges hremoved ctx
      rw [treatment, if_neg hstatus, htype, Bool.not_true, if_neg Bool.false_ne_true, hencoding,
        Bool.not_true, if_neg Bool.false_ne_true, heq]
      split at hfinish
      · rename_i hmatch
        rw [if_pos hmatch]
        exact hfinish
      · rename_i hmatch
        rw [if_neg hmatch]
        exact hfinish

end

/-! ### Responses -/

/-- An interim response. -/
def ResponseHeader.IsInterim (response : ResponseHeader) : Prop :=
  100 ≤ response.status ∧ response.status < 200

/-- The bytes of a body, or of a chunk, that is handed over as options. -/
def chunkBytes (chunks : List (Option Bytes)) : List Bytes :=
  chunks.map fun chunk ↦ chunk.getD []

section

variable (self : RewriteProxy)

/-- `response_filter` for each interim response. -/
def filterInterims : List ResponseHeader → RequestContext → Except ProxyError RequestContext
  | [], ctx => .ok ctx
  | response :: responses, ctx =>
    match (self.responseFilter response ctx).result with
    | .ok _ => filterInterims responses (self.responseFilter response ctx).ctx
    | .error error => .error error

/-- `response_body_filter` for each chunk and then for the last one. -/
def filterBody (last : Option Bytes) :
    List (Option Bytes) → RequestContext → Except ProxyError (List (Option Bytes))
  | [], ctx => (RewriteProxy.responseBodyFilter last true ctx).result.map ([·])
  | chunk :: chunks, ctx =>
    match (RewriteProxy.responseBodyFilter chunk false ctx).result with
    | .ok output =>
      (filterBody last chunks (RewriteProxy.responseBodyFilter chunk false ctx).ctx).map
        (output :: ·)
    | .error error => .error error

/-- What is sent for the interim responses, the final response and the chunks of its body: the
final header and the chunks. -/
def deliver (interims : List ResponseHeader) (final : ResponseHeader)
    (chunks : List (Option Bytes)) (last : Option Bytes) (ctx : RequestContext) :
    Except ProxyError (ResponseHeader × List (Option Bytes)) := do
  let ctx ← filterInterims self interims ctx
  let header ← (self.responseFilter final ctx).result
  let body ← filterBody last chunks (self.responseFilter final ctx).ctx
  return (header, body)

/-- The body that is sent is what the header says: (a) under the headers of a rewritten body, the
output of the pipeline on the upstream body; (b) under the upstream headers, the upstream body; (c)
under 304, nothing. -/
def Agrees (profile : RewriteProfile) (extension : Str) (ctx : RequestContext)
    (final header : ResponseHeader) (upstream downstream : Bytes) : Prop :=
  match treatment self profile ctx final with
  | .rewritten => IsRewritten (self.derivedEtag final ctx) header ∧
      ∃ pipeline, buildSelectedResponseRewriter self.codec profile self.config.basePath extension
        self.config.maxDecodedBytes = .ok pipeline ∧
        transducer.run pipeline [upstream] = .ok downstream
  | .bypassed => final.insertHeader (str "x-request-id") ctx.requestId.asBytes = .ok header ∧
      downstream = upstream
  | .notModified => header.status = 304 ∧ downstream = []
  | .refused => False

variable {self}

/-- What is delivered: the interim responses, the header and the chunks, each without an error. -/
theorem deliver_eq_ok_iff {interims : List ResponseHeader} {final : ResponseHeader}
    {chunks : List (Option Bytes)} {last : Option Bytes} {ctx : RequestContext}
    {header : ResponseHeader} {body : List (Option Bytes)} :
    deliver self interims final chunks last ctx = .ok (header, body) ↔
      ∃ ctx', filterInterims self interims ctx = .ok ctx' ∧
        (self.responseFilter final ctx').result = .ok header ∧
        filterBody last chunks (self.responseFilter final ctx').ctx = .ok body := by
  simp only [deliver, bind_eq_ok_iff]
  constructor
  · rintro ⟨ctx', hinterims, header', hheader, body', hbody, h⟩
    obtain ⟨rfl, rfl⟩ := Prod.mk.inj (Except.ok.inj h)
    exact ⟨ctx', hinterims, hheader, hbody⟩
  · rintro ⟨ctx', hinterims, hheader, hbody⟩
    exact ⟨ctx', hinterims, header, hheader, body, hbody, rfl⟩

/-! ### Bodies -/

/-- **Without a pipeline the body passes.** -/
theorem filterBody_of_rewriter_eq_none {ctx : RequestContext} (hrewriter : ctx.rewriter = none)
    (hsuppress : ctx.suppressBody = false) (chunks : List (Option Bytes)) (last : Option Bytes) :
    filterBody last chunks ctx = .ok (chunks ++ [last]) := by
  have hfilter : ∀ body endOfStream, RewriteProxy.responseBodyFilter body endOfStream ctx =
      { result := .ok body, ctx := ctx, effects := [] } := by
    intro body endOfStream
    rw [RewriteProxy.responseBodyFilter.eq_def]
    simp only [hsuppress, hrewriter, Bool.false_eq_true, if_false]
  induction chunks with
  | nil =>
    rw [filterBody, hfilter]
    rfl
  | cons chunk chunks ih =>
    rw [filterBody, hfilter]
    show (filterBody last chunks ctx).map _ = _
    rw [ih]
    rfl

/-- **A suppressed body is not sent.** -/
theorem filterBody_of_suppressBody {ctx : RequestContext} (hsuppress : ctx.suppressBody = true)
    (chunks : List (Option Bytes)) (last : Option Bytes) :
    ∃ body, filterBody last chunks ctx = .ok body ∧ (chunkBytes body).flatten = [] := by
  have hfilter : ∀ body endOfStream, RewriteProxy.responseBodyFilter body endOfStream ctx =
      { result := .ok none, ctx := ctx, effects := [] } := by
    intro body endOfStream
    rw [RewriteProxy.responseBodyFilter.eq_def, if_pos hsuppress]
  induction chunks with
  | nil =>
    rw [filterBody, hfilter]
    exact ⟨_, rfl, rfl⟩
  | cons chunk chunks ih =>
    obtain ⟨body, hbody, hnone⟩ := ih
    rw [filterBody, hfilter]
    refine ⟨none :: body, ?_, hnone⟩
    show (filterBody last chunks ctx).map _ = _
    rw [hbody]
    rfl

theorem getD_ite_isEmpty (output : Bytes) :
    (if output.isEmpty then none else some output : Option Bytes).getD [] = output := by
  cases output <;> rfl

/-- One chunk in front of others goes through the pipeline. -/
theorem push_of_responseBodyFilter {ctx : RequestContext} {pipeline : StreamingRewritePipeline}
    (hrewriter : ctx.rewriter = some pipeline) (hsuppress : ctx.suppressBody = false)
    {chunk output : Option Bytes}
    (h : (RewriteProxy.responseBodyFilter chunk false ctx).result = .ok output) :
    ∃ pipeline', pipeline.push (chunk.getD []) = (.ok (output.getD []), pipeline') ∧
      (RewriteProxy.responseBodyFilter chunk false ctx).ctx.rewriter = some pipeline' ∧
      (RewriteProxy.responseBodyFilter chunk false ctx).ctx.suppressBody = false := by
  rw [RewriteProxy.responseBodyFilter.eq_def] at h ⊢
  simp only [hsuppress, hrewriter, Bool.false_eq_true, if_false] at h ⊢
  rcases hpush : pipeline.push (chunk.getD []) with ⟨error | pushed, pipeline'⟩
  · rw [hpush] at h
    exact nomatch h
  · rw [hpush] at h
    obtain rfl := Except.ok.inj h
    simp only [List.append_nil, getD_ite_isEmpty]
    exact ⟨pipeline', rfl, rfl, trivial⟩

/-- The last chunk goes through the pipeline, which is then finished. -/
theorem finish_of_responseBodyFilter {ctx : RequestContext} {pipeline : StreamingRewritePipeline}
    (hrewriter : ctx.rewriter = some pipeline) (hsuppress : ctx.suppressBody = false)
    {chunk output : Option Bytes}
    (h : (RewriteProxy.responseBodyFilter chunk true ctx).result = .ok output) :
    ∃ pushed finished pipeline', pipeline.push (chunk.getD []) = (.ok pushed, pipeline') ∧
      pipeline'.finish.1 = .ok finished ∧ output.getD [] = pushed ++ finished := by
  rw [RewriteProxy.responseBodyFilter.eq_def] at h
  simp only [hsuppress, hrewriter, Bool.false_eq_true, if_false, if_true] at h
  rcases hpush : pipeline.push (chunk.getD []) with ⟨error | pushed, pipeline'⟩
  · rw [hpush] at h
    exact nomatch h
  · rw [hpush] at h
    simp only at h
    rcases hfinish : pipeline'.finish with ⟨error | finished, pipeline''⟩
    · rw [hfinish] at h
      exact nomatch h
    · rw [hfinish] at h
      obtain rfl := Except.ok.inj h
      exact ⟨pushed, finished, pipeline', rfl, by rw [hfinish], getD_ite_isEmpty _⟩

/-- **With a pipeline the body is rewritten**, chunk by chunk as the pipeline reads it. -/
theorem run_of_filterBody {ctx : RequestContext} {pipeline : StreamingRewritePipeline}
    (hrewriter : ctx.rewriter = some pipeline) (hsuppress : ctx.suppressBody = false)
    {chunks : List (Option Bytes)} {last : Option Bytes} {body : List (Option Bytes)}
    (h : filterBody last chunks ctx = .ok body) :
    transducer.run pipeline (chunkBytes (chunks ++ [last])) = .ok (chunkBytes body).flatten := by
  induction chunks generalizing ctx pipeline body with
  | nil =>
    rw [filterBody] at h
    cases hlast : (RewriteProxy.responseBodyFilter last true ctx).result with
    | error error =>
      rw [hlast] at h
      cases h
    | ok output =>
      rw [hlast] at h
      obtain rfl := Except.ok.inj h
      obtain ⟨pushed, finished, pipeline', hpush, hfinish, hout⟩ :=
        finish_of_responseBodyFilter hrewriter hsuppress hlast
      have hpush : transducer.push pipeline (last.getD []) = _ := hpush
      have hfinish : (transducer.finish pipeline').1 = _ := hfinish
      simp only [chunkBytes, List.nil_append, List.map_cons, List.map_nil, Transducer.run, hpush,
        hfinish, Except.map, List.flatten_cons, List.flatten_nil, List.append_nil, hout]
  | cons chunk chunks ih =>
    rw [filterBody] at h
    cases hchunk : (RewriteProxy.responseBodyFilter chunk false ctx).result with
    | error error =>
      rw [hchunk] at h
      cases h
    | ok output =>
      rw [hchunk] at h
      obtain ⟨pipeline', hpush, hrewriter', hsuppress'⟩ :=
        push_of_responseBodyFilter hrewriter hsuppress hchunk
      have hpush : transducer.push pipeline (chunk.getD []) = _ := hpush
      cases hrest : filterBody last chunks
          (RewriteProxy.responseBodyFilter chunk false ctx).ctx with
      | error error =>
        simp only [hrest] at h
        cases h
      | ok rest =>
        simp only [hrest] at h
        obtain rfl := Except.ok.inj h
        have hrun := ih hrewriter' hsuppress' hrest
        rw [chunkBytes, List.cons_append, List.map_cons, Transducer.run, hpush]
        show (transducer.run pipeline' (chunkBytes (chunks ++ [last]))).map _ = _
        rw [hrun]
        rfl

/-! ### Interim responses -/

/-- **An interim response drops the pipeline**, and nothing else of what the final response
needs. -/
theorem filterInterims_of_ready (self : RewriteProxy) {profile : RewriteProfile}
    {extension : Str} {interims : List ResponseHeader}
    (hinterims : ∀ response ∈ interims, response.IsInterim) {ctx : RequestContext}
    (h : ReadyFor profile extension ctx) :
    ∃ ctx', filterInterims self interims ctx = .ok ctx' ∧ ReadyFor profile extension ctx' ∧
      ctx'.requestId = ctx.requestId ∧ ctx'.extension = ctx.extension ∧
      ctx'.clientIfNoneMatch = ctx.clientIfNoneMatch ∧
      ctx'.rewriter = if interims = [] then ctx.rewriter else none := by
  induction interims generalizing ctx with
  | nil => exact ⟨ctx, rfl, h, rfl, rfl, rfl, rfl⟩
  | cons response interims ih =>
    have hstatus : response.status ≠ 200 := by
      have := (hinterims response List.mem_cons_self).2
      omega
    have hinsert := response.insertHeader_eq (str "x-request-id")
      (all_isHeaderByte_of_visible h.requestId)
    have hfilter : self.responseFilter response ctx =
        { result := response.insertHeader (str "x-request-id") ctx.requestId.asBytes
          ctx := (stopRewrite ctx (str "upstream_status_bypass")).1
          effects := (stopRewrite ctx (str "upstream_status_bypass")).2 } := by
      rw [RewriteProxy.responseFilter, hinsert]
      simp only [h.decision]
      rw [if_pos hstatus]
    have hstopped : ReadyFor profile extension
        (stopRewrite ctx (str "upstream_status_bypass")).1 :=
      ⟨h.decision, h.suppressBody, h.requestId⟩
    obtain ⟨ctx', hinterims', hready, hid, hextension, hclient, hrewriter⟩ :=
      ih (fun other hother ↦ hinterims other (List.mem_cons_of_mem _ hother)) hstopped
    refine ⟨ctx', ?_, hready, hid, hextension, hclient, ?_⟩
    · rw [filterInterims, hfilter, hinsert]
      exact hinterims'
    · rw [hrewriter, if_neg (List.cons_ne_nil _ _)]
      split <;> rfl

/-- The treatment depends on the context only through the extension and the condition of the client.
-/
theorem treatment_congr (self : RewriteProxy) (profile : RewriteProfile) {ctx ctx' : RequestContext}
    (hextension : ctx'.extension = ctx.extension)
    (hclient : ctx'.clientIfNoneMatch = ctx.clientIfNoneMatch) (response : ResponseHeader) :
    self.derivedEtag response ctx' = self.derivedEtag response ctx ∧
      treatment self profile ctx' response = treatment self profile ctx response := by
  have hderived : self.derivedEtag response ctx' = self.derivedEtag response ctx := by
    rw [RewriteProxy.derivedEtag, hextension, RewriteProxy.derivedEtag]
  refine ⟨hderived, ?_⟩
  rw [treatment, hderived, hclient, treatment]

/-- A response that keeps its pipeline, or is not rewritten, agrees with its body. -/
theorem agrees_of_deliver (hcrates : self.crates.EncodesUrlSafe) {profile : RewriteProfile}
    {extension : Str} {ctx : RequestContext} (hready : ReadyFor profile extension ctx)
    (hpipeline : HasPipeline self profile extension ctx) {interims : List ResponseHeader}
    (hinterims : ∀ response ∈ interims, response.IsInterim) {final header : ResponseHeader}
    (h : interims = [] ∨ treatment self profile ctx final ≠ .rewritten)
    {chunks : List (Option Bytes)} {last : Option Bytes} {body : List (Option Bytes)}
    (hdeliver : deliver self interims final chunks last ctx = .ok (header, body)) :
    Agrees self profile extension ctx final header (chunkBytes (chunks ++ [last])).flatten
      (chunkBytes body).flatten := by
  obtain ⟨ctx', hctx', hheader, hbody⟩ := deliver_eq_ok_iff.1 hdeliver
  obtain ⟨ctx'', hctx'', hready', hid, hextension, hclient, hrewriter⟩ :=
    filterInterims_of_ready self hinterims hready
  obtain rfl := Except.ok.inj (hctx'.symm.trans hctx'')
  have htreats := responseFilter_treats hcrates hready' final
  obtain ⟨hderived, htreatment⟩ :=
    treatment_congr self profile hextension hclient final
  rw [htreatment] at htreats
  rw [Agrees]
  cases htr : treatment self profile ctx final with
  | bypassed =>
    rw [htr] at htreats
    obtain ⟨hresult, hsuppress, hnone⟩ := htreats
    have hpass := filterBody_of_rewriter_eq_none hnone (hsuppress.trans hready'.suppressBody)
      chunks last
    obtain rfl := Except.ok.inj (hpass.symm.trans hbody)
    exact ⟨hid ▸ hresult.trans hheader, rfl⟩
  | refused =>
    rw [htr] at htreats
    obtain ⟨context, herror⟩ := htreats
    exact nomatch herror.symm.trans hheader
  | notModified =>
    rw [htr] at htreats
    obtain ⟨⟨header', hheader', hstatus⟩, hsuppress⟩ := htreats
    obtain rfl := Except.ok.inj (hheader'.symm.trans hheader)
    obtain ⟨body', hbody', hnone⟩ := filterBody_of_suppressBody hsuppress chunks last
    obtain rfl := Except.ok.inj (hbody'.symm.trans hbody)
    exact ⟨hstatus, hnone⟩
  | rewritten =>
    rw [htr] at htreats
    obtain ⟨⟨header', hheader', hrewritten⟩, hctx⟩ := htreats
    obtain rfl := Except.ok.inj (hheader'.symm.trans hheader)
    obtain ⟨-, pipeline, hsome, hbuild⟩ := hpipeline
    -- No interim response came before, so the pipeline is still there.
    have hnil := h.resolve_right (· htr)
    rw [if_pos hnil, hsome] at hrewriter
    rw [hctx] at hbody
    have hrun := run_of_filterBody hrewriter hready'.suppressBody hbody
    obtain rfl := Except.ok.inj ((buildSelectedResponseRewriter_eq ..).symm.trans hbuild)
    refine ⟨hderived ▸ hrewritten, _, hbuild, ?_⟩
    rw [realizes.run_eq_ok_iff (ofStages_active _ _)] at hrun ⊢
    rwa [List.flatten_singleton]

/-- **Headers and bodies agree** for every body, exactly when no interim response came before or the
final response is not rewritten. -/
theorem agrees_iff (hcrates : self.crates.EncodesUrlSafe) {request : RequestHeader}
    {ctx : RequestContext} (hadmits : Admits self request ctx) {profile : RewriteProfile}
    {extension : Str} (hdecision : ctx.decision = .rewrite profile extension false)
    {interims : List ResponseHeader} (hinterims : ∀ response ∈ interims, response.IsInterim)
    (final : ResponseHeader) :
    (∀ chunks last header body,
        deliver self interims final chunks last ctx = .ok (header, body) →
          Agrees self profile extension ctx final header (chunkBytes (chunks ++ [last])).flatten
            (chunkBytes body).flatten) ↔
      interims = [] ∨ treatment self profile ctx final ≠ .rewritten := by
  obtain ⟨hready, hpipeline⟩ := hadmits.ready hdecision
  refine ⟨fun h ↦ Classical.not_not.1 fun hnot ↦ ?_, fun h chunks last header body hdeliver ↦
    agrees_of_deliver hcrates hready hpipeline hinterims h hdeliver⟩
  obtain ⟨hne, htr⟩ := not_or.1 hnot
  have htr := Classical.not_not.1 htr
  -- A body that is no text goes through, although no pipeline would output anything for it.
  obtain ⟨ctx', hctx', hready', hid, hextension, hclient, hrewriter⟩ :=
    filterInterims_of_ready self hinterims hready
  have htreats := responseFilter_treats hcrates hready' final
  rw [(treatment_congr self profile hextension hclient final).2, htr] at htreats
  obtain ⟨⟨header, hheader, -⟩, hctx⟩ := htreats
  rw [if_neg hne] at hrewriter
  have hbody := filterBody_of_rewriter_eq_none hrewriter hready'.suppressBody [] (some [0xFF])
  have hagrees := h [] (some [0xFF]) header [some [0xFF]]
    (deliver_eq_ok_iff.2 ⟨ctx', hctx', hheader, by rw [hctx]; exact hbody⟩)
  rw [Agrees, htr] at hagrees
  obtain ⟨-, pipeline, hbuild, hrun⟩ := hagrees
  have hvalid : Valid [0xFF] :=
    (Outputs.valid_and_applyAll ⟨_, pipeline, [[0xFF]], hbuild, rfl, hrun⟩).1
  rw [valid_iff_run] at hvalid
  exact absurd hvalid (by decide)

end

/-! ### Early hints -/

/-- The context of the admitted request. -/
theorem admits_kubekeyRequest : ∃ ctx, Admits regionsProxy kubekeyRequest ctx ∧
    ctx.decision = .rewrite .kubekeyAssetJs kubekeyName false := by
  have hadmitted := regionsProxy.requestFilter_admitted regionsProxy.initialShared (newCtx 0 0)
    decide_kubekeyRequest (by decide)
  obtain ⟨rewriter, hstart⟩ := regionsProxy.startRewrite_eq .kubekeyAssetJs kubekeyName
    { regionsProxy.rewriteCtx kubekeyRequest (newCtx 0 0) kubekeyName with activePermit := true }
    [.acquireActive, .incActive]
  rw [hstart] at hadmitted
  exact ⟨_, .returned hadmitted rfl, decide_kubekeyRequest⟩

/-- `103 Early Hints`. -/
def earlyHints : ResponseHeader where
  status := 103
  headers := []

/-- A script without a tag. -/
def scriptResponse : ResponseHeader where
  status := 200
  headers := [(str "content-type", ⟨bytes "text/javascript", by decide⟩)]

/-- The script behind early hints. -/
theorem agrees_iff_earlyHints : ∃ ctx, Admits regionsProxy kubekeyRequest ctx ∧
    ((∀ chunks last header body,
        deliver regionsProxy [earlyHints] scriptResponse chunks last ctx = .ok (header, body) →
          Agrees regionsProxy .kubekeyAssetJs kubekeyName ctx scriptResponse header
            (chunkBytes (chunks ++ [last])).flatten (chunkBytes body).flatten) ↔
      [earlyHints] = [] ∨
        treatment regionsProxy .kubekeyAssetJs ctx scriptResponse ≠ .rewritten) := by
  obtain ⟨ctx, hadmits, hdecision⟩ := admits_kubekeyRequest
  refine ⟨ctx, hadmits, agrees_iff (DigestCrates.ofHash_encodesUrlSafe _) hadmits hdecision
    (fun response hresponse ↦ ?_) scriptResponse⟩
  rw [List.mem_singleton.1 hresponse]
  exact ⟨by decide, by decide⟩

/-- Behind early hints, the legacy root is sent under the headers of a rewritten script. -/
theorem not_agrees_earlyHints : ∃ ctx header, Admits regionsProxy kubekeyRequest ctx ∧
    ctx.decision = .rewrite .kubekeyAssetJs kubekeyName false ∧ earlyHints.IsInterim ∧
    deliver regionsProxy [earlyHints] scriptResponse [] (some kubekeyLegacyRoot.asBytes) ctx =
      .ok (header, [some kubekeyLegacyRoot.asBytes]) ∧
    IsRewritten none header ∧
    ¬ Agrees regionsProxy .kubekeyAssetJs kubekeyName ctx scriptResponse header
      kubekeyLegacyRoot.asBytes kubekeyLegacyRoot.asBytes := by
  obtain ⟨ctx, hadmits, hdecision⟩ := admits_kubekeyRequest
  have hinterim : earlyHints.IsInterim := ⟨by decide, by decide⟩
  have hinterims : ∀ response ∈ [earlyHints], response.IsInterim :=
    fun response hresponse ↦ List.mem_singleton.1 hresponse ▸ hinterim
  have hcrates : regionsProxy.crates.EncodesUrlSafe :=
    DigestCrates.ofHash_encodesUrlSafe recordedBlake3
  obtain ⟨ctx', hctx', hready', -, -, -, hrewriter⟩ :=
    filterInterims_of_ready regionsProxy hinterims (hadmits.ready hdecision).1
  obtain ⟨⟨header, hheader, hrewritten⟩, hctx⟩ :=
    responseFilter_treats hcrates hready' scriptResponse
  have hbody := filterBody_of_rewriter_eq_none hrewriter hready'.suppressBody []
    (some kubekeyLegacyRoot.asBytes)
  refine ⟨ctx, header, hadmits, hdecision, hinterim, deliver_eq_ok_iff.2 ⟨ctx', hctx', hheader, ?_⟩,
    hrewritten, ?_⟩
  · rw [hctx]
    exact hbody
  · rintro ⟨-, pipeline, hbuild, hrun⟩
    have happly := (Outputs.valid_and_applyAll
      ⟨_, pipeline, [kubekeyLegacyRoot.asBytes], hbuild, List.flatten_singleton, hrun⟩).2
    exact absurd happly (by decide +kernel)

end KseRewriteProxy
