import Mathlib.Algebra.BigOperators.Ring.List
import Mathlib.Algebra.Order.BigOperators.Group.List
import Mathlib.Algebra.Order.Group.Nat
import KseRewriteProxy.Processes.Queue
import KseRewriteProxy.Proxy.Admission

/-!
# Resources

What the requests of a run hold at any time, and that every run can be completed.

## Metered requests

`Metered` is what the hooks keep of one request: a pipeline exists only under a permit, it has been
pushed exactly the input bytes that the context counts, and output is counted only when input is.
The last is not a matter of the hooks alone. It needs that no pipeline makes something of nothing,
which holds of every stage that a profile has (`apply_nil_of_mem_responseStages`), and which a push
preserves because the residual of a pipeline that has seen no input is empty (`Fed.push`).

`bounded_decoding` multiplies out: at most as many requests have a pipeline as there are permits,
and each of them has pushed at most the limit.

## Every run can be completed

`exists_all_logged` is the absence of deadlocks: from every reachable state the requests can all be
served to their end, and then everything has been given back. It is about runs in which the requests
bring any headers and those that wait are served in the order in which they wait, as tokio does; the
interleaving of the module on admission, where a free permit may go to anyone, would make this too
easy. The general rule is `System.Reachable.exists_served`. What it asks for is a rank that falls
with every step (`Phase.rank`), that a request that does not wait can go on whatever its header
(`exists_takes_of_ready`), and that a permit is free when only waiting requests are left
(`activePermits_eq_of_waiting`), because requests that wait or have ended hold none.
-/

namespace KseRewriteProxy

open Text Processes Streaming StreamingRewritePipeline

/-! ### Pipelines without input -/

theorem rewriteMigMetaBaseUri_nil (codec : MetadataCodec) (desiredBaseUri : Str) :
    rewriteMigMetaBaseUri codec [] desiredBaseUri = [] := by
  have hloop : migMetaLoop codec desiredBaseUri [] 0 0 [] = ([], 0) := by
    rw [migMetaLoop]
    rfl
  rw [rewriteMigMetaBaseUri, hloop]
  rfl

/-- **No stage makes something of nothing.** -/
theorem apply_nil_of_mem_responseStages (codec : MetadataCodec) {profile : RewriteProfile}
    {basePath extension : Str} {s : Stage}
    (h : s ∈ responseStages codec profile basePath extension) : s.apply [] = [] := by
  cases s with
  | literal source mode => exact replaceFrom_nil _
  | expression => rw [Stage.apply, StreamingExpressionPatternRewriter.scan]
  | buffered transform =>
    -- The only buffered transform is the one of `_mig_meta`.
    cases profile with
    | ys1000Html =>
      rcases List.mem_append.1 h with h | h
      · obtain ⟨rule, -, hrule⟩ := List.mem_map.1 h
        cases hrule
      · rw [List.mem_singleton.1 h]
        exact rewriteMigMetaBaseUri_nil codec _
    | _ =>
      simp [responseStages, consoleStages, prefixStage, exactStage, memberStage, templateStage,
        appendStage] at h

namespace StreamingRewritePipeline

/-- A chain of stages that make nothing of nothing owes nothing for nothing. -/
theorem chainDen_nil {stages : List Stage} (h : ∀ s ∈ stages, s.apply [] = []) :
    chainDen StreamingRewriter.residual (stages.map Stage.rewriter) [] = some [] := by
  induction stages with
  | nil => rfl
  | cons s stages ih =>
    have hresidual : s.rewriter.residual [] = some (s.apply []) :=
      s.residual_rewriter (Nat.zero_le _) ⟨[], rfl⟩
    rw [List.map_cons, chainDen, hresidual, h s List.mem_cons_self, Option.bind_some]
    exact ih fun t ht ↦ h t (List.mem_cons_of_mem _ ht)

/-- A pipeline that has been pushed `inputBytes` bytes without a failure. -/
structure Fed (p : StreamingRewritePipeline) (maxBytes : Usize) (inputBytes : ℕ) : Prop where
  totalBytes_eq : p.totalBytes.val = inputBytes
  maxBytes_eq : p.maxBytes = maxBytes
  le : inputBytes ≤ maxBytes.val
  /-- It is finished, or it still runs, and then it owes no output for no input. -/
  running : p.finished = true ∨ p.Active ∧ (inputBytes = 0 → p.residual [] = some [])

/-- A new pipeline has been pushed nothing. -/
theorem fed_ofStages (codec : MetadataCodec) (profile : RewriteProfile)
    (basePath extension : Str) (maxBytes : Usize) :
    (ofStages (responseStages codec profile basePath extension)
      (responseStages_ne_nil codec profile basePath extension) maxBytes).Fed maxBytes 0 where
  totalBytes_eq := rfl
  maxBytes_eq := rfl
  le := Nat.zero_le _
  running := Or.inr ⟨ofStages_active _ maxBytes, fun _ ↦ (if_pos (Nat.zero_le _)).trans
    (chainDen_nil fun _ ↦ apply_nil_of_mem_responseStages codec)⟩

variable {p p' : StreamingRewritePipeline} {maxBytes : Usize} {inputBytes : ℕ}

/-- A push counts its input, and returns nothing while there was no input. -/
theorem Fed.push (h : p.Fed maxBytes inputBytes) {input output : Bytes}
    (hpush : p.push input = (.ok output, p')) :
    p'.Fed maxBytes (inputBytes + input.length) ∧
      (inputBytes + input.length = 0 → output = []) := by
  rcases h.running with hfinished | ⟨hactive, hempty⟩
  · rw [StreamingRewritePipeline.push, if_pos hfinished] at hpush
    cases hpush
  obtain ⟨hactive', hresidual⟩ := realizes.push_ok hactive hpush
  have htotals : p'.totalBytes.val = inputBytes + input.length ∧
      p'.maxBytes = maxBytes := by
    rcases push_eq hactive input with ⟨total, htotal, -, heq⟩ | ⟨-, herror⟩
    · rw [hpush] at heq
      obtain ⟨-, rfl⟩ := Prod.mk.inj heq
      exact ⟨htotal.trans (congrArg (· + _) h.totalBytes_eq), h.maxBytes_eq⟩
    · rw [hpush] at herror
      cases herror
  -- Without input the residual is empty, so that it splits into nothing and nothing.
  have hnothing : inputBytes + input.length = 0 →
      output = [] ∧ p'.residual [] = some [] := by
    intro hzero
    obtain ⟨hzero, hinput⟩ := Nat.add_eq_zero_iff.1 hzero
    have hsplit := hresidual []
    rw [List.eq_nil_of_length_eq_zero hinput, List.append_nil, hempty hzero] at hsplit
    obtain ⟨rest, hrest, happend⟩ := Option.map_eq_some_iff.1 hsplit.symm
    obtain ⟨houtput, hnil⟩ := List.append_eq_nil_iff.1 happend
    exact ⟨houtput, hnil ▸ hrest⟩
  refine ⟨⟨htotals.1, htotals.2, ?_, Or.inr ⟨hactive', fun hzero ↦ (hnothing hzero).2⟩⟩,
    fun hzero ↦ (hnothing hzero).1⟩
  rw [← htotals.1, ← htotals.2]
  exact hactive'.total_le

/-- The end returns nothing when there was no input. -/
theorem Fed.finish (h : p.Fed maxBytes inputBytes) {output : Bytes}
    (hfinish : p.finish = (.ok output, p')) :
    p'.Fed maxBytes inputBytes ∧ (inputBytes = 0 → output = []) := by
  rcases h.running with hfinished | ⟨hactive, hempty⟩
  · rw [StreamingRewritePipeline.finish, if_pos hfinished] at hfinish
    cases hfinish
  have hoption := realizes.finish_eq hactive
  rw [show transducer.finish p = _ from hfinish] at hoption
  refine ⟨?_, fun hzero ↦ ?_⟩
  · rw [StreamingRewritePipeline.finish, if_neg (by rw [hactive.not_finished]; simp)] at hfinish
    obtain ⟨-, rfl⟩ := Prod.mk.inj hfinish
    exact ⟨h.totalBytes_eq, h.maxBytes_eq, h.le, Or.inl rfl⟩
  · exact Option.some.inj (hoption.symm.trans (hempty hzero))

end StreamingRewritePipeline

/-! ### Metered requests -/

/-- Nothing has been rewritten yet. -/
structure RequestContext.Unfed (ctx : RequestContext) : Prop where
  rewriter : ctx.rewriter = none
  inputBytes : ctx.inputBytes = 0
  outputBytes : ctx.outputBytes = 0

/-- What the hooks keep of a request. -/
structure Metered (maxBytes : Usize) (phase : Phase) (ctx : RequestContext) : Prop where
  /-- Output is counted only when input is. -/
  silent : ctx.inputBytes = 0 → ctx.outputBytes = 0
  /-- A pipeline needs a permit. -/
  permit : phase ≠ .logged → ctx.rewriter ≠ none → ctx.activePermit = true
  fed : phase = .forwarding → ∀ p ∈ ctx.rewriter, p.Fed maxBytes ctx.inputBytes
  unfed : phase ≠ .forwarding → phase ≠ .closing → phase ≠ .logged → ctx.Unfed

section Hooks

variable {self : RewriteProxy} {maxBytes : Usize}

theorem RequestContext.Unfed.metered {ctx : RequestContext} (h : ctx.Unfed) (phase : Phase) :
    Metered maxBytes phase ctx where
  silent _ := h.outputBytes
  permit _ hrewriter := absurd h.rewriter hrewriter
  fed _ _ hp := absurd (h.rewriter.symm.trans hp) (by simp)
  unfed _ _ _ := h

/-- A request that is not proxied any more has only to keep its permit. -/
theorem Metered.closing {phase : Phase} {ctx : RequestContext} (h : Metered maxBytes phase ctx)
    (hphase : phase ≠ .logged) : Metered maxBytes .closing ctx where
  silent := h.silent
  permit _ := h.permit hphase
  fed := (by simp)
  unfed _ hclosing := absurd rfl hclosing

/-- An admitted request starts with a pipeline that has not been fed. -/
theorem metered_startRewrite (profile : RewriteProfile) (extension : Str) {ctx : RequestContext}
    (h : ctx.Unfed) (hpermit : ctx.activePermit = true) (effects : List Effect) :
    Metered self.config.maxDecodedBytes .forwarding
      (self.startRewrite profile extension ctx effects).ctx := by
  rw [RewriteProxy.startRewrite, buildSelectedResponseRewriter_eq]
  refine ⟨fun _ ↦ h.outputBytes, fun _ _ ↦ hpermit, ?_, fun hforwarding ↦ absurd rfl hforwarding⟩
  intro _ p hp
  obtain rfl := Option.some.inj hp
  show Fed _ _ ctx.inputBytes
  rw [h.inputBytes]
  exact fed_ofStages ..

/-- `response_filter` keeps the pipeline under its permit, or drops it. -/
def KeepsOrDrops (ctx ctx' : RequestContext) : Prop :=
  ctx'.inputBytes = ctx.inputBytes ∧ ctx'.outputBytes = ctx.outputBytes ∧
    (ctx'.rewriter = none ∨ ctx'.rewriter = ctx.rewriter ∧ ctx'.activePermit = ctx.activePermit)

/-- `response_filter` pushes nothing into the pipeline. -/
theorem responseFilter_keepsOrDrops (self : RewriteProxy) (response : ResponseHeader)
    (ctx : RequestContext) :
    KeepsOrDrops ctx (self.responseFilter response ctx).ctx := by
  have hkept : KeepsOrDrops ctx ctx := ⟨rfl, rfl, Or.inr ⟨rfl, rfl⟩⟩
  have hfinish : ∀ derivedEtag stripped,
      KeepsOrDrops ctx (RewriteProxy.finishHeaders derivedEtag stripped ctx).ctx := by
    intro derivedEtag stripped
    rw [RewriteProxy.finishHeaders.eq_def]
    cases derivedEtag with
    | none => exact hkept
    | some etag =>
      simp only
      split
      · exact hkept
      split
      · exact ⟨rfl, rfl, Or.inl rfl⟩
      · exact hkept
  rw [RewriteProxy.responseFilter]
  split
  · exact hkept
  cases ctx.decision with
  | bypass => exact hkept
  | rewrite profile extension headOnly =>
    simp only
    split
    · exact ⟨rfl, rfl, Or.inl rfl⟩
    split
    · exact ⟨rfl, rfl, Or.inl rfl⟩
    split
    · exact ⟨rfl, rfl, Or.inl rfl⟩
    split
    · exact hkept
    · exact hfinish _ _

/-- What keeps the pipeline or drops it keeps a request metered. -/
theorem Metered.keepsOrDrops {ctx ctx' : RequestContext} (h : Metered maxBytes .forwarding ctx)
    (hkeeps : KeepsOrDrops ctx ctx') : Metered maxBytes .forwarding ctx' := by
  obtain ⟨hinput, houtput, hrewriter⟩ := hkeeps
  refine ⟨fun hzero ↦ ?_, fun hphase hsome ↦ ?_, fun hphase p hp ↦ ?_,
    fun hforwarding ↦ absurd rfl hforwarding⟩
  · rw [houtput]
    exact h.silent (hinput ▸ hzero)
  · rcases hrewriter with hnone | ⟨hsame, hpermit⟩
    · exact absurd hnone hsome
    · rw [hpermit]
      exact h.permit hphase (hsame ▸ hsome)
  · rcases hrewriter with hnone | ⟨hsame, -⟩
    · exact absurd (hnone.symm.trans hp) (by simp)
    · rw [hinput]
      exact h.fed hphase p (hsame ▸ hp)

/-- **`response_body_filter` meters what passes through it.** -/
theorem metered_responseBodyFilter (body : Option Bytes) (endOfStream : Bool)
    {ctx : RequestContext} (h : Metered maxBytes .forwarding ctx) :
    Metered maxBytes
      (phaseAfterResponse (RewriteProxy.responseBodyFilter body endOfStream ctx).result)
      (RewriteProxy.responseBodyFilter body endOfStream ctx).ctx := by
  rw [RewriteProxy.responseBodyFilter]
  split
  · exact h
  cases hrewriter : ctx.rewriter with
  | none => exact h
  | some p =>
    have hpermit : ctx.activePermit = true := h.permit (by simp) (by rw [hrewriter]; simp)
    have hfed := h.fed rfl p hrewriter
    -- A failure only has to keep that nothing was output for nothing.
    have hfailed : ∀ p' error, Metered maxBytes
        (phaseAfterResponse (.error error : Except ProxyError (Option Bytes)))
        { ctx with inputBytes := ctx.inputBytes + (body.getD []).length, rewriter := some p' } :=
      fun p' error ↦ ⟨fun hzero ↦ h.silent (Nat.add_eq_zero_iff.1 hzero).1,
        fun _ _ ↦ hpermit, by simp [phaseAfterResponse], fun _ hclosing ↦ absurd rfl hclosing⟩
    simp only
    rcases hpush : p.push (body.getD []) with ⟨cause | pushed, p'⟩
    · exact hfailed p' _
    obtain ⟨hfed', hpushed⟩ := hfed.push hpush
    cases endOfStream with
    | false =>
      refine ⟨fun hzero ↦ ?_, fun _ _ ↦ hpermit, ?_, fun hforwarding ↦ absurd rfl hforwarding⟩
      · show ctx.outputBytes + (pushed ++ []).length = 0
        rw [hpushed hzero, h.silent (Nat.add_eq_zero_iff.1 hzero).1]
        rfl
      · intro _ q hq
        exact Option.some.inj hq ▸ hfed'
    | true =>
      simp only [if_true]
      rcases hfinish : p'.finish with ⟨cause | finished, p''⟩
      · exact hfailed p'' _
      obtain ⟨hfed'', hfinished⟩ := hfed'.finish hfinish
      refine ⟨fun hzero ↦ ?_, fun _ _ ↦ hpermit, ?_, fun hforwarding ↦ absurd rfl hforwarding⟩
      · show ctx.outputBytes + (pushed ++ finished).length = 0
        rw [hpushed hzero, hfinished hzero, h.silent (Nat.add_eq_zero_iff.1 hzero).1]
        rfl
      · intro _ q hq
        exact Option.some.inj hq ▸ hfed''

/-- `request_filter` reads the request into a context without a pipeline. -/
theorem RequestContext.Unfed.readRequest {ctx : RequestContext} (h : ctx.Unfed)
    (request : RequestHeader) : (self.readRequest request ctx).Unfed :=
  ⟨h.rewriter, h.inputBytes, h.outputBytes⟩

theorem phaseAfterRequest_startRewrite (profile : RewriteProfile) (extension : Str)
    (ctx : RequestContext) (effects : List Effect) :
    phaseAfterRequest (self.startRewrite profile extension ctx effects).result = .forwarding := by
  obtain ⟨rewriter, hrewriter⟩ := self.startRewrite_eq profile extension ctx effects
  rw [hrewriter]
  rfl

/-- **Every move of a request meters it.** -/
theorem RequestMove.metered {shared : Shared} {phase phase' : Phase} {ctx ctx' : RequestContext}
    {effects : List Effect} (hmove : RequestMove self shared phase ctx phase' ctx' effects)
    (h : Metered self.config.maxDecodedBytes phase ctx) :
    Metered self.config.maxDecodedBytes phase' ctx' := by
  cases hmove with
  | @returned request _ result hresult =>
    have hunfed := h.unfed (by simp) (by simp) (by simp)
    have hfiltered := self.filtered_requestFilter shared request ctx
    rw [hresult] at hfiltered
    cases hfiltered with
    | bypass => exact (hunfed.readRequest request).metered _
    | headOnly =>
      refine RequestContext.Unfed.metered ?_ _
      exact ⟨hunfed.rewriter, hunfed.inputBytes, hunfed.outputBytes⟩
    | admitted =>
      rw [phaseAfterRequest_startRewrite]
      refine metered_startRewrite _ _ ?_ rfl _
      exact ⟨hunfed.rewriter, hunfed.inputBytes, hunfed.outputBytes⟩
  | @queued request _ _ profile extension _ hresult =>
    have hunfed := h.unfed (by simp) (by simp) (by simp)
    have hfiltered := self.filtered_requestFilter shared request ctx
    rw [hresult] at hfiltered
    cases hfiltered with
    | queued =>
      refine RequestContext.Unfed.metered ?_ _
      exact ⟨hunfed.rewriter, hunfed.inputBytes, hunfed.outputBytes⟩
  | @responding request _ _ _ hresult =>
    have hunfed := h.unfed (by simp) (by simp) (by simp)
    have hfiltered := self.filtered_requestFilter shared request ctx
    rw [hresult] at hfiltered
    cases hfiltered with
    | rejected =>
      refine RequestContext.Unfed.metered ?_ _
      exact ⟨hunfed.rewriter, hunfed.inputBytes, hunfed.outputBytes⟩
  | granted => exact (h.unfed (by simp) (by simp) (by simp)).metered _
  | woken hresult =>
    subst hresult
    have hunfed := h.unfed (by simp) (by simp) (by simp)
    rw [RewriteProxy.requestFilterWoken, phaseAfterRequest_startRewrite]
    refine metered_startRewrite _ _ ?_ rfl _
    exact ⟨hunfed.rewriter, hunfed.inputBytes, hunfed.outputBytes⟩
  | @responseFilter _ response result hresult =>
    subst hresult
    have hkept := h.keepsOrDrops (responseFilter_keepsOrDrops self response ctx)
    rcases phaseAfterResponse_cases (self.responseFilter response ctx).result with hphase | hphase
    · rwa [hphase]
    · rw [hphase]
      exact hkept.closing (by simp)
  | @responseBodyFilter _ body endOfStream result hresult =>
    subst hresult
    exact metered_responseBodyFilter body endOfStream h
  | ended hphase =>
    refine h.closing ?_
    rcases hphase with rfl | rfl <;> simp
  | @logged _ _ failed record _ hresult =>
    obtain ⟨-, rfl, -⟩ := (Prod.mk.injEq ..).mp hresult |>.imp_right (Prod.mk.injEq ..).mp
    exact ⟨h.silent, fun hlogged ↦ absurd rfl hlogged, (by simp),
      fun _ _ hlogged ↦ absurd rfl hlogged⟩

end Hooks

/-! ### Runs -/

section Runs

variable {self : RewriteProxy} {state : State Shared Request}

theorem metered_of_start {request : Request} (h : (requests self).Start request) :
    Metered self.config.maxDecodedBytes request.phase request.ctx := by
  obtain ⟨phase, ctx, history⟩ := request
  obtain ⟨rfl, rfl, nanos, sequence, rfl⟩ := h
  exact RequestContext.Unfed.metered ⟨rfl, rfl, rfl⟩ _

theorem metered_of_step {shared shared' : Shared} {request request' : Request}
    (h : (requests self).Step shared request shared' request')
    (hrequest : Metered self.config.maxDecodedBytes request.phase request.ctx) :
    Metered self.config.maxDecodedBytes request'.phase request'.ctx := by
  obtain ⟨effects, hmove, -, -⟩ := h
  exact hmove.metered hrequest

/-- **Every request of every run is metered.** -/
theorem metered_of_reachable (h : (requests self).Reachable state) :
    ∀ request ∈ state.processes,
      Metered self.config.maxDecodedBytes request.phase request.ctx :=
  h.forall_mem (fun _ ↦ metered_of_start) fun _ _ _ _ hrequest hstep ↦
    metered_of_step hstep hrequest

/-- The pipeline that a request keeps alive until it is logged. After that Pingora drops the
context. -/
def Request.pipeline (request : Request) : Option StreamingRewritePipeline :=
  match request.phase with
  | .logged => none
  | _ => request.ctx.rewriter

/-- The bytes that a response has pushed into its pipeline so far. -/
def Request.decodedBytes (request : Request) : ℕ :=
  match request.phase, request.ctx.rewriter with
  | .forwarding, some pipeline => pipeline.totalBytes.val
  | _, _ => 0

/-- A pipeline that is alive has a permit. -/
theorem Metered.isSome_pipeline_le {maxBytes : Usize} {request : Request}
    (h : Metered maxBytes request.phase request.ctx) (hsome : request.pipeline.isSome = true) :
    request.ctx.activePermit = true := by
  rw [Request.pipeline] at hsome
  split at hsome
  · cases hsome
  · rename_i hphase
    exact h.permit hphase (Option.isSome_iff_ne_none.1 hsome)

/-- A request with a permit has decoded at most the limit, and one without has decoded nothing. -/
theorem Metered.decodedBytes_le {maxBytes : Usize} {request : Request}
    (h : Metered maxBytes request.phase request.ctx) :
    request.decodedBytes ≤ request.ctx.activePermit.toNat * maxBytes.val := by
  rw [Request.decodedBytes]
  split
  · rename_i pipeline hphase hrewriter
    have hpermit : request.ctx.activePermit = true :=
      h.permit (by rw [hphase]; simp) (by rw [hrewriter]; simp)
    have hfed := h.fed hphase pipeline hrewriter
    rw [hpermit, hfed.totalBytes_eq]
    exact hfed.le.trans_eq (Nat.one_mul _).symm
  · exact Nat.zero_le _

/-- The permits that requests hold are at most all permits. -/
theorem countP_activePermit_le_maxConcurrent (h : (requests self).Reachable state) :
    state.processes.countP (·.ctx.activePermit) ≤ self.config.maxConcurrent.val := by
  have hactive := activePermits_add_countP h
  have hholders := countP_activePermit_le h
  omega

/-- **The rewrites of a run are bounded**, in every state of every run: at most `maxConcurrent`
pipelines of requests not yet logged are alive, and together they have decoded at most
`maxConcurrent` times `maxDecodedBytes` bytes. -/
theorem bounded_decoding (h : (requests self).Reachable state) :
    (state.processes.filterMap Request.pipeline).length ≤ self.config.maxConcurrent.val ∧
      (state.processes.map Request.decodedBytes).sum ≤
        self.config.maxConcurrent.val * self.config.maxDecodedBytes.val := by
  have hmetered := metered_of_reachable h
  have hholders := countP_activePermit_le_maxConcurrent h
  constructor
  · rw [List.length_filterMap_eq_countP]
    exact (List.countP_mono_left fun request hrequest ↦
      (hmetered request hrequest).isSome_pipeline_le).trans hholders
  · calc (state.processes.map Request.decodedBytes).sum
        ≤ (state.processes.map fun request ↦
            request.ctx.activePermit.toNat * self.config.maxDecodedBytes.val).sum :=
          List.sum_le_sum fun request hrequest ↦ (hmetered request hrequest).decodedBytes_le
      _ = state.processes.countP (·.ctx.activePermit) * self.config.maxDecodedBytes.val := by
          rw [List.sum_map_mul_right, ← Nat.cast_id (List.countP _ _), ← sum_map_toNat]
          rfl
      _ ≤ self.config.maxConcurrent.val * self.config.maxDecodedBytes.val :=
          Nat.mul_le_mul_right _ hholders

/-! ### Progress -/

/-- How far a request is from its end. -/
def Phase.rank : Phase → ℕ
  | .arrived => 5
  | .queued _ _ => 4
  | .granted _ _ => 3
  | .forwarding => 2
  | .closing => 1
  | .logged => 0

theorem rank_phaseAfterRequest_le (result : Except ProxyError Bool) :
    (phaseAfterRequest result).rank ≤ 2 := by
  rcases phaseAfterRequest_cases result with h | h <;> rw [h] <;> decide

/-- The request awaits a permit. -/
def Request.Waits (request : Request) : Prop :=
  ∃ profile extension, request.phase = .queued profile extension

/-- The step of an arrived request that came with the header. -/
def EntersWith (self : RewriteProxy) (header : RequestHeader) (shared : Shared)
    (request : Request) (shared' : Shared) (request' : Request) : Prop :=
  match self.requestFilter shared header request.ctx with
  | .returned result =>
    shared' = shared.applyAll result.effects ∧
      request'.phase = phaseAfterRequest result.result ∧ request'.ctx = result.ctx
  | .queued profile extension ctx effects =>
    shared' = shared.applyAll effects ∧ request'.phase = .queued profile extension ∧
      request'.ctx = ctx
  | .responding _ ctx => shared' = shared ∧ request'.phase = .closing ∧ request'.ctx = ctx

/-- The steps of the request at a place, when the headers of all requests are given. -/
def TakesWith (self : RewriteProxy) (headers : ℕ → RequestHeader) (place : ℕ) (shared : Shared)
    (request : Request) (shared' : Shared) (request' : Request) : Prop :=
  (requests self).Step shared request shared' request' ∧
    (request.phase = .arrived → EntersWith self (headers place) shared request shared' request')

/-- **A request that does not wait can go on**, whatever header it came with. -/
theorem exists_takes_of_ready (self : RewriteProxy) (headers : ℕ → RequestHeader) (place : ℕ)
    (shared : Shared) {request : Request} (hrank : request.phase.rank ≠ 0)
    (hready : ¬ request.Waits) :
    ∃ shared' request', TakesWith self headers place shared request shared' request' ∧
      request'.phase.rank < request.phase.rank := by
  obtain ⟨phase, ctx, history⟩ := request
  have hgoes : ∀ {phase' ctx' effects},
      RequestMove self shared phase ctx phase' ctx' effects → phase ≠ .arrived →
      phase'.rank < phase.rank → ∃ shared' request',
        TakesWith self headers place shared ⟨phase, ctx, history⟩ shared' request' ∧
          request'.phase.rank < phase.rank :=
    fun hmove hphase hlt ↦ ⟨_, _, ⟨hmove.step history, fun harrived ↦ absurd harrived hphase⟩, hlt⟩
  cases phase with
  | arrived =>
    cases hprogress : self.requestFilter shared (headers place) ctx with
    | returned result =>
      refine ⟨_, _, ⟨(RequestMove.returned hprogress).step history, fun _ ↦ ?_⟩,
        Nat.lt_of_le_of_lt (rank_phaseAfterRequest_le result.result) (show 2 < 5 by decide)⟩
      rw [EntersWith, hprogress]
      exact ⟨rfl, rfl, rfl⟩
    | queued =>
      refine ⟨_, _, ⟨(RequestMove.queued hprogress).step history, fun _ ↦ ?_⟩, Nat.lt_succ_self 4⟩
      rw [EntersWith, hprogress]
      exact ⟨rfl, rfl, rfl⟩
    | responding =>
      refine ⟨_, _, ⟨(RequestMove.responding hprogress).step history, fun _ ↦ ?_⟩,
        show 1 < 5 by decide⟩
      rw [EntersWith, hprogress]
      exact ⟨rfl, rfl, rfl⟩
  | queued profile extension => exact absurd ⟨profile, extension, rfl⟩ hready
  | granted =>
    exact hgoes (.woken rfl) (by simp)
      (Nat.lt_of_le_of_lt (rank_phaseAfterRequest_le _) (Nat.lt_succ_self 2))
  | forwarding => exact hgoes (.ended (Or.inr rfl)) (by simp) (by decide)
  | closing =>
    exact hgoes (@RequestMove.logged self shared ctx _ false _ _ rfl) (by simp) (by decide)
  | logged => exact absurd rfl hrank

theorem eq_logged_of_rank {phase : Phase} (h : phase.rank = 0) : phase = .logged := by
  cases phase with
  | logged => rfl
  | _ => cases h

/-- A request that has been logged holds nothing, because its permit was taken out. -/
theorem Request.Consistent.ticket_eq_idle {request : Request} (h : request.Consistent)
    (hphase : request.phase = .logged) : request.ticket = .idle := by
  have hfits := h.permitFits
  rw [hphase] at hfits
  rw [Request.ticket, hphase, ticketOf, hfits (by simp) (by simp)]
  rfl

/-- Requests that all wait or have ended hold no permit. -/
theorem activePermits_eq_of_waiting (h : (requests self).Reachable state)
    (hwaiting : ∀ request ∈ state.processes, request.phase.rank ≠ 0 → request.Waits) :
    state.shared.activePermits = self.config.maxConcurrent.val := by
  have hnone : state.processes.countP (·.ticket.takesPermit) = 0 := by
    refine List.countP_eq_zero.2 fun request hrequest ↦ ?_
    by_cases hrank : request.phase.rank = 0
    · rw [(consistent_of_reachable h request hrequest).ticket_eq_idle (eq_logged_of_rank hrank)]
      decide
    · obtain ⟨profile, extension, hphase⟩ := hwaiting request hrequest hrank
      rw [Request.ticket, hphase, ticketOf]
      decide
  have hactive := activePermits_add_countP h
  omega

/-- **No deadlock.** When there are permits at all and only waiting requests are left, each of them
can be assigned a permit, because then all permits are free. -/
theorem exists_takes_of_waits (hpermits : 0 < self.config.maxConcurrent.val)
    (h : (requests self).Reachable state)
    (hwaiting : ∀ request ∈ state.processes, request.phase.rank ≠ 0 → request.Waits)
    (headers : ℕ → RequestHeader) (place : ℕ) {request : Request} (hrequest : request.Waits) :
    ∃ shared' request', TakesWith self headers place state.shared request shared' request' ∧
      ¬ request'.Waits ∧ request'.phase.rank < request.phase.rank := by
  have hfree := activePermits_eq_of_waiting h hwaiting
  obtain ⟨phase, ctx, history⟩ := request
  obtain ⟨profile, extension, hphase⟩ := hrequest
  obtain rfl : phase = .queued profile extension := hphase
  have hmove : RequestMove self state.shared (.queued profile extension) ctx
      (.granted profile extension) ctx [.acquireActive] := .granted (by omega)
  refine ⟨_, _, ⟨hmove.step history, fun harrived ↦ nomatch harrived⟩, ?_, Nat.lt_succ_self 3⟩
  rintro ⟨_, _, hqueued⟩
  exact nomatch hqueued

/-- When all requests have been logged, the shared state is the one at the start. -/
theorem shared_eq_of_all_logged (h : (requests self).Reachable state)
    (hlogged : ∀ request ∈ state.processes, request.phase = .logged) :
    state.shared = self.initialShared := by
  have hidle : ∀ request ∈ state.processes, request.ticket = .idle := fun request hrequest ↦
    (consistent_of_reachable h request hrequest).ticket_eq_idle (hlogged request hrequest)
  have hpermits : state.processes.countP (·.ticket.takesPermit) = 0 :=
    List.countP_eq_zero.2 fun request hrequest ↦ by rw [hidle request hrequest]; decide
  have hslots : state.processes.countP (·.ticket.holdsSlot) = 0 :=
    List.countP_eq_zero.2 fun request hrequest ↦ by rw [hidle request hrequest]; decide
  have hactive := activePermits_add_countP h
  have hqueued := queuedPermits_add_countP h
  have hactiveGauge := activeGauge_eq_countP h
  have hqueuedGauge := queuedGauge_eq_countP h
  have hholders := countP_activePermit_le h
  obtain ⟨⟨activePermits, queuedPermits, activeGauge, queuedGauge⟩, processes⟩ := state
  simp only at hactive hqueued hactiveGauge hqueuedGauge hholders hpermits hslots ⊢
  rw [RewriteProxy.initialShared, Shared.mk.injEq]
  omega

end Runs

/-! ### Two requests for one permit -/

/-- The first request rewrites its response, and the second one waits for the permit. -/
theorem exists_waiting :
    ∃ state, (requests regionsProxy).Reachable state ∧ state.processes.length = 2 ∧
      state.shared.queuedGauge = 1 ∧ (state.processes.filterMap Request.pipeline).length = 1 ∧
      InLine Request.Waits state.processes [1] := by
  have harrived : ∀ nanos sequence, (requests regionsProxy).Start
      { phase := .arrived, ctx := newCtx nanos sequence, history := [] } :=
    fun nanos sequence ↦ ⟨rfl, rfl, nanos, sequence, rfl⟩
  have hadmitted := regionsProxy.requestFilter_admitted regionsProxy.initialShared (newCtx 0 1)
    decide_kubekeyRequest (by decide)
  obtain ⟨rewriter, hrewriter⟩ := regionsProxy.startRewrite_eq .kubekeyAssetJs kubekeyName
    { regionsProxy.rewriteCtx kubekeyRequest (newCtx 0 1) kubekeyName with activePermit := true }
    [.acquireActive, .incActive]
  rw [hrewriter] at hadmitted
  have hqueued := regionsProxy.requestFilter_queued
    (regionsProxy.initialShared.applyAll [.acquireActive, .incActive]) (newCtx 0 2)
    decide_kubekeyRequest (by decide) (by decide)
  have hfirst := (System.Reachable.init.arrive (harrived 0 1)).run [] []
    ((RequestMove.returned hadmitted).step [])
  have hsecond := (hfirst.arrive (harrived 0 2)).run [_] []
    ((RequestMove.queued hqueued).step [])
  refine ⟨_, hsecond, rfl, rfl, rfl, ⟨List.nodup_singleton 1, fun place ↦ ?_⟩⟩
  match place with
  | 0 =>
    refine iff_of_false (by decide) ?_
    rintro ⟨request, hrequest, profile, extension, hphase⟩
    obtain rfl := Option.some.inj hrequest
    exact nomatch hphase
  | 1 => exact iff_of_true (by decide) ⟨_, rfl, _, _, rfl⟩
  | place + 2 =>
    refine iff_of_false (by simp) ?_
    rintro ⟨request, hrequest, -⟩
    exact nomatch hrequest

/-- Of two requests for one permit, one has a pipeline. -/
theorem bounded_decoding_waiting :
    ∃ state, (requests regionsProxy).Reachable state ∧
      (state.processes.filterMap Request.pipeline).length = 1 ∧
      (state.processes.map Request.decodedBytes).sum ≤ 1024 := by
  obtain ⟨state, hreach, -, -, hpipelines, -⟩ := exists_waiting
  exact ⟨state, hreach, hpipelines, (bounded_decoding hreach).2⟩

end KseRewriteProxy
