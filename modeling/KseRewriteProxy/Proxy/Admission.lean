import KseRewriteProxy.Processes.Interleaving
import KseRewriteProxy.Proxy.Hooks

/-!
# Admission

Any number of requests run their hooks in any order over the same two semaphores and gauges. A
request moves by one hook at a time, or by one part of `request_filter`; the semaphore `active`
assigns a free permit to a queued request, which then resumes.

## More runs than tokio has

The semaphore of tokio serves those that wait in the order in which they came, and it hands a
permit that is given back to the first of them at once. Here a free permit may be assigned to any
request that waits (`RequestMove.granted`), and a request that arrives may take it first. So these
runs include all runs of tokio, and what holds in every state of all of them holds in every state of
those. Progress is a different matter, since more runs are no help there: it is proved of runs that
keep the order of those that wait, in the module on resources.

## Tickets

`Ticket` is the abstract model: what a request holds, and the seven ways in which that changes.
`RequestMove.ticketStep` says that every move of a request is one of them. A step of a ticket moves
a permit or a slot between the request and the semaphores, or leaves both alone, so the sums of both
sides are constant in every run, and the gauges are the numbers of the holders
(`activePermits_add_countP` and its companions). What a request does over its whole life is in its
`History`: every ticket says which effects have led to it, and no such list gives back anything
twice (`History.balanced`).

The ways out of `request_filter` and of the response hooks are many (a full queue, a body that
cannot be rewritten, a 304, an error), but each of them leaves the ticket `idle` or leaves it to
`logging`, which takes the permit out of the context. This is all that `admission_safe` needs.
-/

namespace KseRewriteProxy

open Text Processes

/-! ### Tickets -/

/-- What a request holds. -/
inductive Ticket where
  /-- Nothing yet. -/
  | fresh
  /-- A queue slot. -/
  | queued
  /-- A queue slot, and the semaphore has assigned it a permit. -/
  | granted
  /-- A permit. -/
  | active
  /-- Nothing any more. -/
  | idle
  deriving DecidableEq

namespace Ticket

/-- A queue slot is held. -/
def holdsSlot (ticket : Ticket) : Bool :=
  ticket == .queued || ticket == .granted

/-- A permit is taken. -/
def takesPermit (ticket : Ticket) : Bool :=
  ticket == .granted || ticket == .active

/-- How the ticket of one request changes, and with which effects. -/
inductive Step (shared : Shared) : Ticket → List Effect → Ticket → Prop
  | stay {ticket : Ticket} (h : ticket = .active ∨ ticket = .idle) : Step shared ticket [] ticket
  | pass : Step shared .fresh [] .idle
  | enter (h : 0 < shared.activePermits) :
    Step shared .fresh [.acquireActive, .incActive] .active
  | enqueue (h : 0 < shared.queuedPermits) :
    Step shared .fresh [.acquireQueued, .incQueued] .queued
  | grant (h : 0 < shared.activePermits) : Step shared .queued [.acquireActive] .granted
  | wake : Step shared .granted [.releaseQueued, .decQueued, .incActive] .active
  | release : Step shared .active [.releaseActive, .decActive] .idle

variable {shared : Shared} {ticket ticket' : Ticket} {effects : List Effect}

/-- A permit that is taken is no longer available. -/
theorem Step.activePermits_add (h : Step shared ticket effects ticket') :
    (shared.applyAll effects).activePermits + ticket'.takesPermit.toNat =
      shared.activePermits + ticket.takesPermit.toNat := by
  cases h with
  | stay h => rfl
  | pass => rfl
  | enter h => exact Nat.sub_add_cancel h
  | enqueue h => rfl
  | grant h => exact Nat.sub_add_cancel h
  | wake => rfl
  | release => rfl

/-- A queue slot that is held is no longer available. -/
theorem Step.queuedPermits_add (h : Step shared ticket effects ticket') :
    (shared.applyAll effects).queuedPermits + ticket'.holdsSlot.toNat =
      shared.queuedPermits + ticket.holdsSlot.toNat := by
  cases h with
  | stay h => rfl
  | pass => rfl
  | enter h => rfl
  | enqueue h => exact Nat.sub_add_cancel h
  | grant h => rfl
  | wake => rfl
  | release => rfl

/-- The active gauge follows the permits that are held. -/
theorem Step.activeGauge_add (h : Step shared ticket effects ticket') :
    (shared.applyAll effects).activeGauge + ((ticket == .active).toNat : ℤ) =
      shared.activeGauge + ((ticket' == .active).toNat : ℤ) := by
  cases h with
  | stay h => rfl
  | pass => rfl
  | enter h => exact add_zero _
  | enqueue h => rfl
  | grant h => rfl
  | wake => exact add_zero _
  | release => exact (sub_add_cancel shared.activeGauge 1).trans (add_zero _).symm

/-- The queued gauge follows the queue slots. -/
theorem Step.queuedGauge_add (h : Step shared ticket effects ticket') :
    (shared.applyAll effects).queuedGauge + (ticket.holdsSlot.toNat : ℤ) =
      shared.queuedGauge + (ticket'.holdsSlot.toNat : ℤ) := by
  cases h with
  | stay h => rfl
  | pass => rfl
  | enter h => rfl
  | enqueue h => exact add_zero _
  | grant h => rfl
  | wake => exact (sub_add_cancel shared.queuedGauge 1).trans (add_zero _).symm
  | release => rfl

/-- The effects of a request that has become active. -/
def Admitted (history : List Effect) : Prop :=
  history = [.acquireActive, .incActive] ∨
    history = [.acquireQueued, .incQueued, .acquireActive, .releaseQueued, .decQueued, .incActive]

/-- All effects of a request that holds a ticket. -/
def History : Ticket → List Effect → Prop
  | fresh, history => history = []
  | queued, history => history = [.acquireQueued, .incQueued]
  | granted, history => history = [.acquireQueued, .incQueued, .acquireActive]
  | active, history => Admitted history
  | idle, history =>
    history = [] ∨ ∃ before, Admitted before ∧ history = before ++ [.releaseActive, .decActive]

/-- A step keeps what the ticket says about all effects so far. -/
theorem Step.history (h : Step shared ticket effects ticket') {history : List Effect}
    (hhistory : ticket.History history) : ticket'.History (history ++ effects) := by
  cases h with
  | stay h => rwa [List.append_nil]
  | pass => exact Or.inl (by rw [show history = [] from hhistory]; rfl)
  | enter h => exact Or.inl (by rw [show history = [] from hhistory]; rfl)
  | enqueue h => exact congrArg (· ++ _) hhistory
  | grant h => exact congrArg (· ++ _) hhistory
  | wake => exact Or.inr (congrArg (· ++ _) hhistory)
  | release => exact Or.inr ⟨history, hhistory, rfl⟩

/-- Nothing is released or decremented twice, and nothing that was not acquired or incremented. -/
structure Balanced (history : List Effect) : Prop where
  releaseActive_le : history.count .releaseActive ≤ 1
  releaseQueued_le : history.count .releaseQueued ≤ 1
  decActive_le : history.count .decActive ≤ 1
  decQueued_le : history.count .decQueued ≤ 1
  active_le : history.count .releaseActive ≤ history.count .acquireActive
  queued_le : history.count .releaseQueued ≤ history.count .acquireQueued
  decActive_le_incActive : history.count .decActive ≤ history.count .incActive
  decQueued_le_incQueued : history.count .decQueued ≤ history.count .incQueued

/-- **What a ticket allows as effects is balanced.** -/
theorem History.balanced {history : List Effect} (h : ticket.History history) :
    Balanced history := by
  have hadmitted : ∀ {history}, Admitted history →
      Balanced history ∧ Balanced (history ++ [.releaseActive, .decActive]) := by
    rintro history (rfl | rfl) <;> exact ⟨by constructor <;> decide, by constructor <;> decide⟩
  cases ticket with
  | fresh => exact h ▸ by constructor <;> decide
  | queued => exact h ▸ by constructor <;> decide
  | granted => exact h ▸ by constructor <;> decide
  | active => exact (hadmitted h).1
  | idle =>
    rcases h with rfl | ⟨before, hbefore, rfl⟩
    · constructor <;> decide
    · exact (hadmitted hbefore).2

end Ticket

/-! ### Requests -/

/-- Where a request is. -/
inductive Phase where
  /-- `request_filter` has not been called. -/
  | arrived
  /-- `request_filter` awaits a permit. -/
  | queued (profile : RewriteProfile) (extension : Str)
  /-- The permit is assigned, and `request_filter` has not resumed. -/
  | granted (profile : RewriteProfile) (extension : Str)
  /-- The request is proxied, and the hooks of the response are called. -/
  | forwarding
  /-- The request has ended, and `logging` has not been called. -/
  | closing
  /-- `logging` has been called. -/
  | logged
  deriving DecidableEq

/-- The state of one request, with all its effects so far. -/
structure Request where
  phase : Phase
  ctx : RequestContext
  history : List Effect

/-- What a request holds. -/
def ticketOf (phase : Phase) (ctx : RequestContext) : Ticket :=
  match phase with
  | .arrived => .fresh
  | .queued _ _ => .queued
  | .granted _ _ => .granted
  | .forwarding | .closing | .logged => if ctx.activePermit then .active else .idle

/-- The phase after `request_filter`, which returns whether the request has ended. -/
def phaseAfterRequest : Except ProxyError Bool → Phase
  | .ok false => .forwarding
  | .ok true | .error _ => .closing

/-- The phase after a hook of the response. -/
def phaseAfterResponse {α : Type} : Except ProxyError α → Phase
  | .ok _ => .forwarding
  | .error _ => .closing

section Moves

variable (self : RewriteProxy)

/-- One move of a request: its new phase and context, and the effects. -/
inductive RequestMove (shared : Shared) : Phase → RequestContext → Phase → RequestContext →
    List Effect → Prop
  /-- `request_filter` returns without waiting. -/
  | returned {request : RequestHeader} {ctx : RequestContext} {result : HookResult Bool}
    (h : self.requestFilter shared request ctx = .returned result) :
    RequestMove shared .arrived ctx (phaseAfterRequest result.result) result.ctx result.effects
  /-- `request_filter` enters the queue. -/
  | queued {request : RequestHeader} {ctx ctx' : RequestContext} {profile : RewriteProfile}
    {extension : Str} {effects : List Effect}
    (h : self.requestFilter shared request ctx = .queued profile extension ctx' effects) :
    RequestMove shared .arrived ctx (.queued profile extension) ctx' effects
  /-- `request_filter` rejects the request. -/
  | responding {request : RequestHeader} {ctx ctx' : RequestContext} {response : WrittenResponse}
    (h : self.requestFilter shared request ctx = .responding response ctx') :
    RequestMove shared .arrived ctx .closing ctx' []
  /-- The semaphore assigns a free permit, to any request that waits. Tokio assigns it to the one
  that has waited longest, so this allows more runs. -/
  | granted {ctx : RequestContext} {profile : RewriteProfile} {extension : Str}
    (h : 0 < shared.activePermits) :
    RequestMove shared (.queued profile extension) ctx (.granted profile extension) ctx
      [.acquireActive]
  /-- `request_filter` resumes. -/
  | woken {ctx : RequestContext} {profile : RewriteProfile} {extension : Str}
    {result : HookResult Bool}
    (h : self.requestFilterWoken profile extension ctx = result) :
    RequestMove shared (.granted profile extension) ctx (phaseAfterRequest result.result)
      result.ctx result.effects
  /-- `response_filter`. -/
  | responseFilter {ctx : RequestContext} {response : ResponseHeader}
    {result : HookResult ResponseHeader} (h : self.responseFilter response ctx = result) :
    RequestMove shared .forwarding ctx (phaseAfterResponse result.result) result.ctx
      result.effects
  /-- `response_body_filter`. -/
  | responseBodyFilter {ctx : RequestContext} {body : Option Bytes} {endOfStream : Bool}
    {result : HookResult (Option Bytes)}
    (h : RewriteProxy.responseBodyFilter body endOfStream ctx = result) :
    RequestMove shared .forwarding ctx (phaseAfterResponse result.result) result.ctx
      result.effects
  /-- The response is complete, or the request fails outside of the hooks. -/
  | ended {phase : Phase} {ctx : RequestContext} (h : phase = .arrived ∨ phase = .forwarding) :
    RequestMove shared phase ctx .closing ctx []
  /-- `logging`. -/
  | logged {ctx ctx' : RequestContext} {failed : Bool} {record : LogRecord}
    {effects : List Effect} (h : self.logging failed ctx = (record, ctx', effects)) :
    RequestMove shared .closing ctx .logged ctx' effects

/-- The system of all requests. -/
def requests : System Shared Request where
  init := self.initialShared
  Start request :=
    request.phase = .arrived ∧ request.history = [] ∧
      ∃ nanos sequence, request.ctx = newCtx nanos sequence
  Step shared request shared' request' :=
    ∃ effects, RequestMove self shared request.phase request.ctx request'.phase request'.ctx
      effects ∧ shared' = shared.applyAll effects ∧ request'.history = request.history ++ effects

end Moves

/-- Before a request is active it holds no permit, and none after it has been logged. -/
def PermitFits (phase : Phase) (ctx : RequestContext) : Prop :=
  phase ≠ .forwarding → phase ≠ .closing → ctx.activePermit = false

/-- What is known of a request by itself. -/
structure Request.Consistent (request : Request) : Prop where
  permitFits : PermitFits request.phase request.ctx
  history : (ticketOf request.phase request.ctx).History request.history

/-! ### The hooks move tickets -/

section Hooks

variable {self : RewriteProxy}

/-- The permit is kept, or it is given back. -/
def KeepsOrReleases (ctx ctx' : RequestContext) (effects : List Effect) : Prop :=
  (effects = [] ∧ ctx'.activePermit = ctx.activePermit) ∨
    (ctx.activePermit = true ∧ effects = [.releaseActive, .decActive] ∧
      ctx'.activePermit = false)

/-- `stop_rewrite` gives back the permit that it takes out of the context. -/
theorem stopRewrite_keepsOrReleases (ctx : RequestContext) (outcome : Str) :
    KeepsOrReleases ctx (stopRewrite ctx outcome).1 (stopRewrite ctx outcome).2 := by
  rw [stopRewrite, KeepsOrReleases]
  cases ctx.activePermit with
  | true => exact Or.inr ⟨rfl, rfl, rfl⟩
  | false => exact Or.inl ⟨rfl, rfl⟩

/-- A 304 gives the permit back, other headers keep it. -/
theorem finishHeaders_keepsOrReleases (derivedEtag : Option Str) (response : ResponseHeader)
    (ctx : RequestContext) :
    KeepsOrReleases ctx (RewriteProxy.finishHeaders derivedEtag response ctx).ctx
      (RewriteProxy.finishHeaders derivedEtag response ctx).effects := by
  rw [RewriteProxy.finishHeaders.eq_def]
  cases derivedEtag with
  | none => exact Or.inl ⟨rfl, rfl⟩
  | some etag =>
    simp only
    split
    · exact Or.inl ⟨rfl, rfl⟩
    split
    · -- The permit of the context is untouched by the two fields that are set before.
      exact stopRewrite_keepsOrReleases { ctx with suppressBody := true, rewriter := none } _
    · exact Or.inl ⟨rfl, rfl⟩

/-- **`response_filter` gives a permit back at most once.** -/
theorem responseFilter_keepsOrReleases (response : ResponseHeader) (ctx : RequestContext) :
    KeepsOrReleases ctx (self.responseFilter response ctx).ctx
      (self.responseFilter response ctx).effects := by
  rw [RewriteProxy.responseFilter]
  split
  · exact Or.inl ⟨rfl, rfl⟩
  cases ctx.decision with
  | bypass => exact Or.inl ⟨rfl, rfl⟩
  | rewrite profile extension headOnly =>
    simp only
    split
    · exact stopRewrite_keepsOrReleases ctx _
    split
    · exact stopRewrite_keepsOrReleases ctx _
    split
    · exact stopRewrite_keepsOrReleases ctx _
    split
    · exact Or.inl ⟨rfl, rfl⟩
    · exact finishHeaders_keepsOrReleases _ _ _

/-- `response_body_filter` keeps the permit, also when it fails. -/
theorem responseBodyFilter_activePermit (body : Option Bytes) (endOfStream : Bool)
    (ctx : RequestContext) :
    (RewriteProxy.responseBodyFilter body endOfStream ctx).effects = [] ∧
      (RewriteProxy.responseBodyFilter body endOfStream ctx).ctx.activePermit =
        ctx.activePermit := by
  rw [RewriteProxy.responseBodyFilter]
  split
  · exact ⟨rfl, rfl⟩
  cases ctx.rewriter with
  | none => exact ⟨rfl, rfl⟩
  | some rewriter =>
    simp only
    split <;> exact ⟨rfl, rfl⟩

/-- `logging` gives back a permit that is left, and leaves none. -/
theorem logging_keepsOrReleases (self : RewriteProxy) (failed : Bool) (ctx : RequestContext) :
    KeepsOrReleases ctx (self.logging failed ctx).2.1 (self.logging failed ctx).2.2 ∧
      (self.logging failed ctx).2.1.activePermit = false := by
  rw [RewriteProxy.logging]
  refine ⟨?_, rfl⟩
  cases hactive : ctx.activePermit with
  | true => exact Or.inr ⟨hactive, rfl, rfl⟩
  | false => exact Or.inl ⟨rfl, hactive.symm⟩

/-- For a request that is proxied, keeping or releasing the permit is a step of its ticket. -/
theorem KeepsOrReleases.ticketStep {ctx ctx' : RequestContext} {effects : List Effect}
    (h : KeepsOrReleases ctx ctx' effects) (shared : Shared) {phase phase' : Phase}
    (hphase : phase = .forwarding ∨ phase = .closing)
    (hphase' : phase' = .forwarding ∨ phase' = .closing ∨ phase' = .logged) :
    Ticket.Step shared (ticketOf phase ctx) effects (ticketOf phase' ctx') := by
  have hticket : ticketOf phase ctx = if ctx.activePermit then .active else .idle := by
    rcases hphase with rfl | rfl <;> rfl
  have hticket' : ticketOf phase' ctx' = if ctx'.activePermit then .active else .idle := by
    rcases hphase' with rfl | rfl | rfl <;> rfl
  rw [hticket, hticket']
  rcases h with ⟨rfl, hkept⟩ | ⟨hactive, rfl, hidle⟩
  · rw [hkept]
    refine .stay ?_
    cases ctx.activePermit with
    | true => exact Or.inl rfl
    | false => exact Or.inr rfl
  · rw [hactive, hidle]
    exact .release

theorem phaseAfterRequest_cases (result : Except ProxyError Bool) :
    phaseAfterRequest result = .forwarding ∨ phaseAfterRequest result = .closing := by
  match result with
  | .ok false => exact Or.inl rfl
  | .ok true => exact Or.inr rfl
  | .error _ => exact Or.inr rfl

theorem phaseAfterResponse_cases {α : Type} (result : Except ProxyError α) :
    phaseAfterResponse result = .forwarding ∨ phaseAfterResponse result = .closing := by
  cases result with
  | ok => exact Or.inl rfl
  | error => exact Or.inr rfl

/-- A request that goes on without a permit holds nothing. -/
theorem pass_of_activePermit {shared : Shared} {ctx : RequestContext}
    (h : ctx.activePermit = false) :
    Ticket.Step shared .fresh [] (if ctx.activePermit then .active else .idle) := by
  rw [h]
  exact .pass

theorem ticketOf_phaseAfterRequest (result : Except ProxyError Bool) (ctx : RequestContext) :
    ticketOf (phaseAfterRequest result) ctx = if ctx.activePermit then .active else .idle := by
  rcases phaseAfterRequest_cases result with h | h <;> rw [h] <;> rfl

/-- **Every move of a request is a step of its ticket.** -/
theorem RequestMove.ticketStep {shared : Shared} {phase phase' : Phase}
    {ctx ctx' : RequestContext} {effects : List Effect}
    (h : RequestMove self shared phase ctx phase' ctx' effects) (hfits : PermitFits phase ctx) :
    Ticket.Step shared (ticketOf phase ctx) effects (ticketOf phase' ctx') ∧
      PermitFits phase' ctx' := by
  cases h with
  | @returned request _ result h =>
    have hfresh : ctx.activePermit = false := hfits (nomatch ·) (nomatch ·)
    refine ⟨?_, fun hforwarding hclosing ↦ ?_⟩
    · rw [ticketOf_phaseAfterRequest]
      have hfiltered := self.filtered_requestFilter shared request ctx
      rw [h] at hfiltered
      cases hfiltered with
      | bypass => exact pass_of_activePermit hfresh
      | headOnly => exact pass_of_activePermit hfresh
      | @admitted profile extension hdecision hpermit =>
        obtain ⟨hactive, heffects⟩ := self.startRewrite_ctx profile extension
          { self.rewriteCtx request ctx extension with activePermit := true }
          [.acquireActive, .incActive]
        rw [hactive, heffects]
        exact .enter hpermit
    · rcases phaseAfterRequest_cases result.result with hphase | hphase
      · exact absurd hphase hforwarding
      · exact absurd hphase hclosing
  | @queued request _ _ profile extension _ h =>
    have hfresh : ctx.activePermit = false := hfits (nomatch ·) (nomatch ·)
    have hfiltered := self.filtered_requestFilter shared request ctx
    rw [h] at hfiltered
    cases hfiltered with
    | queued hdecision hpermit hslot => exact ⟨.enqueue hslot, fun _ _ ↦ hfresh⟩
  | @responding request _ _ _ h =>
    have hfresh : ctx.activePermit = false := hfits (nomatch ·) (nomatch ·)
    have hfiltered := self.filtered_requestFilter shared request ctx
    rw [h] at hfiltered
    cases hfiltered with
    | rejected hdecision hpermit hslot hresponse =>
      exact ⟨pass_of_activePermit hfresh, fun _ hclosing ↦ absurd rfl hclosing⟩
  | granted h => exact ⟨.grant h, fun _ _ ↦ hfits (nomatch ·) (nomatch ·)⟩
  | @woken _ profile extension result h =>
    subst h
    have hstart := self.startRewrite_ctx profile extension { ctx with activePermit := true }
      [.releaseQueued, .decQueued, .incActive]
    refine ⟨?_, fun hforwarding hclosing ↦ ?_⟩
    · rw [ticketOf_phaseAfterRequest]
      show Ticket.Step shared .granted (self.startRewrite _ _ _ _).effects
        (if (self.startRewrite _ _ _ _).ctx.activePermit then _ else _)
      rw [hstart.1, hstart.2]
      exact .wake
    · rcases phaseAfterRequest_cases (self.requestFilterWoken profile extension ctx).result with
        hphase | hphase
      · exact absurd hphase hforwarding
      · exact absurd hphase hclosing
  | @responseFilter _ response result h =>
    subst h
    have hphase := phaseAfterResponse_cases (self.responseFilter response ctx).result
    refine ⟨(responseFilter_keepsOrReleases response ctx).ticketStep shared (Or.inl rfl)
      (hphase.imp_right Or.inl), fun hforwarding hclosing ↦ ?_⟩
    exact absurd hclosing (hphase.resolve_left hforwarding ▸ fun h ↦ h rfl)
  | @responseBodyFilter _ body endOfStream result h =>
    subst h
    have hphase := phaseAfterResponse_cases
      (RewriteProxy.responseBodyFilter body endOfStream ctx).result
    have hkeeps : KeepsOrReleases ctx _ _ :=
      Or.inl (responseBodyFilter_activePermit body endOfStream ctx)
    refine ⟨hkeeps.ticketStep shared (Or.inl rfl) (hphase.imp_right Or.inl),
      fun hforwarding hclosing ↦ ?_⟩
    exact absurd hclosing (hphase.resolve_left hforwarding ▸ fun h ↦ h rfl)
  | ended h =>
    refine ⟨?_, fun _ hclosing ↦ absurd rfl hclosing⟩
    rcases h with rfl | rfl
    · exact pass_of_activePermit (hfits (nomatch ·) (nomatch ·))
    · have hkeeps : KeepsOrReleases ctx ctx [] := Or.inl ⟨rfl, rfl⟩
      exact hkeeps.ticketStep shared (Or.inl rfl) (Or.inr (Or.inl rfl))
  | @logged _ _ failed record _ h =>
    have hlogging := logging_keepsOrReleases self failed ctx
    rw [h] at hlogging
    exact ⟨hlogging.1.ticketStep shared (Or.inr rfl) (Or.inr (Or.inr rfl)),
      fun _ _ ↦ hlogging.2⟩

end Hooks

/-! ### Runs -/

/-- What a request holds. -/
def Request.ticket (request : Request) : Ticket :=
  ticketOf request.phase request.ctx

/-- A consistent request holds an active ticket exactly if it has the permit. -/
theorem Request.Consistent.active_eq {request : Request} (h : request.Consistent) :
    (request.ticket == .active) = request.ctx.activePermit := by
  obtain ⟨phase, ctx, history⟩ := request
  have hfits := h.permitFits
  cases phase with
  | arrived => exact (hfits (nomatch ·) (nomatch ·)).symm
  | queued => exact (hfits (nomatch ·) (nomatch ·)).symm
  | granted => exact (hfits (nomatch ·) (nomatch ·)).symm
  | _ =>
    show ((if ctx.activePermit then Ticket.active else Ticket.idle) == .active) = ctx.activePermit
    cases ctx.activePermit <;> rfl

section Runs

variable {self : RewriteProxy} {state : State Shared Request}

theorem RequestMove.step {shared : Shared} {phase phase' : Phase} {ctx ctx' : RequestContext}
    {effects : List Effect} (h : RequestMove self shared phase ctx phase' ctx' effects)
    (history : List Effect) :
    (requests self).Step shared ⟨phase, ctx, history⟩ (shared.applyAll effects)
      ⟨phase', ctx', history ++ effects⟩ :=
  ⟨effects, h, rfl, rfl⟩

theorem consistent_of_start {request : Request} (h : (requests self).Start request) :
    request.Consistent ∧ request.ticket = .fresh := by
  obtain ⟨phase, ctx, history⟩ := request
  obtain ⟨rfl, rfl, nanos, sequence, rfl⟩ := h
  exact ⟨⟨fun _ _ ↦ rfl, rfl⟩, rfl⟩

/-- A step keeps a request consistent, and moves its ticket. -/
theorem consistent_of_step {shared shared' : Shared} {request request' : Request}
    (hrequest : request.Consistent)
    (h : (requests self).Step shared request shared' request') :
    request'.Consistent ∧ ∃ effects, shared' = shared.applyAll effects ∧
      Ticket.Step shared request.ticket effects request'.ticket := by
  obtain ⟨effects, hmove, hshared, hhistory⟩ := h
  obtain ⟨hstep, hfits⟩ := hmove.ticketStep hrequest.permitFits
  exact ⟨⟨hfits, hhistory ▸ hstep.history hrequest.history⟩, effects, hshared, hstep⟩

/-- **Every request of every run is consistent.** -/
theorem consistent_of_reachable (h : (requests self).Reachable state) :
    ∀ request ∈ state.processes, request.Consistent :=
  h.forall_mem (fun _ hstart ↦ (consistent_of_start hstart).1)
    fun _ _ _ _ hrequest hstep ↦ (consistent_of_step hrequest hstep).1

/-- The permits that are taken and those that are available are all permits. -/
theorem activePermits_add_countP (h : (requests self).Reachable state) :
    state.shared.activePermits + state.processes.countP (·.ticket.takesPermit) =
      self.config.maxConcurrent.val := by
  rw [← Nat.cast_id (List.countP _ _), ← sum_map_toNat]
  exact h.add_sum_eq (P := Request.Consistent) (f := Shared.activePermits)
    (fun request hstart ↦ by
      obtain ⟨hconsistent, hticket⟩ := consistent_of_start hstart
      exact ⟨hconsistent, by rw [hticket]; rfl⟩)
    (fun shared request shared' request' hrequest hstep ↦ by
      obtain ⟨hconsistent, effects, rfl, hticket⟩ := consistent_of_step hrequest hstep
      exact ⟨hconsistent, hticket.activePermits_add⟩)

/-- The queue slots that are held and those that are available are all queue slots. -/
theorem queuedPermits_add_countP (h : (requests self).Reachable state) :
    state.shared.queuedPermits + state.processes.countP (·.ticket.holdsSlot) =
      self.config.maxQueued.val := by
  rw [← Nat.cast_id (List.countP _ _), ← sum_map_toNat]
  exact h.add_sum_eq (P := Request.Consistent) (f := Shared.queuedPermits)
    (fun request hstart ↦ by
      obtain ⟨hconsistent, hticket⟩ := consistent_of_start hstart
      exact ⟨hconsistent, by rw [hticket]; rfl⟩)
    (fun shared request shared' request' hrequest hstep ↦ by
      obtain ⟨hconsistent, effects, rfl, hticket⟩ := consistent_of_step hrequest hstep
      exact ⟨hconsistent, hticket.queuedPermits_add⟩)

/-- The active gauge counts the requests that hold a permit. -/
theorem activeGauge_eq_countP (h : (requests self).Reachable state) :
    state.shared.activeGauge = state.processes.countP (·.ctx.activePermit) := by
  have hsum := h.eq_add_sum (P := Request.Consistent) (f := Shared.activeGauge)
    (g := fun request ↦ ((request.ticket == .active).toNat : ℤ))
    (fun request hstart ↦ by
      obtain ⟨hconsistent, hticket⟩ := consistent_of_start hstart
      exact ⟨hconsistent, by rw [hticket]; rfl⟩)
    (fun shared request shared' request' hrequest hstep ↦ by
      obtain ⟨hconsistent, effects, rfl, hticket⟩ := consistent_of_step hrequest hstep
      exact ⟨hconsistent, hticket.activeGauge_add⟩)
  rw [sum_map_toNat] at hsum
  rw [hsum, show (requests self).init.activeGauge = 0 from rfl, zero_add]
  exact congrArg _ (List.countP_congr fun request hrequest ↦
    iff_of_eq (congrArg (· = true) (consistent_of_reachable h request hrequest).active_eq))

/-- The queued gauge counts the requests that hold a queue slot. -/
theorem queuedGauge_eq_countP (h : (requests self).Reachable state) :
    state.shared.queuedGauge = state.processes.countP (·.ticket.holdsSlot) := by
  have hsum := h.eq_add_sum (P := Request.Consistent) (f := Shared.queuedGauge)
    (g := fun request ↦ (request.ticket.holdsSlot.toNat : ℤ))
    (fun request hstart ↦ by
      obtain ⟨hconsistent, hticket⟩ := consistent_of_start hstart
      exact ⟨hconsistent, by rw [hticket]; rfl⟩)
    (fun shared request shared' request' hrequest hstep ↦ by
      obtain ⟨hconsistent, effects, rfl, hticket⟩ := consistent_of_step hrequest hstep
      exact ⟨hconsistent, hticket.queuedGauge_add⟩)
  rw [sum_map_toNat] at hsum
  rw [hsum, show (requests self).init.queuedGauge = 0 from rfl, zero_add]

/-- A request holds a permit only when the semaphore has assigned it one. -/
theorem countP_activePermit_le (h : (requests self).Reachable state) :
    state.processes.countP (·.ctx.activePermit) ≤
      state.processes.countP (·.ticket.takesPermit) := by
  refine List.countP_mono_left fun request hrequest hactive ↦ ?_
  rw [← (consistent_of_reachable h request hrequest).active_eq] at hactive
  rw [beq_iff_eq.1 hactive]
  rfl

/-- **Admission neither leaks nor over-grants**, in every state of every run: at most
`maxConcurrent` requests hold a permit and at most `maxQueued` hold a queue slot; the gauges are
these two numbers; a request is rejected with 503 only when every permit and every queue slot is
taken; no request releases or decrements anything twice; and when all requests have been logged,
the gauges are zero and everything is free. -/
theorem admission_safe (h : (requests self).Reachable state) :
    state.processes.countP (·.ctx.activePermit) ≤ self.config.maxConcurrent.val ∧
      state.processes.countP (·.ticket.holdsSlot) ≤ self.config.maxQueued.val ∧
      state.shared.activeGauge = state.processes.countP (·.ctx.activePermit) ∧
      state.shared.queuedGauge = state.processes.countP (·.ticket.holdsSlot) ∧
      (∀ request ∈ state.processes, request.phase = .arrived → ∀ header response ctx,
        self.requestFilter state.shared header request.ctx = .responding response ctx →
          response.header.status = 503 ∧
          state.processes.countP (·.ticket.takesPermit) = self.config.maxConcurrent.val ∧
          state.processes.countP (·.ticket.holdsSlot) = self.config.maxQueued.val) ∧
      (∀ request ∈ state.processes, Ticket.Balanced request.history) ∧
      ((∀ request ∈ state.processes, request.phase = .logged) →
        state.shared.activeGauge = 0 ∧ state.shared.queuedGauge = 0 ∧
          state.shared.activePermits = self.config.maxConcurrent.val ∧
          state.shared.queuedPermits = self.config.maxQueued.val) := by
  have hactive := activePermits_add_countP h
  have hqueued := queuedPermits_add_countP h
  have hholders := countP_activePermit_le h
  refine ⟨by omega, by omega, activeGauge_eq_countP h, queuedGauge_eq_countP h, ?_, ?_, ?_⟩
  · intro request _ _ header response ctx hresponding
    have hfiltered := self.filtered_requestFilter state.shared header request.ctx
    rw [hresponding] at hfiltered
    cases hfiltered with
    | rejected hdecision hpermit hslot hresponse =>
      exact ⟨status_of_writeResponse hresponse, by omega, by omega⟩
  · exact fun request hrequest ↦ (consistent_of_reachable h request hrequest).history.balanced
  · intro hlogged
    -- A logged request holds nothing, because its permit was taken out of the context.
    have hidle : ∀ request ∈ state.processes, request.ticket = .idle := by
      intro request hrequest
      have hfits := (consistent_of_reachable h request hrequest).permitFits
      rw [hlogged request hrequest] at hfits
      rw [Request.ticket, hlogged request hrequest]
      exact if_neg (by rw [hfits (nomatch ·) (nomatch ·)]; simp)
    have hpermits : state.processes.countP (·.ticket.takesPermit) = 0 :=
      List.countP_eq_zero.2 fun request hrequest ↦ by
        rw [hidle request hrequest]
        simp [Ticket.takesPermit]
    have hslots : state.processes.countP (·.ticket.holdsSlot) = 0 :=
      List.countP_eq_zero.2 fun request hrequest ↦ by
        rw [hidle request hrequest]
        simp [Ticket.holdsSlot]
    rw [activeGauge_eq_countP h, queuedGauge_eq_countP h]
    exact ⟨by omega, by omega, by omega, by omega⟩

end Runs

/-- Two requests for one permit: the first holds it, and the second waits in the queue. -/
theorem admission_safe_queued :
    ∃ state, (requests regionsProxy).Reachable state ∧ state.processes.length = 2 ∧
      state.shared.activeGauge = 1 ∧ state.shared.queuedGauge = 1 ∧
      state.processes.countP (·.ctx.activePermit) ≤ 1 := by
  have harrived : ∀ nanos sequence, (requests regionsProxy).Start
      { phase := .arrived, ctx := newCtx nanos sequence, history := [] } :=
    fun nanos sequence ↦ ⟨rfl, rfl, nanos, sequence, rfl⟩
  have hreach := System.Reachable.init.arrive (harrived 0 0)
  have hadmitted := regionsProxy.requestFilter_admitted regionsProxy.initialShared (newCtx 0 0)
    decide_kubekeyRequest (by decide)
  obtain ⟨hactive, heffects⟩ := regionsProxy.startRewrite_ctx .kubekeyAssetJs kubekeyName
    { regionsProxy.rewriteCtx kubekeyRequest (newCtx 0 0) kubekeyName with activePermit := true }
    [.acquireActive, .incActive]
  have hreach := hreach.run [] [] ((RequestMove.returned hadmitted).step [])
  have hreach := hreach.arrive (harrived 0 1)
  have hqueued := regionsProxy.requestFilter_queued
    (regionsProxy.initialShared.applyAll [.acquireActive, .incActive]) (newCtx 0 1)
    decide_kubekeyRequest (by decide) (by decide)
  rw [heffects] at hreach
  have hreach := hreach.run [_] [] ((RequestMove.queued hqueued).step [])
  exact ⟨_, hreach, rfl, rfl, rfl, (admission_safe hreach).1⟩

end KseRewriteProxy
