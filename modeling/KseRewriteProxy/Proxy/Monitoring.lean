import Mathlib.Data.BitVec
import Mathlib.Data.Finset.Prod
import Mathlib.Data.List.AList
import Mathlib.Data.List.ReduceOption
import KseRewriteProxy.Processes.Refinement
import KseRewriteProxy.Proxy.Resources
import KseRewriteProxy.Proxy.Upstream

/-!
# Monitoring

`Metrics` of `metrics.rs` and the sequence of `new_request_id`: what the requests of a whole run
leave in the counters of the sidecar.

`monitored` is the system of `Admission` with the counters, the sequence, and one process for each
session of the server. `refines_requests` says that it only adds to the system of all requests, so
that all its invariants hold here, too; there, as in that system, a free permit may be assigned to
any request that waits, which includes the order in which tokio assigns them.

## Counters

A counter is a map from label values to numbers of 64 bits, of which every series is created by its
first increment. `logging` is the only hook that counts, so a counter is the sum over the records
that have been logged (`measure_eq`), and `counters_eq` reads this off for each of them. The byte
counters are incremented only for a request with input; nothing is lost by this, because a metered
request has no output without input. `labels_bounded` says that the labels come from the
configuration, whatever the requests are.

## Sums over all labels

`metrics_consistent` is about the counters as a monitoring system reads them: the request counter
added up over its labels is the number of requests that were created and are not open, for each
outcome it has as many requests as the histogram has samples, and the two gauges together never
exceed the number of open requests. The total of a counter changes by an increment as if the series
existed before (`total_incBy`), so none of this depends on which series exist.

## Request ids

`requestIds_distinct` says that the sequence keeps the request ids apart even when the clock does
not: an id is written in two hexadecimal numbers with a dash between them, and is read back from
there.
-/

namespace KseRewriteProxy

open Text Processes

/-! ### Counters -/

/-- `IntCounterVec`: a counter for each set of label values that has been used. -/
structure CounterVec (κ : Type) where
  children : AList fun _ : κ ↦ BitVec 64

namespace CounterVec

variable {κ : Type}

/-- The label values that have been used. -/
def labels (self : CounterVec κ) : List κ :=
  self.children.keys

theorem nodup_labels (self : CounterVec κ) : self.labels.Nodup :=
  self.children.keys_nodup

variable [DecidableEq κ]

/-- No label values have been used. -/
def empty : CounterVec κ :=
  ⟨∅⟩

/-- The value of the counter with some label values. -/
def value (self : CounterVec κ) (labels : κ) : BitVec 64 :=
  (self.children.lookup labels).getD 0

/-- `with_label_values(…).inc_by(…)`. The atomic counter wraps around. -/
def incBy (self : CounterVec κ) (labels : κ) (n : ℕ) : CounterVec κ :=
  ⟨self.children.insert labels (self.value labels + n)⟩

/-- The sum of the counters whose label values are selected. -/
def total (self : CounterVec κ) (selects : κ → Bool) : BitVec 64 :=
  ((self.labels.filter selects).map self.value).sum

@[simp] theorem value_empty (labels : κ) : (empty : CounterVec κ).value labels = 0 := by
  rw [value, empty, AList.lookup_empty]
  rfl

/-- An increment changes the value of one series. -/
theorem value_incBy (self : CounterVec κ) (labels labels' : κ) (n : ℕ) :
    (self.incBy labels n).value labels' =
      self.value labels' + if labels = labels' then (n : BitVec 64) else 0 := by
  rw [value, incBy]
  split
  · rename_i heq
    subst heq
    rw [AList.lookup_insert]
    rfl
  · rename_i hne
    rw [AList.lookup_insert_ne (Ne.symm hne), add_zero]
    rfl

theorem mem_labels_incBy {self : CounterVec κ} {labels labels' : κ} {n : ℕ} :
    labels' ∈ (self.incBy labels n).labels ↔ labels' = labels ∨ labels' ∈ self.labels := by
  rw [CounterVec.labels, incBy, ← AList.mem_keys, AList.mem_insert]
  rfl

theorem labels_incBy (self : CounterVec κ) (labels : κ) (n : ℕ) :
    (self.incBy labels n).labels = labels :: self.labels.erase labels :=
  AList.keys_insert _

/-- Label values that have not been used count nothing. -/
theorem value_eq_zero {self : CounterVec κ} {labels : κ} (h : labels ∉ self.labels) :
    self.value labels = 0 := by
  rw [value, AList.lookup_eq_none.2 h]
  rfl

@[simp] theorem total_empty (selects : κ → Bool) : (empty : CounterVec κ).total selects = 0 :=
  rfl

omit [DecidableEq κ] in
theorem sum_filter_cons (selects : κ → Bool) (f : κ → BitVec 64) (labels : κ) (rest : List κ) :
    (((labels :: rest).filter selects).map f).sum =
      (if selects labels then f labels else 0) + ((rest.filter selects).map f).sum := by
  by_cases h : selects labels = true
  · rw [List.filter_cons_of_pos h, List.map_cons, List.sum_cons, if_pos h]
  · rw [List.filter_cons_of_neg h, if_neg h, zero_add]

/-- A total, with one of its summands in front. -/
theorem total_eq_add_erase (self : CounterVec κ) (selects : κ → Bool) (labels : κ) :
    self.total selects = (if selects labels then self.value labels else 0) +
      (((self.labels.erase labels).filter selects).map self.value).sum := by
  by_cases hmem : labels ∈ self.labels
  · have hperm := ((List.perm_cons_erase hmem).filter selects).map self.value
    rw [total, hperm.sum_eq, sum_filter_cons]
  · rw [value_eq_zero hmem, ite_self, zero_add, List.erase_of_not_mem hmem, total]

/-- **An increment is added to the totals that select it.** -/
theorem total_incBy (self : CounterVec κ) (labels : κ) (n : ℕ) (selects : κ → Bool) :
    (self.incBy labels n).total selects =
      self.total selects + if selects labels then (n : BitVec 64) else 0 := by
  have hother : ∀ labels' ∈ (self.labels.erase labels).filter selects,
      (self.incBy labels n).value labels' = self.value labels' := by
    intro labels' hmem
    have hne := (self.nodup_labels.mem_erase_iff.1 (List.mem_filter.1 hmem).1).1
    rw [value_incBy, if_neg (Ne.symm hne), add_zero]
  rw [total, labels_incBy, sum_filter_cons, List.map_congr_left hother, value_incBy, if_pos rfl,
    total_eq_add_erase self selects labels]
  by_cases h : selects labels = true
  · simp only [if_pos h]
    exact add_right_comm _ _ _
  · simp only [if_neg h, add_zero]

end CounterVec

/-- The counters of `Metrics`. Of the histogram `duration` these are the sample counts. -/
structure Counters where
  requests : CounterVec (Str × Str)
  duration : CounterVec Str
  rewriteInputBytes : CounterVec Str
  rewriteOutputBytes : CounterVec Str

namespace Counters

/-- The counters of `Metrics::new`. -/
def new : Counters where
  requests := .empty
  duration := .empty
  rewriteInputBytes := .empty
  rewriteOutputBytes := .empty

/-- What `logging` counts. -/
def record (self : Counters) (record : LogRecord) : Counters :=
  let self :=
    { self with
      requests := self.requests.incBy (record.outcome, record.metricsExtension) 1
      duration := self.duration.incBy record.outcome 1 }
  if 0 < record.inputBytes then
    { self with
      rewriteInputBytes := self.rewriteInputBytes.incBy record.metricsExtension record.inputBytes
      rewriteOutputBytes :=
        self.rewriteOutputBytes.incBy record.metricsExtension record.outputBytes }
  else self

end Counters

/-! ### Sessions -/

/-- What the sessions share. -/
structure Server where
  shared : Shared
  counters : Counters
  /-- The calls of `new_request_id` so far: the value of `REQUEST_SEQUENCE` is one more, modulo
  the size of a `u64`. -/
  created : ℕ

/-- The number that the next call of `new_request_id` takes. -/
def Server.sequence (server : Server) : UInt64 :=
  UInt64.ofNat (1 + server.created)

/-- A session of the server, from `new_ctx` on. -/
structure Session where
  /-- What `new_request_id` has counted before. -/
  number : ℕ
  /-- The request id of `new_ctx`. -/
  requestId : Str
  request : Request
  /-- What `logging` has reported. -/
  record : Option LogRecord

section

variable (self : RewriteProxy)

/-- One step of a session. -/
inductive SessionStep (server : Server) : Option Session → Server → Option Session → Prop
  /-- `new_ctx`. -/
  | newCtx (nanos : BitVec 128) :
    SessionStep server none { server with created := server.created + 1 }
      (some
        { number := server.created
          requestId := newRequestId nanos.toNat server.sequence.toNat
          request :=
            { phase := .arrived
              ctx := KseRewriteProxy.newCtx nanos.toNat server.sequence.toNat
              history := [] }
          record := none })
  /-- A move of the request before `logging`. -/
  | moved {session : Session} {shared : Shared} {request : Request}
    (h : (requests self).Step server.shared session.request shared request)
    (hphase : request.phase ≠ .logged) :
    SessionStep server (some session) { server with shared := shared }
      (some { session with request := request })
  /-- `logging`. -/
  | logged {session : Session} {failed : Bool} {record : LogRecord} {ctx : RequestContext}
    {effects : List Effect} (hphase : session.request.phase = .closing)
    (h : self.logging failed session.request.ctx = (record, ctx, effects)) :
    SessionStep server (some session)
      { server with
        shared := server.shared.applyAll effects
        counters := server.counters.record record }
      (some
        { session with
          request :=
            { phase := .logged
              ctx := ctx
              history := session.request.history ++ effects }
          record := some record })

/-- The system of all sessions. -/
def monitored : System Server (Option Session) where
  init := { shared := self.initialShared, counters := .new, created := 0 }
  Start session := session = none
  Step := SessionStep self

end

/-- **The sessions only add to the system of all requests.** -/
theorem refines_requests (self : RewriteProxy) :
    Refines (monitored self) (requests self) Server.shared (Option.map Session.request) where
  init := rfl
  start := by
    rintro session rfl request hrequest
    cases hrequest
  step := by
    intro server server' session session' hstep
    cases hstep with
    | newCtx nanos =>
      refine Or.inl ⟨rfl, Or.inr ⟨rfl, fun request hrequest ↦ ?_⟩⟩
      obtain rfl := Option.some.inj hrequest
      exact ⟨rfl, rfl, _, _, rfl⟩
    | moved h => exact Or.inr ⟨_, _, rfl, rfl, h⟩
    | @logged session _ record ctx effects hphase h =>
      refine Or.inr ⟨_, _, rfl, rfl, effects, ?_, rfl, rfl⟩
      rw [hphase]
      exact .logged h

/-- What `logging` has reported of the sessions. -/
def records (sessions : List (Option Session)) : List LogRecord :=
  sessions.filterMap (Option.bind · Session.record)

theorem filterMap_optionMap {α : Type} (f : Session → α) (sessions : List (Option Session)) :
    sessions.filterMap (Option.map f) = sessions.reduceOption.map f := by
  rw [List.reduceOption, List.map_filterMap]
  rfl

/-- The records are those of the sessions that have logged. -/
theorem records_eq_filterMap (sessions : List (Option Session)) :
    records sessions = sessions.reduceOption.filterMap Session.record := by
  rw [List.reduceOption, List.filterMap_filterMap]
  rfl

/-- The session has not been logged. -/
def Session.isOpen (session : Session) : Bool :=
  session.request.phase ≠ .logged

/-- What is known of a session by itself: it has been reported exactly when it is not open. -/
structure Session.Consistent (maxBytes : Usize) (session : Session) : Prop where
  isSome_record : session.record.isSome = !session.isOpen
  metered : Metered maxBytes session.request.phase session.request.ctx

section Counting

variable {self : RewriteProxy} {state : State Server (Option Session)}

/-- A request that has been logged makes no move. -/
theorem RequestMove.ne_logged {shared : Shared} {phase phase' : Phase}
    {ctx ctx' : RequestContext} {effects : List Effect}
    (h : RequestMove self shared phase ctx phase' ctx' effects) : phase ≠ .logged := by
  cases h with
  | ended h => rcases h with rfl | rfl <;> simp
  | _ => simp

/-- What `logging` leaves of the context. -/
theorem logging_eq {failed : Bool} {ctx ctx' : RequestContext} {record : LogRecord}
    {effects : List Effect} (h : self.logging failed ctx = (record, ctx', effects)) :
    record = (self.logging failed ctx).1 ∧ ctx' = { ctx with activePermit := false } := by
  rw [h]
  exact ⟨rfl, (congrArg (·.2.1) h).symm⟩

/-- **What a step of a session counts**: nothing, or what `logging` reports. -/
theorem SessionStep.counts {server server' : Server} {session session' : Option Session}
    (h : SessionStep self server session server' session')
    (hsession : ∀ s ∈ session, s.Consistent self.config.maxDecodedBytes) :
    (∀ s ∈ session', s.Consistent self.config.maxDecodedBytes) ∧
      ((server'.counters = server.counters ∧
        session'.bind Session.record = session.bind Session.record) ∨
      ∃ record, (record.inputBytes = 0 → record.outputBytes = 0) ∧
        server'.counters = server.counters.record record ∧
        session.bind Session.record = none ∧ session'.bind Session.record = some record) := by
  cases h with
  | newCtx nanos =>
    refine ⟨fun s hs ↦ ?_, Or.inl ⟨rfl, rfl⟩⟩
    obtain rfl := Option.some.inj hs
    exact ⟨rfl, RequestContext.Unfed.metered ⟨rfl, rfl, rfl⟩ _⟩
  | @moved session shared request hstep hphase =>
    have hconsistent := hsession session rfl
    refine ⟨fun s hs ↦ ?_, Or.inl ⟨rfl, rfl⟩⟩
    obtain rfl := Option.some.inj hs
    have hne : session.request.phase ≠ .logged := by
      obtain ⟨effects, hmove, -, -⟩ := hstep
      exact hmove.ne_logged
    have hopen : session.isOpen = true := decide_eq_true hne
    refine ⟨hconsistent.isSome_record.trans ?_, metered_of_step hstep hconsistent.metered⟩
    rw [hopen, Session.isOpen, decide_eq_true hphase]
  | @logged session failed record ctx effects hphase hlogging =>
    have hconsistent := hsession session rfl
    obtain ⟨hrecord, rfl⟩ := logging_eq hlogging
    refine ⟨fun s hs ↦ ?_, Or.inr ⟨record, ?_, rfl, ?_, rfl⟩⟩
    · obtain rfl := Option.some.inj hs
      exact ⟨rfl, ⟨hconsistent.metered.silent, fun hlogged ↦ absurd rfl hlogged, (by simp),
        fun _ _ hlogged ↦ absurd rfl hlogged⟩⟩
    · rw [hrecord]
      exact hconsistent.metered.silent
    · have hopen : session.isOpen = true := decide_eq_true (by rw [hphase]; simp)
      have hnone := hconsistent.isSome_record
      rw [hopen] at hnone
      exact Option.not_isSome_iff_eq_none.1 (by simp [hnone])

theorem sum_map_getD {M τ : Type} [AddCommMonoid M] (r : τ → Option LogRecord)
    (gain : LogRecord → M) (l : List τ) :
    (l.map fun a ↦ ((r a).map gain).getD 0).sum = ((l.filterMap r).map gain).sum := by
  induction l with
  | nil => rfl
  | cons a l ih =>
    rw [List.map_cons, List.sum_cons, ih, List.filterMap_cons]
    cases r a with
    | none => exact zero_add _
    | some record => rfl

/-- **What a record adds to a measure of the counters, all records together make it.** -/
theorem measure_eq {M : Type} [AddCommMonoid M] (h : (monitored self).Reachable state)
    (measure : Counters → M) {gain : LogRecord → M}
    (hgain : ∀ counters record, (record.inputBytes = 0 → record.outputBytes = 0) →
      measure (counters.record record) = measure counters + gain record) :
    measure state.shared.counters =
      measure .new + ((records state.processes).map gain).sum := by
  have hsum := h.eq_add_sum_of_gains
    (P := fun session ↦ ∀ s ∈ session, s.Consistent self.config.maxDecodedBytes)
    (f := fun server ↦ measure server.counters)
    (g := fun session ↦ ((session.bind Session.record).map gain).getD 0)
    (fun session hstart ↦ by
      obtain rfl : session = none := hstart
      exact ⟨fun s hs ↦ absurd hs (Option.not_mem_none s), rfl⟩)
    (fun server session server' session' hsession hstep ↦ by
      obtain ⟨hsession', hcounted⟩ := SessionStep.counts hstep hsession
      refine ⟨hsession', ?_⟩
      rcases hcounted with ⟨hcounters, hrecord⟩ | ⟨record, hsilent, hcounters, hnone, hsome⟩
      · exact ⟨0, by rw [hcounters, add_zero], by rw [hrecord, add_zero]⟩
      · refine ⟨gain record, ?_, ?_⟩
        · rw [hcounters]
          exact hgain _ _ hsilent
        · rw [hnone, hsome]
          exact (zero_add _).symm)
  rw [hsum, sum_map_getD]
  rfl

/-! ### The counters are exact -/

/-- A record counts one request, under its own labels. -/
theorem value_requests_record (counters : Counters) (record : LogRecord) (labels : Str × Str) :
    (counters.record record).requests.value labels = counters.requests.value labels +
      (decide ((record.outcome, record.metricsExtension) = labels)).toNat := by
  have hvalue := counters.requests.value_incBy (record.outcome, record.metricsExtension) labels 1
  rw [Counters.record]
  split <;> refine hvalue.trans (congrArg _ ?_)
  all_goals split <;> simp [*]

theorem value_duration_record (counters : Counters) (record : LogRecord) (outcome : Str) :
    (counters.record record).duration.value outcome = counters.duration.value outcome +
      (decide (record.outcome = outcome)).toNat := by
  have hvalue := counters.duration.value_incBy record.outcome outcome 1
  rw [Counters.record]
  split <;> refine hvalue.trans (congrArg _ ?_)
  all_goals split <;> simp [*]

theorem value_rewriteInputBytes_record (counters : Counters) (record : LogRecord)
    (extension : Str) :
    (counters.record record).rewriteInputBytes.value extension =
      counters.rewriteInputBytes.value extension +
        if record.metricsExtension = extension then (record.inputBytes : BitVec 64) else 0 := by
  rw [Counters.record]
  split
  · exact CounterVec.value_incBy ..
  · rename_i hzero
    rw [Nat.eq_zero_of_not_pos hzero]
    simp

/-- Without input bytes the output bytes are not added, but then there are none. -/
theorem value_rewriteOutputBytes_record (counters : Counters) {record : LogRecord}
    (hsilent : record.inputBytes = 0 → record.outputBytes = 0) (extension : Str) :
    (counters.record record).rewriteOutputBytes.value extension =
      counters.rewriteOutputBytes.value extension +
        if record.metricsExtension = extension then (record.outputBytes : BitVec 64) else 0 := by
  rw [Counters.record]
  split
  · exact CounterVec.value_incBy ..
  · rename_i hzero
    rw [hsilent (Nat.eq_zero_of_not_pos hzero)]
    simp

theorem sum_map_ite {M α : Type} [AddCommMonoidWithOne M] (p : α → Prop) [DecidablePred p]
    (f : α → ℕ) (l : List α) :
    (l.map fun a ↦ if p a then (f a : M) else 0).sum = (((l.filter p).map f).sum : ℕ) := by
  induction l with
  | nil => exact Nat.cast_zero.symm
  | cons a l ih =>
    rw [List.map_cons, List.sum_cons, ih]
    by_cases h : p a
    · rw [if_pos h, List.filter_cons_of_pos (by simpa using h), List.map_cons, List.sum_cons,
        Nat.cast_add]
    · rw [if_neg h, List.filter_cons_of_neg (by simpa using h), zero_add]

/-- **The counters are exact**, modulo the size of a `u64`, in every state of every run: they are
what the logged sessions amount to, and no byte of input or output is lost to the check of
`logging`. -/
theorem counters_eq (h : (monitored self).Reachable state) :
    (∀ outcome extension, state.shared.counters.requests.value (outcome, extension) =
      (records state.processes).countP
        fun record ↦ (record.outcome, record.metricsExtension) = (outcome, extension)) ∧
    (∀ outcome, state.shared.counters.duration.value outcome =
      (records state.processes).countP fun record ↦ record.outcome = outcome) ∧
    ∀ extension,
      state.shared.counters.rewriteInputBytes.value extension =
        ((((records state.processes).filter (·.metricsExtension = extension)).map
          LogRecord.inputBytes).sum : ℕ) ∧
      state.shared.counters.rewriteOutputBytes.value extension =
        ((((records state.processes).filter (·.metricsExtension = extension)).map
          LogRecord.outputBytes).sum : ℕ) := by
  refine ⟨fun outcome extension ↦ ?_, fun outcome ↦ ?_, fun extension ↦ ⟨?_, ?_⟩⟩
  · have hmeasure := measure_eq h (fun c ↦ c.requests.value (outcome, extension))
      fun counters record _ ↦ value_requests_record counters record (outcome, extension)
    rw [hmeasure, sum_map_toNat]
    exact zero_add _
  · have hmeasure := measure_eq h (fun c ↦ c.duration.value outcome)
      fun counters record _ ↦ value_duration_record counters record outcome
    rw [hmeasure, sum_map_toNat]
    exact zero_add _
  · have hmeasure := measure_eq h (fun c ↦ c.rewriteInputBytes.value extension)
      fun counters record _ ↦ value_rewriteInputBytes_record counters record extension
    rw [hmeasure, sum_map_ite]
    exact zero_add _
  · have hmeasure := measure_eq h (fun c ↦ c.rewriteOutputBytes.value extension)
      fun counters record hsilent ↦ value_rewriteOutputBytes_record counters hsilent extension
    rw [hmeasure, sum_map_ite]
    exact zero_add _

end Counting

/-! ### The labels are bounded -/

/-- The outcomes that the hooks set, with the one of a failed request. -/
def outcomes : Finset Str :=
  {str "bypass", str "rewrite", str "queued", str "queue_full", str "upstream_status_bypass",
    str "invalid_content_type", str "unexpected_content_encoding", str "not_modified", str "error"}

/-- The labels of extensions: the fixed ones, with the wildcard or the extensions of the
allowlist. -/
def RewritePolicy.extensionLabels (self : RewritePolicy) : Finset Str :=
  {str "none", str "kubekey-assets", str "proxy-html", str "ys1000-html"} ∪
    match self.extensions with
    | .all => {allExtensionsWildcard}
    | .allowlist enabledExtensions => enabledExtensions.filter (self.isExtensionEnabled ·)

/-- The labels of a record are among the bounded ones. -/
def LogRecord.Labelled (policy : RewritePolicy) (record : LogRecord) : Prop :=
  record.outcome ∈ outcomes ∧ record.metricsExtension ∈ policy.extensionLabels

/-- What the hooks keep of the context for the labels. -/
structure RequestContext.Labelled (policy : RewritePolicy) (ctx : RequestContext) : Prop where
  outcome_mem : ctx.outcome ∈ outcomes
  extension_mem : ∀ profile extension headOnly, ctx.decision = .rewrite profile extension headOnly →
    ∀ extension' ∈ ctx.extension,
      policy.metricsExtensionLabel profile extension' ∈ policy.extensionLabels

namespace RewritePolicy

variable {policy : RewritePolicy}

theorem eq_of_namedProxyProfile {name assetPath : Str} {profile : RewriteProfile}
    (h : policy.namedProxyProfile name assetPath = some profile) :
    profile = .kubekeyAssetJs ∨ profile = .namedProxyHtml ∨ profile = .ys1000Html := by
  rw [namedProxyProfile] at h
  repeat' split at h
  all_goals cases h
  all_goals decide

/-- A bundle is rewritten for an enabled extension only. -/
theorem isExtensionEnabled_of_jsbundlePath {path extension : Str} {profile : RewriteProfile}
    (h : policy.jsbundlePath path = some (extension, profile)) :
    policy.isExtensionEnabled extension = true := by
  simp only [jsbundlePath, Option.bind_eq_bind, Option.bind_eq_some_iff] at h
  obtain ⟨bundlePath, -, ⟨extension', distributionPath⟩, -, assetPath, -, h⟩ := h
  split at h
  · rename_i hchecks
    obtain ⟨profile', -, hpair⟩ := Option.map_eq_some_iff.1 h
    obtain ⟨rfl, -⟩ := Prod.mk.inj hpair
    simp only [Bool.and_eq_true] at hchecks
    exact hchecks.1.1.1
  · cases h

/-- A static asset is rewritten for an enabled extension only. -/
theorem isExtensionEnabled_of_staticPath {path extension : Str}
    (h : policy.staticPath path = some extension) :
    policy.isExtensionEnabled extension = true := by
  simp only [staticPath, Option.bind_eq_bind, Option.bind_eq_some_iff] at h
  obtain ⟨extensionPath, -, ⟨extension', assetPath⟩, -, h⟩ := h
  split at h
  · cases h
  · rename_i hchecks
    obtain rfl := Option.some.inj h
    simp only [Bool.or_eq_true, not_or, Bool.not_eq_true', Bool.not_eq_false] at hchecks
    exact hchecks.1.2

/-- **Every decision has a bounded label**: below the `proxy` root the label is the one of the
profile, and elsewhere the extension must be enabled. -/
theorem metricsExtensionLabel_mem {method path extension : Str} {profile : RewriteProfile}
    {headOnly : Bool} (h : policy.decide method path = .rewrite profile extension headOnly) :
    policy.metricsExtensionLabel profile extension ∈ policy.extensionLabels := by
  have hfixed : profile = .kubekeyAssetJs ∨ profile = .namedProxyHtml ∨ profile = .ys1000Html →
      policy.metricsExtensionLabel profile extension ∈ policy.extensionLabels := by
    intro hprofile
    refine Finset.mem_union_left _ ?_
    rcases hprofile with rfl | rfl | rfl <;> simp [metricsExtensionLabel]
  have henabled : policy.isExtensionEnabled extension = true →
      policy.metricsExtensionLabel profile extension ∈ policy.extensionLabels := by
    intro henabled
    by_cases hprofile : profile = .kubekeyAssetJs ∨ profile = .namedProxyHtml ∨
        profile = .ys1000Html
    · exact hfixed hprofile
    refine Finset.mem_union_right _ ?_
    have hlabel : policy.metricsExtensionLabel profile extension =
        match policy.extensions with
        | .all => allExtensionsWildcard
        | .allowlist _ => extension := by
      cases profile <;> first | rfl | exact absurd (by decide) hprofile
    rw [hlabel]
    cases hextensions : policy.extensions with
    | all => exact Finset.mem_singleton_self _
    | allowlist enabledExtensions =>
      refine Finset.mem_filter.2 ⟨?_, henabled⟩
      rw [isExtensionEnabled, hextensions] at henabled
      simp only [Bool.and_eq_true, decide_eq_true_eq] at henabled
      exact henabled.2
  rw [RewritePolicy.decide] at h
  split at h
  · cases h
  simp only at h
  split at h
  · split at h
    · rename_i profile' hprofile
      obtain ⟨rfl, -, -⟩ := RewriteDecision.rewrite.inj h
      exact hfixed (eq_of_namedProxyProfile hprofile)
    · cases h
  split at h
  · rename_i hpath
    obtain ⟨rfl, rfl, -⟩ := RewriteDecision.rewrite.inj h
    exact henabled (isExtensionEnabled_of_jsbundlePath hpath)
  split at h
  · rename_i hpath
    obtain ⟨rfl, rfl, -⟩ := RewriteDecision.rewrite.inj h
    exact henabled (isExtensionEnabled_of_staticPath hpath)
  · cases h

end RewritePolicy

section Labels

variable {self : RewriteProxy} {state : State Server (Option Session)}

/-- What keeps the decision, the extension and a known outcome keeps the labels. -/
theorem RequestContext.Labelled.of_keeps {policy : RewritePolicy} {ctx ctx' : RequestContext}
    (h : ctx.Labelled policy) (hdecision : ctx'.decision = ctx.decision)
    (hextension : ctx'.extension = ctx.extension) (houtcome : ctx'.outcome ∈ outcomes) :
    ctx'.Labelled policy where
  outcome_mem := houtcome
  extension_mem := by
    rw [hdecision, hextension]
    exact h.extension_mem

/-- What the start of a rewrite leaves of the context. -/
theorem startRewrite_keeps (self : RewriteProxy) (profile : RewriteProfile) (extension : Str)
    (ctx : RequestContext) (effects : List Effect) :
    ∃ rewriter, (self.startRewrite profile extension ctx effects).ctx =
      { ctx with rewriter := some rewriter } := by
  obtain ⟨rewriter, hrewriter⟩ := self.startRewrite_eq profile extension ctx effects
  exact ⟨rewriter, congrArg HookResult.ctx hrewriter⟩

/-- A request with a rewrite decision has bounded labels. -/
theorem labelled_of_decision {request : RequestHeader} {ctx ctx' : RequestContext}
    {profile : RewriteProfile} {extension : Str} {headOnly : Bool}
    (hdecision : (self.readRequest request ctx).decision = .rewrite profile extension headOnly)
    (hsame : ctx'.decision = (self.readRequest request ctx).decision)
    (hextension : ctx'.extension = some extension) (houtcome : ctx'.outcome ∈ outcomes) :
    ctx'.Labelled self.policy where
  outcome_mem := houtcome
  extension_mem := by
    intro profile' extension' headOnly' hrewrite label hlabel
    obtain ⟨rfl, rfl, -⟩ :=
      RewriteDecision.rewrite.inj (hdecision.symm.trans (hsame.symm.trans hrewrite))
    obtain rfl := Option.some.inj (hextension.symm.trans hlabel)
    exact RewritePolicy.metricsExtensionLabel_mem hdecision

/-- `response_filter` keeps the outcome, or sets one of the bounded ones. -/
theorem outcome_responseFilter_mem {response : ResponseHeader} {ctx : RequestContext}
    (h : ctx.outcome ∈ outcomes) : (self.responseFilter response ctx).ctx.outcome ∈ outcomes := by
  have hfinish : ∀ derivedEtag stripped,
      (RewriteProxy.finishHeaders derivedEtag stripped ctx).ctx.outcome ∈ outcomes := by
    intro derivedEtag stripped
    rw [RewriteProxy.finishHeaders.eq_def]
    cases derivedEtag with
    | none => exact h
    | some etag =>
      simp only
      split
      · exact h
      split
      · show str "not_modified" ∈ outcomes
        decide
      · exact h
  rw [RewriteProxy.responseFilter]
  split
  · exact h
  cases ctx.decision with
  | bypass => exact h
  | rewrite profile extension headOnly =>
    simp only
    split
    · show str "upstream_status_bypass" ∈ outcomes
      decide
    split
    · show str "invalid_content_type" ∈ outcomes
      decide
    split
    · show str "unexpected_content_encoding" ∈ outcomes
      decide
    split
    · exact h
    · exact hfinish _ _

/-- `response_body_filter` changes the outcome only, and only to a failure. -/
theorem responseBodyFilter_keeps (body : Option Bytes) (endOfStream : Bool)
    (ctx : RequestContext) :
    (RewriteProxy.responseBodyFilter body endOfStream ctx).ctx.requestId = ctx.requestId ∧
      (RewriteProxy.responseBodyFilter body endOfStream ctx).ctx.decision = ctx.decision ∧
      (RewriteProxy.responseBodyFilter body endOfStream ctx).ctx.extension = ctx.extension ∧
      (RewriteProxy.responseBodyFilter body endOfStream ctx).ctx.outcome = ctx.outcome := by
  rw [RewriteProxy.responseBodyFilter]
  split
  · exact ⟨rfl, rfl, rfl, rfl⟩
  cases ctx.rewriter with
  | none => exact ⟨rfl, rfl, rfl, rfl⟩
  | some rewriter =>
    simp only
    split <;> exact ⟨rfl, rfl, rfl, rfl⟩

/-- **Every move of a request keeps its labels bounded.** -/
theorem RequestMove.labelled {shared : Shared} {phase phase' : Phase} {ctx ctx' : RequestContext}
    {effects : List Effect} (hmove : RequestMove self shared phase ctx phase' ctx' effects)
    (h : ctx.Labelled self.policy) : ctx'.Labelled self.policy := by
  have hrewrite : str "rewrite" ∈ outcomes := by decide
  have hqueued : str "queued" ∈ outcomes := by decide
  have hfull : str "queue_full" ∈ outcomes := by decide
  cases hmove with
  | @returned request _ result hresult =>
    have hfiltered := self.filtered_requestFilter shared request ctx
    rw [hresult] at hfiltered
    cases hfiltered with
    | bypass hdecision =>
      exact ⟨h.outcome_mem, fun _ _ _ hrewrite ↦ absurd (hdecision.symm.trans hrewrite) (by simp)⟩
    | headOnly hdecision => exact labelled_of_decision hdecision rfl rfl hrewrite
    | admitted hdecision =>
      obtain ⟨rewriter, hctx⟩ := startRewrite_keeps self _ _ _ _
      rw [hctx]
      exact labelled_of_decision hdecision rfl rfl hrewrite
  | @queued request _ _ profile extension _ hresult =>
    have hfiltered := self.filtered_requestFilter shared request ctx
    rw [hresult] at hfiltered
    cases hfiltered with
    | queued hdecision => exact labelled_of_decision hdecision rfl rfl hqueued
  | @responding request _ _ _ hresult =>
    have hfiltered := self.filtered_requestFilter shared request ctx
    rw [hresult] at hfiltered
    cases hfiltered with
    | rejected hdecision => exact labelled_of_decision hdecision rfl rfl hfull
  | granted => exact h
  | woken hresult =>
    subst hresult
    obtain ⟨rewriter, hctx⟩ := startRewrite_keeps self _ _ _ _
    rw [RewriteProxy.requestFilterWoken, hctx]
    exact h.of_keeps rfl rfl h.outcome_mem
  | @responseFilter _ response result hresult =>
    subst hresult
    obtain ⟨-, hdecision, hextension, -⟩ := responseFilter_keeps self response ctx
    exact h.of_keeps hdecision hextension (outcome_responseFilter_mem h.outcome_mem)
  | @responseBodyFilter _ body endOfStream result hresult =>
    subst hresult
    obtain ⟨-, hdecision, hextension, houtcome⟩ := responseBodyFilter_keeps body endOfStream ctx
    exact h.of_keeps hdecision hextension (houtcome ▸ h.outcome_mem)
  | ended => exact h
  | logged hresult =>
    obtain ⟨-, rfl⟩ := logging_eq hresult
    exact h.of_keeps rfl rfl h.outcome_mem

/-- What `logging` reports of bounded labels is bounded. -/
theorem labelled_logging {failed : Bool} {ctx ctx' : RequestContext} {record : LogRecord}
    {effects : List Effect} (hlogging : self.logging failed ctx = (record, ctx', effects))
    (h : ctx.Labelled self.policy) : record.Labelled self.policy := by
  rw [(logging_eq hlogging).1, RewriteProxy.logging]
  constructor
  · show (if failed then str "error" else ctx.outcome) ∈ outcomes
    split
    · decide
    · exact h.outcome_mem
  · have hnone : str "none" ∈ self.policy.extensionLabels := Finset.mem_union_left _ (by simp)
    cases hdecision : ctx.decision with
    | bypass => simpa only [hdecision] using hnone
    | rewrite profile extension headOnly =>
      cases hextension : ctx.extension with
      | none => simpa only [hdecision, hextension] using hnone
      | some extension' =>
        simpa only [hdecision, hextension] using h.extension_mem _ _ _ hdecision _ hextension

/-- The label values that the counters have used are among the bounded ones. -/
structure Counters.Bounded (policy : RewritePolicy) (counters : Counters) : Prop where
  requests : ∀ labels ∈ counters.requests.labels, labels ∈ outcomes ×ˢ policy.extensionLabels
  duration : ∀ outcome ∈ counters.duration.labels, outcome ∈ outcomes
  rewriteInputBytes : ∀ extension ∈ counters.rewriteInputBytes.labels,
    extension ∈ policy.extensionLabels
  rewriteOutputBytes : ∀ extension ∈ counters.rewriteOutputBytes.labels,
    extension ∈ policy.extensionLabels

theorem Counters.bounded_new (policy : RewritePolicy) : Counters.new.Bounded policy :=
  ⟨fun _ h ↦ absurd h List.not_mem_nil, fun _ h ↦ absurd h List.not_mem_nil,
    fun _ h ↦ absurd h List.not_mem_nil, fun _ h ↦ absurd h List.not_mem_nil⟩

/-- A record with known labels keeps the counters bounded. -/
theorem Counters.Bounded.record {policy : RewritePolicy} {counters : Counters} {record : LogRecord}
    (h : counters.Bounded policy) (hrecord : record.Labelled policy) :
    (counters.record record).Bounded policy := by
  -- A counter that is incremented uses one more set of label values.
  have hincBy : ∀ {κ : Type} [DecidableEq κ] {bounded : Finset κ} {counter : CounterVec κ}
      {labels : κ} (n : ℕ), (∀ l ∈ counter.labels, l ∈ bounded) → labels ∈ bounded →
      ∀ l ∈ (counter.incBy labels n).labels, l ∈ bounded := by
    intro κ _ bounded counter labels n hcounter hlabels l hl
    rcases CounterVec.mem_labels_incBy.1 hl with rfl | hl
    · exact hlabels
    · exact hcounter l hl
  have hpair : (record.outcome, record.metricsExtension) ∈ outcomes ×ˢ policy.extensionLabels :=
    Finset.mem_product.2 hrecord
  have hrequests := hincBy 1 h.requests hpair
  have hduration := hincBy 1 h.duration hrecord.1
  rw [Counters.record]
  split
  · exact ⟨hrequests, hduration, hincBy _ h.rewriteInputBytes hrecord.2,
      hincBy _ h.rewriteOutputBytes hrecord.2⟩
  · exact ⟨hrequests, hduration, h.rewriteInputBytes, h.rewriteOutputBytes⟩

/-- Every step of a session keeps its labels known. -/
theorem SessionStep.labelled {server server' : Server} {session session' : Option Session}
    (h : SessionStep self server session server' session')
    (hsession : ∀ s ∈ session, s.request.ctx.Labelled self.policy) :
    (∀ s ∈ session', s.request.ctx.Labelled self.policy) ∧
      (server.counters.Bounded self.policy → server'.counters.Bounded self.policy) := by
  cases h with
  | newCtx nanos =>
    refine ⟨fun s hs ↦ ?_, id⟩
    obtain rfl := Option.some.inj hs
    exact ⟨show str "bypass" ∈ outcomes by decide,
      fun _ _ _ hrewrite ↦ absurd hrewrite (show RewriteDecision.bypass ≠ _ by simp)⟩
  | @moved session shared request hstep hphase =>
    refine ⟨fun s hs ↦ ?_, id⟩
    obtain rfl := Option.some.inj hs
    obtain ⟨effects, hmove, -, -⟩ := hstep
    exact hmove.labelled (hsession session rfl)
  | @logged session failed record ctx effects hphase hlogging =>
    have hlabelled := hsession session rfl
    refine ⟨fun s hs ↦ ?_, fun hcounters ↦ hcounters.record (labelled_logging hlogging hlabelled)⟩
    obtain rfl := Option.some.inj hs
    obtain ⟨-, rfl⟩ := logging_eq hlogging
    exact hlabelled.of_keeps rfl rfl hlabelled.outcome_mem

/-- **The label values are bounded by the configuration**, in every state of every run, whatever
the requests are: there are nine outcomes, and the extensions are four fixed labels and either the
wildcard or enabled extensions of the allowlist. -/
theorem labels_bounded (h : (monitored self).Reachable state) :
    state.shared.counters.Bounded self.policy ∧
      state.shared.counters.requests.labels.length ≤ 9 * self.policy.extensionLabels.card ∧
      (self.policy.extensions = .all → state.shared.counters.requests.labels.length ≤ 45) := by
  have hbounded : state.shared.counters.Bounded self.policy :=
    h.shared (I := fun server ↦ server.counters.Bounded self.policy)
      (P := fun session ↦ ∀ s ∈ session, s.request.ctx.Labelled self.policy)
      (Counters.bounded_new self.policy)
      (fun session hstart s hs ↦ by
        obtain rfl : session = none := hstart
        cases hs)
      fun _ _ _ _ hsession hstep ↦ SessionStep.labelled hstep hsession
  have hlength : state.shared.counters.requests.labels.length ≤
      9 * self.policy.extensionLabels.card := by
    calc state.shared.counters.requests.labels.length
        = state.shared.counters.requests.labels.toFinset.card :=
          (List.toFinset_card_of_nodup (CounterVec.nodup_labels _)).symm
      _ ≤ (outcomes ×ˢ self.policy.extensionLabels).card :=
          Finset.card_le_card fun labels hlabels ↦
            hbounded.requests labels (List.mem_toFinset.1 hlabels)
      _ = 9 * self.policy.extensionLabels.card := Finset.card_product ..
  refine ⟨hbounded, hlength, fun hall ↦ hlength.trans ?_⟩
  have hcard : self.policy.extensionLabels.card = 5 := by
    rw [RewritePolicy.extensionLabels, hall]
    rfl
  rw [hcard]

end Labels

/-! ### The request ids are distinct -/

theorem hexDigits_eq_concat (n : ℕ) :
    hexDigits n = (if n < 16 then [] else hexDigits (n / 16)) ++ [(n % 16).digitChar] := by
  rw [hexDigits, Nat.toDigits_eq_if (by decide)]
  split
  · rename_i hlt
    rw [Nat.mod_eq_of_lt hlt]
    rfl
  · rfl

theorem hexDigits_injective : Function.Injective hexDigits := by
  have hdigit : ∀ a b : Fin 16, a.val.digitChar = b.val.digitChar → a = b := by decide
  intro m
  induction m using Nat.strong_induction_on with
  | _ m ih =>
    intro n h
    rw [hexDigits_eq_concat m, hexDigits_eq_concat n] at h
    obtain ⟨hinit, hlast⟩ := List.append_inj' h rfl
    have hmod : m % 16 = n % 16 := by
      have hfin := hdigit ⟨m % 16, Nat.mod_lt _ (by decide)⟩ ⟨n % 16, Nat.mod_lt _ (by decide)⟩
        (List.singleton_injective hlast)
      exact congrArg Fin.val hfin
    have hne : ∀ k, hexDigits k ≠ [] := fun k ↦ Nat.toDigits_ne_nil
    split at hinit <;> split at hinit
    · omega
    · exact absurd hinit.symm (hne _)
    · exact absurd hinit (hne _)
    · have hdiv := ih (m / 16) (by omega) hinit
      omega

theorem not_mem_hexDigits (n : ℕ) : '-' ∉ hexDigits n := by
  have hdigit : ∀ a : Fin 16, '-' ≠ a.val.digitChar := by decide
  induction n using Nat.strong_induction_on with
  | _ n ih =>
    rw [hexDigits_eq_concat, List.mem_append, List.mem_singleton, not_or]
    refine ⟨?_, hdigit ⟨n % 16, Nat.mod_lt _ (by decide)⟩⟩
    split
    · exact List.not_mem_nil
    · exact ih _ (by omega)

/-- A request id tells its time and its number. -/
theorem newRequestId_inj {nanos sequence nanos' sequence' : ℕ}
    (h : newRequestId nanos sequence = newRequestId nanos' sequence') :
    nanos = nanos' ∧ sequence = sequence' := by
  rw [newRequestId, newRequestId, List.append_assoc, List.append_assoc, List.append_assoc,
    List.append_assoc] at h
  have htail : hexDigits nanos ++ '-' :: hexDigits sequence =
      hexDigits nanos' ++ '-' :: hexDigits sequence' := List.append_cancel_left h
  obtain ⟨hnanos, hsequence⟩ :=
    append_cons_inj (not_mem_hexDigits nanos) (not_mem_hexDigits nanos') htail
  exact ⟨hexDigits_injective hnanos, hexDigits_injective hsequence⟩

section RequestIds

variable {self : RewriteProxy} {state : State Server (Option Session)}

/-- What is known of the request ids of a session. -/
structure Session.Identified (session : Session) : Prop where
  requestId_eq : ∃ nanos : BitVec 128, session.requestId =
    newRequestId nanos.toNat (UInt64.ofNat (1 + session.number)).toNat
  isRequestId : IsRequestId session.request.ctx.requestId

/-- `request_filter` leaves a request id, its own or the one of the client. -/
theorem isRequestId_readRequest (self : RewriteProxy) (request : RequestHeader)
    {ctx : RequestContext} (h : IsRequestId ctx.requestId) :
    IsRequestId (self.readRequest request ctx).requestId := by
  show IsRequestId ((clientRequestId request.headers).getD ctx.requestId)
  cases hclient : clientRequestId request.headers with
  | none => exact h
  | some id => exact isRequestId_of_clientRequestId hclient

/-- **Every move of a request keeps a request id that the next hop takes.** -/
theorem RequestMove.isRequestId {shared : Shared} {phase phase' : Phase}
    {ctx ctx' : RequestContext} {effects : List Effect}
    (hmove : RequestMove self shared phase ctx phase' ctx' effects)
    (h : IsRequestId ctx.requestId) : IsRequestId ctx'.requestId := by
  cases hmove with
  | @returned request _ result hresult =>
    have hread := isRequestId_readRequest self request h
    have hfiltered := self.filtered_requestFilter shared request ctx
    rw [hresult] at hfiltered
    cases hfiltered with
    | bypass => exact hread
    | headOnly => exact hread
    | admitted =>
      obtain ⟨rewriter, hctx⟩ := startRewrite_keeps self _ _ _ _
      rw [hctx]
      exact hread
  | @queued request _ _ profile extension _ hresult =>
    have hread := isRequestId_readRequest self request h
    have hfiltered := self.filtered_requestFilter shared request ctx
    rw [hresult] at hfiltered
    cases hfiltered with
    | queued => exact hread
  | @responding request _ _ _ hresult =>
    have hread := isRequestId_readRequest self request h
    have hfiltered := self.filtered_requestFilter shared request ctx
    rw [hresult] at hfiltered
    cases hfiltered with
    | rejected => exact hread
  | granted => exact h
  | woken hresult =>
    subst hresult
    obtain ⟨rewriter, hctx⟩ := startRewrite_keeps self _ _ _ _
    rw [RewriteProxy.requestFilterWoken, hctx]
    exact h
  | @responseFilter _ response result hresult =>
    subst hresult
    rw [(responseFilter_keeps self response ctx).1]
    exact h
  | @responseBodyFilter _ body endOfStream result hresult =>
    subst hresult
    rw [(responseBodyFilter_keeps body endOfStream ctx).1]
    exact h
  | ended => exact h
  | logged hresult =>
    obtain ⟨-, rfl⟩ := logging_eq hresult
    exact h

/-- Every step of a session keeps the id that it was created with, unless the client has one. -/
theorem SessionStep.identified {server server' : Server} {session session' : Option Session}
    (hsession : ∀ s ∈ session, s.Identified)
    (h : SessionStep self server session server' session') : ∀ s ∈ session', s.Identified := by
  intro s hs
  cases h with
  | newCtx nanos =>
    obtain rfl := Option.some.inj hs
    exact ⟨⟨nanos, rfl⟩, isRequestId_newRequestId nanos server.sequence⟩
  | @moved session shared request hstep hphase =>
    obtain rfl := Option.some.inj hs
    obtain ⟨effects, hmove, -, -⟩ := hstep
    have hidentified := hsession session rfl
    exact ⟨hidentified.requestId_eq, hmove.isRequestId hidentified.isRequestId⟩
  | @logged session failed record ctx effects hphase hlogging =>
    obtain rfl := Option.some.inj hs
    obtain ⟨-, rfl⟩ := logging_eq hlogging
    have hidentified := hsession session rfl
    exact ⟨hidentified.requestId_eq, hidentified.isRequestId⟩

/-- The numbers of the sessions are those that the sequence has counted. -/
theorem perm_numbers (h : (monitored self).Reachable state) :
    (state.processes.filterMap (Option.map Session.number)).Perm
      (List.range state.shared.created) := by
  refine h.perm_range (f := Server.created) rfl ?_ fun server session server' session' hstep ↦ ?_
  · rintro session rfl
    rfl
  · cases hstep with
    | newCtx => exact Or.inr ⟨rfl, rfl, rfl⟩
    | moved => exact Or.inl ⟨rfl, rfl⟩
    | logged => exact Or.inl ⟨rfl, rfl⟩

/-- **The generated request ids are distinct**, in every state of every run in which the sequence
has not wrapped around, even where the clock returns the same time; and every request id in use is
one that the next hop takes. -/
theorem requestIds_distinct (h : (monitored self).Reachable state)
    (hcreated : state.shared.created ≤ UInt64.size) :
    (state.processes.filterMap (Option.map Session.requestId)).Nodup ∧
      ∀ session ∈ state.processes.reduceOption, IsRequestId session.request.ctx.requestId := by
  have hidentified : ∀ session ∈ state.processes.reduceOption, session.Identified := by
    intro session hsession
    have hall := h.forall_mem (P := fun session ↦ ∀ s ∈ session, s.Identified)
      (fun session hstart s hs ↦ by
        obtain rfl : session = none := hstart
        cases hs)
      fun _ _ _ _ hsession hstep ↦ SessionStep.identified hsession hstep
    exact hall (some session) (List.reduceOption_mem_iff.1 hsession) session rfl
  refine ⟨?_, fun session hsession ↦ (hidentified session hsession).isRequestId⟩
  have hnumbers := perm_numbers h
  rw [filterMap_optionMap] at hnumbers ⊢
  have hnodup : (state.processes.reduceOption.map Session.number).Nodup :=
    hnumbers.nodup_iff.2 List.nodup_range
  have hlt : ∀ session ∈ state.processes.reduceOption, session.number < state.shared.created :=
    fun session hsession ↦ List.mem_range.1 (hnumbers.mem_iff.1 (List.mem_map_of_mem hsession))
  rw [List.Nodup, List.pairwise_map] at hnodup ⊢
  refine hnodup.imp_of_mem fun {a b} ha hb hne heq ↦ hne ?_
  obtain ⟨nanos, hid⟩ := (hidentified a ha).requestId_eq
  obtain ⟨nanos', hid'⟩ := (hidentified b hb).requestId_eq
  obtain ⟨-, hsequence⟩ := newRequestId_inj (hid.symm.trans (heq.trans hid'))
  rw [UInt64.toNat_ofNat', UInt64.toNat_ofNat'] at hsequence
  have hltA := hlt a ha
  have hltB := hlt b hb
  rw [UInt64.size] at hcreated
  omega

end RequestIds

/-! ### The metrics are consistent -/

section Consistency

variable {self : RewriteProxy} {state : State Server (Option Session)}

/-- **The requests of the sessions run as requests.** -/
theorem reachable_requests (h : (monitored self).Reachable state) :
    (requests self).Reachable
      ⟨state.shared.shared, state.processes.reduceOption.map Session.request⟩ := by
  rw [← filterMap_optionMap]
  exact (refines_requests self).reachable h

/-- A record counts one, in every total that has its labels. -/
theorem total_requests_record (counters : Counters) (record : LogRecord)
    (selects : Str × Str → Bool) : (counters.record record).requests.total selects =
      counters.requests.total selects +
        (selects (record.outcome, record.metricsExtension)).toNat := by
  have htotal := counters.requests.total_incBy (record.outcome, record.metricsExtension) 1 selects
  rw [Counters.record]
  split <;> refine htotal.trans (congrArg _ ?_)
  all_goals cases selects (record.outcome, record.metricsExtension) <;> rfl

/-- A total of the request counter counts the logged requests whose labels it selects. -/
theorem total_requests_eq (h : (monitored self).Reachable state) (selects : Str × Str → Bool) :
    state.shared.counters.requests.total selects =
      (records state.processes).countP fun record ↦
        selects (record.outcome, record.metricsExtension) := by
  have hmeasure := measure_eq h (fun c ↦ c.requests.total selects)
    fun counters record _ ↦ total_requests_record counters record selects
  rw [hmeasure, sum_map_toNat]
  exact zero_add _

/-- Every session is consistent. -/
theorem consistent_of_mem (h : (monitored self).Reachable state) {session : Session}
    (hsession : session ∈ state.processes.reduceOption) :
    session.Consistent self.config.maxDecodedBytes := by
  have hall := h.forall_mem
    (P := fun session ↦ ∀ s ∈ session, s.Consistent self.config.maxDecodedBytes)
    (fun session hstart s hs ↦ by
      obtain rfl : session = none := hstart
      cases hs)
    fun _ _ _ _ hsession hstep ↦ (SessionStep.counts hstep hsession).1
  exact hall (some session) (List.reduceOption_mem_iff.1 hsession) session rfl

/-- The sessions of a run are those that have been logged and those that are open. -/
theorem created_eq (h : (monitored self).Reachable state) :
    state.shared.created = (records state.processes).length +
      state.processes.reduceOption.countP Session.isOpen := by
  have hlength := (perm_numbers h).length_eq
  rw [filterMap_optionMap, List.length_map, List.length_range] at hlength
  rw [← hlength, records_eq_filterMap, List.length_filterMap_eq_countP,
    List.length_eq_countP_add_countP fun session : Session ↦ session.record.isSome]
  refine congrArg _ (List.countP_congr fun session hsession ↦ ?_)
  rw [(consistent_of_mem h hsession).isSome_record]
  simp

/-- Predicates that exclude each other count no more than one that follows from both. -/
theorem countP_add_countP_le {τ : Type} {p q r : τ → Bool} {l : List τ}
    (h : ∀ a ∈ l, (p a).toNat + (q a).toNat ≤ (r a).toNat) :
    l.countP p + l.countP q ≤ l.countP r := by
  induction l with
  | nil => exact le_rfl
  | cons a l ih =>
    obtain ⟨hfirst, hrest⟩ := List.forall_mem_cons.1 h
    have hle := ih hrest
    rw [List.countP_cons, List.countP_cons, List.countP_cons]
    revert hfirst
    cases p a <;> cases q a <;> cases r a <;> simp <;> omega

/-- A request holds a permit or a queue slot, and never both. -/
theorem Ticket.holds_le_one (t : Ticket) : (t == .active).toNat + t.holdsSlot.toNat ≤ 1 := by
  cases t <;> decide

/-- A request that holds a permit or a queue slot has not been logged, and holds one of them. -/
theorem Request.Consistent.holds_le {request : Request} (h : request.Consistent) :
    request.ctx.activePermit.toNat + request.ticket.holdsSlot.toNat ≤
      (decide (request.phase ≠ .logged)).toNat := by
  by_cases hlogged : request.phase = .logged
  · have hpermit : request.ctx.activePermit = false :=
      h.permitFits (by rw [hlogged]; simp) (by rw [hlogged]; simp)
    have hticket : request.ticket = .idle := by
      rw [Request.ticket, hlogged, ticketOf, hpermit, if_neg Bool.false_ne_true]
    rw [hpermit, hticket]
    exact Nat.zero_le _
  · rw [decide_eq_true hlogged, ← h.active_eq]
    exact request.ticket.holds_le_one

/-- The gauges count open sessions only. -/
theorem gauges_le (h : (monitored self).Reachable state) :
    state.shared.shared.activeGauge + state.shared.shared.queuedGauge ≤
      state.processes.reduceOption.countP Session.isOpen := by
  have hreach := reachable_requests h
  have hle := countP_add_countP_le fun request hrequest ↦
    (consistent_of_reachable hreach request hrequest).holds_le
  rw [activeGauge_eq_countP hreach, queuedGauge_eq_countP hreach]
  rw [List.countP_map (p := fun request : Request ↦ decide (request.phase ≠ .logged))] at hle
  exact_mod_cast hle

/-- **The metrics are consistent**, in every state of every run. The request counter, over all its
label values and modulo the size of a `u64`, counts every request that was created and is not open;
for each outcome its extensions together count as many as the histogram has samples; and the gauges
count open requests only, each at most once. -/
theorem metrics_consistent (h : (monitored self).Reachable state) :
    state.processes.reduceOption.countP Session.isOpen ≤ state.shared.created ∧
      state.shared.counters.requests.total (fun _ ↦ true) =
        (state.shared.created - state.processes.reduceOption.countP Session.isOpen : ℕ) ∧
      (∀ outcome, state.shared.counters.requests.total (fun labels ↦ labels.1 = outcome) =
        state.shared.counters.duration.value outcome) ∧
      state.shared.shared.activeGauge + state.shared.shared.queuedGauge ≤
        state.processes.reduceOption.countP Session.isOpen := by
  have hcreated := created_eq h
  refine ⟨by omega, ?_, fun outcome ↦ ?_, gauges_le h⟩
  · have hclosed : state.shared.created - state.processes.reduceOption.countP Session.isOpen =
        (records state.processes).length := by omega
    rw [total_requests_eq h, hclosed, List.countP_true]
  · have hmeasure := measure_eq h (fun c ↦ c.duration.value outcome)
      fun counters record _ ↦ value_duration_record counters record outcome
    rw [total_requests_eq h, hmeasure, sum_map_toNat]
    exact (zero_add _).symm

end Consistency

/-! ### One rewritten response -/

theorem inputBytes_responseBodyFilter {ctx : RequestContext} {p : StreamingRewritePipeline}
    (hrewriter : ctx.rewriter = some p) (hsuppress : ctx.suppressBody = false) (body : Option Bytes)
    (endOfStream : Bool) :
    (RewriteProxy.responseBodyFilter body endOfStream ctx).ctx.inputBytes =
      ctx.inputBytes + (body.getD []).length := by
  rw [RewriteProxy.responseBodyFilter, hsuppress, hrewriter]
  simp only [Bool.false_eq_true, if_false]
  split <;> rfl

/-- A session that is proxied receives a chunk, ends, and is logged. -/
theorem exists_logged_of_forwarding {self : RewriteProxy} {server : Server} {session : Session}
    (h : (monitored self).Reachable ⟨server, [some session]⟩)
    (hphase : session.request.phase = .forwarding) {p : StreamingRewritePipeline}
    (hrewriter : session.request.ctx.rewriter = some p)
    (hsuppress : session.request.ctx.suppressBody = false) (chunk : Bytes) :
    ∃ state record, (monitored self).Reachable state ∧ state.shared.created = server.created ∧
      records state.processes = [record] ∧ record.outcome = session.request.ctx.outcome ∧
      record.metricsExtension = (self.logging false session.request.ctx).1.metricsExtension ∧
      record.inputBytes = session.request.ctx.inputBytes + chunk.length := by
  obtain ⟨number, requestId, ⟨phase, ctx, history⟩, record⟩ := session
  obtain rfl : phase = .forwarding := hphase
  have hbytes := inputBytes_responseBodyFilter hrewriter hsuppress (some chunk) false
  obtain ⟨-, hdecision, hextension, houtcome⟩ := responseBodyFilter_keeps (some chunk) false ctx
  have hmove : RequestMove self server.shared .forwarding ctx _ _ _ :=
    @RequestMove.responseBodyFilter self server.shared ctx (some chunk) false _ rfl
  generalize RewriteProxy.responseBodyFilter (some chunk) false ctx = result at *
  -- A failure closes the session, and otherwise its response ends.
  obtain ⟨server', history', hclosing, hcreated⟩ : ∃ server' history',
      (monitored self).Reachable
        ⟨server', [some ⟨number, requestId, ⟨.closing, result.ctx, history'⟩, record⟩]⟩ ∧
      server'.created = server.created := by
    rcases phaseAfterResponse_cases result.result with hresult | hresult <;> rw [hresult] at hmove
    · have hforwarding := h.run [] [] (.moved (hmove.step history) (by simp))
      have hended := hforwarding.run [] []
        (.moved ((RequestMove.ended (Or.inr rfl)).step _) (by simp))
      exact ⟨_, _, hended, rfl⟩
    · exact ⟨_, _, h.run [] [] (.moved (hmove.step history) (by simp)), rfl⟩
  have hlogged := hclosing.run [] [] (@SessionStep.logged self server' _ false _ _ _ rfl rfl)
  refine ⟨_, _, hlogged, hcreated, rfl, houtcome, ?_, hbytes⟩
  simp only [RewriteProxy.logging, hdecision, hextension]

/-- An asset of Kubekey is requested, rewritten and logged. -/
theorem exists_logged :
    ∃ state record, (monitored regionsProxy).Reachable state ∧ state.shared.created = 1 ∧
      records state.processes = [record] ∧ record.outcome = str "rewrite" ∧
      record.metricsExtension = str "kubekey-assets" ∧ record.inputBytes = 3 := by
  have harrived := (System.Reachable.init (S := monitored regionsProxy)).arrive
    (show (monitored regionsProxy).Start none from rfl)
  have hcreated := harrived.run [] [] (.newCtx 0)
  have hadmitted := regionsProxy.requestFilter_admitted regionsProxy.initialShared (newCtx 0 1)
    decide_kubekeyRequest (by decide)
  obtain ⟨rewriter, hrewriter⟩ := regionsProxy.startRewrite_eq .kubekeyAssetJs kubekeyName
    { regionsProxy.rewriteCtx kubekeyRequest (newCtx 0 1) kubekeyName with activePermit := true }
    [.acquireActive, .incActive]
  rw [hrewriter] at hadmitted
  have hforwarding := hcreated.run [] []
    (.moved ((RequestMove.returned hadmitted).step []) (show Phase.forwarding ≠ .logged by simp))
  obtain ⟨state, record, hlogged, hone, hrecords, houtcome, hextension, hinput⟩ :=
    exists_logged_of_forwarding hforwarding rfl rfl rfl (bytes "abc")
  refine ⟨state, record, hlogged, hone, hrecords, houtcome, hextension.trans ?_, hinput⟩
  simp only [RewriteProxy.logging, RewriteProxy.rewriteCtx, RewriteProxy.readRequest,
    decide_kubekeyRequest]
  rfl

/-- One rewritten script is counted once, with its bytes. -/
theorem counters_eq_kubekey :
    ∃ state, (monitored regionsProxy).Reachable state ∧
      state.shared.counters.requests.value (str "rewrite", str "kubekey-assets") = 1 ∧
      state.shared.counters.rewriteInputBytes.value (str "kubekey-assets") = 3 := by
  obtain ⟨state, record, hreach, -, hrecords, houtcome, hextension, hinput⟩ := exists_logged
  obtain ⟨hrequests, -, hbytes⟩ := counters_eq hreach
  refine ⟨state, hreach, ?_, ?_⟩
  · rw [hrequests, hrecords, List.countP_singleton, houtcome, hextension]
    rfl
  · rw [(hbytes _).1, hrecords, List.filter_cons_of_pos (by simpa using hextension)]
    show ((record.inputBytes + 0 : ℕ) : BitVec 64) = 3
    rw [hinput]
    rfl

/-- One logged request, and at most 45 series. -/
theorem labels_bounded_kubekey :
    ∃ state, (monitored regionsProxy).Reachable state ∧
      (records state.processes).length = 1 ∧
      state.shared.counters.requests.labels.length ≤ 45 := by
  obtain ⟨state, record, hreach, -, hrecords, -⟩ := exists_logged
  exact ⟨state, hreach, congrArg List.length hrecords, (labels_bounded hreach).2.2 rfl⟩

/-- One request has been logged, and a second one has just arrived. -/
theorem metrics_consistent_kubekey :
    ∃ state, (monitored regionsProxy).Reachable state ∧ state.shared.created = 2 ∧
      state.processes.reduceOption.countP Session.isOpen = 1 ∧
      state.shared.counters.requests.total (fun _ ↦ true) = 1 ∧
      state.shared.counters.requests.total (fun labels ↦ labels.1 = str "rewrite") =
        state.shared.counters.duration.value (str "rewrite") := by
  obtain ⟨⟨server, processes⟩, record, hreach, hcreated, hrecords, -⟩ := exists_logged
  have hstart : (monitored regionsProxy).Start none := rfl
  have hsecond := (hreach.arrive hstart).run processes [] (.newCtx 0)
  have hopen := created_eq hsecond
  rw [records, List.filterMap_append, ← records, hrecords] at hopen
  obtain ⟨-, htotal, houtcome, -⟩ := metrics_consistent hsecond
  have htwo : server.created + 1 = 2 := congrArg (· + 1) hcreated
  have hone : (processes ++ [_]).reduceOption.countP Session.isOpen = 1 :=
    Nat.add_left_cancel (hopen.symm.trans htwo)
  rw [hone] at htotal
  exact ⟨_, hsecond, htwo, hone, htotal.trans (by rw [htwo]; rfl), houtcome _⟩

/-- Two requests that arrive at the same time. -/
theorem requestIds_distinct_same_time :
    ∃ server first second,
      (monitored regionsProxy).Reachable ⟨server, [some first, some second]⟩ ∧
      first.requestId = str "kserw-0-1" ∧ second.requestId = str "kserw-0-2" ∧
      [first.requestId, second.requestId].Nodup := by
  have hstart : (monitored regionsProxy).Start none := rfl
  have hfirst := (System.Reachable.init.arrive hstart).run [] [] (.newCtx 0)
  have hsecond := (hfirst.arrive hstart).run [_] [] (.newCtx 0)
  exact ⟨_, _, _, hsecond, by decide, by decide, (requestIds_distinct hsecond (by decide)).1⟩

end KseRewriteProxy
