import KseRewriteProxy.Literal.ExpressionText
import KseRewriteProxy.Literal.WholeText
import KseRewriteProxy.Streaming.Chain

/-!
# The rewrite pipeline

`StreamingRewritePipeline` of `literal.rs`: a non-empty row of stages behind a limit on the bytes
of the whole input. A stage is a literal rewriter, an expression-pattern rewriter or a buffered
transform, and the constructors return each stage in its initial state.

## The limit is in front

A push counts its input before any stage sees it, and fails when the count passes the limit or does
not fit a `usize`. So what a pipeline still owes for some input, its `residual`, is that of the row
of its stages as long as the input is within the limit, and nothing beyond it.

## What a push leaves

`push_eq` gives both outcomes of a push of an active pipeline, and `realizes` says that a push and
`finish` respect the residual. The row itself is the business of `Streaming.Chain`: a push goes
through the stages in order, and finishing cascades. Together with `Realizes.run_eq` this evaluates
every run of every pipeline, however its input is cut; what the result means for the stages that the
constructors build is the subject of the module on stages.
-/

namespace KseRewriteProxy

open Text Text.Utf8 Streaming

/-! ### Stages -/

/-- `StreamingBufferedRewriter`. -/
structure StreamingBufferedRewriter where
  transform : Bytes → Bytes
  pending : Bytes
  finished : Bool

namespace StreamingBufferedRewriter

/-- `StreamingBufferedRewriter::push`. -/
def push (self : StreamingBufferedRewriter) (input : Bytes) :
    Except RewriteError Bytes × StreamingBufferedRewriter :=
  if self.finished then (.error .alreadyFinished, self)
  else (.ok [], { self with pending := self.pending ++ input })

/-- `StreamingBufferedRewriter::finish`. -/
def finish (self : StreamingBufferedRewriter) :
    Except RewriteError Bytes × StreamingBufferedRewriter :=
  if self.finished then (.error .alreadyFinished, self)
  else (.ok (self.transform self.pending), { self with finished := true })

end StreamingBufferedRewriter

/-- `StreamingRewriter`. -/
inductive StreamingRewriter where
  | buffered (rewriter : StreamingBufferedRewriter)
  | literal (rewriter : StreamingLiteralRewriter)
  | expressionPattern (rewriter : StreamingExpressionPatternRewriter)

namespace StreamingRewriter

/-- `StreamingRewriter::push`. -/
def push (self : StreamingRewriter) (input : Bytes) :
    Except RewriteError Bytes × StreamingRewriter :=
  match self with
  | buffered rewriter => ((rewriter.push input).1, buffered (rewriter.push input).2)
  | literal rewriter => ((rewriter.push input).1, literal (rewriter.push input).2)
  | expressionPattern rewriter =>
    ((rewriter.push input).1, expressionPattern (rewriter.push input).2)

/-- `StreamingRewriter::finish`. -/
def finish (self : StreamingRewriter) : Except RewriteError Bytes × StreamingRewriter :=
  match self with
  | buffered rewriter => (rewriter.finish.1, buffered rewriter.finish.2)
  | literal rewriter => (rewriter.finish.1, literal rewriter.finish.2)
  | expressionPattern rewriter => (rewriter.finish.1, expressionPattern rewriter.finish.2)

/-- A stage as a transducer. -/
def transducer : Transducer UInt8 RewriteError StreamingRewriter where
  push := push
  finish := finish

/-- What a stage still outputs when `more` is read to the end. -/
def residual (r : StreamingRewriter) (more : Bytes) : Option Bytes :=
  match r with
  | buffered rewriter => some (rewriter.transform (rewriter.pending ++ more))
  | literal rewriter => rewriter.residual more
  | expressionPattern rewriter => rewriter.residual more

/-- The states that a run passes through before it fails or finishes. -/
def Active : StreamingRewriter → Prop
  | buffered rewriter => rewriter.finished = false
  | literal rewriter => rewriter.Active
  | expressionPattern rewriter => rewriter.Active

/-- **Every kind of stage realizes its residual.** -/
theorem realizes : Realizes transducer Active residual where
  push_ok := by
    intro r input output r' hactive hpush
    obtain ⟨hresult, rfl⟩ := Prod.mk.inj hpush
    cases r with
    | buffered rewriter =>
      have hopen : rewriter.finished = false := hactive
      simp only [StreamingBufferedRewriter.push, hopen, Bool.false_eq_true, if_false] at hresult ⊢
      obtain rfl := Except.ok.inj hresult
      exact ⟨rfl, fun more ↦ by simp [residual]⟩
    | literal rewriter =>
      exact StreamingLiteralRewriter.realizes.push_ok hactive (Prod.ext hresult rfl)
    | expressionPattern rewriter =>
      exact StreamingExpressionPatternRewriter.realizes.push_ok hactive (Prod.ext hresult rfl)
  push_error := by
    intro r input e r' hactive hpush
    obtain ⟨hresult, rfl⟩ := Prod.mk.inj hpush
    cases r with
    | buffered rewriter =>
      have hopen : rewriter.finished = false := hactive
      simp only [StreamingBufferedRewriter.push, hopen, Bool.false_eq_true, if_false,
        reduceCtorEq] at hresult
    | literal rewriter =>
      exact StreamingLiteralRewriter.realizes.push_error hactive (Prod.ext hresult rfl)
    | expressionPattern rewriter =>
      exact StreamingExpressionPatternRewriter.realizes.push_error hactive (Prod.ext hresult rfl)
  finish_eq := by
    intro r hactive
    cases r with
    | buffered rewriter =>
      have hopen : rewriter.finished = false := hactive
      simp only [residual, List.append_nil, transducer, finish, StreamingBufferedRewriter.finish,
        hopen, Bool.false_eq_true, if_false]
      rfl
    | literal rewriter => exact StreamingLiteralRewriter.realizes.finish_eq hactive
    | expressionPattern rewriter =>
      exact StreamingExpressionPatternRewriter.realizes.finish_eq hactive

end StreamingRewriter

/-! ### The pipeline -/

/-- `StreamingRewritePipeline`. It has at least one stage, as `from_rewriters` checks and `push`
relies on. -/
structure StreamingRewritePipeline where
  rewriters : List StreamingRewriter
  rewriters_ne_nil : rewriters ≠ []
  maxBytes : Usize
  totalBytes : Usize
  finished : Bool

namespace StreamingRewritePipeline

/-- The pipeline with stages of the same number. -/
def withRewriters (self : StreamingRewritePipeline) (rewriters : List StreamingRewriter)
    (h : rewriters.length = self.rewriters.length) : StreamingRewritePipeline :=
  { self with
    rewriters := rewriters
    rewriters_ne_nil := by
      rw [← List.length_pos_iff, h]
      exact List.length_pos_iff.2 self.rewriters_ne_nil }

/-- `StreamingRewritePipeline::push`. -/
def push (self : StreamingRewritePipeline) (input : Bytes) :
    Except RewriteError Bytes × StreamingRewritePipeline :=
  if self.finished then (.error .alreadyFinished, self)
  else
    match self.totalBytes.checkedAdd input.length with
    | none => (.error (.tooLarge self.maxBytes), self)
    | some total =>
      let self := { self with totalBytes := total }
      if self.totalBytes.val > self.maxBytes.val then (.error (.tooLarge self.maxBytes), self)
      else
        ((StreamingRewriter.transducer.pushAll self.rewriters input).1,
          self.withRewriters (StreamingRewriter.transducer.pushAll self.rewriters input).2
            (Transducer.length_pushAll ..))

/-- `StreamingRewritePipeline::finish`. -/
def finish (self : StreamingRewritePipeline) :
    Except RewriteError Bytes × StreamingRewritePipeline :=
  if self.finished then (.error .alreadyFinished, self)
  else
    let self := { self with finished := true }
    ((StreamingRewriter.transducer.finishAll self.rewriters).1,
      self.withRewriters (StreamingRewriter.transducer.finishAll self.rewriters).2
        (Transducer.length_finishAll ..))

/-- The pipeline as a transducer. -/
def transducer : Transducer UInt8 RewriteError StreamingRewritePipeline where
  push := push
  finish := finish

/-- `prefix_literal_rewriters`. -/
def prefixLiteralRewriters (rules : List (Bytes × Bytes)) :
    Except RewriteError (List StreamingRewriter) :=
  rules.mapM fun rule ↦ (StreamingLiteralRewriter.new rule.1 rule.2 .max).map .literal

/-- `exact_literal_rewriters`. -/
def exactLiteralRewriters (rules : List (Bytes × Bytes)) :
    Except RewriteError (List StreamingRewriter) :=
  rules.mapM fun rule ↦ (StreamingLiteralRewriter.newExact rule.1 rule.2 .max).map .literal

/-- `from_rewriters`. -/
def fromRewriters (rewriters : List StreamingRewriter) (maxBytes : Usize) :
    Except RewriteError StreamingRewritePipeline :=
  if h : rewriters = [] then .error .emptyRules
  else
    .ok
      { rewriters := rewriters
        rewriters_ne_nil := h
        maxBytes := maxBytes
        totalBytes := .zero
        finished := false }

/-- `self.rewriters.extend(…)`. -/
def extend (self : StreamingRewritePipeline) (rewriters : List StreamingRewriter) :
    StreamingRewritePipeline :=
  { self with
    rewriters := self.rewriters ++ rewriters
    rewriters_ne_nil := by simp [self.rewriters_ne_nil] }

/-- `StreamingRewritePipeline::new`. -/
def new (rules : List (Bytes × Bytes)) (maxBytes : Usize) :
    Except RewriteError StreamingRewritePipeline := do
  fromRewriters (← prefixLiteralRewriters rules) maxBytes

/-- `new_with_exact`. -/
def newWithExact (prefixRules exactRules : List (Bytes × Bytes)) (maxBytes : Usize) :
    Except RewriteError StreamingRewritePipeline := do
  let rewriters ← prefixLiteralRewriters prefixRules
  fromRewriters (rewriters ++ (← exactLiteralRewriters exactRules)) maxBytes

/-- `new_with_exact_and_member_expression_patterns`. A rule is a prefix, a suffix and a
replacement prefix. -/
def newWithExactAndMemberExpressionPatterns (prefixRules exactRules : List (Bytes × Bytes))
    (memberExpressionRules : List (Bytes × Bytes × Bytes)) (maxBytes : Usize) :
    Except RewriteError StreamingRewritePipeline := do
  let pipeline ← newWithExact prefixRules exactRules maxBytes
  let rewriters ← memberExpressionRules.mapM fun rule ↦
    (StreamingExpressionPatternRewriter.newMemberExpression rule.1 rule.2.1 rule.2.2).map
      StreamingRewriter.expressionPattern
  return pipeline.extend rewriters

/-- `new_with_appended_suffix`. -/
def newWithAppendedSuffix (source insertedSuffix : Bytes) (maxBytes : Usize) :
    Except RewriteError StreamingRewritePipeline := do
  let rewriter ← StreamingLiteralRewriter.newWithAppendedSuffix source insertedSuffix .max
  fromRewriters [.literal rewriter] maxBytes

/-- `with_exact_rules`. -/
def withExactRules (self : StreamingRewritePipeline) (rules : List (Bytes × Bytes)) :
    Except RewriteError StreamingRewritePipeline := do
  return self.extend (← exactLiteralRewriters rules)

/-- `with_identifier_template_patterns`. A rule is a prefix, a suffix and a template. -/
def withIdentifierTemplatePatterns (self : StreamingRewritePipeline)
    (identifierRules : List (Bytes × Bytes × Bytes)) :
    Except RewriteError StreamingRewritePipeline := do
  let rewriters ← identifierRules.mapM fun rule ↦
    (StreamingExpressionPatternRewriter.newTemplate rule.1 rule.2.1 rule.2.2).map
      StreamingRewriter.expressionPattern
  return self.extend rewriters

/-- `with_buffered_transform`. -/
def withBufferedTransform (self : StreamingRewritePipeline) (transform : Bytes → Bytes) :
    StreamingRewritePipeline :=
  self.extend [.buffered { transform := transform, pending := [], finished := false }]

/-- What a pipeline still outputs when `more` is read to the end. -/
def residual (p : StreamingRewritePipeline) (more : Bytes) : Option Bytes :=
  if p.totalBytes.val + more.length ≤ p.maxBytes.val then
    chainDen StreamingRewriter.residual p.rewriters more
  else none

/-- The residual of a pipeline is that of its stages, within the limit. -/
theorem residual_withRewriters (p : StreamingRewritePipeline)
    (rewriters : List StreamingRewriter) (h : rewriters.length = p.rewriters.length)
    (more : Bytes) :
    (p.withRewriters rewriters h).residual more =
      if p.totalBytes.val + more.length ≤ p.maxBytes.val then
        chainDen StreamingRewriter.residual rewriters more
      else none :=
  rfl

/-- The states that a run passes through before it fails or finishes. -/
structure Active (p : StreamingRewritePipeline) : Prop where
  not_finished : p.finished = false
  total_le : p.totalBytes.val ≤ p.maxBytes.val
  active : ∀ r ∈ p.rewriters, r.Active

/-- A push within the limit goes through the stages, and every other push fails. -/
theorem push_eq {p : StreamingRewritePipeline} (hactive : p.Active) (input : Bytes) :
    (∃ total, total.val = p.totalBytes.val + input.length ∧ total.val ≤ p.maxBytes.val ∧
      p.push input =
        ((StreamingRewriter.transducer.pushAll p.rewriters input).1,
          ({ p with totalBytes := total } : StreamingRewritePipeline).withRewriters
            (StreamingRewriter.transducer.pushAll p.rewriters input).2
            (Transducer.length_pushAll ..))) ∨
      (p.maxBytes.val < p.totalBytes.val + input.length ∧
        (p.push input).1 = .error (.tooLarge p.maxBytes)) := by
  rw [push, if_neg (by rw [hactive.not_finished]; simp)]
  rcases ht : p.totalBytes.checkedAdd input.length with - | total
  · have := Usize.checkedAdd_eq_none_iff.1 ht
    have := p.maxBytes.val_le
    exact Or.inr ⟨by omega, rfl⟩
  · have htotal := Usize.checkedAdd_eq_some_iff.1 ht
    simp only
    split
    · exact Or.inr ⟨by omega, rfl⟩
    · exact Or.inl ⟨total, htotal.symm, by omega, rfl⟩

/-- **The pipeline realizes the composition of its stages**, for inputs within the limit. -/
theorem realizes : Realizes transducer Active residual where
  push_ok := by
    intro p input output p' hactive hpush
    rcases push_eq hactive input with ⟨total, htotal, hle, heq⟩ | ⟨-, herror⟩
    · rw [show p.push input = _ from hpush] at heq
      obtain ⟨hresult, rfl⟩ := Prod.mk.inj heq
      obtain ⟨hactive', hden⟩ := StreamingRewriter.realizes.pushAll_ok hactive.active
        (Prod.ext hresult.symm rfl)
      refine ⟨⟨hactive.not_finished, hle, hactive'⟩, fun more ↦ ?_⟩
      rw [residual_withRewriters, residual, hden, List.length_append, ← Nat.add_assoc, ← htotal]
      by_cases hfits : total.val + more.length ≤ p.maxBytes.val
      · rw [if_pos hfits, if_pos hfits]
      · rw [if_neg hfits, if_neg hfits]
        rfl
    · rw [show p.push input = _ from hpush] at herror
      exact absurd herror (by simp)
  push_error := by
    intro p input e p' hactive hpush more
    rw [residual]
    split
    · rename_i hfits
      rw [List.length_append] at hfits
      rcases push_eq hactive input with ⟨total, htotal, hle, heq⟩ | ⟨hlimit, -⟩
      · rw [show p.push input = _ from hpush] at heq
        exact StreamingRewriter.realizes.pushAll_error hactive.active
          (Prod.ext (Prod.mk.inj heq).1.symm rfl) more
      · omega
    · rfl
  finish_eq := by
    intro p hactive
    have hle : p.totalBytes.val + ([] : Bytes).length ≤ p.maxBytes.val := hactive.total_le
    rw [residual, if_pos hle, StreamingRewriter.realizes.chain.finish_eq hactive.active]
    show _ = (p.finish).1.toOption
    rw [finish, if_neg (by rw [hactive.not_finished]; simp)]
    rfl

end StreamingRewritePipeline

end KseRewriteProxy
