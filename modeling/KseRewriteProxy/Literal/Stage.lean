import KseRewriteProxy.Literal.Pipeline

/-!
# The meaning of a pipeline

`Stage` names what a stage of a pipeline is built from, and `Stage.apply` is the whole-text
function of the stage. A pipeline that the constructors return is `ofStages` of a list of stages
(`newWithExact_eq` and its companions), so a claim about a pipeline is a claim about `applyAll`.

## What can go wrong in between

A stage sees the output of the one before. A literal stage checks it for UTF-8 again, and the stages
count bytes, so a run of a pipeline may fail inside although its input is valid and within the
limit. `Stage.KeepsValid` rules out the first: literals that are UTF-8 make UTF-8 of UTF-8.
`FitsUsize` rules out the second: no intermediate text is longer than a machine size. Both are
conditions on the stages and the input, and neither mentions chunks.

## The bridge

`run_ofStages_eq_ok_iff`: when no stage overflows a machine size and the stages keep UTF-8 valid, a
run succeeds exactly on the valid texts within the limit, with `applyAll` of the text as its output.
It follows from the residual of a fresh stage (`residual_rewriter`), by induction along the row.
-/

namespace KseRewriteProxy

open Text Text.Utf8 Streaming

/-! ### Whole-text passes keep UTF-8 valid -/

/-- A pass whose source and replacements are valid keeps texts valid. -/
theorem valid_replaceFrom {source : Needle UInt8} {f : Bytes → Bytes → Bytes}
    (hsource : Valid source.toList) (hf : ∀ before after, Valid (f before after))
    {seen rest : Bytes} (h : Valid rest) : Valid (replaceFrom source f seen rest) := by
  induction hn : rest.length using Nat.strongRecOn generalizing seen rest with
  | ind n ih =>
    subst hn
    rcases hk : find source.toList rest with - | k
    · rwa [replaceFrom_of_find_none hk]
    · have hlen := add_length_le_of_find hk
      have hpos := source.length_pos
      rw [source.toList_length] at hlen
      rw [eq_append_of_find hk] at h
      obtain ⟨hbefore, hafter⟩ := h.append_cancel_middle hsource source.ne_nil
      rw [source.toList_length] at hafter
      rw [replaceFrom_of_find_some hk]
      refine (hbefore.append (hf _ _)).append (ih _ ?_ hafter rfl)
      rw [List.length_drop]
      omega

theorem valid_of_isExpression {k : PatternSyntax} {e : Bytes} (h : k.IsExpression e) :
    Valid e := by
  refine valid_of_ascii fun b hb ↦ ?_
  have hcont : isAsciiIdentifierContinue b = true → b.toNat < 0x80 := by
    simp only [isAsciiIdentifierContinue, isAsciiIdentifierStart, Bool.or_eq_true,
      Bool.and_eq_true, decide_eq_true_eq, beq_iff_eq, UInt8.le_iff_toNat_le, UInt8.reduceToNat]
    rintro ((((h | h) | rfl) | rfl) | h)
    · omega
    · omega
    · decide
    · decide
    · omega
  cases k with
  | identifier => exact hcont (h.isByte_of_mem hb)
  | memberExpression =>
    rcases h.isByte_of_mem hb with hb | rfl
    · exact hcont hb
    · decide

/-- A scan whose occurrences and renderings are valid keeps texts valid. The state is the one of
the UTF-8 automaton, since a scan copies single bytes. -/
theorem Scans.run_eq_start {occurs : Bytes → Bytes → Bytes → Prop} {render : Bytes → Bytes}
    (hoccurs : ∀ {text e after}, occurs text e after →
      ∃ s, text = s ++ after ∧ s ≠ [] ∧ Valid s ∧ Valid (render e))
    {previous : Option UInt8} {text out : Bytes} (h : Scans occurs render previous text out)
    {q : State} (hq : q.Proper) (hrun : run q text = .start) : run q out = .start := by
  induction h generalizing q with
  | nil => exact hrun
  | rewrite _ hocc _ ih =>
    obtain ⟨s, rfl, hne, hs, hrender⟩ := hoccurs hocc
    obtain ⟨rfl, hafter⟩ := eq_start_of_run hq hrun hs hne
    rw [run_append, valid_iff_run.1 hrender]
    exact ih trivial hafter
  | copy _ _ ih => exact ih (step_proper hq _) hrun

/-! ### Stages -/

/-- What a stage is built from. -/
inductive Stage where
  | literal (source : Needle UInt8) (mode : LiteralRewriteMode)
  | expression (pre suffix : Needle UInt8) (replacement : ExpressionReplacement)
      (kind : PatternSyntax) (emits : replacement ≠ .template [])
  | buffered (transform : Bytes → Bytes)

namespace Stage

/-- The stage in its initial state. -/
def rewriter : Stage → StreamingRewriter
  | literal source mode => .literal (.initial source mode .max)
  | expression pre suffix replacement kind _ =>
    .expressionPattern (.initial pre suffix replacement kind)
  | buffered transform =>
    .buffered { transform := transform, pending := [], finished := false }

/-- The whole-text function of a stage. -/
def apply : Stage → Bytes → Bytes
  | literal source mode, input => mode.replaceFrom source [] input
  | expression pre suffix replacement kind _, input =>
    (StreamingExpressionPatternRewriter.initial pre suffix replacement kind).scan none input
  | buffered transform, input => transform input

/-- The stage maps valid texts to valid texts. -/
def KeepsValid (s : Stage) : Prop :=
  ∀ input, Valid input → Valid (s.apply input)

theorem rewriter_active (s : Stage) : s.rewriter.Active := by
  cases s with
  | literal source mode => exact StreamingLiteralRewriter.initial_active source mode .max
  | expression pre suffix replacement kind emits =>
    exact StreamingExpressionPatternRewriter.initial_active emits pre suffix kind
  | buffered transform => rfl

/-- A fresh stage computes its whole-text function. -/
theorem residual_rewriter (s : Stage) {input : Bytes} (hlen : input.length ≤ usizeMax)
    (hvalid : Valid input) : s.rewriter.residual input = some (s.apply input) := by
  cases s with
  | literal source mode =>
    exact (StreamingLiteralRewriter.residual_initial ..).trans (if_pos ⟨hlen, hvalid⟩)
  | expression pre suffix replacement kind emits => rfl
  | buffered transform => rfl

/-- A literal stage refuses what is not UTF-8. -/
theorem residual_rewriter_literal_of_not_valid (source : Needle UInt8)
    (mode : LiteralRewriteMode) {input : Bytes} (h : ¬ Valid input) :
    (literal source mode).rewriter.residual input = none :=
  (StreamingLiteralRewriter.residual_initial ..).trans (if_neg fun hok ↦ h hok.2)

/-- A literal stage keeps UTF-8 when its literals are UTF-8. -/
theorem keepsValid_literal {source : Needle UInt8} {mode : LiteralRewriteMode}
    (hsource : Valid source.toList) (hreplacement : Valid mode.replacement) :
    (literal source mode).KeepsValid := by
  refine fun input h ↦ valid_replaceFrom hsource (fun before after ↦ ?_) h
  cases mode with
  | prepend replacement p =>
    simp only [LiteralRewriteMode.replace]
    split
    · exact hsource
    · exact hreplacement
  | exact replacement => exact hreplacement
  | append replacement x =>
    simp only [LiteralRewriteMode.replace]
    split
    · exact hsource
    · exact hreplacement

/-- The text of a replacement. -/
def replacementText : ExpressionReplacement → Bytes
  | .prefixed replacementPrefix => replacementPrefix
  | .template text => text

/-- An expression stage keeps UTF-8 when its literals are UTF-8: expressions are ASCII. -/
theorem keepsValid_expression {pre suffix : Needle UInt8} {replacement : ExpressionReplacement}
    {kind : PatternSyntax} {emits : replacement ≠ .template []} (hpre : Valid pre.toList)
    (hsuffix : Valid suffix.toList) (hreplacement : Valid (replacementText replacement)) :
    (expression pre suffix replacement kind emits).KeepsValid := by
  refine fun input h ↦ valid_iff_run.2 ?_
  refine (StreamingExpressionPatternRewriter.scans_scan _ none input).run_eq_start
    (fun {text e after} hocc ↦ ?_) trivial (valid_iff_run.1 h)
  obtain ⟨rfl, he, -⟩ := hocc
  have hvalid := valid_of_isExpression he
  refine ⟨pre.toList ++ e ++ suffix.toList, ?_, ?_, (hpre.append hvalid).append hsuffix, ?_⟩
  · simp only [StreamingExpressionPatternRewriter.initial, List.append_assoc]
  · simp [pre.ne_nil]
  · cases replacement with
    | prefixed replacementPrefix => exact hreplacement.append (hvalid.append hsuffix)
    | template text =>
      exact valid_replaceFrom (valid_bytes _) (fun _ _ ↦ hvalid) hreplacement

end Stage

/-- The whole-text functions of the stages, one after the other. -/
def applyAll (stages : List Stage) (input : Bytes) : Bytes :=
  stages.foldl (fun text s ↦ s.apply text) input

@[simp] theorem applyAll_nil (input : Bytes) : applyAll [] input = input :=
  rfl

@[simp] theorem applyAll_cons (s : Stage) (stages : List Stage) (input : Bytes) :
    applyAll (s :: stages) input = applyAll stages (s.apply input) :=
  rfl

theorem applyAll_append (stages stages' : List Stage) (input : Bytes) :
    applyAll (stages ++ stages') input = applyAll stages' (applyAll stages input) :=
  List.foldl_append

/-- No intermediate text is longer than a machine size can say. -/
def FitsUsize (stages : List Stage) (input : Bytes) : Prop :=
  ∀ k, (applyAll (stages.take k) input).length ≤ usizeMax

theorem FitsUsize.tail {s : Stage} {stages : List Stage} {input : Bytes}
    (h : FitsUsize (s :: stages) input) : FitsUsize stages (s.apply input) :=
  fun k ↦ h (k + 1)

/-- **On a valid text the stages in a row mean the composition of their functions.** -/
theorem chainDen_stages {stages : List Stage} {input : Bytes} (hvalid : Valid input)
    (hkeeps : ∀ s ∈ stages.dropLast, s.KeepsValid) (hfits : FitsUsize stages input) :
    chainDen StreamingRewriter.residual (stages.map Stage.rewriter) input =
      some (applyAll stages input) := by
  induction stages generalizing input with
  | nil => rfl
  | cons s stages ih =>
    have hlen : input.length ≤ usizeMax := hfits 0
    rw [List.map_cons, chainDen, s.residual_rewriter hlen hvalid, Option.bind_some]
    cases stages with
    | nil => rfl
    | cons s' stages =>
      refine ih (hkeeps s (by simp) input hvalid) (fun t ht ↦ hkeeps t ?_) hfits.tail
      rw [List.dropLast_cons_of_ne_nil (List.cons_ne_nil _ _)]
      exact List.mem_cons_of_mem _ ht

/-! ### Pipelines built from stages -/

namespace StreamingRewritePipeline

/-- The pipeline of some stages before its first push. -/
def ofStages (stages : List Stage) (h : stages ≠ []) (maxBytes : Usize) :
    StreamingRewritePipeline where
  rewriters := stages.map Stage.rewriter
  rewriters_ne_nil := by simpa using h
  maxBytes := maxBytes
  totalBytes := .zero
  finished := false

theorem active_of_mem_rewriters {stages : List Stage} :
    ∀ r ∈ stages.map Stage.rewriter, r.Active := by
  intro r hr
  obtain ⟨s, -, rfl⟩ := List.mem_map.1 hr
  exact s.rewriter_active

theorem ofStages_active {stages : List Stage} (h : stages ≠ []) (maxBytes : Usize) :
    (ofStages stages h maxBytes).Active where
  not_finished := rfl
  total_le := Nat.zero_le _
  active := active_of_mem_rewriters

/-- A run of a new pipeline is within the limit and gives the residual of its stages. -/
theorem run_ofStages {stages : List Stage} (h : stages ≠ []) (maxBytes : Usize)
    (chunks : List Bytes) {out : Bytes} :
    transducer.run (ofStages stages h maxBytes) chunks = .ok out ↔
      chunks.flatten.length ≤ maxBytes.val ∧
        chainDen StreamingRewriter.residual (stages.map Stage.rewriter) chunks.flatten =
          some out := by
  rw [realizes.run_eq_ok_iff (ofStages_active h maxBytes), residual]
  simp only [ofStages, Usize.val_zero, Nat.zero_add]
  split
  · rename_i hlen
    simp only [hlen, true_and]
  · rename_i hlen
    simp only [hlen, false_and, reduceCtorEq]

/-- **A run of a pipeline**, whatever the chunks are: it succeeds exactly on the valid texts
within the limit, and its output is the composition of the whole-text functions. -/
theorem run_ofStages_eq_ok_iff {source : Needle UInt8} {mode : LiteralRewriteMode}
    {stages : List Stage} {maxBytes : Usize} {chunks : List Bytes} {out : Bytes}
    (hkeeps : ∀ s ∈ (Stage.literal source mode :: stages).dropLast, s.KeepsValid)
    (hfits : FitsUsize (.literal source mode :: stages) chunks.flatten) :
    transducer.run (ofStages (.literal source mode :: stages) (by simp) maxBytes) chunks =
        .ok out ↔
      chunks.flatten.length ≤ maxBytes.val ∧ Valid chunks.flatten ∧
        applyAll (.literal source mode :: stages) chunks.flatten = out := by
  rw [run_ofStages]
  refine and_congr_right fun _ ↦ ?_
  by_cases hvalid : Valid chunks.flatten
  · rw [chainDen_stages hvalid hkeeps hfits, Option.some.injEq]
    exact ⟨fun h ↦ ⟨hvalid, h⟩, fun h ↦ h.2⟩
  · rw [List.map_cons, chainDen, Stage.residual_rewriter_literal_of_not_valid _ _ hvalid]
    simp only [Option.bind_none, reduceCtorEq, hvalid, false_and]

/-! ### The constructors -/

theorem mapM_eq_ok {α β γ : Type} {f : β → Except RewriteError γ} {g : α → β} {k : α → γ}
    (h : ∀ x, f (g x) = .ok (k x)) (xs : List α) : (xs.map g).mapM f = .ok (xs.map k) := by
  induction xs with
  | nil => rfl
  | cons x xs ih =>
    rw [List.map_cons, List.mapM_cons, h, ih]
    rfl

/-- The stage of a prefix rule: the replacement is the inserted prefix and the source. -/
def prefixStage (rule : Needle UInt8 × Bytes) : Stage :=
  .literal rule.1 (.prepend (rule.2 ++ rule.1.toList) rule.2)

/-- The stage of an exact rule. -/
def exactStage (rule : Needle UInt8 × Bytes) : Stage :=
  .literal rule.1 (.exact rule.2)

/-- The stage of a member-expression rule. -/
def memberStage (rule : Needle UInt8 × Needle UInt8 × Bytes) : Stage :=
  .expression rule.1 rule.2.1 (.prefixed rule.2.2) .memberExpression (by simp)

/-- The stage of an identifier-template rule. -/
def templateStage (rule : Needle UInt8 × Needle UInt8 × Needle UInt8) : Stage :=
  .expression rule.1 rule.2.1 (.template rule.2.2.toList) .identifier
    (by simpa using rule.2.2.ne_nil)

/-- The stage of an appended suffix. -/
def appendStage (source : Needle UInt8) (insertedSuffix : Bytes) : Stage :=
  .literal source (.append (source.toList ++ insertedSuffix) insertedSuffix)

theorem prefixLiteralRewriters_eq (rules : List (Needle UInt8 × Bytes)) :
    prefixLiteralRewriters (rules.map fun rule ↦ (rule.1.toList, rule.2 ++ rule.1.toList)) =
      .ok ((rules.map prefixStage).map Stage.rewriter) := by
  rw [List.map_map]
  refine mapM_eq_ok (fun rule ↦ ?_) rules
  rw [StreamingLiteralRewriter.new_eq]
  rfl

theorem exactLiteralRewriters_eq (rules : List (Needle UInt8 × Bytes)) :
    exactLiteralRewriters (rules.map fun rule ↦ (rule.1.toList, rule.2)) =
      .ok ((rules.map exactStage).map Stage.rewriter) := by
  rw [List.map_map]
  refine mapM_eq_ok (fun rule ↦ ?_) rules
  rw [StreamingLiteralRewriter.newExact_eq]
  rfl

theorem fromRewriters_eq {stages : List Stage} (h : stages ≠ []) (maxBytes : Usize) :
    fromRewriters (stages.map Stage.rewriter) maxBytes = .ok (ofStages stages h maxBytes) :=
  dif_neg (by simpa using h)

theorem extend_ofStages {stages : List Stage} (h : stages ≠ []) (maxBytes : Usize)
    (stages' : List Stage) :
    (ofStages stages h maxBytes).extend (stages'.map Stage.rewriter) =
      ofStages (stages ++ stages') (List.append_ne_nil_of_left_ne_nil h _) maxBytes := by
  simp only [extend, ofStages, List.map_append]

/-- `new_with_exact` builds the prefix stages and then the exact ones. -/
theorem newWithExact_eq (prefixRules exactRules : List (Needle UInt8 × Bytes))
    (h : prefixRules.map prefixStage ++ exactRules.map exactStage ≠ []) (maxBytes : Usize) :
    newWithExact (prefixRules.map fun rule ↦ (rule.1.toList, rule.2 ++ rule.1.toList))
        (exactRules.map fun rule ↦ (rule.1.toList, rule.2)) maxBytes =
      .ok (ofStages (prefixRules.map prefixStage ++ exactRules.map exactStage) h maxBytes) := by
  rw [newWithExact, prefixLiteralRewriters_eq, exactLiteralRewriters_eq,
    ← fromRewriters_eq h, List.map_append]
  rfl

/-- The member expressions come behind the literals. -/
theorem newWithExactAndMemberExpressionPatterns_eq
    (prefixRules exactRules : List (Needle UInt8 × Bytes))
    (memberRules : List (Needle UInt8 × Needle UInt8 × Bytes))
    (h : prefixRules.map prefixStage ++ exactRules.map exactStage ≠ []) (maxBytes : Usize) :
    newWithExactAndMemberExpressionPatterns
        (prefixRules.map fun rule ↦ (rule.1.toList, rule.2 ++ rule.1.toList))
        (exactRules.map fun rule ↦ (rule.1.toList, rule.2))
        (memberRules.map fun rule ↦ (rule.1.toList, rule.2.1.toList, rule.2.2)) maxBytes =
      .ok (ofStages
        (prefixRules.map prefixStage ++ exactRules.map exactStage ++ memberRules.map memberStage)
        (List.append_ne_nil_of_left_ne_nil h _) maxBytes) := by
  have hmembers : (memberRules.map fun rule ↦
      (rule.1.toList, rule.2.1.toList, rule.2.2)).mapM (fun rule ↦
        (StreamingExpressionPatternRewriter.newMemberExpression rule.1 rule.2.1 rule.2.2).map
          StreamingRewriter.expressionPattern) =
      .ok ((memberRules.map memberStage).map Stage.rewriter) := by
    rw [List.map_map]
    refine mapM_eq_ok (fun rule ↦ ?_) memberRules
    rw [StreamingExpressionPatternRewriter.newMemberExpression_eq,
      StreamingExpressionPatternRewriter.build_eq]
    rfl
  rw [newWithExactAndMemberExpressionPatterns, newWithExact_eq prefixRules exactRules h, hmembers,
    ← extend_ofStages h]
  rfl

theorem newWithAppendedSuffix_eq (source : Needle UInt8) (insertedSuffix : Bytes)
    (maxBytes : Usize) :
    newWithAppendedSuffix source.toList insertedSuffix maxBytes =
      .ok (ofStages [appendStage source insertedSuffix] (by simp) maxBytes) := by
  rw [newWithAppendedSuffix, StreamingLiteralRewriter.newWithAppendedSuffix,
    StreamingLiteralRewriter.fromMode_eq]
  rfl

theorem withExactRules_eq {stages : List Stage} (h : stages ≠ []) (maxBytes : Usize)
    (rules : List (Needle UInt8 × Bytes)) :
    (ofStages stages h maxBytes).withExactRules
        (rules.map fun rule ↦ (rule.1.toList, rule.2)) =
      .ok (ofStages (stages ++ rules.map exactStage) (List.append_ne_nil_of_left_ne_nil h _)
        maxBytes) := by
  rw [withExactRules, exactLiteralRewriters_eq, ← extend_ofStages h]
  rfl

theorem withIdentifierTemplatePatterns_eq {stages : List Stage} (h : stages ≠ [])
    (maxBytes : Usize) (rules : List (Needle UInt8 × Needle UInt8 × Needle UInt8)) :
    (ofStages stages h maxBytes).withIdentifierTemplatePatterns
        (rules.map fun rule ↦ (rule.1.toList, rule.2.1.toList, rule.2.2.toList)) =
      .ok (ofStages (stages ++ rules.map templateStage) (List.append_ne_nil_of_left_ne_nil h _)
        maxBytes) := by
  have htemplates : (rules.map fun rule ↦
      (rule.1.toList, rule.2.1.toList, rule.2.2.toList)).mapM (fun rule ↦
        (StreamingExpressionPatternRewriter.newTemplate rule.1 rule.2.1 rule.2.2).map
          StreamingRewriter.expressionPattern) =
      .ok ((rules.map templateStage).map Stage.rewriter) := by
    rw [List.map_map]
    refine mapM_eq_ok (fun rule ↦ ?_) rules
    rw [StreamingExpressionPatternRewriter.newTemplate,
      StreamingExpressionPatternRewriter.build_eq]
    rfl
  rw [withIdentifierTemplatePatterns, htemplates, ← extend_ofStages h]
  rfl

theorem withBufferedTransform_eq {stages : List Stage} (h : stages ≠ []) (maxBytes : Usize)
    (transform : Bytes → Bytes) :
    (ofStages stages h maxBytes).withBufferedTransform transform =
      ofStages (stages ++ [.buffered transform]) (by simp) maxBytes :=
  extend_ofStages h maxBytes [.buffered transform]

end StreamingRewritePipeline

end KseRewriteProxy
