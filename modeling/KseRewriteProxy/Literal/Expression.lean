import KseRewriteProxy.Literal.Basic
import KseRewriteProxy.Streaming.Transducer

/-!
# The streaming expression-pattern rewriter

`StreamingExpressionPatternRewriter` of `literal.rs`: looks for a prefix, an ASCII identifier or a
dot-separated chain of them, and a suffix, and rewrites the three together. A candidate that
follows an identifier byte is skipped, so that a prefix is not found inside a longer name.

A candidate has three outcomes, because the buffer may end before it is decided
(`ExpressionPatternMatch`). Positions in the buffer are relative to the bytes not yet consumed.

The loop of `process_available` and the loops that scan an expression are recursions on the bytes
that are left. A match takes at least one byte (`pos_of_matchCandidate`), because a suffix is not
empty, and a segment of an expression takes at least one (`lt_of_scanIdentifierSegment`), so both
end.
-/

namespace KseRewriteProxy

open Text

/-! ### Identifiers -/

/-- `is_ascii_identifier_start`. -/
def isAsciiIdentifierStart (byte : UInt8) : Bool :=
  (0x41 ≤ byte && byte ≤ 0x5A) || (0x61 ≤ byte && byte ≤ 0x7A) || byte == 0x5F || byte == 0x24

/-- `is_ascii_identifier_continue`. -/
def isAsciiIdentifierContinue (byte : UInt8) : Bool :=
  isAsciiIdentifierStart byte || (0x30 ≤ byte && byte ≤ 0x39)

/-- The byte `b'.'`. -/
def dot : UInt8 :=
  0x2E

/-- `IdentifierSegmentScan`. -/
inductive IdentifierSegmentScan where
  | endAt (cursor : ℕ)
  | needMore
  | noMatch
  deriving DecidableEq

/-- `scan_identifier_segment`. -/
def scanIdentifierSegment (input : Bytes) (cursor : ℕ) (endOfStream : Bool) :
    IdentifierSegmentScan :=
  match input.drop cursor with
  | [] => if endOfStream then .noMatch else .needMore
  | first :: rest =>
    if !isAsciiIdentifierStart first then .noMatch
    else .endAt (cursor + 1 + (rest.takeWhile isAsciiIdentifierContinue).length)

theorem lt_of_scanIdentifierSegment {input : Bytes} {cursor c : ℕ} {endOfStream : Bool}
    (h : scanIdentifierSegment input cursor endOfStream = .endAt c) :
    cursor < c ∧ cursor < input.length := by
  unfold scanIdentifierSegment at h
  split at h
  · split at h <;> exact absurd h (by simp)
  · rename_i first rest hdrop
    have hlen := congrArg List.length hdrop
    rw [List.length_drop, List.length_cons] at hlen
    split at h
    · exact absurd h (by simp)
    · rw [IdentifierSegmentScan.endAt.injEq] at h
      omega

/-! ### Candidates -/

/-- `PatternSyntax`. -/
inductive PatternSyntax where
  | identifier
  | memberExpression
  deriving DecidableEq

/-- `ExpressionReplacement`. -/
inductive ExpressionReplacement where
  | prefixed (replacementPrefix : Bytes)
  | template (text : Bytes)
  deriving DecidableEq

/-- `ExpressionPatternMatch`. -/
inductive ExpressionPatternMatch where
  | matched (len : ℕ)
  | needMore
  | noMatch
  deriving DecidableEq

/-- The loop of `match_candidate` over the further segments of a member expression. -/
def scanMembers (input : Bytes) (cursor : ℕ) (endOfStream : Bool) : IdentifierSegmentScan :=
  if input[cursor]? = some dot then
    match h : scanIdentifierSegment input (cursor + 1) endOfStream with
    | .endAt c =>
      have : input.length - c < input.length - cursor := by
        have := lt_of_scanIdentifierSegment h
        omega
      scanMembers input c endOfStream
    | .needMore => .needMore
    | .noMatch => .noMatch
  else .endAt cursor
termination_by input.length - cursor

/-- The expression part of `match_candidate`. -/
def scanExpression (syntaxKind : PatternSyntax) (input : Bytes) (cursor : ℕ)
    (endOfStream : Bool) : IdentifierSegmentScan :=
  match scanIdentifierSegment input cursor endOfStream with
  | .endAt c =>
    match syntaxKind with
    | .identifier => .endAt c
    | .memberExpression => scanMembers input c endOfStream
  | .needMore => .needMore
  | .noMatch => .noMatch

/-- The end of `match_candidate`: the suffix is compared behind the expression. -/
def compareSuffix (suffix input : Bytes) (cursor : ℕ) (endOfStream : Bool) :
    ExpressionPatternMatch :=
  if cursor = input.length then
    if endOfStream then .noMatch else .needMore
  else
    let available := input.drop cursor
    let comparedLen := min available.length suffix.length
    if available.take comparedLen ≠ suffix.take comparedLen then .noMatch
    else if available.length < suffix.length then
      if endOfStream then .noMatch else .needMore
    else .matched (cursor + suffix.length)

/-- `match_candidate` for the candidate at the beginning of `input`. -/
def matchCandidate (prefixLen : ℕ) (suffix : Bytes) (syntaxKind : PatternSyntax) (input : Bytes)
    (endOfStream : Bool) : ExpressionPatternMatch :=
  match scanExpression syntaxKind input prefixLen endOfStream with
  | .needMore => .needMore
  | .noMatch => .noMatch
  | .endAt cursor => compareSuffix suffix input cursor endOfStream

theorem compareSuffix_eq_matched {suffix input : Bytes} {cursor n : ℕ} {endOfStream : Bool}
    (h : compareSuffix suffix input cursor endOfStream = .matched n) :
    n = cursor + suffix.length := by
  unfold compareSuffix at h
  simp only at h
  split at h
  · split at h <;> exact absurd h (by simp)
  split at h
  · exact absurd h (by simp)
  split at h
  · split at h <;> exact absurd h (by simp)
  · rw [ExpressionPatternMatch.matched.injEq] at h
    exact h.symm

/-- A match takes at least one byte, so that the loop goes on. -/
theorem pos_of_matchCandidate {prefixLen : ℕ} {suffix : Bytes} (hsuffix : suffix ≠ [])
    {syntaxKind : PatternSyntax} {input : Bytes} {endOfStream : Bool} {n : ℕ}
    (h : matchCandidate prefixLen suffix syntaxKind input endOfStream = .matched n) : 0 < n := by
  have hpos := List.length_pos_iff.2 hsuffix
  unfold matchCandidate at h
  split at h
  · exact absurd h (by simp)
  · exact absurd h (by simp)
  · have := compareSuffix_eq_matched h
    omega

/-! ### The replacement -/

/-- The marker of a template. -/
def identifierMarker : Needle UInt8 :=
  ⟨bytes "{identifier}", by decide⟩

/-- `render_identifier_template`: the occurrences that `find_iter` yields are exchanged for the
expression. -/
def renderIdentifierTemplate (template expression : Bytes) : Bytes :=
  replaceFrom identifierMarker (fun _ _ ↦ expression) [] template

/-- What a match of `expression` becomes. -/
def ExpressionReplacement.render (replacement : ExpressionReplacement)
    (suffix expression : Bytes) : Bytes :=
  match replacement with
  | prefixed replacementPrefix => replacementPrefix ++ (expression ++ suffix)
  | template text => renderIdentifierTemplate text expression

/-! ### The rewriter -/

/-- `StreamingExpressionPatternRewriter`. The needle of the prefix finder and the suffix are not
empty, as `new` and `new_template` check. -/
structure StreamingExpressionPatternRewriter where
  prefixFinder : Needle UInt8
  suffix : Bytes
  suffix_ne_nil : suffix ≠ []
  replacement : ExpressionReplacement
  syntaxKind : PatternSyntax
  pending : Bytes
  previousByte : Option UInt8
  finished : Bool

/-- What the loop of `process_available` leaves. -/
structure ExpressionProgress where
  output : Bytes
  previousByte : Option UInt8
  pending : Bytes

/-- `preceded_by_identifier`. -/
def precededByIdentifier (previousByte : Option UInt8) : Bool :=
  previousByte.any isAsciiIdentifierContinue

namespace StreamingExpressionPatternRewriter

/-- The end of the loop, when the prefix does not occur any more. -/
def emitTail (self : StreamingExpressionPatternRewriter) (endOfStream : Bool) (output : Bytes)
    (previousByte : Option UInt8) (rest : Bytes) : ExpressionProgress :=
  let emitLen :=
    if endOfStream then rest.length else rest.length - (self.prefixFinder.length - 1)
  if emitLen > 0 then
    { output := output ++ rest.take emitLen
      previousByte := (rest.take emitLen).getLast?
      pending := rest.drop emitLen }
  else
    { output := output, previousByte := previousByte, pending := rest }

/-- The outcome for the candidate at the beginning of `rest`. -/
def outcome (self : StreamingExpressionPatternRewriter) (endOfStream : Bool)
    (previousByte : Option UInt8) (rest : Bytes) : ExpressionPatternMatch :=
  if precededByIdentifier previousByte then .noMatch
  else matchCandidate self.prefixFinder.length self.suffix self.syntaxKind rest endOfStream

/-- The expression of a match of `matchedLen` bytes at the beginning of `rest`. -/
def expressionOf (self : StreamingExpressionPatternRewriter) (matchedLen : ℕ) (rest : Bytes) :
    Bytes :=
  (rest.take (matchedLen - self.suffix.length)).drop self.prefixFinder.length

/-- A match takes at least one byte, also behind the check of the previous byte. -/
theorem pos_of_outcome {self : StreamingExpressionPatternRewriter} {endOfStream : Bool}
    {previousByte : Option UInt8} {rest : Bytes} {n : ℕ}
    (h : self.outcome endOfStream previousByte rest = .matched n) : 0 < n := by
  unfold outcome at h
  split at h
  · exact absurd h (by simp)
  · exact pos_of_matchCandidate self.suffix_ne_nil h

/-- The loop of `process_available`, with the output so far, from the bytes `rest` of `pending`
that are not yet consumed. -/
def processLoop (self : StreamingExpressionPatternRewriter) (endOfStream : Bool)
    (output : Bytes) (previousByte : Option UInt8) (rest : Bytes) : ExpressionProgress :=
  match hfind : find self.prefixFinder.toList rest with
  | none => self.emitTail endOfStream output previousByte rest
  | some relativePosition =>
    have hne : 0 < rest.length := by
      have := add_length_le_of_find hfind
      have := self.prefixFinder.length_pos
      rw [self.prefixFinder.toList_length] at *
      omega
    if hpos : relativePosition > 0 then
      self.processLoop endOfStream (output ++ rest.take relativePosition)
        (rest.take relativePosition).getLast? (rest.drop relativePosition)
    else
      match hout : self.outcome endOfStream previousByte rest with
      | .matched matchedLen =>
        have := pos_of_outcome hout
        let emitted := self.replacement.render self.suffix (self.expressionOf matchedLen rest)
        self.processLoop endOfStream (output ++ emitted) (output ++ emitted).getLast?
          (rest.drop matchedLen)
      | .needMore => { output := output, previousByte := previousByte, pending := rest }
      | .noMatch =>
        self.processLoop endOfStream (output ++ rest.take 1) rest.head? (rest.drop 1)
termination_by rest.length
decreasing_by
  all_goals
    rw [List.length_drop]
    omega

/-- `process_available`. -/
def processAvailable (self : StreamingExpressionPatternRewriter) (endOfStream : Bool) :
    Bytes × StreamingExpressionPatternRewriter :=
  let p := self.processLoop endOfStream [] self.previousByte self.pending
  (p.output, { self with previousByte := p.previousByte, pending := p.pending })

/-- A rewriter before its first push. -/
def initial (pre suffix : Needle UInt8) (replacement : ExpressionReplacement)
    (syntaxKind : PatternSyntax) : StreamingExpressionPatternRewriter where
  prefixFinder := pre
  suffix := suffix.toList
  suffix_ne_nil := suffix.ne_nil
  replacement := replacement
  syntaxKind := syntaxKind
  pending := []
  previousByte := none
  finished := false

/-- A rewriter for a prefix and a suffix that are not empty. -/
def build (pre suffix : Bytes) (replacement : ExpressionReplacement) (syntaxKind : PatternSyntax) :
    Except RewriteError StreamingExpressionPatternRewriter :=
  if h : pre ≠ [] ∧ suffix ≠ [] then
    .ok (initial ⟨pre, h.1⟩ ⟨suffix, h.2⟩ replacement syntaxKind)
  else .error .emptySource

/-- `StreamingExpressionPatternRewriter::new`. -/
def new (pre suffix replacementPrefix : Bytes) :
    Except RewriteError StreamingExpressionPatternRewriter :=
  build pre suffix (.prefixed replacementPrefix) .identifier

/-- `StreamingExpressionPatternRewriter::new_member_expression`. -/
def newMemberExpression (pre suffix replacementPrefix : Bytes) :
    Except RewriteError StreamingExpressionPatternRewriter :=
  (new pre suffix replacementPrefix).map fun rewriter ↦
    { rewriter with syntaxKind := .memberExpression }

/-- `StreamingExpressionPatternRewriter::new_template`. -/
def newTemplate (pre suffix template : Bytes) :
    Except RewriteError StreamingExpressionPatternRewriter :=
  build pre suffix (.template template) .identifier

/-- `StreamingExpressionPatternRewriter::push`. -/
def push (self : StreamingExpressionPatternRewriter) (input : Bytes) :
    Except RewriteError Bytes × StreamingExpressionPatternRewriter :=
  if self.finished then (.error .alreadyFinished, self)
  else
    let self := { self with pending := self.pending ++ input }
    let (output, self) := self.processAvailable false
    (.ok output, self)

/-- `StreamingExpressionPatternRewriter::finish`. -/
def finish (self : StreamingExpressionPatternRewriter) :
    Except RewriteError Bytes × StreamingExpressionPatternRewriter :=
  if self.finished then (.error .alreadyFinished, self)
  else
    let self := { self with finished := true }
    let (output, self) := self.processAvailable true
    (.ok output, self)

/-- The rewriter as a transducer. -/
def transducer :
    Streaming.Transducer UInt8 RewriteError StreamingExpressionPatternRewriter where
  push := push
  finish := finish

end StreamingExpressionPatternRewriter

end KseRewriteProxy
