import KseRewriteProxy.Literal.Basic
import KseRewriteProxy.Streaming.Transducer

/-!
# The streaming literal rewriter

`StreamingLiteralRewriter` of `literal.rs`: replaces the greedy occurrences of a source literal in
a stream of chunks. In `Prepend` mode an occurrence that already follows the inserted prefix is
left alone, in `Append` mode one that is already followed by the inserted suffix, and in `Exact`
mode every occurrence is replaced.

The rewriter keeps three pieces of state between chunks: `pending`, the input not yet decided;
`inputHistory`, the last bytes of the input already decided; and `utf8Tail`, the character that the
last chunk left unfinished. The limit of its own that the source gives it is counted, too.

This module only translates. The loop of `process_available` consumes its buffer from the front, so
that it is a recursion on the bytes that are left; that it ends is seen from an occurrence never
being empty, because a source is a `Needle`.
-/

namespace KseRewriteProxy

open Text Text.Utf8

/-! ### The model -/

/-- `LiteralRewriteMode`. -/
inductive LiteralRewriteMode where
  | prepend (replacement insertedPrefix : Bytes)
  | exact (replacement : Bytes)
  | append (replacement insertedSuffix : Bytes)
  deriving DecidableEq

namespace LiteralRewriteMode

/-- The text that replaces an occurrence. -/
def replacement : LiteralRewriteMode → Bytes
  | prepend replacement _ => replacement
  | exact replacement => replacement
  | append replacement _ => replacement

/-- The prefix that marks an occurrence as already rewritten. -/
def insertedPrefix : LiteralRewriteMode → Option Bytes
  | prepend _ insertedPrefix => some insertedPrefix
  | _ => none

/-- The suffix that marks an occurrence as already rewritten. -/
def insertedSuffix : LiteralRewriteMode → Option Bytes
  | append _ insertedSuffix => some insertedSuffix
  | _ => none

end LiteralRewriteMode

/-- `StreamingLiteralRewriter`. The needle of the finder is not empty, as `from_mode` checks. -/
structure StreamingLiteralRewriter where
  finder : Needle UInt8
  mode : LiteralRewriteMode
  maxBytes : Usize
  totalBytes : Usize
  pending : Bytes
  inputHistory : Bytes
  utf8Tail : Bytes
  finished : Bool

/-- `utf8_sequence_len`. The last arm is `unreachable!` in the source. -/
def utf8SequenceLen (firstByte : UInt8) : ℕ :=
  if 0xC2 ≤ firstByte ∧ firstByte ≤ 0xDF then 2
  else if 0xE0 ≤ firstByte ∧ firstByte ≤ 0xEF then 3
  else if 0xF0 ≤ firstByte ∧ firstByte ≤ 0xF4 then 4
  else 0

/-- `original_input_ends_with_prefix`. -/
def originalInputEndsWithPrefix (insertedPrefix : Option Bytes)
    (inputHistory beforeMatch : Bytes) : Bool :=
  match insertedPrefix with
  | none => false
  | some p =>
    if p.isEmpty then true
    else if beforeMatch.length ≥ p.length then p.isSuffixOf beforeMatch
    else
      let missing := p.length - beforeMatch.length
      inputHistory.length ≥ missing
        && inputHistory.drop (inputHistory.length - missing) == p.take missing
        && beforeMatch == p.drop missing

/-- `remember_input`: the history after `input` has been consumed. -/
def rememberInput (insertedPrefix : Option Bytes) (inputHistory input : Bytes) : Bytes :=
  match insertedPrefix with
  | none => inputHistory
  | some p =>
    let historyLen := p.length
    if historyLen = 0 then inputHistory
    else if input.length ≥ historyLen then input.drop (input.length - historyLen)
    else
      let remove := (inputHistory.length + input.length) - historyLen
      inputHistory.drop remove ++ input

/-- What one call of `process_available` leaves: its output, the history and the pending bytes. -/
structure Progress where
  output : Bytes
  inputHistory : Bytes
  pending : Bytes

/-- The end of `process_available`, after the last match: everything is emitted at the end of the
stream, and otherwise everything but a possible beginning of the source. -/
def emitTail (sourceLen : ℕ) (mode : LiteralRewriteMode) (endOfStream : Bool)
    (inputHistory rest : Bytes) : Progress :=
  let emitLen := if endOfStream then rest.length else rest.length - (sourceLen - 1)
  if emitLen > 0 then
    { output := rest.take emitLen
      inputHistory := rememberInput mode.insertedPrefix inputHistory (rest.take emitLen)
      pending := rest.drop emitLen }
  else
    { output := [], inputHistory := inputHistory, pending := rest }

/-- The match loop of `process_available` from the bytes `rest` of `pending` that are not yet
consumed. -/
def processLoop (source : Needle UInt8) (mode : LiteralRewriteMode) (endOfStream : Bool)
    (inputHistory rest : Bytes) : Progress :=
  match h : find source.toList rest with
  | none => emitTail source.length mode endOfStream inputHistory rest
  | some position =>
    have : rest.length - (position + source.length) < rest.length := by
      have := add_length_le_of_find h
      have := source.length_pos
      rw [source.toList_length] at *
      omega
    let beforeMatch := rest.take position
    let alreadyPrefixed :=
      originalInputEndsWithPrefix mode.insertedPrefix inputHistory beforeMatch
    let history := rememberInput mode.insertedPrefix inputHistory beforeMatch
    let afterMatch := rest.drop (position + source.length)
    match mode.insertedSuffix with
    | some insertedSuffix =>
      if !endOfStream && afterMatch.length < insertedSuffix.length
          && afterMatch.isPrefixOf insertedSuffix then
        -- the lookahead is not decided: the whole match stays pending
        { output := beforeMatch, inputHistory := history, pending := rest.drop position }
      else
        let emitted :=
          if insertedSuffix.isPrefixOf afterMatch then source.toList else mode.replacement
        let next := processLoop source mode endOfStream
          (rememberInput mode.insertedPrefix history source.toList) afterMatch
        { next with output := beforeMatch ++ emitted ++ next.output }
    | none =>
      let emitted := if alreadyPrefixed then source.toList else mode.replacement
      let next := processLoop source mode endOfStream
        (rememberInput mode.insertedPrefix history source.toList) afterMatch
      { next with output := beforeMatch ++ emitted ++ next.output }
termination_by rest.length
decreasing_by
  · rw [List.length_drop]
    exact this
  · rw [List.length_drop]
    exact this

/-- `validate_utf8_slice`: the result and the new tail. -/
def validateUtf8Slice (input utf8Tail : Bytes) : Except RewriteError Unit × Bytes :=
  match fromUtf8 input with
  | .ok () => (.ok (), utf8Tail)
  | .error error =>
    match error.errorLen with
    | none => (.ok (), utf8Tail ++ input.drop error.validUpTo)
    | some _ => (.error .invalidUtf8, utf8Tail)

/-- `validate_utf8`: the result and the new tail. -/
def validateUtf8 (utf8Tail input : Bytes) : Except RewriteError Unit × Bytes :=
  match utf8Tail with
  | [] => validateUtf8Slice input []
  | firstByte :: _ =>
    let expectedLen := utf8SequenceLen firstByte
    let missingLen := expectedLen - utf8Tail.length
    let boundaryInputLen := min input.length missingLen
    match fromUtf8 (utf8Tail ++ input.take boundaryInputLen) with
    | .ok () => validateUtf8Slice (input.drop boundaryInputLen) []
    | .error error =>
      match error.errorLen with
      | none => (.ok (), utf8Tail ++ input.take boundaryInputLen)
      | some _ => (.error .invalidUtf8, [])

namespace StreamingLiteralRewriter

/-- A rewriter before its first push. -/
def initial (source : Needle UInt8) (mode : LiteralRewriteMode) (maxBytes : Usize) :
    StreamingLiteralRewriter where
  finder := source
  mode := mode
  maxBytes := maxBytes
  totalBytes := .zero
  pending := []
  inputHistory := []
  utf8Tail := []
  finished := false

/-- `from_mode`. -/
def fromMode (source : Bytes) (mode : LiteralRewriteMode) (maxBytes : Usize) :
    Except RewriteError StreamingLiteralRewriter :=
  if h : source = [] then .error .emptySource else .ok (initial ⟨source, h⟩ mode maxBytes)

/-- `StreamingLiteralRewriter::new`. -/
def new (source replacement : Bytes) (maxBytes : Usize) :
    Except RewriteError StreamingLiteralRewriter :=
  match stripSuffix source replacement with
  | none => .error .invalidReplacement
  | some insertedPrefix => fromMode source (.prepend replacement insertedPrefix) maxBytes

/-- `StreamingLiteralRewriter::new_exact`. -/
def newExact (source replacement : Bytes) (maxBytes : Usize) :
    Except RewriteError StreamingLiteralRewriter :=
  fromMode source (.exact replacement) maxBytes

/-- `StreamingLiteralRewriter::new_with_appended_suffix`. -/
def newWithAppendedSuffix (source insertedSuffix : Bytes) (maxBytes : Usize) :
    Except RewriteError StreamingLiteralRewriter :=
  fromMode source (.append (source ++ insertedSuffix) insertedSuffix) maxBytes

/-- `process_available`. -/
def processAvailable (self : StreamingLiteralRewriter) (endOfStream : Bool) :
    Bytes × StreamingLiteralRewriter :=
  let p := processLoop self.finder self.mode endOfStream self.inputHistory self.pending
  (p.output, { self with inputHistory := p.inputHistory, pending := p.pending })

/-- `StreamingLiteralRewriter::push`. -/
def push (self : StreamingLiteralRewriter) (input : Bytes) :
    Except RewriteError Bytes × StreamingLiteralRewriter :=
  if self.finished then (.error .alreadyFinished, self)
  else
    match self.totalBytes.checkedAdd input.length with
    | none => (.error (.tooLarge self.maxBytes), self)
    | some total =>
      let self := { self with totalBytes := total }
      if self.totalBytes.val > self.maxBytes.val then (.error (.tooLarge self.maxBytes), self)
      else
        match validateUtf8 self.utf8Tail input with
        | (.error e, tail) => (.error e, { self with utf8Tail := tail })
        | (.ok (), tail) =>
          let self := { self with utf8Tail := tail, pending := self.pending ++ input }
          let (output, self) := self.processAvailable false
          (.ok output, self)

/-- `StreamingLiteralRewriter::finish`. -/
def finish (self : StreamingLiteralRewriter) :
    Except RewriteError Bytes × StreamingLiteralRewriter :=
  if self.finished then (.error .alreadyFinished, self)
  else
    let self := { self with finished := true }
    if !self.utf8Tail.isEmpty then (.error .invalidUtf8, self)
    else
      let (output, self) := self.processAvailable true
      (.ok output, self)

/-- The rewriter as a transducer. -/
def transducer : Streaming.Transducer UInt8 RewriteError StreamingLiteralRewriter where
  push := push
  finish := finish

end StreamingLiteralRewriter

end KseRewriteProxy
