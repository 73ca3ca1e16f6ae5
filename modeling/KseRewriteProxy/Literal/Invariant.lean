import KseRewriteProxy.Literal.ExpressionText
import KseRewriteProxy.Literal.Validation

/-!
# What the streaming stages keep between two pushes

The memory of a stage is bounded by its rule and not by its input. For the literal rewriter this is
a bound on `pending` and an exact description of `input_history`; for the expression-pattern
rewriter it is a dichotomy: `pending` is too short to hold the prefix, or it begins with a candidate
that the input read so far does not decide.

Both follow from one lemma about the loop of `process_available`, which says what each of its exits
leaves (`processLoop_leaves`, `processLoop_undecided`), and from the induction over the pushes in
`representation_invariant`.

What the history remembers is stated against everything that has been removed from `pending`, not
against the last push: `LiteralRewriteMode.Remembers` is preserved when more is removed, since the
last bytes of a longer text need only the last bytes of the shorter one
(`lastBytes_append_lastBytes`). This is what makes the induction go through with a history of
bounded length.
-/

namespace KseRewriteProxy

open Text Streaming

/-- The last `n` bytes. -/
def lastBytes (n : ℕ) (bs : Bytes) : Bytes :=
  bs.drop (bs.length - n)

theorem lastBytes_min (n : ℕ) (bs : Bytes) : lastBytes (min n bs.length) bs = lastBytes n bs := by
  unfold lastBytes
  congr 1
  omega

/-! ### The history -/

/-- The history buffer holds the end of the text that has been removed from `pending`. -/
def LiteralRewriteMode.Remembers (mode : LiteralRewriteMode) (removed history : Bytes) : Prop :=
  ∀ p, mode.insertedPrefix = some p → history = lastBytes p.length removed

/-- The last bytes of an extended text need only the last bytes of the text. -/
theorem lastBytes_append_lastBytes (n : ℕ) (bs cs : Bytes) :
    lastBytes n (lastBytes n bs ++ cs) = lastBytes n (bs ++ cs) := by
  unfold lastBytes
  simp only [List.length_append, List.length_drop]
  rw [List.drop_append, List.drop_append, List.drop_drop, List.length_drop]
  congr 2
  · omega
  · omega

/-- The history remembers what is removed next, too. -/
theorem LiteralRewriteMode.Remembers.rememberInput {mode : LiteralRewriteMode}
    {removed history : Bytes} (h : mode.Remembers removed history) (input : Bytes) :
    mode.Remembers (removed ++ input) (rememberInput mode.insertedPrefix history input) := by
  intro p hp
  rw [hp, h p hp]
  rcases eq_or_ne p [] with rfl | hne
  · show lastBytes 0 removed = lastBytes 0 (removed ++ input)
    simp only [lastBytes, Nat.sub_zero, List.drop_length]
  · rw [rememberInput_eq_drop hne]
    exact lastBytes_append_lastBytes p.length removed input

/-! ### The literal rewriter -/

/-- How far the rewriter looks behind an occurrence. -/
def LiteralRewriteMode.lookahead (mode : LiteralRewriteMode) : ℕ :=
  (mode.insertedSuffix.getD []).length

/-- What the loop leaves when `removed` has been removed before and `rest` is pending. -/
structure Leaves (source : Needle UInt8) (mode : LiteralRewriteMode) (removed rest : Bytes)
    (p : Progress) : Prop where
  length_lt : p.pending.length < source.length + mode.lookahead
  exists_consumed : ∃ consumed, rest = consumed ++ p.pending ∧
    mode.Remembers (removed ++ consumed) p.inputHistory

/-- The exit without a further match. -/
theorem leaves_emitTail (source : Needle UInt8) {mode : LiteralRewriteMode}
    {removed history : Bytes} (h : mode.Remembers removed history) (rest : Bytes) :
    Leaves source mode removed rest (emitTail source.length mode false history rest) := by
  have hpos := source.length_pos
  unfold emitTail
  simp only [Bool.false_eq_true, if_false]
  set e := rest.length - (source.length - 1) with he
  split
  · refine ⟨?_, rest.take e, (List.take_append_drop e rest).symm, h.rememberInput _⟩
    show (rest.drop e).length < _
    rw [List.length_drop]
    omega
  · refine ⟨?_, [], rfl, by rwa [List.append_nil]⟩
    show rest.length < _
    omega

/-- **What the loop leaves**, at each of its exits. -/
theorem processLoop_leaves (source : Needle UInt8) {mode : LiteralRewriteMode}
    {removed history : Bytes} (h : mode.Remembers removed history) (rest : Bytes) :
    Leaves source mode removed rest (processLoop source mode false history rest) := by
  induction hn : rest.length using Nat.strongRecOn generalizing removed history rest with
  | ind n ih =>
    subst hn
    rcases hk : find source.toList rest with - | k
    · rw [processLoop_of_find_none hk]
      exact leaves_emitTail source h rest
    have hlen := add_length_le_of_find hk
    have hpos := source.length_pos
    rw [source.toList_length] at hlen
    obtain hwait | hwait := Classical.em (mode.Undecided false (rest.drop (k + source.length)))
    · -- the whole match stays pending, with less than the lookahead behind it
      rw [processLoop_of_undecided hk hwait]
      refine ⟨?_, rest.take k, (List.take_append_drop k rest).symm, h.rememberInput _⟩
      obtain ⟨x, hx, -, hshort, -⟩ := hwait
      show (rest.drop k).length < _
      rw [LiteralRewriteMode.lookahead, hx, Option.getD_some]
      rw [List.length_drop] at hshort ⊢
      omega
    · rw [processLoop_of_decided hk hwait]
      obtain ⟨hbound, consumed, hconsumed, hremembers⟩ :=
        ih _ (by rw [List.length_drop]; omega)
          ((h.rememberInput (rest.take k)).rememberInput source.toList)
          (rest.drop (k + source.length)) rfl
      refine ⟨hbound, rest.take k ++ source.toList ++ consumed, ?_, ?_⟩
      · conv_lhs => rw [eq_append_of_find hk, source.toList_length, hconsumed]
        simp only [List.append_assoc]
      · simpa only [List.append_assoc] using hremembers

namespace StreamingLiteralRewriter

/-- What is true of a rewriter after the bytes `input` have been pushed. -/
structure Represents (source : Needle UInt8) (mode : LiteralRewriteMode) (input : Bytes)
    (r : StreamingLiteralRewriter) : Prop where
  finder_eq : r.finder = source
  mode_eq : r.mode = mode
  length_lt : r.pending.length < source.length + mode.lookahead
  exists_removed : ∃ removed, input = removed ++ r.pending ∧ mode.Remembers removed r.inputHistory

/-- **The invariant of the pushes.** -/
theorem represents_of_pushed {source : Needle UInt8} {mode : LiteralRewriteMode}
    {maxBytes : Usize} {chunks : List Bytes} {self : StreamingLiteralRewriter}
    (h : transducer.Pushed (initial source mode maxBytes) chunks self) :
    Represents source mode chunks.flatten self := by
  have hpos := source.length_pos
  have hstart : Represents source mode [] (initial source mode maxBytes) :=
    ⟨rfl, rfl, Nat.lt_of_lt_of_le hpos (Nat.le_add_right _ _), [], rfl,
      fun p _ ↦ List.drop_nil.symm⟩
  refine h.preserves hstart ?_
  intro input self c out self' hr hpush
  obtain ⟨total, tail, -, -, -, hself'⟩ := push_ok hpush
  obtain ⟨removed, rfl, hremembers⟩ := hr.exists_removed
  obtain ⟨hbound, consumed, hconsumed, hremembers'⟩ :=
    processLoop_leaves source hremembers (self.pending ++ c)
  rw [← hr.finder_eq, ← hr.mode_eq] at hbound hconsumed hremembers' ⊢
  obtain rfl := (Prod.mk.inj hself').2
  refine ⟨rfl, rfl, hbound, removed ++ consumed, ?_, hremembers'⟩
  rw [List.append_assoc, List.append_assoc]
  exact congrArg (removed ++ ·) hconsumed

end StreamingLiteralRewriter

/-! ### The expression-pattern rewriter -/

namespace StreamingExpressionPatternRewriter

/-- What a rewriter holds back: less than a prefix, or a candidate that is not decided. -/
def HoldsBack (r : StreamingExpressionPatternRewriter) (previous : Option UInt8)
    (pending : Bytes) : Prop :=
  pending.length < r.prefixFinder.length ∨
    (r.prefixFinder.toList <+: pending ∧ precededByIdentifier previous = false ∧
      matchCandidate r.prefixFinder.length r.suffix r.syntaxKind pending false = .needMore)

/-- **What the loop holds back**, at each of its exits. -/
theorem processLoop_undecided (self : StreamingExpressionPatternRewriter) (output : Bytes)
    (previous : Option UInt8) (rest : Bytes) :
    self.HoldsBack (self.processLoop false output previous rest).previousByte
      (self.processLoop false output previous rest).pending := by
  have hneedle := self.prefixFinder.length_pos
  induction hn : rest.length using Nat.strongRecOn generalizing output previous rest with
  | ind n ih =>
    subst hn
    rcases self.processLoop_cases false output previous rest with
      ⟨-, heq⟩ | ⟨k, hk, hpos, heq⟩ | ⟨hpre, hne, heq⟩
    · rw [heq]
      unfold emitTail
      simp only [Bool.false_eq_true, if_false]
      split
      · refine Or.inl ?_
        show (rest.drop _).length < _
        rw [List.length_drop]
        omega
      · refine Or.inl ?_
        show rest.length < _
        omega
    · have hlen := add_length_le_of_find hk
      rw [self.prefixFinder.toList_length] at hlen
      rw [heq]
      exact ih _ (by rw [List.length_drop]; omega) _ _ _ rfl
    · have hlen := List.length_pos_iff.2 hne
      rw [heq]
      rcases hr : self.outcome false previous rest with m | - | -
      · have hm := pos_of_outcome hr
        exact ih _ (by rw [List.length_drop]; omega) _ _ _ rfl
      · -- the candidate was compared, so no identifier byte stands in front of it
        refine Or.inr ⟨hpre, ?_⟩
        unfold outcome at hr
        split at hr
        · exact absurd hr (by simp)
        · rename_i hprevious
          exact ⟨by simpa using hprevious, hr⟩
      · exact ih _ (by rw [List.length_drop]; omega) _ _ _ rfl

/-- What is true of a rewriter after some pushes. -/
structure Undecided (pre suffix : Needle UInt8) (k : PatternSyntax)
    (r : StreamingExpressionPatternRewriter) : Prop where
  prefixFinder_eq : r.prefixFinder = pre
  suffix_eq : r.suffix = suffix.toList
  syntaxKind_eq : r.syntaxKind = k
  holdsBack : r.HoldsBack r.previousByte r.pending

/-- **The invariant of the pushes.** -/
theorem undecided_of_pushed {pre suffix : Needle UInt8} {replacement : ExpressionReplacement}
    {k : PatternSyntax} {chunks : List Bytes} {self : StreamingExpressionPatternRewriter}
    (h : transducer.Pushed (initial pre suffix replacement k) chunks self) :
    Undecided pre suffix k self := by
  have hstart : Undecided pre suffix k (initial pre suffix replacement k) :=
    ⟨rfl, rfl, rfl, Or.inl pre.length_pos⟩
  refine h.preserves (P := fun _ self ↦ Undecided pre suffix k self) hstart ?_
  intro input self c out self' hr hpush
  unfold transducer push at hpush
  simp only at hpush
  split at hpush
  · exact absurd (Prod.mk.inj hpush).1 (by simp)
  · obtain rfl := (Prod.mk.inj hpush).2
    refine ⟨hr.prefixFinder_eq, hr.suffix_eq, hr.syntaxKind_eq, ?_⟩
    exact processLoop_undecided { self with pending := self.pending ++ c } [] self.previousByte
      (self.pending ++ c)

end StreamingExpressionPatternRewriter

/-! ### Both rewriters -/

/-- **The representation invariant of the streaming stages.** After any successful pushes, a
literal rewriter holds back less than its source, and less than source and inserted suffix in
`Append` mode; what it holds back is the end of the input; and in `Prepend` mode the history is the
end of the rest. An expression-pattern rewriter holds back less than its prefix, or a candidate
behind no identifier byte that the input so far does not decide. -/
theorem representation_invariant :
    (∀ (source : Needle UInt8) (mode : LiteralRewriteMode) (maxBytes : Usize)
      (chunks : List Bytes) (self : StreamingLiteralRewriter),
      StreamingLiteralRewriter.transducer.Pushed (.initial source mode maxBytes) chunks self →
        (match mode with
          | .prepend _ _ => self.pending.length < source.length
          | .exact _ => self.pending.length < source.length
          | .append _ x => self.pending.length < source.length + x.length) ∧
        self.pending <:+ chunks.flatten ∧
        ∀ replacement p, mode = .prepend replacement p →
          ∃ removed, chunks.flatten = removed ++ self.pending ∧
            self.inputHistory = lastBytes (min p.length removed.length) removed) ∧
    ∀ (pre suffix : Needle UInt8) (replacement : ExpressionReplacement) (k : PatternSyntax)
      (chunks : List Bytes) (self : StreamingExpressionPatternRewriter),
      StreamingExpressionPatternRewriter.transducer.Pushed (.initial pre suffix replacement k)
          chunks self →
        self.pending.length < pre.length ∨
          (pre.toList <+: self.pending ∧ precededByIdentifier self.previousByte = false ∧
            matchCandidate pre.length suffix.toList k self.pending false = .needMore) := by
  refine ⟨fun source mode maxBytes chunks self hself ↦ ?_,
    fun pre suffix replacement k chunks self hself ↦ ?_⟩
  · have hr := StreamingLiteralRewriter.represents_of_pushed hself
    obtain ⟨removed, hinput, hremembers⟩ := hr.exists_removed
    refine ⟨?_, ⟨removed, hinput.symm⟩, ?_⟩
    · have hbound := hr.length_lt
      cases mode with
      | prepend replacement p => exact hbound
      | exact replacement => exact hbound
      | append replacement x => exact hbound
    · rintro replacement p rfl
      exact ⟨removed, hinput, by rw [lastBytes_min]; exact hremembers p rfl⟩
  · obtain ⟨hpre, hsuffix, hkind, hholds⟩ :=
      StreamingExpressionPatternRewriter.undecided_of_pushed hself
    unfold StreamingExpressionPatternRewriter.HoldsBack at hholds
    rwa [hpre, hsuffix, hkind] at hholds

/-- The invariant for the rule of the frontend assets, in the middle of a source literal. -/
theorem representation_invariant_assets :
    ∃ self removed,
      StreamingLiteralRewriter.transducer.Pushed
          (.initial ⟨bytes "/a/", by decide⟩ (.prepend (bytes "/b/a/") (bytes "/b"))
            ⟨64, by decide⟩) [bytes "x=/", bytes "a"] self ∧
        self.pending.length < 3 ∧ bytes "x=/a" = removed ++ self.pending ∧
        self.inputHistory = lastBytes (min 2 removed.length) removed := by
  obtain ⟨self, hself⟩ := StreamingLiteralRewriter.exists_pushed ⟨bytes "/a/", by decide⟩
    (.prepend (bytes "/b/a/") (bytes "/b")) ⟨64, by decide⟩ [bytes "x=/", bytes "a"] (by decide)
    (by decide)
  obtain ⟨hbound, -, hhistory⟩ := representation_invariant.1 _ _ _ _ _ hself
  obtain ⟨removed, hinput, hremembers⟩ := hhistory _ _ rfl
  exact ⟨self, removed, hself, hbound, hinput, hremembers⟩

end KseRewriteProxy
