import KseRewriteProxy.Literal.Rewriter

/-!
# The literal rewriter computes its whole-text definition

`LiteralRewriteMode.replace` says, for one occurrence of the source, what the rewriter emits in
terms of the *complete* text before and after it. The history buffer is exact for this purpose:
`originalInputEndsWithPrefix` decides whether the complete input before a match ends with the
inserted prefix (`originalInputEndsWithPrefix_iff`), although only its last bytes are kept
(`isSuffix_rememberInput`).

## The loop

The match loop is compared with the whole-text pass `Text.replaceFrom` once, for a text that may
still grow as well as for a complete one (`replaceFrom_processLoop`). The induction is on the length
of the text. An occurrence that is found stays the leftmost one when more text comes, and it is held
back as long as the bytes behind it could still complete the inserted suffix; without an occurrence
the last bytes are held back, because a new occurrence can only begin there.

## The encoding

The check of UTF-8 is compared with the byte automaton (`checksUtf8_validateUtf8`): the tail that is
kept is the unfinished character, and the automaton is in the same state behind the tail as behind
the whole input.

## Runs

Together they give the residual of a state, and `StreamingLiteralRewriter.run_initial_eq_ok_iff`
evaluates every run. `run_eq_splice` and `run_eq_splice_append` read the result off at the greedy
occurrences of the source in the original input, where whether an occurrence is left alone depends
on the original input only.
-/

namespace KseRewriteProxy

open Text Text.Utf8

/-! ### What one occurrence becomes -/

/-- What the rewriter emits for an occurrence of `source`, given the complete text before and
after it. -/
def LiteralRewriteMode.replace (mode : LiteralRewriteMode) (source : Bytes)
    (before after : Bytes) : Bytes :=
  match mode with
  | prepend replacement insertedPrefix =>
    if insertedPrefix <:+ before then source else replacement
  | exact replacement => replacement
  | append replacement insertedSuffix =>
    if insertedSuffix <+: after then source else replacement

/-! ### The history buffer -/

/-- **The history decides about the complete input**: the check looks at the kept bytes and the
text before the match only, and answers for their concatenation. -/
theorem originalInputEndsWithPrefix_iff (p history before : Bytes) :
    originalInputEndsWithPrefix (some p) history before = true ↔ p <:+ history ++ before := by
  unfold originalInputEndsWithPrefix
  simp only
  by_cases hp : p = []
  · simp [hp]
  rw [if_neg (by simpa using hp)]
  by_cases hlen : before.length ≥ p.length
  · rw [if_pos hlen, List.isSuffixOf_iff_suffix]
    exact ⟨fun h ↦ List.suffix_append_of_suffix h,
      fun h ↦ List.suffix_of_suffix_length_le h (List.suffix_append _ _) hlen⟩
  · rw [if_neg hlen]
    set missing := p.length - before.length with hmissing
    have htake : (p.take missing).length = missing := by
      rw [List.length_take]
      omega
    have hdrop : (p.drop missing).length = before.length := by
      rw [List.length_drop]
      omega
    conv_rhs => rw [← List.take_append_drop missing p]
    rw [List.suffix_append_inj_of_length_eq hdrop, List.suffix_iff_eq_drop, htake]
    simp only [Bool.and_eq_true, decide_eq_true_eq, beq_iff_eq]
    constructor
    · rintro ⟨⟨-, hh⟩, hb⟩
      exact ⟨hh.symm, hb.symm⟩
    · rintro ⟨hh, hb⟩
      refine ⟨⟨?_, hh.symm⟩, hb.symm⟩
      have := congrArg List.length hh
      rw [htake, List.length_drop] at this
      omega

/-- The history is the last `p.length` bytes of what was consumed. -/
theorem rememberInput_eq_drop {p : Bytes} (hp : p ≠ []) (history input : Bytes) :
    rememberInput (some p) history input =
      (history ++ input).drop ((history ++ input).length - p.length) := by
  have hpos := List.length_pos_iff.2 hp
  unfold rememberInput
  simp only
  rw [if_neg (by omega), List.length_append]
  split
  · rename_i hlen
    conv_rhs => rw [List.drop_append, List.drop_eq_nil_of_le (by omega), List.nil_append]
    congr 1
    omega
  · rename_i hlen
    rw [List.drop_append_of_le_length (by omega)]

/-- **Forgetting older input does not change the check.** -/
theorem isSuffix_rememberInput (p history input more : Bytes) :
    p <:+ rememberInput (some p) history input ++ more ↔ p <:+ history ++ input ++ more := by
  by_cases hp : p = []
  · simp [hp]
  rw [rememberInput_eq_drop hp]
  set consumed := history ++ input with hconsumed
  have hsuffix : consumed.drop (consumed.length - p.length) ++ more <:+ consumed ++ more :=
    List.suffix_append_self_iff.2 (List.drop_suffix _ _)
  refine ⟨fun h ↦ h.trans hsuffix, fun h ↦ ?_⟩
  by_cases hlen : p.length ≤ consumed.length
  · refine List.suffix_of_suffix_length_le h hsuffix ?_
    rw [List.length_append, List.length_drop]
    omega
  · rwa [show consumed.length - p.length = 0 by omega, List.drop_zero]

/-- The replacement depends on the consumed text only through the history. -/
theorem LiteralRewriteMode.replace_rememberInput (mode : LiteralRewriteMode)
    (source history input more after : Bytes) :
    mode.replace source (rememberInput mode.insertedPrefix history input ++ more) after =
      mode.replace source (history ++ input ++ more) after := by
  cases mode with
  | prepend replacement p =>
    simp only [replace, insertedPrefix, isSuffix_rememberInput]
  | exact replacement => rfl
  | append replacement x => rfl

/-- The pass needs no more of the text before than the history. -/
theorem replaceFrom_rememberInput (source : Needle UInt8) (mode : LiteralRewriteMode)
    (history input rest : Bytes) :
    replaceFrom source (mode.replace source.toList)
        (rememberInput mode.insertedPrefix history input) rest =
      replaceFrom source (mode.replace source.toList) (history ++ input) rest :=
  replaceFrom_congr_seen fun x y ↦ mode.replace_rememberInput source.toList history input x y

/-! ### The lookahead -/

/-- A lookahead that the loop regards as decided is decided for every continuation. -/
theorem isPrefix_append_of_decided {x after : Bytes}
    (h : ¬ (after.length < x.length ∧ after <+: x)) (more : Bytes) :
    x <+: after ++ more ↔ x <+: after := by
  refine ⟨fun hx ↦ ?_, fun hx ↦ hx.trans (List.prefix_append _ _)⟩
  by_cases hlen : x.length ≤ after.length
  · exact List.prefix_of_prefix_length_le hx (List.prefix_append _ _) hlen
  · exact absurd ⟨by omega, List.prefix_of_prefix_length_le (List.prefix_append _ _) hx (by omega)⟩
      h

/-- What the loop emits for a match, once its lookahead is decided. -/
def LiteralRewriteMode.emitted (mode : LiteralRewriteMode) (source history before after : Bytes) :
    Bytes :=
  match mode.insertedSuffix with
  | some x => if x.isPrefixOf after then source else mode.replacement
  | none =>
    if originalInputEndsWithPrefix mode.insertedPrefix history before then source
    else mode.replacement

/-- The lookahead of a match is not decided yet. -/
def LiteralRewriteMode.Undecided (mode : LiteralRewriteMode) (endOfStream : Bool)
    (after : Bytes) : Prop :=
  ∃ x, mode.insertedSuffix = some x ∧ endOfStream = false ∧ after.length < x.length ∧ after <+: x

/-- A decided occurrence is emitted as in the whole text, whatever follows. -/
theorem LiteralRewriteMode.emitted_eq {mode : LiteralRewriteMode} {endOfStream : Bool}
    {after more : Bytes} (h : ¬ mode.Undecided endOfStream after)
    (hmore : endOfStream = true → more = []) (source history before : Bytes) :
    mode.emitted source history before after =
      mode.replace source (history ++ before) (after ++ more) := by
  cases mode with
  | prepend replacement p =>
    simp only [emitted, insertedSuffix, insertedPrefix, replace, LiteralRewriteMode.replacement,
      originalInputEndsWithPrefix_iff]
  | exact replacement => rfl
  | append replacement x =>
    simp only [emitted, insertedSuffix, replace, LiteralRewriteMode.replacement,
      List.isPrefixOf_iff_prefix]
    cases endOfStream with
    | true => rw [hmore rfl, List.append_nil]
    | false =>
      simp only [isPrefix_append_of_decided fun hx ↦ h ⟨x, rfl, rfl, hx.1, hx.2⟩]

/-! ### The match loop -/

/-- Without an occurrence only the tail is emitted. -/
theorem processLoop_of_find_none {source : Needle UInt8} {rest : Bytes}
    (h : find source.toList rest = none) (mode : LiteralRewriteMode) (endOfStream : Bool)
    (history : Bytes) :
    processLoop source mode endOfStream history rest =
      emitTail source.length mode endOfStream history rest := by
  rw [processLoop]
  split
  · rfl
  · rename_i k hk
    rw [h] at hk
    exact absurd hk (by simp)

/-- A match whose lookahead is open stays pending. -/
theorem processLoop_of_undecided {source : Needle UInt8} {rest : Bytes} {k : ℕ}
    (h : find source.toList rest = some k) {mode : LiteralRewriteMode} {endOfStream : Bool}
    (hwait : mode.Undecided endOfStream (rest.drop (k + source.length))) (history : Bytes) :
    processLoop source mode endOfStream history rest =
      { output := rest.take k
        inputHistory := rememberInput mode.insertedPrefix history (rest.take k)
        pending := rest.drop k } := by
  obtain ⟨x, hx, hend, hlen, hpre⟩ := hwait
  rw [processLoop]
  split
  · rename_i hk
    rw [h] at hk
    exact absurd hk (by simp)
  · rename_i k' hk
    rw [h] at hk
    obtain rfl := Option.some.inj hk
    have hguard : (!endOfStream && decide ((rest.drop (k + source.length)).length < x.length) &&
        (rest.drop (k + source.length)).isPrefixOf x) = true := by
      rw [hend, decide_eq_true hlen, List.isPrefixOf_iff_prefix.2 hpre]
      rfl
    simp only [hx, hguard, if_true]

/-- A match whose lookahead is decided is emitted, and the loop goes on behind it. -/
theorem processLoop_of_decided {source : Needle UInt8} {rest : Bytes} {k : ℕ}
    (h : find source.toList rest = some k) {mode : LiteralRewriteMode} {endOfStream : Bool}
    (hwait : ¬ mode.Undecided endOfStream (rest.drop (k + source.length))) (history : Bytes) :
    processLoop source mode endOfStream history rest =
      let next := processLoop source mode endOfStream
        (rememberInput mode.insertedPrefix
          (rememberInput mode.insertedPrefix history (rest.take k)) source.toList)
        (rest.drop (k + source.length))
      { next with
        output := rest.take k ++
          mode.emitted source.toList history (rest.take k) (rest.drop (k + source.length)) ++
            next.output } := by
  conv_lhs => rw [processLoop]
  split
  · rename_i hk
    rw [h] at hk
    exact absurd hk (by simp)
  · rename_i k' hk
    rw [h] at hk
    obtain rfl := Option.some.inj hk
    rcases hs : mode.insertedSuffix with - | x
    · simp only [hs, LiteralRewriteMode.emitted]
    · have hguard : ¬ (!endOfStream && decide ((rest.drop (k + source.length)).length <
          x.length) && (rest.drop (k + source.length)).isPrefixOf x) = true := by
        simp only [Bool.and_eq_true, Bool.not_eq_true', decide_eq_true_eq,
          List.isPrefixOf_iff_prefix]
        exact fun h ↦ hwait ⟨x, hs, h.1.1, h.1.2, h.2⟩
      simp only [hs, LiteralRewriteMode.emitted, if_neg hguard]

/-- The whole-text pass of a mode. -/
def LiteralRewriteMode.replaceFrom (mode : LiteralRewriteMode) (source : Needle UInt8)
    (seen rest : Bytes) : Bytes :=
  Text.replaceFrom source (mode.replace source.toList) seen rest

/-- Emitting `e` bytes in which no occurrence starts is a step of the whole-text pass. -/
theorem LiteralRewriteMode.replaceFrom_emit {source : Needle UInt8} (mode : LiteralRewriteMode)
    (history : Bytes) {rest more : Bytes} {e : ℕ} (he : e ≤ rest.length)
    (h : ∀ j < e, ¬ source.toList <+: (rest ++ more).drop j) :
    mode.replaceFrom source history (rest ++ more) =
      rest.take e ++ mode.replaceFrom source
        (rememberInput mode.insertedPrefix history (rest.take e)) (rest.drop e ++ more) := by
  unfold LiteralRewriteMode.replaceFrom
  rw [replaceFrom_skip (e := e) (by rw [List.length_append]; omega) h,
    List.take_append_of_le_length he, List.drop_append_of_le_length he,
    replaceFrom_rememberInput]

/-- The end of the loop, when no occurrence is left: nothing that a continuation of the stream
could complete to an occurrence is emitted. -/
theorem replaceFrom_emitTail {source : Needle UInt8} {rest : Bytes}
    (h : find source.toList rest = none) (mode : LiteralRewriteMode) {endOfStream : Bool}
    (history : Bytes) {more : Bytes} (hmore : endOfStream = true → more = []) :
    mode.replaceFrom source history (rest ++ more) =
      (emitTail source.length mode endOfStream history rest).output ++
        mode.replaceFrom source (emitTail source.length mode endOfStream history rest).inputHistory
          ((emitTail source.length mode endOfStream history rest).pending ++ more) := by
  unfold emitTail
  set e := if endOfStream then rest.length else rest.length - (source.length - 1) with he
  have hle : e ≤ rest.length := by split at he <;> omega
  by_cases hpos : e > 0
  · simp only [if_pos hpos]
    refine mode.replaceFrom_emit history hle fun j hj ↦ ?_
    cases endOfStream with
    | true =>
      rw [hmore rfl, List.append_nil]
      exact find_eq_none_iff.1 h j
    | false =>
      rw [if_neg (by simp)] at he
      refine not_prefix_drop_append (find_eq_none_iff.1 h j) ?_ more
      rw [source.toList_length]
      omega
  · simp only [if_neg hpos]
    rfl

/-- At the end of the stream the tail is emitted completely. -/
theorem emitTail_pending_of_end (sourceLen : ℕ) (mode : LiteralRewriteMode)
    (history rest : Bytes) : (emitTail sourceLen mode true history rest).pending = [] := by
  unfold emitTail
  simp only [if_true]
  by_cases hpos : rest.length > 0
  · simp only [if_pos hpos, List.drop_length]
  · simp only [if_neg hpos]
    exact List.eq_nil_of_length_eq_zero (by omega)

/-- **The match loop is a part of the whole-text pass**: with whatever input the stream goes on,
the output comes first, and the pass goes on from the state that is left. -/
theorem replaceFrom_processLoop (source : Needle UInt8) (mode : LiteralRewriteMode)
    (endOfStream : Bool) (history rest more : Bytes)
    (hmore : endOfStream = true → more = []) :
    mode.replaceFrom source history (rest ++ more) =
      (processLoop source mode endOfStream history rest).output ++
        mode.replaceFrom source (processLoop source mode endOfStream history rest).inputHistory
          ((processLoop source mode endOfStream history rest).pending ++ more) := by
  induction hn : rest.length using Nat.strongRecOn generalizing history rest with
  | ind n ih =>
    subst hn
    rcases hk : find source.toList rest with - | k
    · rw [processLoop_of_find_none hk]
      exact replaceFrom_emitTail hk mode history hmore
    obtain ⟨-, hocc, hmin⟩ := find_eq_some_iff.1 hk
    have hlen := add_length_le_of_find hk
    have hpos := source.length_pos
    rw [source.toList_length] at hlen
    -- nothing starts before the first match, whatever follows
    have hskip := mode.replaceFrom_emit history (show k ≤ rest.length by omega) fun j hj ↦
      not_prefix_drop_append (hmin j hj) (by rw [source.toList_length]; omega) more
    by_cases hwait : mode.Undecided endOfStream (rest.drop (k + source.length))
    · rw [processLoop_of_undecided hk hwait]
      exact hskip
    · rw [processLoop_of_decided hk hwait]
      simp only
      have hrest : rest.drop k = source.toList ++ rest.drop (k + source.length) := by
        obtain ⟨after, hafter⟩ := hocc
        rw [← List.drop_drop, ← hafter, source.drop_length_append]
      have hmatch : mode.replaceFrom source
          (rememberInput mode.insertedPrefix history (rest.take k)) (rest.drop k ++ more) =
          mode.replace source.toList (rememberInput mode.insertedPrefix history (rest.take k))
              (rest.drop (k + source.length) ++ more) ++
            mode.replaceFrom source
              (rememberInput mode.insertedPrefix
                (rememberInput mode.insertedPrefix history (rest.take k)) source.toList)
              (rest.drop (k + source.length) ++ more) := by
        unfold LiteralRewriteMode.replaceFrom
        rw [hrest, List.append_assoc, replaceFrom_match, replaceFrom_rememberInput]
      have hreplace := mode.replace_rememberInput source.toList history (rest.take k) []
        (rest.drop (k + source.length) ++ more)
      rw [List.append_nil, List.append_nil] at hreplace
      have hnext := ih (rest.drop (k + source.length)).length
        (by rw [List.length_drop]; omega)
        (rememberInput mode.insertedPrefix
          (rememberInput mode.insertedPrefix history (rest.take k)) source.toList)
        (rest.drop (k + source.length)) rfl
      rw [hskip, hmatch, hreplace, LiteralRewriteMode.emitted_eq hwait hmore, hnext]
      simp only [List.append_assoc]

/-- At the end of the stream nothing stays pending. -/
theorem processLoop_pending_of_end (source : Needle UInt8) (mode : LiteralRewriteMode)
    (history rest : Bytes) : (processLoop source mode true history rest).pending = [] := by
  induction hn : rest.length using Nat.strongRecOn generalizing history rest with
  | ind n ih =>
    subst hn
    rcases hk : find source.toList rest with - | k
    · rw [processLoop_of_find_none hk, emitTail_pending_of_end]
    · have hlen := add_length_le_of_find hk
      have hpos := source.length_pos
      rw [source.toList_length] at hlen
      rw [processLoop_of_decided hk (by rintro ⟨x, -, h, -⟩; exact absurd h (by simp))]
      exact ih _ (by rw [List.length_drop]; omega) _ _ rfl

/-- **At the end of the stream the loop computes the rest of the whole-text pass.** -/
theorem processLoop_output_of_end (source : Needle UInt8) (mode : LiteralRewriteMode)
    (history rest : Bytes) :
    (processLoop source mode true history rest).output = mode.replaceFrom source history rest := by
  have h := replaceFrom_processLoop source mode true history rest [] fun _ ↦ rfl
  rw [processLoop_pending_of_end, List.append_nil, List.append_nil] at h
  rw [h]
  exact (List.append_nil _).symm.trans (congrArg _ (replaceFrom_nil _).symm)

/-! ### The UTF-8 check -/

/-- The table of lengths agrees with the automaton. -/
theorem utf8SequenceLen_eq {b : UInt8} (h : 0 < (first b).missing) :
    utf8SequenceLen b = (first b).missing + 1 := by
  unfold utf8SequenceLen
  simp only [UInt8.le_iff_toNat_le, UInt8.reduceToNat]
  rcases first_cases b with hb | ⟨hb, hb'⟩ | ⟨hb, hb'⟩ | ⟨hb, hb'⟩ | hb
  · rw [first_one hb] at h
    exact absurd h (by simp [State.missing])
  · rw [first_two hb hb', if_pos ⟨hb, hb'⟩]
    rfl
  · rw [first_three hb hb', if_neg (by omega), if_pos ⟨hb, hb'⟩]
    rfl
  · rw [first_four hb hb', if_neg (by omega), if_neg (by omega), if_pos ⟨hb, hb'⟩]
    rfl
  · rw [hb] at h
    exact absurd h (by simp [State.missing])

/-- A tail kept between two chunks is empty or one unfinished character. -/
def IsUtf8Tail (tail : Bytes) : Prop :=
  tail = [] ∨ Unfinished tail

/-- A tail is complete only if it is empty. -/
theorem IsUtf8Tail.run_eq_start_iff {tail : Bytes} (h : IsUtf8Tail tail) :
    run .start tail = .start ↔ tail = [] := by
  refine ⟨fun hr ↦ ?_, fun hr ↦ hr ▸ rfl⟩
  rcases h with h | ⟨b, t, -, hpos, -⟩
  · exact h
  · rw [hr] at hpos
    exact absurd hpos (by simp [State.missing])

/-- What a check that started in state `q` says about `input`. -/
def ChecksUtf8 (q : State) (input : Bytes) : Except RewriteError Unit × Bytes → Prop
  | (.ok (), tail) => IsUtf8Tail tail ∧ run .start tail = run q input
  | (.error e, _) => e = .invalidUtf8 ∧ run q input = .reject

/-- The check of a slice is the automaton at its first state. -/
theorem checksUtf8_validateUtf8Slice (input : Bytes) :
    ChecksUtf8 .start input (validateUtf8Slice input []) := by
  have hreport := reports_fromUtf8 input
  unfold validateUtf8Slice
  rcases hf : fromUtf8 input with ⟨validUpTo, - | len⟩ | ⟨⟩
  · rw [hf] at hreport
    obtain ⟨hstart, hunfinished⟩ := hreport
    refine ⟨Or.inr hunfinished, ?_⟩
    conv_rhs => rw [← List.take_append_drop validUpTo input, run_append, hstart]
    rfl
  · rw [hf] at hreport
    exact ⟨rfl, hreport⟩
  · rw [hf] at hreport
    exact ⟨Or.inl rfl, hreport.symm⟩

/-- A chunk that leaves the character at its beginning unfinished belongs to it as a whole. -/
theorem unfinished_append_of_fromUtf8 {tail input : Bytes} (htail : Unfinished tail)
    {validUpTo : ℕ}
    (h : fromUtf8 (tail ++ input.take (min input.length (run .start tail).missing)) =
      .error ⟨validUpTo, none⟩) :
    input.length ≤ (run .start tail).missing ∧ Unfinished (tail ++ input) := by
  set boundary := min input.length (run .start tail).missing with hboundary
  have hreport := reports_fromUtf8 (tail ++ input.take boundary)
  rw [h] at hreport
  obtain ⟨hstart, c, u, -, hmore, -⟩ := hreport
  have hrun : run .start (tail ++ input.take boundary) =
      run .start ((tail ++ input.take boundary).drop validUpTo) := by
    conv_lhs => rw [← List.take_append_drop validUpTo (tail ++ input.take boundary),
      run_append, hstart]
  rw [← hrun] at hmore
  have hlen : (input.take boundary).length ≤ (run .start tail).missing := by
    rw [List.length_take]
    omega
  have hcount := missing_run (run_proper (q := .start) trivial tail) hlen (by
    rw [← run_append]
    intro hr
    rw [hr] at hmore
    exact absurd hmore (by simp [State.missing]))
  rw [← run_append, List.length_take] at hcount
  have hunfinished := htail.append hlen hmore
  rw [List.take_of_length_le (by omega)] at hunfinished
  exact ⟨by omega, hunfinished⟩

/-- The number of bytes that the source reads off the first byte of the tail. -/
theorem missingLen_eq {b : UInt8} {t : Bytes} (h : Unfinished (b :: t)) :
    utf8SequenceLen b - (b :: t).length = (run .start (b :: t)).missing := by
  obtain ⟨b', t', heq, hpos, hfirst⟩ := h
  obtain ⟨rfl, rfl⟩ := List.cons.inj heq
  rw [utf8SequenceLen_eq (by omega), hfirst, List.length_cons]
  omega

/-- **The check of one chunk continues the automaton** from the state that the tail stands for. -/
theorem checksUtf8_validateUtf8 {tail : Bytes} (htail : IsUtf8Tail tail) (input : Bytes) :
    ChecksUtf8 (run .start tail) input (validateUtf8 tail input) := by
  rcases htail with rfl | htail
  · exact checksUtf8_validateUtf8Slice input
  obtain ⟨b, t, rfl, -, -⟩ := id htail
  unfold validateUtf8
  simp only
  rw [missingLen_eq htail]
  set tail := b :: t
  set boundary := min input.length (run .start tail).missing with hboundary
  have hsplit : run (run .start tail) input =
      run (run .start (tail ++ input.take boundary)) (input.drop boundary) := by
    rw [run_append, ← run_append _ (input.take boundary), List.take_append_drop]
  have hreport := reports_fromUtf8 (tail ++ input.take boundary)
  rcases hf : fromUtf8 (tail ++ input.take boundary) with ⟨validUpTo, - | len⟩ | ⟨⟩
  · -- the character is still unfinished, so the chunk was used up
    obtain ⟨hlen, hunfinished⟩ := unfinished_append_of_fromUtf8 htail hf
    show IsUtf8Tail (tail ++ input.take boundary) ∧
      run .start (tail ++ input.take boundary) = run (run .start tail) input
    rw [List.take_of_length_le (by omega)]
    exact ⟨Or.inr hunfinished, run_append _ _ _⟩
  · rw [hf] at hreport
    rw [ChecksUtf8.eq_def, hsplit]
    simp only
    rw [show run .start (tail ++ input.take boundary) = .reject from hreport]
    exact ⟨trivial, run_reject _⟩
  · rw [hf] at hreport
    rw [ChecksUtf8.eq_def, hsplit]
    simp only
    rw [show run .start (tail ++ input.take boundary) = .start from hreport]
    exact checksUtf8_validateUtf8Slice _

/-! ### The residual of a rewriter -/

namespace StreamingLiteralRewriter

/-- What a state still outputs when `more` is read to the end: the rest of the whole-text pass,
if the limit is kept and the text is valid. -/
def residual (self : StreamingLiteralRewriter) (more : Bytes) : Option Bytes :=
  if self.totalBytes.val + more.length ≤ self.maxBytes.val ∧
      run (run .start self.utf8Tail) more = .start then
    some (self.mode.replaceFrom self.finder self.inputHistory (self.pending ++ more))
  else none

/-- The states that a run passes through before it fails or finishes. -/
structure Active (r : StreamingLiteralRewriter) : Prop where
  not_finished : r.finished = false
  total_le : r.totalBytes.val ≤ r.maxBytes.val
  isUtf8Tail : IsUtf8Tail r.utf8Tail

/-- A successful push counts the chunk, checks it and processes it. -/
theorem push_ok {self self' : StreamingLiteralRewriter} {input output : Bytes}
    (h : self.push input = (.ok output, self')) :
    ∃ total tail, total.val = self.totalBytes.val + input.length ∧
      total.val ≤ self.maxBytes.val ∧ validateUtf8 self.utf8Tail input = (.ok (), tail) ∧
      (output, self') =
        processAvailable
          { self with
            totalBytes := total
            utf8Tail := tail
            pending := self.pending ++ input } false := by
  unfold push at h
  split at h
  · exact absurd h (by simp)
  rcases ht : self.totalBytes.checkedAdd input.length with - | total
  · rw [ht] at h
    exact absurd h (by simp)
  rw [ht] at h
  simp only at h
  split at h
  · exact absurd h (by simp)
  rename_i hle
  rcases hv : validateUtf8 self.utf8Tail input with ⟨e | ⟨⟩, tail⟩
  · rw [hv] at h
    exact absurd h (by simp)
  rw [hv] at h
  refine ⟨total, tail, (Usize.checkedAdd_eq_some_iff.1 ht).symm, by omega, rfl, ?_⟩
  simp only [Prod.mk.injEq, Except.ok.injEq] at h
  exact Prod.ext h.1.symm h.2.symm

/-- A push fails on an active rewriter only when the limit is exceeded or the text is invalid. -/
theorem push_error {self self' : StreamingLiteralRewriter} {input : Bytes} {e : RewriteError}
    (hactive : self.Active) (h : self.push input = (.error e, self')) :
    self.maxBytes.val < self.totalBytes.val + input.length ∨
      ∃ e' tail, validateUtf8 self.utf8Tail input = (.error e', tail) := by
  unfold push at h
  rw [if_neg (by rw [hactive.not_finished]; simp)] at h
  rcases ht : self.totalBytes.checkedAdd input.length with - | total
  · have := Usize.checkedAdd_eq_none_iff.1 ht
    have := self.maxBytes.val_le
    exact Or.inl (by omega)
  rw [ht] at h
  have htotal := Usize.checkedAdd_eq_some_iff.1 ht
  simp only at h
  split at h
  · exact Or.inl (by omega)
  rcases hv : validateUtf8 self.utf8Tail input with ⟨e' | ⟨⟩, tail⟩
  · exact Or.inr ⟨e', tail, rfl⟩
  · rw [hv] at h
    exact absurd h (by simp)

/-- **The literal rewriter realizes its residual.** -/
theorem realizes : Streaming.Realizes transducer Active residual where
  push_ok := by
    intro self input output self' hactive hpush
    obtain ⟨total, tail, htotal, hle, hv, hself'⟩ := push_ok hpush
    have hcheck := checksUtf8_validateUtf8 hactive.isUtf8Tail input
    rw [hv] at hcheck
    obtain ⟨htail, hrun⟩ := hcheck
    obtain ⟨rfl, rfl⟩ := Prod.mk.inj hself'
    refine ⟨⟨hactive.not_finished, hle, htail⟩, fun more ↦ ?_⟩
    have hloop := replaceFrom_processLoop self.finder self.mode false self.inputHistory
      (self.pending ++ input) more (by simp)
    unfold residual
    rw [run_append, ← hrun, ← List.append_assoc, hloop, List.length_append, ← Nat.add_assoc,
      ← htotal]
    simp only
    split <;> rfl
  push_error := by
    intro self input e self' hactive hpush more
    unfold residual
    rw [if_neg]
    rintro ⟨hle, hrun⟩
    rw [List.length_append] at hle
    rcases push_error hactive hpush with hlimit | ⟨e', tail, hv⟩
    · omega
    · have hcheck := checksUtf8_validateUtf8 hactive.isUtf8Tail input
      rw [hv] at hcheck
      rw [run_append, hcheck.2, run_reject] at hrun
      exact absurd hrun (by simp)
  finish_eq := by
    intro self hactive
    have hle := hactive.total_le
    unfold residual transducer finish
    simp only [hactive.not_finished, run_nil, List.length_nil, Nat.add_zero, hle, true_and,
      hactive.isUtf8Tail.run_eq_start_iff, List.append_nil, Bool.false_eq_true, if_false]
    by_cases htail : self.utf8Tail = []
    · rw [if_pos htail, if_neg (by simp [htail])]
      simp only [processAvailable, processLoop_output_of_end]
      rfl
    · rw [if_neg htail, if_pos (by simpa using htail)]
      rfl

theorem initial_active (source : Needle UInt8) (mode : LiteralRewriteMode) (maxBytes : Usize) :
    (initial source mode maxBytes).Active :=
  ⟨rfl, Nat.zero_le _, Or.inl rfl⟩

/-- The residual of a new rewriter is the whole-text pass, for valid texts within the limit. -/
theorem residual_initial (source : Needle UInt8) (mode : LiteralRewriteMode) (maxBytes : Usize)
    (input : Bytes) :
    (initial source mode maxBytes).residual input =
      if input.length ≤ maxBytes.val ∧ Valid input then
        some (mode.replaceFrom source [] input)
      else none := by
  simp only [residual, initial, Usize.val_zero, Nat.zero_add, run_nil, List.nil_append,
    valid_iff_run]

/-- **A run of the literal rewriter is the whole-text pass** on the complete input, whatever the
chunks are. -/
theorem run_initial_eq_ok_iff {source : Needle UInt8} {mode : LiteralRewriteMode}
    {maxBytes : Usize} {chunks : List Bytes} {out : Bytes} :
    transducer.run (initial source mode maxBytes) chunks = .ok out ↔
      chunks.flatten.length ≤ maxBytes.val ∧ Valid chunks.flatten ∧
        mode.replaceFrom source [] chunks.flatten = out := by
  rw [realizes.run_eq_ok_iff (initial_active ..), residual_initial]
  split
  · rename_i hok
    rw [Option.some.injEq]
    exact ⟨fun h ↦ ⟨hok.1, hok.2, h⟩, fun h ↦ h.2.2⟩
  · rename_i hok
    simp only [reduceCtorEq, false_iff]
    exact fun h ↦ hok ⟨h.1, h.2.1⟩

/-! ### The declarative reading -/

theorem fromMode_eq (source : Needle UInt8) (mode : LiteralRewriteMode) (maxBytes : Usize) :
    fromMode source.toList mode maxBytes = .ok (initial source mode maxBytes) :=
  dif_neg source.ne_nil

theorem new_eq (source : Needle UInt8) (p : Bytes) (maxBytes : Usize) :
    new source.toList (p ++ source.toList) maxBytes =
      .ok (initial source (.prepend (p ++ source.toList) p) maxBytes) := by
  rw [new, stripSuffix_append]
  exact fromMode_eq source _ maxBytes

theorem newExact_eq (source : Needle UInt8) (replacement : Bytes) (maxBytes : Usize) :
    newExact source.toList replacement maxBytes =
      .ok (initial source (.exact replacement) maxBytes) :=
  fromMode_eq source _ maxBytes

/-- **Prepend and exact rewriting by greedy occurrences.** On a valid text within the limit, a
rule of `new` inserts its prefix directly before those greedy occurrences of the source that the
original text does not already precede with it, and copies everything else; a rule of `new_exact`
exchanges all of them for its replacement. -/
theorem run_eq_splice (source : Needle UInt8) (maxBytes : Usize) (chunks : List Bytes)
    (hlen : chunks.flatten.length ≤ maxBytes.val) (hvalid : Valid chunks.flatten) :
    ∃ ms, Greedy source chunks.flatten 0 ms ∧
      (∀ p, ∃ self out, new source.toList (p ++ source.toList) maxBytes = .ok self ∧
        transducer.run self chunks = .ok out ∧ chunks.flatten.Sublist out ∧
        out = splice chunks.flatten 0
          (fun m ↦ if p <:+ chunks.flatten.take m then [] else p) 0 ms) ∧
      ∀ replacement, ∃ self, newExact source.toList replacement maxBytes = .ok self ∧
        transducer.run self chunks =
          .ok (splice chunks.flatten source.length (fun _ ↦ replacement) 0 ms) := by
  set input := chunks.flatten with hinput
  obtain ⟨ms, hms, -⟩ := replaceFrom_eq_splice source (fun _ _ ↦ []) input (Nat.zero_le _)
  -- every mode replaces the same occurrences
  have hpass : ∀ mode : LiteralRewriteMode, mode.replaceFrom source [] input =
      splice input source.length
        (fun m ↦ mode.replace source.toList (input.take m) (input.drop (m + source.length))) 0
        ms := by
    intro mode
    obtain ⟨ms', hms', heq⟩ := replaceFrom_eq_splice source (mode.replace source.toList) input
      (Nat.zero_le _)
    rwa [hms'.unique hms] at heq
  refine ⟨ms, hms, fun p ↦ ?_, fun replacement ↦ ?_⟩
  · refine ⟨_, _, new_eq source p maxBytes, run_initial_eq_ok_iff.2 ⟨hlen, hvalid, hpass _⟩,
      ?_, ?_⟩
    all_goals
      have hinsert : (fun m ↦ (LiteralRewriteMode.prepend (p ++ source.toList) p).replace
          source.toList (input.take m) (input.drop (m + source.length))) =
          fun m ↦ (if p <:+ input.take m then [] else p) ++ source.toList := by
        funext m
        simp only [LiteralRewriteMode.replace]
        split <;> rfl
      rw [hinsert, hms.splice_append_eq]
    exact hms.sublist_splice _
  · exact ⟨_, newExact_eq source replacement maxBytes,
      run_initial_eq_ok_iff.2 ⟨hlen, hvalid, hpass _⟩⟩

/-- The rule of the frontend assets on a text that is cut inside the source literal. -/
theorem run_eq_splice_assets :
    ∃ ms self out,
      Greedy ⟨bytes "/a/", by decide⟩ (bytes "x=/a/ /a/") 0 ms ∧
        new (bytes "/a/") (bytes "/b" ++ bytes "/a/") ⟨64, by decide⟩ = .ok self ∧
        transducer.run self [bytes "x=/", [], bytes "a/ /a/"] = .ok out ∧
        (bytes "x=/a/ /a/").Sublist out := by
  obtain ⟨ms, hms, hnew, -⟩ := run_eq_splice ⟨bytes "/a/", by decide⟩ ⟨64, by decide⟩
    [bytes "x=/", [], bytes "a/ /a/"] (by decide) (by decide)
  obtain ⟨self, out, hself, hrun, hsub, -⟩ := hnew (bytes "/b")
  exact ⟨ms, self, out, hms, hself, hrun, hsub⟩

theorem newWithAppendedSuffix_eq (source : Needle UInt8) (x : Bytes) (maxBytes : Usize) :
    newWithAppendedSuffix source.toList x maxBytes =
      .ok (initial source (.append (source.toList ++ x) x) maxBytes) :=
  fromMode_eq source _ maxBytes

/-- **Append rewriting by greedy occurrences.** On a valid text within the limit, a rule of
`new_with_appended_suffix` inserts its suffix directly after those greedy occurrences of the source
that the original text does not already follow with the whole of it, and copies everything else. -/
theorem run_eq_splice_append (source : Needle UInt8) (x : Bytes) (maxBytes : Usize)
    (chunks : List Bytes) (hlen : chunks.flatten.length ≤ maxBytes.val)
    (hvalid : Valid chunks.flatten) :
    ∃ ms self, Greedy source chunks.flatten 0 ms ∧
      newWithAppendedSuffix source.toList x maxBytes = .ok self ∧
      transducer.run self chunks =
        .ok (splice chunks.flatten 0
          (fun afterMatch ↦ if x <+: chunks.flatten.drop afterMatch then [] else x) 0
          (ms.map (· + source.length))) := by
  set input := chunks.flatten with hinput
  set mode : LiteralRewriteMode := .append (source.toList ++ x) x with hmode
  obtain ⟨ms, hms, heq⟩ := replaceFrom_eq_splice source (mode.replace source.toList) input
    (Nat.zero_le _)
  refine ⟨ms, _, hms, newWithAppendedSuffix_eq source x maxBytes,
    run_initial_eq_ok_iff.2 ⟨hlen, hvalid, heq.trans ?_⟩⟩
  -- both replacements of a match begin with the source
  let inserted := fun afterMatch ↦ if x <+: input.drop afterMatch then [] else x
  have hinsert : (fun m ↦ mode.replace source.toList (input.take m)
      (input.drop (m + source.length))) =
      fun m ↦ source.toList ++ inserted (m + source.length) := by
    funext m
    show (if x <+: input.drop (m + source.length) then source.toList else source.toList ++ x) =
      source.toList ++ (if x <+: input.drop (m + source.length) then [] else x)
    split
    · rw [List.append_nil]
    · rfl
  rw [hinsert, hms.splice_prepend_eq inserted]

/-- The rule of the window host on a text whose lookahead arrives byte by byte. -/
theorem run_eq_splice_append_host :
    ∃ ms self,
      Greedy ⟨bytes "host", by decide⟩ (bytes "host/k host/") 0 ms ∧
        newWithAppendedSuffix (bytes "host") (bytes "/k") ⟨64, by decide⟩ = .ok self ∧
        transducer.run self [bytes "host", bytes "/", [], bytes "k host/"] =
          .ok (splice (bytes "host/k host/") 0
            (fun afterMatch ↦
              if bytes "/k" <+: (bytes "host/k host/").drop afterMatch then [] else bytes "/k") 0
            (ms.map (· + (bytes "host").length))) :=
  run_eq_splice_append ⟨bytes "host", by decide⟩ (bytes "/k") ⟨64, by decide⟩
    [bytes "host", bytes "/", [], bytes "k host/"] (by decide) (by decide)

end StreamingLiteralRewriter

end KseRewriteProxy
