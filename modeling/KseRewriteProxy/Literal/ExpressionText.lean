import KseRewriteProxy.Literal.Expression

/-!
# The expression-pattern rewriter computes its whole-text definition

`Scans` is the left-to-right scan over a complete text: at each position either an occurrence of
the pattern is rewritten or one byte is copied. What an occurrence is, is declarative:
`PatternSyntax.IsExpression` says what the expression may be and `Occurs` that the prefix, the
expression and the suffix stand at the beginning of the text, where the byte behind the expression
does not belong to it (`PatternSyntax.Closed`).

## Candidates are decided

The three outcomes of a candidate are specified against this for every continuation of the buffer
(`decides_matchCandidate`): a match stays the same match, and without a match there is no
occurrence whatever follows. Only the third outcome, that the buffer ends too early, waits for more
input, and it is impossible at the end of the stream.

An expression is closed by the first byte that cannot belong to it, so at most one expression
stands behind a prefix (`Occurs.unique`). This is why the scan is determined by the text, and why a
candidate that is refused once need not be tried again.

## The scan

Hence the loop and the scan agree (`scan_processLoop`), and every run computes the scan
(`scans_of_run`). The byte before the buffer matters, because a prefix is not found inside a longer
name: the scan carries the last byte of what has been *emitted*, as the code does.
-/

namespace KseRewriteProxy

open Text

/-! ### Expressions -/

/-- An ASCII identifier. -/
def IsIdentifier (e : Bytes) : Prop :=
  ∃ b t, e = b :: t ∧ isAsciiIdentifierStart b = true ∧
    ∀ c ∈ t, isAsciiIdentifierContinue c = true

/-- A dot-separated chain of ASCII identifiers. -/
inductive IsMemberExpression : Bytes → Prop
  | single {s : Bytes} : IsIdentifier s → IsMemberExpression s
  | member {s e : Bytes} :
    IsIdentifier s → IsMemberExpression e → IsMemberExpression (s ++ dot :: e)

namespace PatternSyntax

/-- The expressions of a syntax. -/
def IsExpression : PatternSyntax → Bytes → Prop
  | identifier => IsIdentifier
  | memberExpression => IsMemberExpression

/-- The bytes that occur in expressions. -/
def IsByte : PatternSyntax → UInt8 → Prop
  | identifier, b => isAsciiIdentifierContinue b = true
  | memberExpression, b => isAsciiIdentifierContinue b = true ∨ b = dot

/-- The text behind an expression starts with no byte of one. -/
def Closed (k : PatternSyntax) (after : Bytes) : Prop :=
  ∀ b ∈ after.head?, ¬ k.IsByte b

/-- No longer part of the text is an expression. -/
def Maximal (k : PatternSyntax) (e after : Bytes) : Prop :=
  k.IsExpression e ∧ ∀ more rest, after = more ++ rest → more ≠ [] → ¬ k.IsExpression (e ++ more)

end PatternSyntax

theorem isAsciiIdentifierContinue_of_start {b : UInt8} (h : isAsciiIdentifierStart b = true) :
    isAsciiIdentifierContinue b = true := by
  rw [isAsciiIdentifierContinue, h, Bool.true_or]

theorem not_isAsciiIdentifierContinue_dot : ¬ isAsciiIdentifierContinue dot = true := by
  decide

theorem IsIdentifier.continue_of_mem {e : Bytes} (h : IsIdentifier e) {b : UInt8} (hb : b ∈ e) :
    isAsciiIdentifierContinue b = true := by
  obtain ⟨a, t, rfl, hstart, hcont⟩ := h
  rcases List.mem_cons.1 hb with rfl | hb
  · exact isAsciiIdentifierContinue_of_start hstart
  · exact hcont b hb

theorem IsIdentifier.ne_nil {e : Bytes} (h : IsIdentifier e) : e ≠ [] := by
  obtain ⟨a, t, rfl, -⟩ := h
  exact List.cons_ne_nil _ _

theorem IsIdentifier.concat {e : Bytes} (h : IsIdentifier e) {b : UInt8}
    (hb : isAsciiIdentifierContinue b = true) : IsIdentifier (e ++ [b]) := by
  obtain ⟨a, t, rfl, hstart, hcont⟩ := h
  refine ⟨a, t ++ [b], rfl, hstart, fun c hc ↦ ?_⟩
  rcases List.mem_append.1 hc with hc | hc
  · exact hcont c hc
  · rwa [List.mem_singleton.1 hc]

/-- Two identifiers at the beginning of one text, each followed by another kind of byte, are the
same. -/
theorem IsIdentifier.unique {e e' r r' : Bytes} (h : IsIdentifier e) (h' : IsIdentifier e')
    (hr : ∀ b ∈ r.head?, ¬ isAsciiIdentifierContinue b = true)
    (hr' : ∀ b ∈ r'.head?, ¬ isAsciiIdentifierContinue b = true) (heq : e ++ r = e' ++ r') :
    e = e' ∧ r = r' := by
  rcases List.append_eq_append_iff.1 heq with ⟨m, rfl, rfl⟩ | ⟨m, rfl, rfl⟩
  · cases m with
    | nil => simp
    | cons b m => exact absurd (h'.continue_of_mem (by simp)) (hr b rfl)
  · cases m with
    | nil => simp
    | cons b m => exact absurd (h.continue_of_mem (by simp)) (hr' b rfl)

namespace PatternSyntax

variable {k : PatternSyntax}

theorem IsExpression.isByte_of_mem {e : Bytes} (h : k.IsExpression e) {b : UInt8} (hb : b ∈ e) :
    k.IsByte b := by
  cases k with
  | identifier => exact h.continue_of_mem hb
  | memberExpression =>
    induction h with
    | single hs => exact Or.inl (hs.continue_of_mem hb)
    | member hs _ ih =>
      rcases List.mem_append.1 hb with hb | hb
      · exact Or.inl (hs.continue_of_mem hb)
      rcases List.mem_cons.1 hb with rfl | hb
      · exact Or.inr rfl
      · exact ih hb

theorem IsExpression.exists_cons {e : Bytes} (h : k.IsExpression e) :
    ∃ b t, e = b :: t ∧ isAsciiIdentifierStart b = true := by
  cases k with
  | identifier =>
    obtain ⟨b, t, rfl, hstart, -⟩ := h
    exact ⟨b, t, rfl, hstart⟩
  | memberExpression =>
    cases h with
    | single hs =>
      obtain ⟨b, t, rfl, hstart, -⟩ := hs
      exact ⟨b, t, rfl, hstart⟩
    | member hs _ =>
      obtain ⟨b, t, rfl, hstart, -⟩ := hs
      exact ⟨b, _, rfl, hstart⟩

theorem IsExpression.ne_nil {e : Bytes} (h : k.IsExpression e) : e ≠ [] := by
  obtain ⟨b, t, rfl, -⟩ := h.exists_cons
  exact List.cons_ne_nil _ _

/-- An expression grows by identifier bytes. -/
theorem IsExpression.concat {e : Bytes} (h : k.IsExpression e) {b : UInt8}
    (hb : isAsciiIdentifierContinue b = true) : k.IsExpression (e ++ [b]) := by
  cases k with
  | identifier => exact IsIdentifier.concat h hb
  | memberExpression =>
    induction h with
    | single hs => exact .single (hs.concat hb)
    | member hs _ ih =>
      rw [List.append_assoc, List.cons_append]
      exact .member hs ih

/-- An expression does not end with a dot. -/
theorem IsExpression.not_concat_dot {e : Bytes} : ¬ k.IsExpression (e ++ [dot]) := by
  intro h
  cases k with
  | identifier => exact not_isAsciiIdentifierContinue_dot (h.continue_of_mem (by simp))
  | memberExpression =>
    generalize hx : e ++ [dot] = x at h
    induction h generalizing e with
    | single hs =>
      exact not_isAsciiIdentifierContinue_dot (hs.continue_of_mem (by rw [← hx]; simp))
    | @member s e' hs he' ih =>
      obtain ⟨b, t, rfl⟩ := List.exists_cons_of_ne_nil
        (IsExpression.ne_nil (k := memberExpression) he')
      have hlast := congrArg List.getLast? hx
      rw [List.getLast?_concat, List.getLast?_append, List.getLast?_cons_cons] at hlast
      obtain ⟨init, hinit⟩ := List.getLast?_eq_some_iff.1
        (show (b :: t).getLast? = some dot by
          rcases hg : (b :: t).getLast? with - | a
          · simp at hg
          · rw [hg] at hlast
            simpa using hlast.symm)
      exact ih hinit.symm

/-- Two closed expressions at the beginning of one text are the same. -/
theorem IsExpression.unique {e e' r r' : Bytes} (h : k.IsExpression e) (h' : k.IsExpression e')
    (hr : k.Closed r) (hr' : k.Closed r') (heq : e ++ r = e' ++ r') : e = e' ∧ r = r' := by
  rcases List.append_eq_append_iff.1 heq with ⟨m, rfl, rfl⟩ | ⟨m, rfl, rfl⟩
  · cases m with
    | nil => simp
    | cons b m => exact absurd (h'.isByte_of_mem (by simp)) (hr b rfl)
  · cases m with
    | nil => simp
    | cons b m => exact absurd (h.isByte_of_mem (by simp)) (hr' b rfl)

/-- **Closed means maximal and, in a member expression, not followed by a further dot.** -/
theorem isExpression_and_closed_iff {e after : Bytes} :
    k.IsExpression e ∧ k.Closed after ↔
      k.Maximal e after ∧ (k = memberExpression → after.head? ≠ some dot) := by
  constructor
  · rintro ⟨he, hclosed⟩
    refine ⟨⟨he, fun more rest hafter hne hmore ↦ ?_⟩, fun hk hdot ↦ ?_⟩
    · obtain ⟨b, more, rfl⟩ := List.exists_cons_of_ne_nil hne
      exact hclosed b (by rw [hafter]; rfl) (hmore.isByte_of_mem (by simp))
    · subst hk
      exact hclosed dot hdot (Or.inr rfl)
  · rintro ⟨⟨he, hmax⟩, hdot⟩
    refine ⟨he, fun b hb hbyte ↦ ?_⟩
    obtain ⟨rest, rfl⟩ : ∃ rest, after = b :: rest := List.head?_eq_some_iff.1 hb
    have hcont : ¬ isAsciiIdentifierContinue b = true := fun hcont ↦
      hmax [b] rest rfl (List.cons_ne_nil _ _) (he.concat hcont)
    cases k with
    | identifier => exact hcont hbyte
    | memberExpression =>
      rcases hbyte with hbyte | rfl
      · exact hcont hbyte
      · exact hdot rfl rfl

/-- What closes an expression closes it with more text behind, too. -/
theorem Closed.append {r : Bytes} (h : k.Closed r) (hne : r ≠ []) (more : Bytes) :
    k.Closed (r ++ more) := by
  obtain ⟨b, t, rfl⟩ := List.exists_cons_of_ne_nil hne
  exact h

end PatternSyntax

/-! ### The scan of an expression -/

/-- What the result of a scan says about the text from `cursor` on. A failure is final: it does not
depend on what follows, unless the stream has ended. -/
def Scanned (k : PatternSyntax) (endOfStream : Bool) (text : Bytes) (cursor : ℕ) :
    IdentifierSegmentScan → Prop
  | .endAt c =>
    ∃ e rest, text = e ++ rest ∧ k.IsExpression e ∧ k.Closed rest ∧ c = cursor + e.length
  | .needMore => endOfStream = false
  | .noMatch =>
    ∀ more, (endOfStream = true → more = []) → ∀ e after, text ++ more = e ++ after →
      k.IsExpression e → ¬ k.Closed after

/-- One segment is scanned as an identifier, and a scan that fails here fails for every syntax. -/
theorem scanned_scanIdentifierSegment (input : Bytes) (cursor : ℕ) (endOfStream : Bool) :
    Scanned .identifier endOfStream (input.drop cursor) cursor
        (scanIdentifierSegment input cursor endOfStream) ∧
      (scanIdentifierSegment input cursor endOfStream = .noMatch →
        ∀ k, Scanned k endOfStream (input.drop cursor) cursor .noMatch) := by
  unfold scanIdentifierSegment
  split
  · rename_i hdrop
    have hnone : endOfStream = true → ∀ k, Scanned k endOfStream [] cursor .noMatch := by
      intro hend k more hmore e after heq he
      rw [hmore hend] at heq
      exact absurd (List.append_eq_nil_iff.1 heq.symm).1 he.ne_nil
    rw [hdrop]
    cases endOfStream with
    | true => exact ⟨hnone rfl _, fun _ ↦ hnone rfl⟩
    | false => exact ⟨rfl, by simp⟩
  · rename_i first rest hdrop
    rw [hdrop]
    by_cases hstart : isAsciiIdentifierStart first = true
    · rw [if_neg (by simp [hstart])]
      refine ⟨⟨first :: rest.takeWhile isAsciiIdentifierContinue,
        rest.dropWhile isAsciiIdentifierContinue, ?_, ⟨_, _, rfl, hstart, fun c hc ↦ ?_⟩,
        fun b hb ↦ ?_, ?_⟩, by simp⟩
      · rw [List.cons_append, List.takeWhile_append_dropWhile]
      · exact List.all_eq_true.1 List.all_takeWhile c hc
      · have := List.head?_dropWhile_not isAsciiIdentifierContinue rest
        rw [show (rest.dropWhile isAsciiIdentifierContinue).head? = some b from hb] at this
        simpa [PatternSyntax.IsByte] using this
      · rw [List.length_cons]
        omega
    · rw [if_pos (by simpa using hstart)]
      have hnone : ∀ k, Scanned k endOfStream (first :: rest) cursor .noMatch := by
        intro k more _ e after heq he
        obtain ⟨b, t, rfl, hb⟩ := he.exists_cons
        obtain ⟨rfl, -⟩ := List.cons.inj heq
        exact absurd hb hstart
      exact ⟨hnone _, fun _ ↦ hnone⟩

/-- A scan of a member expression behind a segment and a dot. -/
theorem Scanned.member {endOfStream : Bool} {s text : Bytes} {start : ℕ}
    {r : IdentifierSegmentScan} (hs : IsIdentifier s)
    (h : Scanned .memberExpression endOfStream text (start + s.length + 1) r) :
    Scanned .memberExpression endOfStream (s ++ dot :: text) start r := by
  cases r with
  | endAt c =>
    obtain ⟨e, rest, rfl, he, hclosed, rfl⟩ := h
    refine ⟨s ++ dot :: e, rest, by simp, .member hs he, hclosed, ?_⟩
    rw [List.length_append, List.length_cons]
    omega
  | needMore => exact h
  | noMatch =>
    intro more hmore e after heq he hclosed
    rw [List.append_assoc, List.cons_append] at heq
    have hdot : ∀ {t : Bytes}, ∀ b ∈ (dot :: t).head?, ¬ isAsciiIdentifierContinue b = true := by
      intro t b hb
      obtain rfl := Option.some.inj hb
      exact not_isAsciiIdentifierContinue_dot
    cases he with
    | single he =>
      obtain ⟨-, rfl⟩ := hs.unique he hdot (fun b hb hcont ↦ hclosed b hb (Or.inl hcont)) heq
      exact hclosed dot rfl (Or.inr rfl)
    | @member s' e' hs' he' =>
      rw [List.append_assoc, List.cons_append] at heq
      obtain ⟨-, heq⟩ := hs.unique hs' hdot hdot heq
      exact h more hmore e' after (List.cons.inj heq).2 he' hclosed

/-- **The loop over the segments** behind a first one. -/
theorem scanned_scanMembers {input s : Bytes} (start : ℕ) (endOfStream : Bool)
    (hs : IsIdentifier s)
    (hclosed : PatternSyntax.Closed .identifier (input.drop (start + s.length))) :
    Scanned .memberExpression endOfStream (s ++ input.drop (start + s.length)) start
      (scanMembers input (start + s.length) endOfStream) := by
  induction hn : input.length - (start + s.length) using Nat.strongRecOn
    generalizing s start with
  | ind n ih =>
    subst hn
    rw [scanMembers]
    split
    · rename_i hdot
      have hdrop : input.drop (start + s.length) =
          dot :: input.drop (start + s.length + 1) := by
        obtain ⟨hlt, hget⟩ := List.getElem?_eq_some_iff.1 hdot
        rw [List.drop_eq_getElem_cons hlt, hget]
      rw [hdrop]
      obtain ⟨hsegment, hnone⟩ :=
        scanned_scanIdentifierSegment input (start + s.length + 1) endOfStream
      refine Scanned.member hs ?_
      split
      · rename_i c hc
        rw [hc] at hsegment
        obtain ⟨s', rest, heq, hs', hclosed', rfl⟩ := hsegment
        have hrest : input.drop (start + s.length + 1 + s'.length) = rest := by
          rw [← List.drop_drop, heq, List.drop_left]
        have hlt := (lt_of_scanIdentifierSegment hc).2
        have := ih (input.length - (start + s.length + 1 + s'.length)) (by omega)
          (start + s.length + 1) hs' (by rw [hrest]; exact hclosed') rfl
        rwa [hrest, ← heq] at this
      · rename_i hc
        rw [hc] at hsegment
        exact hsegment
      · rename_i hc
        exact hnone hc _
    · rename_i hdot
      refine ⟨s, _, rfl, .single hs, fun b hb hbyte ↦ ?_, rfl⟩
      rcases hbyte with hbyte | rfl
      · exact hclosed b hb hbyte
      · rw [Option.mem_def, List.head?_drop] at hb
        exact hdot hb

/-- **The scan of an expression finds the closed expression** at the cursor, if there is one. -/
theorem scanned_scanExpression (k : PatternSyntax) (input : Bytes) (cursor : ℕ)
    (endOfStream : Bool) :
    Scanned k endOfStream (input.drop cursor) cursor
      (scanExpression k input cursor endOfStream) := by
  obtain ⟨hsegment, hnone⟩ := scanned_scanIdentifierSegment input cursor endOfStream
  unfold scanExpression
  split
  · rename_i c hc
    cases k with
    | identifier => rwa [hc] at hsegment
    | memberExpression =>
      rw [hc] at hsegment
      obtain ⟨s, rest, heq, hs, hclosed, rfl⟩ := hsegment
      have hrest : input.drop (cursor + s.length) = rest := by
        rw [← List.drop_drop, heq, List.drop_left]
      have := scanned_scanMembers cursor endOfStream hs (by rw [hrest]; exact hclosed)
      rwa [hrest, ← heq] at this
  · rename_i hc
    rw [hc] at hsegment
    exact hsegment
  · rename_i hc
    exact hnone hc k

/-! ### Occurrences and candidates -/

/-- The pattern stands at the beginning of `text`: the prefix, an expression and the suffix, where
the expression is closed. -/
structure Occurs (pre suffix : Bytes) (k : PatternSyntax) (text e after : Bytes) : Prop where
  eq_append : text = pre ++ (e ++ (suffix ++ after))
  isExpression : k.IsExpression e
  closed : k.Closed (suffix ++ after)

/-- At most one expression occurs at the beginning of a text. -/
theorem Occurs.unique {pre suffix : Bytes} {k : PatternSyntax} {text e after e' after' : Bytes}
    (h : Occurs pre suffix k text e after) (h' : Occurs pre suffix k text e' after') :
    e = e' ∧ after = after' := by
  have heq := List.append_cancel_left (h.eq_append.symm.trans h'.eq_append)
  obtain ⟨rfl, hrest⟩ := h.isExpression.unique h'.isExpression h.closed h'.closed heq
  exact ⟨rfl, List.append_cancel_left hrest⟩

/-- An occurrence stays one when more text follows. -/
theorem Occurs.append {pre suffix : Bytes} (hsuffix : suffix ≠ []) {k : PatternSyntax}
    {text e after : Bytes} (h : Occurs pre suffix k text e after) (more : Bytes) :
    Occurs pre suffix k (text ++ more) e (after ++ more) where
  eq_append := by rw [h.eq_append]; simp
  isExpression := h.isExpression
  closed := by
    rw [← List.append_assoc]
    exact h.closed.append (by simp [hsuffix]) more

/-- What the outcome of a candidate says about its text and about every continuation. -/
def Decides (pre suffix : Bytes) (k : PatternSyntax) (endOfStream : Bool) (text : Bytes) :
    ExpressionPatternMatch → Prop
  | .matched n =>
    ∃ e after, Occurs pre suffix k text e after ∧ n = pre.length + e.length + suffix.length
  | .needMore => endOfStream = false
  | .noMatch =>
    ∀ more, (endOfStream = true → more = []) → ∀ e after,
      ¬ Occurs pre suffix k (text ++ more) e after

/-- Behind a closed expression, comparing the suffix decides whether there is an occurrence. -/
theorem decides_compareSuffix {pre suffix : Bytes} (hsuffix : suffix ≠ []) {k : PatternSyntax}
    {e rest : Bytes} (he : k.IsExpression e) (hclosed : k.Closed rest) (endOfStream : Bool) :
    Decides pre suffix k endOfStream (pre ++ (e ++ rest))
      (compareSuffix suffix (pre ++ (e ++ rest)) (pre.length + e.length) endOfStream) := by
  have hdrop : (pre ++ (e ++ rest)).drop (pre.length + e.length) = rest := by
    rw [← List.drop_drop, List.drop_left, List.drop_left]
  have hlen : pre.length + e.length = (pre ++ (e ++ rest)).length ↔ rest = [] := by
    rw [List.length_append, List.length_append, ← List.length_eq_zero_iff]
    omega
  -- an occurrence in a continuation has the same expression, so the suffix stands behind it
  have hbehind : ∀ more, k.Closed (rest ++ more) → ∀ e' after,
      Occurs pre suffix k (pre ++ (e ++ rest) ++ more) e' after →
        rest ++ more = suffix ++ after := by
    intro more hclosed' e' after hocc
    have heq := hocc.eq_append
    rw [List.append_assoc, List.append_assoc] at heq
    exact (he.unique hocc.isExpression hclosed' hocc.closed (List.append_cancel_left heq)).2
  unfold compareSuffix
  rw [hdrop]
  simp only [hlen]
  by_cases hrest : rest = []
  · rw [if_pos hrest]
    cases endOfStream with
    | false => rfl
    | true =>
      intro more hmore e' after hocc
      obtain rfl := hmore rfl
      have := hbehind [] (by rwa [List.append_nil]) e' after hocc
      rw [hrest, List.append_nil] at this
      exact hsuffix (List.append_eq_nil_iff.1 this.symm).1
  rw [if_neg hrest]
  have hstable : ∀ more, k.Closed (rest ++ more) := hclosed.append hrest
  split
  · rename_i hne
    intro more _ e' after hocc
    have := congrArg (List.take (min rest.length suffix.length))
      (hbehind more (hstable more) e' after hocc)
    rw [List.take_append_of_le_length (by omega), List.take_append_of_le_length (by omega)]
      at this
    exact hne this
  · rename_i htake
    rw [not_not] at htake
    split
    · rename_i hshort
      cases endOfStream with
      | false => rfl
      | true =>
        intro more hmore e' after hocc
        obtain rfl := hmore rfl
        have := congrArg List.length (hbehind [] (hstable []) e' after hocc)
        rw [List.append_nil, List.length_append] at this
        omega
    · rename_i hlong
      rw [show min rest.length suffix.length = suffix.length by omega, List.take_length] at htake
      have hsplit : suffix ++ rest.drop suffix.length = rest := by
        conv_rhs => rw [← List.take_append_drop suffix.length rest, htake]
      exact ⟨e, rest.drop suffix.length, ⟨by rw [hsplit], he, by rwa [hsplit]⟩, rfl⟩

/-- **A candidate is decided for every continuation of the buffer.** -/
theorem decides_matchCandidate {pre suffix : Bytes} (hsuffix : suffix ≠ []) (k : PatternSyntax)
    (text : Bytes) (endOfStream : Bool) :
    Decides pre suffix k endOfStream (pre ++ text)
      (matchCandidate pre.length suffix k (pre ++ text) endOfStream) := by
  have hscan := scanned_scanExpression k (pre ++ text) pre.length endOfStream
  rw [List.drop_left] at hscan
  unfold matchCandidate
  rcases hr : scanExpression k (pre ++ text) pre.length endOfStream with c | - | -
  · rw [hr] at hscan
    obtain ⟨e, rest, rfl, he, hclosed, rfl⟩ := hscan
    exact decides_compareSuffix hsuffix he hclosed endOfStream
  · rw [hr] at hscan
    exact hscan
  · rw [hr] at hscan
    intro more hmore e after hocc
    have heq := hocc.eq_append
    rw [List.append_assoc] at heq
    exact hscan more hmore e _ (List.append_cancel_left heq) hocc.isExpression hocc.closed

/-! ### The scan of a text -/

/-- The scan over a complete text: an occurrence that does not follow an identifier byte is
rewritten, and where there is none one byte is copied. `previous` is the byte before the text, as
it was emitted. -/
inductive Scans (occurs : Bytes → Bytes → Bytes → Prop) (render : Bytes → Bytes) :
    Option UInt8 → Bytes → Bytes → Prop
  | nil {previous : Option UInt8} : Scans occurs render previous [] []
  | rewrite {previous : Option UInt8} {text e after out : Bytes} :
    (∀ b ∈ previous, ¬ isAsciiIdentifierContinue b = true) → occurs text e after →
      Scans occurs render (render e).getLast? after out →
        Scans occurs render previous text (render e ++ out)
  | copy {previous : Option UInt8} {b : UInt8} {text out : Bytes} :
    ((∀ b ∈ previous, ¬ isAsciiIdentifierContinue b = true) →
      ∀ e after, ¬ occurs (b :: text) e after) →
      Scans occurs render (some b) text out → Scans occurs render previous (b :: text) (b :: out)

/-- An occurrence at the beginning of the text, not behind an identifier byte, is rewritten. -/
theorem Scans.exists_render {occurs : Bytes → Bytes → Bytes → Prop} {render : Bytes → Bytes}
    {text e after out : Bytes} (h : Scans occurs render none text out)
    (hocc : occurs text e after) (hnil : ¬ occurs [] e after) :
    ∃ e' out', out = render e' ++ out' := by
  cases h with
  | nil => exact absurd hocc hnil
  | @rewrite _ _ e' _ out' _ _ _ => exact ⟨e', out', rfl⟩
  | copy hnone _ => exact absurd hocc (hnone (by simp) _ _)

/-- **A text has one scan**, if an occurrence at a position is unique and not empty. -/
theorem Scans.unique {occurs : Bytes → Bytes → Bytes → Prop} {render : Bytes → Bytes}
    (hnil : ∀ e after, ¬ occurs [] e after)
    (hunique : ∀ {text e after e' after'}, occurs text e after → occurs text e' after' →
      e = e' ∧ after = after')
    {previous : Option UInt8} {text out out' : Bytes} (h : Scans occurs render previous text out)
    (h' : Scans occurs render previous text out') : out = out' := by
  induction h generalizing out' with
  | nil =>
    cases h' with
    | nil => rfl
    | rewrite _ hocc _ => exact absurd hocc (hnil _ _)
  | rewrite hprev hocc _ ih =>
    cases h' with
    | nil => exact absurd hocc (hnil _ _)
    | rewrite _ hocc' h' =>
      obtain ⟨rfl, rfl⟩ := hunique hocc hocc'
      rw [ih h']
    | copy hnone _ => exact absurd hocc (hnone hprev _ _)
  | copy hnone _ ih =>
    cases h' with
    | rewrite hprev hocc _ => exact absurd hocc (hnone hprev _ _)
    | copy _ h' => rw [ih h']

/-! ### The loop and the scan -/

namespace StreamingExpressionPatternRewriter

variable (self : StreamingExpressionPatternRewriter)

/-- The occurrences of the pattern of a rewriter. -/
def Occurs (text e after : Bytes) : Prop :=
  KseRewriteProxy.Occurs self.prefixFinder.toList self.suffix self.syntaxKind text e after

/-- What a rewriter makes of an expression. -/
def render (e : Bytes) : Bytes :=
  self.replacement.render self.suffix e

/-- The scan over a complete text, with the outcomes of the code. -/
def scan (previous : Option UInt8) : Bytes → Bytes
  | [] => []
  | b :: text =>
    match h : self.outcome true previous (b :: text) with
    | .matched n =>
      if self.prefixFinder.toList <+: b :: text then
        have : (b :: text).length - n < (b :: text).length := by
          have := pos_of_outcome h
          rw [List.length_cons]
          omega
        self.render (self.expressionOf n (b :: text)) ++
          scan (self.render (self.expressionOf n (b :: text))).getLast? ((b :: text).drop n)
      else b :: scan (some b) text
    | _ => b :: scan (some b) text
termination_by text => text.length
decreasing_by
  · rw [List.length_drop]
    exact this
  all_goals exact Nat.lt_succ_self _

variable {self}

/-- Where the pattern occurs, the scan renders the expression and goes on behind the occurrence. -/
theorem scan_of_matched {previous : Option UInt8} {text : Bytes} {n : ℕ}
    (hpre : self.prefixFinder.toList <+: text)
    (h : self.outcome true previous text = .matched n) :
    self.scan previous text =
      self.render (self.expressionOf n text) ++
        self.scan (self.render (self.expressionOf n text)).getLast? (text.drop n) := by
  cases text with
  | nil => exact absurd (List.prefix_nil.1 hpre) self.prefixFinder.ne_nil
  | cons b text =>
    conv_lhs => rw [scan]
    split
    · rename_i n' hn'
      rw [h] at hn'
      obtain rfl := ExpressionPatternMatch.matched.inj hn'
      rw [if_pos hpre]
    · rename_i hn'
      exact absurd h (hn' n)

/-- Where it does not occur, the scan copies one byte. -/
theorem scan_cons {previous : Option UInt8} {b : UInt8} {text : Bytes}
    (h : ∀ n, self.outcome true previous (b :: text) = .matched n →
      ¬ self.prefixFinder.toList <+: b :: text) :
    self.scan previous (b :: text) = b :: self.scan (some b) text := by
  conv_lhs => rw [scan]
  split
  · rename_i n hn
    rw [if_neg (h n hn)]
  · rfl

/-- Positions where the prefix does not start are copied. -/
theorem scan_skip {previous : Option UInt8} {text : Bytes} {e : ℕ} (hpos : 0 < e)
    (he : e ≤ text.length) (h : ∀ j < e, ¬ self.prefixFinder.toList <+: text.drop j) :
    self.scan previous text =
      text.take e ++ self.scan (text.take e).getLast? (text.drop e) := by
  induction e generalizing previous text with
  | zero => exact absurd hpos (Nat.lt_irrefl _)
  | succ e ih =>
    cases text with
    | nil => simp at he
    | cons b text =>
      rw [scan_cons fun _ _ ↦ h 0 hpos, List.take_succ_cons, List.drop_succ_cons]
      rcases Nat.eq_zero_or_pos e with rfl | hepos
      · rfl
      · rw [ih hepos (by simpa using he) fun j hj ↦ h (j + 1) (by omega)]
        have hne : text.take e ≠ [] := by
          rw [← List.length_pos_iff, List.length_take]
          simp only [List.length_cons] at he
          omega
        rw [List.getLast?_cons, List.cons_append]
        rcases hl : (text.take e).getLast? with - | a
        · exact absurd (List.getLast?_eq_none_iff.1 hl) hne
        · rfl

theorem precededByIdentifier_eq_false_iff {previous : Option UInt8} :
    precededByIdentifier previous = false ↔
      ∀ b ∈ previous, ¬ isAsciiIdentifierContinue b = true := by
  cases previous <;> simp [precededByIdentifier]

/-- The outcome of a candidate, with the byte before it, for every continuation of the buffer. -/
theorem decides_outcome (endOfStream : Bool) (previous : Option UInt8) {text : Bytes}
    (hpre : self.prefixFinder.toList <+: text) :
    (precededByIdentifier previous = true ∧
        self.outcome endOfStream previous text = .noMatch) ∨
      (precededByIdentifier previous = false ∧
        Decides self.prefixFinder.toList self.suffix self.syntaxKind endOfStream text
          (self.outcome endOfStream previous text)) := by
  unfold outcome
  cases hb : precededByIdentifier previous with
  | true => exact Or.inl ⟨rfl, rfl⟩
  | false =>
    obtain ⟨rest, rfl⟩ := hpre
    exact Or.inr ⟨rfl, decides_matchCandidate self.suffix_ne_nil _ _ _⟩

/-- The expression that the code cuts out of a match is the one of the occurrence. -/
theorem expressionOf_eq {text e after : Bytes} (h : self.Occurs text e after) :
    self.expressionOf (self.prefixFinder.length + e.length + self.suffix.length) text = e ∧
      text.drop (self.prefixFinder.length + e.length + self.suffix.length) = after := by
  obtain ⟨rfl, -, -⟩ := h
  constructor
  · rw [expressionOf, Nat.add_sub_cancel, ← self.prefixFinder.toList_length, List.take_append,
      List.take_of_length_le (by omega), Nat.add_sub_cancel_left, List.drop_left, List.take_left]
  · rw [← List.drop_drop, ← List.drop_drop, self.prefixFinder.drop_length_append, List.drop_left,
      List.drop_left]

/-- **The scan of the code is the scan of the text.** -/
theorem scans_scan (self : StreamingExpressionPatternRewriter) (previous : Option UInt8)
    (text : Bytes) : Scans self.Occurs self.render previous text (self.scan previous text) := by
  induction hn : text.length using Nat.strongRecOn generalizing previous text with
  | ind n ih =>
    subst hn
    cases text with
    | nil =>
      rw [scan]
      exact .nil
    | cons b text =>
      have hcopy := ih text.length (Nat.lt_succ_self _) (some b) text rfl
      by_cases hpre : self.prefixFinder.toList <+: b :: text
      · rcases decides_outcome true previous hpre with
          ⟨hprev, hout⟩ | ⟨hprev, hout⟩
        · rw [scan_cons fun n hn ↦ by rw [hout] at hn; exact absurd hn (by simp)]
          refine .copy (fun hnot ↦ ?_) hcopy
          rw [precededByIdentifier_eq_false_iff.2 hnot] at hprev
          exact absurd hprev (by simp)
        · rcases hr : self.outcome true previous (b :: text) with n | - | -
          · rw [hr] at hout
            obtain ⟨e, after, hocc, rfl⟩ := hout
            obtain ⟨hexpr, hdrop⟩ := expressionOf_eq hocc
            rw [self.prefixFinder.toList_length] at hr
            rw [scan_of_matched hpre hr, hexpr, hdrop]
            refine .rewrite (precededByIdentifier_eq_false_iff.1 hprev) hocc (ih _ ?_ _ _ rfl)
            have := self.prefixFinder.length_pos
            rw [← hdrop, List.length_drop, List.length_cons]
            omega
          · rw [hr] at hout
            exact absurd hout (by simp [Decides])
          · rw [hr] at hout
            rw [scan_cons fun n hn ↦ by rw [hr] at hn; exact absurd hn (by simp)]
            refine .copy (fun _ e after hocc ↦ ?_) hcopy
            refine hout [] (fun _ ↦ rfl) e after ?_
            rwa [List.append_nil]
      · rw [scan_cons fun _ _ ↦ hpre]
        refine .copy (fun _ e after hocc ↦ hpre ?_) hcopy
        rw [hocc.eq_append]
        exact List.prefix_append _ _

/-- A match found in the buffer is the match of the complete text. -/
theorem outcome_matched_append {endOfStream : Bool} {previous : Option UInt8}
    {text : Bytes} (more : Bytes) (hpre : self.prefixFinder.toList <+: text) {n : ℕ}
    (h : self.outcome endOfStream previous text = .matched n) :
    ∃ e after, self.Occurs text e after ∧
      n = self.prefixFinder.length + e.length + self.suffix.length ∧
        self.outcome true previous (text ++ more) = .matched n := by
  rcases decides_outcome endOfStream previous hpre with
    ⟨-, hout⟩ | ⟨hprev, hout⟩
  · rw [h] at hout
    exact absurd hout (by simp)
  rw [h] at hout
  obtain ⟨e, after, hocc, hn⟩ := hout
  refine ⟨e, after, hocc, hn, ?_⟩
  have hocc' := Occurs.append self.suffix_ne_nil hocc more
  rcases decides_outcome true previous
    (hpre.trans (List.prefix_append text more)) with ⟨hprev', -⟩ | ⟨-, hout'⟩
  · rw [hprev] at hprev'
    exact absurd hprev' (by simp)
  rcases hr : self.outcome true previous (text ++ more) with n' | - | -
  · rw [hr] at hout'
    obtain ⟨e', after', hocc'', hn'⟩ := hout'
    obtain ⟨rfl, -⟩ := hocc''.unique hocc'
    rw [hn, hn']
  · rw [hr] at hout'
    exact absurd hout' (by simp [Decides])
  · rw [hr] at hout'
    refine absurd ?_ (hout' [] (fun _ ↦ rfl) e (after ++ more))
    rwa [List.append_nil]

/-- Without a match in the buffer there is none in the complete text. -/
theorem outcome_noMatch_append {endOfStream : Bool} {previous : Option UInt8}
    {text more : Bytes} (hmore : endOfStream = true → more = [])
    (hpre : self.prefixFinder.toList <+: text)
    (h : self.outcome endOfStream previous text = .noMatch) (n : ℕ) :
    self.outcome true previous (text ++ more) ≠ .matched n := by
  intro hn
  obtain ⟨e, after, hocc, -⟩ := outcome_matched_append []
    (hpre.trans (List.prefix_append text more)) hn
  rcases decides_outcome endOfStream previous hpre with
    ⟨hprev, -⟩ | ⟨-, hout⟩
  · unfold outcome at hn
    rw [if_pos hprev] at hn
    exact absurd hn (by simp)
  · rw [h] at hout
    exact hout more hmore e after hocc

/-- Every match is rewritten to something: the template is not empty. -/
def EmitsSomething (r : StreamingExpressionPatternRewriter) : Prop :=
  r.replacement ≠ .template []

theorem renderIdentifierTemplate_ne_nil {text e : Bytes} (htext : text ≠ []) (he : e ≠ []) :
    renderIdentifierTemplate text e ≠ [] := by
  unfold renderIdentifierTemplate
  rcases hk : find identifierMarker.toList text with - | k
  · rwa [replaceFrom_of_find_none hk]
  · rw [replaceFrom_of_find_some hk]
    simp [he]

/-- A rewriter that emits something renders no expression as nothing. -/
theorem render_ne_nil (hemits : self.EmitsSomething) {e : Bytes} (he : e ≠ []) :
    self.render e ≠ [] := by
  unfold render ExpressionReplacement.render
  split
  · simp [he]
  · rename_i text htext
    refine renderIdentifierTemplate_ne_nil (fun hnil ↦ hemits ?_) he
    rw [htext, hnil]

/-- The end of the loop, when the prefix does not occur any more. -/
theorem scan_emitTail {rest : Bytes} (h : find self.prefixFinder.toList rest = none)
    {endOfStream : Bool} {more : Bytes} (hmore : endOfStream = true → more = [])
    (output : Bytes) (previous : Option UInt8) :
    output ++ self.scan previous (rest ++ more) =
      (self.emitTail endOfStream output previous rest).output ++
        self.scan (self.emitTail endOfStream output previous rest).previousByte
          ((self.emitTail endOfStream output previous rest).pending ++ more) := by
  unfold emitTail
  set e := if endOfStream then rest.length else rest.length - (self.prefixFinder.length - 1)
    with he
  have hle : e ≤ rest.length := by split at he <;> omega
  by_cases hpos : e > 0
  · simp only [if_pos hpos]
    rw [scan_skip hpos (by rw [List.length_append]; omega) fun j hj ↦ ?_,
      List.take_append_of_le_length hle, List.drop_append_of_le_length hle, List.append_assoc]
    cases endOfStream with
    | true =>
      rw [hmore rfl, List.append_nil]
      exact find_eq_none_iff.1 h j
    | false =>
      rw [if_neg (by simp)] at he
      refine not_prefix_drop_append (find_eq_none_iff.1 h j) ?_ more
      rw [self.prefixFinder.toList_length]
      omega
  · simp only [if_neg hpos]

theorem emitTail_pending_of_end (self : StreamingExpressionPatternRewriter) (output : Bytes)
    (previous : Option UInt8) (rest : Bytes) :
    (self.emitTail true output previous rest).pending = [] := by
  unfold emitTail
  simp only [if_true]
  by_cases hpos : rest.length > 0
  · simp only [if_pos hpos, List.drop_length]
  · simp only [if_neg hpos]
    exact List.eq_nil_of_length_eq_zero (by omega)

/-- **One step of the loop**, by the position of the prefix and the outcome of its candidate. -/
theorem processLoop_cases (self : StreamingExpressionPatternRewriter) (endOfStream : Bool)
    (output : Bytes) (previous : Option UInt8) (rest : Bytes) :
    (find self.prefixFinder.toList rest = none ∧
      self.processLoop endOfStream output previous rest =
        self.emitTail endOfStream output previous rest) ∨
    (∃ k, find self.prefixFinder.toList rest = some k ∧ 0 < k ∧
      self.processLoop endOfStream output previous rest =
        self.processLoop endOfStream (output ++ rest.take k) (rest.take k).getLast?
          (rest.drop k)) ∨
    (self.prefixFinder.toList <+: rest ∧ rest ≠ [] ∧
      self.processLoop endOfStream output previous rest =
        match self.outcome endOfStream previous rest with
        | .matched n =>
          self.processLoop endOfStream (output ++ self.render (self.expressionOf n rest))
            (output ++ self.render (self.expressionOf n rest)).getLast? (rest.drop n)
        | .needMore => { output := output, previousByte := previous, pending := rest }
        | .noMatch =>
          self.processLoop endOfStream (output ++ rest.take 1) rest.head? (rest.drop 1)) := by
  rcases hk : find self.prefixFinder.toList rest with - | k
  · refine Or.inl ⟨rfl, ?_⟩
    rw [processLoop]
    split
    · rfl
    · rename_i hk'
      rw [hk] at hk'
      exact absurd hk' (by simp)
  refine Or.inr ?_
  rcases Nat.eq_zero_or_pos k with rfl | hpos
  · obtain ⟨-, hocc, -⟩ := find_eq_some_iff.1 hk
    rw [List.drop_zero] at hocc
    refine Or.inr ⟨hocc, ?_, ?_⟩
    · rintro rfl
      exact self.prefixFinder.ne_nil (List.prefix_nil.1 hocc)
    conv_lhs => rw [processLoop]
    split
    · rename_i hk'
      rw [hk] at hk'
      exact absurd hk' (by simp)
    · rename_i k' hk'
      rw [hk] at hk'
      obtain rfl := Option.some.inj hk'
      rw [dif_neg (by simp)]
      split <;> (rename_i hout; simp only [hout, render])
  · refine Or.inl ⟨k, rfl, hpos, ?_⟩
    conv_lhs => rw [processLoop]
    split
    · rename_i hk'
      rw [hk] at hk'
      exact absurd hk' (by simp)
    · rename_i k' hk'
      rw [hk] at hk'
      obtain rfl := Option.some.inj hk'
      rw [dif_pos hpos]

/-- **The loop is a part of the scan**: with whatever input the stream goes on, the output comes
first, and the scan goes on from the state that is left; at the end of the stream nothing is
left. -/
theorem scan_processLoop (hemits : self.EmitsSomething) (endOfStream : Bool) (more : Bytes)
    (hmore : endOfStream = true → more = []) (output : Bytes) (previous : Option UInt8)
    (rest : Bytes) :
    output ++ self.scan previous (rest ++ more) =
        (self.processLoop endOfStream output previous rest).output ++
          self.scan (self.processLoop endOfStream output previous rest).previousByte
            ((self.processLoop endOfStream output previous rest).pending ++ more) ∧
      (endOfStream = true →
        (self.processLoop endOfStream output previous rest).pending = []) := by
  induction hn : rest.length using Nat.strongRecOn generalizing output previous rest with
  | ind n ih =>
    subst hn
    rcases self.processLoop_cases endOfStream output previous rest with
      ⟨hk, heq⟩ | ⟨k, hk, hpos, heq⟩ | ⟨hpre, hne, heq⟩
    · rw [heq]
      refine ⟨scan_emitTail hk hmore output previous, ?_⟩
      rintro rfl
      exact self.emitTail_pending_of_end output previous rest
    · obtain ⟨-, -, hmin⟩ := find_eq_some_iff.1 hk
      have hlen := add_length_le_of_find hk
      obtain ⟨hih, hend⟩ := ih (rest.drop k).length (by rw [List.length_drop]; omega)
        (output ++ rest.take k) (rest.take k).getLast? (rest.drop k) rfl
      rw [heq]
      refine ⟨?_, hend⟩
      rw [← hih, scan_skip (e := k) hpos (by rw [List.length_append]; omega)
          fun j hj ↦ not_prefix_drop_append (hmin j hj) (by omega) more,
        List.take_append_of_le_length (by omega), List.drop_append_of_le_length (by omega),
        List.append_assoc]
    · have hpre' := hpre.trans (List.prefix_append rest more)
      rw [heq]
      rcases hr : self.outcome endOfStream previous rest with n | - | -
      · obtain ⟨e, after, hocc, rfl, hmatched⟩ := outcome_matched_append more hpre hr
        obtain ⟨hexpr, hdrop⟩ := expressionOf_eq hocc
        obtain ⟨hexpr', hdrop'⟩ :=
          expressionOf_eq (KseRewriteProxy.Occurs.append self.suffix_ne_nil hocc more)
        have hlast : (output ++ self.render e).getLast? = (self.render e).getLast? :=
          List.getLast?_append_of_ne_nil _ (render_ne_nil hemits hocc.isExpression.ne_nil)
        have hshort : after.length < rest.length := by
          have := self.prefixFinder.length_pos
          have := List.length_pos_iff.2 hne
          rw [← hdrop, List.length_drop]
          omega
        obtain ⟨hih, hend⟩ := ih after.length hshort (output ++ self.render e)
          (self.render e).getLast? after rfl
        simp only [hexpr, hdrop, hlast]
        refine ⟨?_, hend⟩
        rw [← hih, scan_of_matched hpre' hmatched, hexpr', hdrop', List.append_assoc]
      · rcases decides_outcome endOfStream previous hpre with
          ⟨-, hout⟩ | ⟨-, hout⟩
        · rw [hr] at hout
          exact absurd hout (by simp)
        · rw [hr] at hout
          refine ⟨rfl, fun hend ↦ ?_⟩
          rw [show endOfStream = false from hout] at hend
          exact absurd hend (by simp)
      · obtain ⟨b, t, rfl⟩ := List.exists_cons_of_ne_nil hne
        obtain ⟨hih, hend⟩ := ih t.length (Nat.lt_succ_self _) (output ++ [b]) (some b) t rfl
        refine ⟨?_, hend⟩
        have hcopy : self.scan previous (b :: (t ++ more)) = b :: self.scan (some b) (t ++ more) :=
          scan_cons fun n hn ↦ absurd hn (outcome_noMatch_append hmore hpre hr n)
        rw [List.cons_append, hcopy]
        simp only [List.take_succ_cons, List.take_zero, List.head?_cons, List.drop_succ_cons,
          List.drop_zero]
        rw [← hih, List.append_assoc]
        rfl

/-! ### Runs -/

/-- What a state still outputs when `more` is read to the end. -/
def residual (r : StreamingExpressionPatternRewriter) (more : Bytes) : Option Bytes :=
  some (r.scan r.previousByte (r.pending ++ more))

/-- The states that a run passes through before it finishes. -/
structure Active (r : StreamingExpressionPatternRewriter) : Prop where
  not_finished : r.finished = false
  emitsSomething : r.EmitsSomething

/-- The scan depends on the pattern only. -/
theorem scan_congr (r r' : StreamingExpressionPatternRewriter)
    (hfinder : r.prefixFinder = r'.prefixFinder) (hsuffix : r.suffix = r'.suffix)
    (hreplacement : r.replacement = r'.replacement) (hkind : r.syntaxKind = r'.syntaxKind)
    (previous : Option UInt8) (text : Bytes) : r.scan previous text = r'.scan previous text := by
  have hocc : r.Occurs = r'.Occurs := by
    unfold Occurs
    rw [hfinder, hsuffix, hkind]
  have hrender : r.render = r'.render := by
    unfold render
    rw [hreplacement, hsuffix]
  have hscan := r.scans_scan previous text
  rw [hocc, hrender] at hscan
  refine hscan.unique (fun e after h ↦ ?_) (fun h h' ↦ h.unique h') (r'.scans_scan previous text)
  exact r'.prefixFinder.ne_nil (List.append_eq_nil_iff.1 h.eq_append.symm).1

/-- **The expression-pattern rewriter realizes its residual.** -/
theorem realizes : Streaming.Realizes transducer Active residual where
  push_ok := by
    intro r input output r' hactive hpush
    unfold transducer push at hpush
    simp only [hactive.not_finished, Bool.false_eq_true, if_false, Prod.mk.injEq,
      Except.ok.injEq] at hpush
    obtain ⟨rfl, rfl⟩ := hpush
    refine ⟨⟨rfl, hactive.emitsSomething⟩, fun more ↦ ?_⟩
    set r₁ : StreamingExpressionPatternRewriter :=
      { r with finished := false, pending := r.pending ++ input }
    have hemits : r₁.EmitsSomething := hactive.emitsSomething
    obtain ⟨hloop, -⟩ := scan_processLoop hemits false more (by simp) [] r.previousByte
      (r.pending ++ input)
    rw [List.nil_append] at hloop
    simp only [residual, Option.map_some]
    rw [← List.append_assoc, scan_congr r r₁ rfl rfl rfl rfl, hloop]
    rw [scan_congr (r₁.processAvailable false).2 r₁ rfl rfl rfl rfl]
    rfl
  push_error := by
    intro r input e r' hactive hpush
    unfold transducer push at hpush
    simp only [hactive.not_finished, Bool.false_eq_true, if_false, Prod.mk.injEq,
      reduceCtorEq, false_and] at hpush
  finish_eq := by
    intro r hactive
    set r₁ : StreamingExpressionPatternRewriter := { r with finished := true } with hr₁
    have hemits : r₁.EmitsSomething := hactive.emitsSomething
    obtain ⟨hloop, hend⟩ := scan_processLoop hemits true [] (fun _ ↦ rfl) [] r.previousByte
      r.pending
    rw [hend rfl, List.nil_append, List.append_nil, List.append_nil, scan, List.append_nil]
      at hloop
    unfold residual transducer finish
    simp only [hactive.not_finished, Bool.false_eq_true, if_false, List.append_nil]
    rw [scan_congr r r₁ rfl rfl rfl rfl, hloop]
    rfl

theorem newMemberExpression_eq (pre suffix replacementPrefix : Bytes) :
    newMemberExpression pre suffix replacementPrefix =
      build pre suffix (.prefixed replacementPrefix) .memberExpression := by
  unfold newMemberExpression new build
  split <;> rfl

theorem build_eq (pre suffix : Needle UInt8) (replacement : ExpressionReplacement)
    (k : PatternSyntax) :
    build pre.toList suffix.toList replacement k = .ok (initial pre suffix replacement k) :=
  dif_pos ⟨pre.ne_nil, suffix.ne_nil⟩

theorem initial_active {replacement : ExpressionReplacement} (h : replacement ≠ .template [])
    (pre suffix : Needle UInt8) (k : PatternSyntax) :
    (initial pre suffix replacement k).Active :=
  ⟨rfl, h⟩

/-- **A run of the expression-pattern rewriter is the scan** of the complete input, whatever the
chunks are. -/
theorem run_initial_eq {replacement : ExpressionReplacement} (h : replacement ≠ .template [])
    (pre suffix : Needle UInt8) (k : PatternSyntax) (chunks : List Bytes) :
    transducer.run (initial pre suffix replacement k) chunks =
      .ok ((initial pre suffix replacement k).scan none chunks.flatten) :=
  (realizes.run_eq_ok_iff (initial_active h pre suffix k)).2 rfl

end StreamingExpressionPatternRewriter

/-! ### The declarative reading -/

/-- The pattern stands at the beginning of `text`: the prefix, a maximal expression and the
suffix. -/
def OccursMaximal (pre suffix : Bytes) (k : PatternSyntax) (text e after : Bytes) : Prop :=
  text = pre ++ (e ++ (suffix ++ after)) ∧ k.Maximal e (suffix ++ after)

/-- The same, and a member expression is not followed by a further dot. -/
def OccursUndotted (pre suffix : Bytes) (k : PatternSyntax) (text e after : Bytes) : Prop :=
  OccursMaximal pre suffix k text e after ∧
    (k = .memberExpression → (suffix ++ after).head? ≠ some dot)

/-- Occurrences are those of the grammar that the code names, when identifiers have no dots. -/
theorem occurs_iff_occursUndotted {pre suffix : Bytes} {k : PatternSyntax}
    {text e after : Bytes} :
    Occurs pre suffix k text e after ↔ OccursUndotted pre suffix k text e after := by
  constructor
  · rintro ⟨heq, he, hclosed⟩
    obtain ⟨hmax, hdot⟩ := PatternSyntax.isExpression_and_closed_iff.1 ⟨he, hclosed⟩
    exact ⟨⟨heq, hmax⟩, hdot⟩
  · rintro ⟨⟨heq, hmax⟩, hdot⟩
    obtain ⟨he, hclosed⟩ := PatternSyntax.isExpression_and_closed_iff.2 ⟨hmax, hdot⟩
    exact ⟨heq, he, hclosed⟩

namespace StreamingExpressionPatternRewriter

/-- **Every run of the expression-pattern rewriter is the scan of the complete text**, whatever
the chunks are, and the text has no other scan. -/
theorem scans_of_run {pre suffix : Bytes} (hpre : pre ≠ []) (hsuffix : suffix ≠ [])
    (k : PatternSyntax) {replacement : ExpressionReplacement}
    (hreplacement : replacement ≠ .template []) (chunks : List Bytes) :
    ∃ r out, build pre suffix replacement k = .ok r ∧ transducer.run r chunks = .ok out ∧
      ∀ out', Scans (OccursUndotted pre suffix k) (replacement.render suffix) none
        chunks.flatten out' ↔ out' = out := by
  refine ⟨_, _, build_eq ⟨pre, hpre⟩ ⟨suffix, hsuffix⟩ replacement k,
    run_initial_eq hreplacement _ _ k chunks, fun out' ↦ ?_⟩
  have hscan := (initial ⟨pre, hpre⟩ ⟨suffix, hsuffix⟩ replacement k).scans_scan none
    chunks.flatten
  have hoccurs : OccursUndotted pre suffix k = KseRewriteProxy.Occurs pre suffix k := by
    funext text e after
    exact propext occurs_iff_occursUndotted.symm
  rw [hoccurs]
  refine ⟨fun h ↦ ?_, fun h ↦ h ▸ hscan⟩
  refine h.unique (fun e after hocc ↦ ?_) (fun h h' ↦ h.unique h') hscan
  exact hpre (List.append_eq_nil_iff.1 hocc.eq_append.symm).1

/-- The shape of the console's history factory, cut inside the expression. -/
theorem scans_of_run_history :
    ∃ r out, build (bytes "Object(") (bytes ")(") (.prefixed (bytes "Q(")) .memberExpression =
        .ok r ∧
      transducer.run r [bytes "x=Object(h.c", bytes "rea)({})"] = .ok out ∧
      ∀ out', Scans (OccursUndotted (bytes "Object(") (bytes ")(") .memberExpression)
        ((ExpressionReplacement.prefixed (bytes "Q(")).render (bytes ")(")) none
        [bytes "x=Object(h.c", bytes "rea)({})"].flatten out' ↔ out' = out :=
  scans_of_run (by decide) (by decide) .memberExpression (by decide) _

/-- A suffix that begins with a dot is not found behind a maximal member expression: the code
takes the dot for one of the expression. -/
theorem not_scans_maximal_of_run :
    ¬ ∀ (pre suffix : Bytes) (k : PatternSyntax) (replacement : ExpressionReplacement),
      pre ≠ [] → suffix ≠ [] → replacement ≠ .template [] → ∀ (chunks : List Bytes) r out,
        build pre suffix replacement k = .ok r → transducer.run r chunks = .ok out →
          Scans (OccursMaximal pre suffix k) (replacement.render suffix) none chunks.flatten
            out := by
  intro h
  have hbuild := build_eq ⟨bytes "a(", by decide⟩ ⟨bytes ".)", by decide⟩
    (.prefixed (bytes "R")) .memberExpression
  have hrun : transducer.run (initial ⟨bytes "a(", by decide⟩ ⟨bytes ".)", by decide⟩
      (.prefixed (bytes "R")) .memberExpression) [bytes "a(x.)"] = .ok (bytes "a(x.)") := by
    decide +kernel
  have hscan := h _ _ _ _ (by decide) (by decide) (by decide) _ _ _ hbuild hrun
  have hx : PatternSyntax.memberExpression.IsExpression (bytes "x") :=
    .single ⟨_, [], rfl, by decide, by simp⟩
  have hocc : OccursMaximal (bytes "a(") (bytes ".)") .memberExpression (bytes "a(x.)")
      (bytes "x") [] := by
    refine ⟨by decide, hx, fun more rest hafter hne hmore ↦ ?_⟩
    rcases more with - | ⟨b, - | ⟨c, more⟩⟩
    · exact hne rfl
    · obtain rfl : dot = b := (List.cons.inj hafter).1
      exact hmore.not_concat_dot
    · obtain rfl : 0x29 = c := (List.cons.inj (List.cons.inj hafter).2).1
      have := hmore.isByte_of_mem (b := 0x29) (by simp)
      simp only [PatternSyntax.IsByte] at this
      exact absurd this (by decide)
  obtain ⟨e, out, heq⟩ := hscan.exists_render (by rwa [List.flatten_singleton])
    fun hnil ↦ absurd (List.append_eq_nil_iff.1 hnil.1.symm).1 (by decide)
  exact absurd (List.cons.inj heq).1 (by decide)

end StreamingExpressionPatternRewriter

end KseRewriteProxy
