import KseRewriteProxy.Literal.WholeText
import Mathlib.Data.List.Induction

/-!
# Incremental UTF-8 validation

The check of `StreamingLiteralRewriter` sees one chunk at a time and keeps the incomplete character
at the end of the input in `utf8_tail`. `validation_exact` says that it accepts exactly UTF-8: a
push fails at the first chunk after which the input no longer begins a valid text, `finish` fails
exactly on an incomplete text, and the tail is the incomplete character and nothing else.

## Why it is exact

`Validated` relates a state to the whole input so far: the byte automaton of `Text.Utf8` is in the
same state behind the tail as behind the input. The automaton is deterministic, so the next chunk is
judged alike in both places, and whether the input still begins a valid text is whether the
automaton has rejected.

## Why it does not panic

The source reaches the tail through operations that can panic: a subtraction of lengths, a boundary
array of four bytes and an `unreachable!` arm. `checkedValidateUtf8` is the same function with
these as failures; `checkedValidateUtf8_eq` says that none of them happens with a tail that a
rewriter can hold, because such a tail is the proper beginning of one character.
-/

namespace KseRewriteProxy

open Text Text.Utf8

/-! ### The operations that can panic -/

/-- `utf8_sequence_len`, with nothing for the `unreachable!` arm. -/
def checkedUtf8SequenceLen (firstByte : UInt8) : Option ℕ :=
  if 0xC2 ≤ firstByte ∧ firstByte ≤ 0xDF then some 2
  else if 0xE0 ≤ firstByte ∧ firstByte ≤ 0xEF then some 3
  else if 0xF0 ≤ firstByte ∧ firstByte ≤ 0xF4 then some 4
  else none

/-- The subtraction of two sizes. -/
def checkedSub (a b : ℕ) : Option ℕ :=
  if b ≤ a then some (a - b) else none

/-- `buffer[start..start + source.len()].copy_from_slice(source)`. -/
def copyFromSlice (buffer : Bytes) (start : ℕ) (source : Bytes) : Option Bytes :=
  if start + source.length ≤ buffer.length then
    some (buffer.take start ++ source ++ buffer.drop (start + source.length))
  else none

/-- The slice `input[start..]`. -/
def sliceFrom (input : Bytes) (start : ℕ) : Option Bytes :=
  if start ≤ input.length then some (input.drop start) else none

/-- `validate_utf8_slice`, with nothing where the source panics. -/
def checkedValidateUtf8Slice (input utf8Tail : Bytes) :
    Option (Except RewriteError Unit × Bytes) :=
  match fromUtf8 input with
  | .ok () => some (.ok (), utf8Tail)
  | .error error =>
    match error.errorLen with
    | none => (sliceFrom input error.validUpTo).map fun rest ↦ (.ok (), utf8Tail ++ rest)
    | some _ => some (.error .invalidUtf8, utf8Tail)

/-- `validate_utf8`, with nothing where the source panics. -/
def checkedValidateUtf8 (utf8Tail input : Bytes) : Option (Except RewriteError Unit × Bytes) :=
  match utf8Tail with
  | [] => checkedValidateUtf8Slice input []
  | firstByte :: _ => do
    let expectedLen ← checkedUtf8SequenceLen firstByte
    let missingLen ← checkedSub expectedLen utf8Tail.length
    let boundaryInputLen := min input.length missingLen
    let boundary ← copyFromSlice (List.replicate 4 0) 0 utf8Tail
    let boundary ← copyFromSlice boundary utf8Tail.length (input.take boundaryInputLen)
    match fromUtf8 (boundary.take (utf8Tail.length + boundaryInputLen)) with
    | .ok () => checkedValidateUtf8Slice (input.drop boundaryInputLen) []
    | .error error =>
      match error.errorLen with
      | none => some (.ok (), utf8Tail ++ input.take boundaryInputLen)
      | some _ => some (.error .invalidUtf8, [])

/-- The length of a sequence is defined for every first byte that begins one. -/
theorem checkedUtf8SequenceLen_eq {b : UInt8} (h : 0 < (first b).missing) :
    checkedUtf8SequenceLen b = some (utf8SequenceLen b) := by
  have hlen := utf8SequenceLen_eq h
  unfold utf8SequenceLen at hlen
  unfold checkedUtf8SequenceLen utf8SequenceLen
  split
  · rfl
  split
  · rfl
  split
  · rfl
  · -- a first byte that announces more bytes is in one of the ranges
    rename_i h₁ h₂ h₃
    rw [if_neg h₁, if_neg h₂, if_neg h₃] at hlen
    exact absurd hlen (by omega)

/-- Two copies into a fresh array of four bytes, one behind the other. -/
theorem copyFromSlice_twice {a b : Bytes} (h : a.length + b.length ≤ 4) :
    ∃ boundary, (copyFromSlice (List.replicate 4 0) 0 a).bind (copyFromSlice · a.length b) =
      some boundary ∧ boundary.take (a.length + b.length) = a ++ b := by
  have hfirst : copyFromSlice (List.replicate 4 0) 0 a =
      some (a ++ (List.replicate 4 0).drop a.length) := by
    rw [copyFromSlice, if_pos (by rw [List.length_replicate]; omega)]
    simp only [List.take_zero, List.nil_append, Nat.zero_add]
  rw [hfirst, Option.bind_some, copyFromSlice, if_pos]
  · refine ⟨_, rfl, ?_⟩
    rw [List.take_left, ← List.length_append]
    exact List.take_left
  · rw [List.length_append, List.length_drop, List.length_replicate]
    omega

/-- The checked copy of the UTF-8 check never stops, and agrees with it. -/
theorem checkedValidateUtf8Slice_eq (input : Bytes) :
    checkedValidateUtf8Slice input [] = some (validateUtf8Slice input []) := by
  have hreport := reports_fromUtf8 input
  unfold checkedValidateUtf8Slice validateUtf8Slice
  rcases hf : fromUtf8 input with ⟨validUpTo, - | len⟩ | ⟨⟩
  · rw [hf] at hreport
    obtain ⟨-, b, t, hdrop, -⟩ := hreport
    have hlen := congrArg List.length hdrop
    rw [List.length_drop, List.length_cons] at hlen
    simp only [sliceFrom]
    rw [if_pos (by omega)]
    rfl
  · rfl
  · rfl

/-- **With a tail that a rewriter can hold, the check does not panic.** -/
theorem checkedValidateUtf8_eq {tail : Bytes} (h : IsUtf8Tail tail) (input : Bytes) :
    checkedValidateUtf8 tail input = some (validateUtf8 tail input) := by
  rcases h with rfl | h
  · exact checkedValidateUtf8Slice_eq input
  obtain ⟨b, t, rfl, hpos, hfirst⟩ := id h
  have hmissing := missingLen_eq h
  have htail := h.length_le
  have hexpected := utf8SequenceLen_eq (b := b) (by omega)
  have hfour : (first b).missing ≤ 3 := by
    rcases first_cases b with hb | ⟨hb, hb'⟩ | ⟨hb, hb'⟩ | ⟨hb, hb'⟩ | hb
    · rw [first_one hb]
      exact Nat.zero_le 3
    · rw [first_two hb hb']
      exact Nat.le_of_ble_eq_true rfl
    · rw [first_three hb hb']
      exact Nat.le_of_ble_eq_true rfl
    · rw [first_four hb hb']
      exact Nat.le_refl 3
    · rw [hb]
      exact Nat.zero_le 3
  set boundaryInputLen := min input.length (utf8SequenceLen b - (b :: t).length) with hboundary
  have hlen : (input.take boundaryInputLen).length = boundaryInputLen := by
    rw [List.length_take]
    omega
  obtain ⟨boundary, hcopy, htake⟩ :=
    copyFromSlice_twice (a := b :: t) (b := input.take boundaryInputLen)
      (by rw [hlen, List.length_cons] at *; omega)
  obtain ⟨array, harray, hboundary'⟩ := Option.bind_eq_some_iff.1 hcopy
  rw [hlen] at htake
  have hsub : checkedSub (utf8SequenceLen b) (b :: t).length =
      some (utf8SequenceLen b - (b :: t).length) := by
    rw [checkedSub, if_pos (by rw [List.length_cons]; omega)]
  unfold checkedValidateUtf8 validateUtf8
  simp only [checkedUtf8SequenceLen_eq (b := b) (by omega), hsub, harray, hboundary', htake,
    ← hboundary, Option.bind_eq_bind, Option.bind_some]
  rcases fromUtf8 (b :: t ++ input.take boundaryInputLen) with ⟨validUpTo, - | len⟩ | ⟨⟩
  · rfl
  · rfl
  · exact checkedValidateUtf8Slice_eq _

/-! ### The tail -/

/-- The new tail is the end of the old tail and the chunk, behind text that the automaton has read
to the end of a character. -/
theorem exists_done_of_validateUtf8 {tail input tail' : Bytes} (htail : IsUtf8Tail tail)
    (h : validateUtf8 tail input = (.ok (), tail')) :
    ∃ done, tail ++ input = done ++ tail' ∧ run .start done = .start := by
  have hslice : ∀ {input tail'}, validateUtf8Slice input [] = (.ok (), tail') →
      ∃ done, input = done ++ tail' ∧ run .start done = .start := by
    intro input tail' h
    have hreport := reports_fromUtf8 input
    unfold validateUtf8Slice at h
    rcases hf : fromUtf8 input with ⟨validUpTo, - | len⟩ | ⟨⟩
    · rw [hf] at h hreport
      obtain rfl := (Prod.mk.inj h).2
      exact ⟨input.take validUpTo, (List.take_append_drop ..).symm, hreport.1⟩
    · rw [hf] at h
      exact absurd (Prod.mk.inj h).1 (by simp)
    · rw [hf] at h hreport
      obtain rfl := (Prod.mk.inj h).2
      exact ⟨input, (List.append_nil _).symm, hreport⟩
  rcases htail with rfl | htail
  · exact hslice h
  obtain ⟨b, t, rfl, -, -⟩ := id htail
  unfold validateUtf8 at h
  simp only at h
  rw [missingLen_eq htail] at h
  set tail := b :: t
  set boundary := min input.length (run .start tail).missing with hboundary
  have hreport := reports_fromUtf8 (tail ++ input.take boundary)
  rcases hf : fromUtf8 (tail ++ input.take boundary) with ⟨validUpTo, - | len⟩ | ⟨⟩
  · obtain ⟨hlen, -⟩ := unfinished_append_of_fromUtf8 htail hf
    rw [hf] at h
    obtain rfl := (Prod.mk.inj h).2
    rw [List.take_of_length_le (by omega)]
    exact ⟨[], rfl, rfl⟩
  · rw [hf] at h
    exact absurd (Prod.mk.inj h).1 (by simp)
  · rw [hf] at h hreport
    obtain ⟨done, hdone, hrun⟩ := hslice h
    refine ⟨tail ++ input.take boundary ++ done, ?_, ?_⟩
    · rw [List.append_assoc, List.append_assoc, ← hdone, List.take_append_drop]
    · rw [run_append, show run .start (tail ++ input.take boundary) = .start from hreport, hrun]

/-- A check that fails leaves no tail. -/
theorem isUtf8Tail_validateUtf8 {tail : Bytes} (htail : IsUtf8Tail tail) (input : Bytes) :
    IsUtf8Tail (validateUtf8 tail input).2 := by
  have hcheck := checksUtf8_validateUtf8 htail input
  rcases hv : validateUtf8 tail input with ⟨e | ⟨⟩, tail'⟩
  · have hslice : ∀ {input e tail'}, validateUtf8Slice input [] = (.error e, tail') →
        tail' = [] := by
      intro input e tail' h
      unfold validateUtf8Slice at h
      split at h
      · exact absurd (Prod.mk.inj h).1 (by simp)
      split at h
      · exact absurd (Prod.mk.inj h).1 (by simp)
      · exact (Prod.mk.inj h).2.symm
    refine Or.inl ?_
    unfold validateUtf8 at hv
    split at hv
    · exact hslice hv
    · simp only at hv
      split at hv
      · exact hslice hv
      split at hv
      · exact absurd (Prod.mk.inj hv).1 (by simp)
      · exact (Prod.mk.inj hv).2.symm
  · rw [hv] at hcheck
    exact hcheck.1

/-- `tail` is the incomplete character at the end of `input`, if there is one. -/
def IsIncompleteEnd (input tail : Bytes) : Prop :=
  ∃ done, input = done ++ tail ∧ Valid done ∧ (tail = [] ∨ Incomplete tail)

namespace StreamingLiteralRewriter

/-! ### Pushing -/

/-- A push within the limit fails exactly on a chunk that the automaton rejects. -/
theorem push_of_le {self : StreamingLiteralRewriter} (hactive : self.Active) {c : Bytes}
    (hlen : self.totalBytes.val + c.length ≤ self.maxBytes.val) :
    (run (run .start self.utf8Tail) c = .reject ∧ (self.push c).1 = .error .invalidUtf8) ∨
      (run (run .start self.utf8Tail) c ≠ .reject ∧
        ∃ out self', self.push c = (.ok out, self')) := by
  have hcheck := checksUtf8_validateUtf8 hactive.isUtf8Tail c
  have hadd : self.totalBytes.val + c.length ≤ usizeMax := Nat.le_trans hlen self.maxBytes.val_le
  have htotal : self.totalBytes.checkedAdd c.length = some ⟨_, hadd⟩ :=
    Usize.checkedAdd_eq_some_iff.2 rfl
  unfold push
  rw [if_neg (by rw [hactive.not_finished]; simp), htotal]
  simp only
  rw [if_neg (Nat.not_lt.2 hlen)]
  rcases hv : validateUtf8 self.utf8Tail c with ⟨e | ⟨⟩, tail⟩
  · rw [hv] at hcheck
    obtain ⟨rfl, hreject⟩ := hcheck
    exact Or.inl ⟨hreject, rfl⟩
  · rw [hv] at hcheck
    obtain ⟨htail, hrun⟩ := hcheck
    refine Or.inr ⟨fun hreject ↦ ?_, _, _, rfl⟩
    -- the state of an unfinished character is not the rejecting one
    rw [hreject] at hrun
    rcases htail with rfl | ⟨-, -, -, hpos, -⟩
    · exact absurd hrun (by simp)
    · rw [hrun] at hpos
      exact absurd hpos (by simp [State.missing])

/-- What is true of a rewriter after the bytes `input` have been pushed. -/
structure Validated (maxBytes : Usize) (input : Bytes) (r : StreamingLiteralRewriter) : Prop where
  active : r.Active
  maxBytes_eq : r.maxBytes = maxBytes
  total_eq : r.totalBytes.val = input.length
  exists_done : ∃ done, input = done ++ r.utf8Tail ∧ run .start done = .start

/-- The unfinished tail brings the automaton where the whole input does. -/
theorem Validated.run_eq {maxBytes : Usize} {input : Bytes} {self : StreamingLiteralRewriter}
    (h : Validated maxBytes input self) : run .start self.utf8Tail = run .start input := by
  obtain ⟨done, hinput, hdone⟩ := h.exists_done
  rw [hinput, run_append, hdone]

/-- The tail is the unfinished end of the input. -/
theorem Validated.isIncompleteEnd {maxBytes : Usize} {input : Bytes}
    {self : StreamingLiteralRewriter} (h : Validated maxBytes input self) :
    IsIncompleteEnd input self.utf8Tail := by
  obtain ⟨done, hinput, hdone⟩ := h.exists_done
  exact ⟨done, hinput, valid_iff_run.2 hdone,
    h.active.isUtf8Tail.imp_right Unfinished.incomplete⟩

/-- **The invariant of the pushes.** -/
theorem validated_of_pushed {source : Needle UInt8} {mode : LiteralRewriteMode}
    {maxBytes : Usize} {chunks : List Bytes} {self : StreamingLiteralRewriter}
    (h : transducer.Pushed (initial source mode maxBytes) chunks self) :
    Validated maxBytes chunks.flatten self := by
  refine h.preserves ⟨initial_active .., rfl, rfl, [], rfl, rfl⟩ ?_
  intro input self c out self' hv hpush
  obtain ⟨total, tail, htotal, hle, hcheck, hself'⟩ := push_ok hpush
  have htail := checksUtf8_validateUtf8 hv.active.isUtf8Tail c
  rw [hcheck] at htail
  obtain ⟨done, hinput, hdone⟩ := hv.exists_done
  obtain ⟨done', hdone', hrun'⟩ := exists_done_of_validateUtf8 hv.active.isUtf8Tail hcheck
  obtain rfl := (Prod.mk.inj hself').2
  refine ⟨⟨hv.active.not_finished, hle, htail.1⟩, hv.maxBytes_eq, ?_, done ++ done', ?_, ?_⟩
  · show total.val = _
    rw [htotal, hv.total_eq, List.length_append]
  · show input ++ c = done ++ done' ++ tail
    rw [hinput, List.append_assoc, List.append_assoc, hdone']
  · rw [run_append, hdone, hrun']

/-- As long as the input begins some valid text, no push fails. -/
theorem exists_pushed (source : Needle UInt8) (mode : LiteralRewriteMode) (maxBytes : Usize)
    (chunks : List Bytes) (hlen : chunks.flatten.length ≤ maxBytes.val)
    (hrun : run .start chunks.flatten ≠ .reject) :
    ∃ self, transducer.Pushed (initial source mode maxBytes) chunks self := by
  induction chunks using List.reverseRecOn with
  | nil => exact ⟨_, .nil⟩
  | append_singleton cs c ih =>
    rw [List.flatten_append, List.flatten_singleton] at hrun hlen
    rw [List.length_append] at hlen
    obtain ⟨self, hself⟩ := ih (by omega) (run_ne_reject_of_append hrun)
    have hv := validated_of_pushed hself
    rcases push_of_le hv.active (c := c)
        (by rw [hv.total_eq, hv.maxBytes_eq]; exact hlen) with ⟨hreject, -⟩ | ⟨-, out, self', hpush⟩
    · rw [hv.run_eq, ← run_append] at hreject
      exact absurd hreject hrun
    · exact ⟨self', hself.push hpush⟩

/-- The tail is well formed after any calls, also after failures. -/
theorem isUtf8Tail_of_called {source : Needle UInt8} {mode : LiteralRewriteMode}
    {maxBytes : Usize} {self : StreamingLiteralRewriter}
    (h : transducer.Called (initial source mode maxBytes) self) : IsUtf8Tail self.utf8Tail := by
  refine h.preserves (P := fun self ↦ IsUtf8Tail self.utf8Tail) (Or.inl rfl) ?_ ?_
  · intro self htail c
    show IsUtf8Tail (self.push c).2.utf8Tail
    have hcheck := isUtf8Tail_validateUtf8 htail c
    unfold push
    split
    · exact htail
    split
    · exact htail
    simp only
    split
    · exact htail
    split
    · rename_i hv
      rw [hv] at hcheck
      exact hcheck
    · rename_i hv
      rw [hv] at hcheck
      exact hcheck
  · intro self htail
    show IsUtf8Tail self.finish.2.utf8Tail
    unfold finish
    split
    · exact htail
    simp only
    split
    · exact htail
    · exact htail

/-- `finish` rejects an input exactly when it is not valid. -/
theorem finish_eq_invalidUtf8_iff {maxBytes : Usize} {input : Bytes}
    {self : StreamingLiteralRewriter} (h : Validated maxBytes input self) :
    self.finish.1 = .error .invalidUtf8 ↔ ¬ Valid input := by
  rw [valid_iff_run, ← h.run_eq, h.active.isUtf8Tail.run_eq_start_iff]
  unfold finish
  rw [if_neg (by rw [h.active.not_finished]; simp)]
  simp only
  split
  · rename_i htail
    exact iff_of_true rfl (by simpa using htail)
  · rename_i htail
    exact iff_of_false (by simp) (by simpa using htail)

/-- **Incremental validation is exact.** For every input within the limit and every way to cut it:
a push fails with `InvalidUtf8` at the first chunk after which the input does not begin a valid
text; if no push fails, `finish` fails with it exactly when the whole input is not valid; after
every successful push the tail is the incomplete character at the end of the input; and after any
calls whatever, the check does not panic. -/
theorem validation_exact (source : Needle UInt8) (mode : LiteralRewriteMode) (maxBytes : Usize)
    (chunks : List Bytes) (hlen : chunks.flatten.length ≤ maxBytes.val) :
    (∀ before c after, chunks = before ++ c :: after →
      ((∃ self, transducer.Pushed (initial source mode maxBytes) before self ∧
          (self.push c).1 = .error .invalidUtf8) ↔
        (∀ cs, cs <+: before → ∃ more, Valid (cs.flatten ++ more)) ∧
          ¬ ∃ more, Valid ((before ++ [c]).flatten ++ more))) ∧
    (∀ self, transducer.Pushed (initial source mode maxBytes) chunks self →
      (self.finish.1 = .error .invalidUtf8 ↔ ¬ Valid chunks.flatten)) ∧
    (∀ pushed self, transducer.Pushed (initial source mode maxBytes) pushed self →
      IsIncompleteEnd pushed.flatten self.utf8Tail ∧ self.utf8Tail.length ≤ 3) ∧
    ∀ self, transducer.Called (initial source mode maxBytes) self → ∀ input,
      checkedValidateUtf8 self.utf8Tail input = some (validateUtf8 self.utf8Tail input) := by
  refine ⟨?_, fun self hself ↦ finish_eq_invalidUtf8_iff (validated_of_pushed hself), ?_,
    fun self hself ↦ checkedValidateUtf8_eq (isUtf8Tail_of_called hself)⟩
  · rintro before c after rfl
    rw [List.flatten_append, List.flatten_cons, List.length_append, List.length_append] at hlen
    have hbegins : (∀ cs, cs <+: before → ∃ more, Valid (cs.flatten ++ more)) ↔
        run .start before.flatten ≠ .reject := by
      simp only [← run_ne_reject_iff]
      refine ⟨fun h ↦ h before (List.prefix_refl _), fun h cs hcs ↦ ?_⟩
      obtain ⟨rest, rfl⟩ := hcs
      rw [List.flatten_append] at h
      exact run_ne_reject_of_append h
    rw [hbegins, ← run_ne_reject_iff, List.flatten_append, List.flatten_singleton, run_append,
      not_not]
    constructor
    · rintro ⟨self, hself, herror⟩
      have hv := validated_of_pushed hself
      rcases push_of_le hv.active (c := c)
          (by rw [hv.total_eq, hv.maxBytes_eq]; omega) with ⟨hreject, -⟩ | ⟨-, out, self', hpush⟩
      · rw [hv.run_eq] at hreject
        refine ⟨fun hbefore ↦ ?_, hreject⟩
        rcases hv.active.isUtf8Tail with htail | ⟨-, -, -, hpos, -⟩
        · rw [← hv.run_eq, htail] at hbefore
          exact absurd hbefore (by simp)
        · rw [hv.run_eq, hbefore] at hpos
          exact absurd hpos (by simp [State.missing])
      · rw [hpush] at herror
        exact absurd herror (by simp)
    · rintro ⟨hbefore, hreject⟩
      obtain ⟨self, hself⟩ := exists_pushed source mode maxBytes before (by omega) hbefore
      have hv := validated_of_pushed hself
      refine ⟨self, hself, ?_⟩
      rcases push_of_le hv.active (c := c)
          (by rw [hv.total_eq, hv.maxBytes_eq]; omega) with ⟨-, herror⟩ | ⟨hok, -⟩
      · exact herror
      · rw [hv.run_eq] at hok
        exact absurd hreject hok
  · intro pushed self hself
    have hv := validated_of_pushed hself
    refine ⟨hv.isIncompleteEnd, ?_⟩
    rcases hv.active.isUtf8Tail with htail | htail
    · rw [htail]
      exact Nat.zero_le 3
    · exact htail.length_le

/-- The theorem on the euro sign, cut behind its first byte and followed by a byte that cannot go
on. -/
theorem validation_exact_euro :
    ∃ self, transducer.Pushed
        (initial ⟨bytes "x", by decide⟩ (.exact (bytes "y")) ⟨8, by decide⟩) [[0xE2], []] self ∧
      (self.push [0x28]).1 = .error .invalidUtf8 :=
  ((validation_exact ⟨bytes "x", by decide⟩ (.exact (bytes "y")) ⟨8, by decide⟩
    [[0xE2], [], [0x28]] (by decide)).1 [[0xE2], []] [0x28] [] rfl).2
    ⟨fun cs hcs ↦ run_ne_reject_iff.1 (by
        obtain ⟨rest, hrest⟩ := hcs
        intro h
        have hall : run .start ([[0xE2], []] : List Bytes).flatten = .reject := by
          rw [← hrest, List.flatten_append, run_append, h, run_reject]
        exact absurd hall (by decide)),
      fun h ↦ run_ne_reject_iff.2 h (by decide)⟩

end StreamingLiteralRewriter

end KseRewriteProxy
