import Mathlib.Data.List.Basic

/-!
# Streaming transducers and their residual meaning

A transducer reads a stream in chunks: each `push` returns the output that is already decided, and
`finish` returns the rest. Either may fail.

The specification technique is the *residual*: a function `den` that assigns to each state the
output still to come as a function of the input still to come, or nothing when that input makes
the run fail. `Realizes` says that a push moves output out of the residual and input into it.
`Realizes.run_eq` then evaluates every run, whatever the chunks are: chunk boundaries do not occur
in the answer.

So a claim about all chunkings is a claim about one function of states. To find it, one asks of a
state what it would output if all the rest came at once. The invariant of `Realizes` is for states
that no run reaches, for which the residual need not be right; a push has to preserve it when it
succeeds, and nothing is asked of the state that a failed push leaves.
-/

namespace Streaming

/-- A machine that reads chunks of `α` and fails with `ε`. An operation returns its result
together with the state it leaves behind, also when it fails. -/
structure Transducer (α ε σ : Type*) where
  /-- Read one more chunk. -/
  push : σ → List α → Except ε (List α) × σ
  /-- Read the end of the stream. -/
  finish : σ → Except ε (List α) × σ

namespace Transducer

variable {α ε σ : Type*} (T : Transducer α ε σ)

/-- Push the chunks in order and finish, concatenating the outputs; the first failure ends the
run. -/
def run : σ → List (List α) → Except ε (List α)
  | s, [] => (T.finish s).1
  | s, c :: cs =>
    match T.push s c with
    | (.ok out, s') => (run s' cs).map (out ++ ·)
    | (.error e, _) => .error e

/-- The state that is reached by pushing the chunks in order, when no push fails. -/
inductive Pushed (s : σ) : List (List α) → σ → Prop
  | nil : Pushed s [] s
  | push {cs c out s' s''} :
    Pushed s cs s' → T.push s' c = (.ok out, s'') → Pushed s (cs ++ [c]) s''

/-- The states that are reached by calls of `push` and `finish` in any order, whether they succeed
or not. -/
inductive Called (s : σ) : σ → Prop
  | nil : Called s s
  | push {s'} (c) : Called s s' → Called s (T.push s' c).2
  | finish {s'} : Called s s' → Called s (T.finish s').2

variable {T}

/-- **What one successful push preserves holds after any number of them**, as a property of the
state and of the input so far. -/
theorem Pushed.preserves {P : List α → σ → Prop} {s : σ} (hs : P [] s)
    (hstep : ∀ ⦃input s' c out s''⦄, P input s' → T.push s' c = (.ok out, s'') →
      P (input ++ c) s'') {cs : List (List α)} {s' : σ} (h : T.Pushed s cs s') :
    P cs.flatten s' := by
  induction h with
  | nil => exact hs
  | push _ hpush ih =>
    rw [List.flatten_append, List.flatten_singleton]
    exact hstep ih hpush

/-- What every call preserves holds after any number of them. -/
theorem Called.preserves {P : σ → Prop} {s : σ} (hs : P s)
    (hpush : ∀ ⦃s'⦄, P s' → ∀ c, P (T.push s' c).2)
    (hfinish : ∀ ⦃s'⦄, P s' → P (T.finish s').2) {s' : σ} (h : T.Called s s') : P s' := by
  induction h with
  | nil => exact hs
  | push c _ ih => exact hpush ih c
  | finish _ ih => exact hfinish ih

end Transducer

/-- `den` is the residual meaning of the states that satisfy `Inv`: what remains to be output, as
a function of what remains to be read. -/
structure Realizes {α ε σ : Type*} (T : Transducer α ε σ) (Inv : σ → Prop)
    (den : σ → List α → Option (List α)) : Prop where
  /-- A push keeps the invariant and moves its output out of the residual. -/
  push_ok : ∀ ⦃s c out s'⦄, Inv s → T.push s c = (.ok out, s') →
    Inv s' ∧ ∀ more, den s (c ++ more) = (den s' more).map (out ++ ·)
  /-- A failing push leaves no input with which the run could succeed. -/
  push_error : ∀ ⦃s c e s'⦄, Inv s → T.push s c = (.error e, s') →
    ∀ more, den s (c ++ more) = none
  /-- Finishing outputs the residual of the empty input. -/
  finish_eq : ∀ ⦃s⦄, Inv s → den s [] = (T.finish s).1.toOption

namespace Realizes

variable {α ε σ : Type*} {T : Transducer α ε σ} {Inv : σ → Prop}
  {den : σ → List α → Option (List α)}

/-- **A run computes the residual of the whole input**, however the input is cut. -/
theorem run_eq (h : Realizes T Inv den) {s : σ} (hs : Inv s) (chunks : List (List α)) :
    (T.run s chunks).toOption = den s chunks.flatten := by
  induction chunks generalizing s with
  | nil => exact (h.finish_eq hs).symm
  | cons c cs ih =>
    rw [Transducer.run, List.flatten_cons]
    rcases hp : T.push s c with ⟨e | out, s'⟩
    · exact (h.push_error hs hp _).symm
    · obtain ⟨hs', hden⟩ := h.push_ok hs hp
      rw [hden, ← ih hs']
      rcases hr : T.run s' cs with e | rest <;> simp [Except.map, Except.toOption, hr]

/-- A run succeeds with the residual of the whole input, if there is one. -/
theorem run_eq_ok_iff (h : Realizes T Inv den) {s : σ} (hs : Inv s) {chunks : List (List α)}
    {out : List α} : T.run s chunks = .ok out ↔ den s chunks.flatten = some out := by
  rw [← h.run_eq hs]
  rcases T.run s chunks with e | out' <;> simp [Except.toOption]

/-- Two ways to cut one input give the same output. -/
theorem run_eq_of_flatten_eq (h : Realizes T Inv den) {s : σ} (hs : Inv s)
    {chunks chunks' : List (List α)} (heq : chunks.flatten = chunks'.flatten) :
    (T.run s chunks).toOption = (T.run s chunks').toOption := by
  rw [h.run_eq hs, h.run_eq hs, heq]

end Realizes

end Streaming
