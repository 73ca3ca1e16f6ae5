import KseRewriteProxy.Streaming.Transducer

/-!
# Chains of transducers

Stages of one kind in a row: a push goes through all of them, and finishing cascades, because the
last output of a stage is one more chunk of the next.

`Realizes.chain` says that a chain means the composition of its stages, `chainDen`. With
`Realizes.run_eq` it follows that a run of the chain, however its input is cut, gives this
composition on the complete input, and `chainDen_eq_some_iff` says that the composition is what each
stage gives when it runs alone on the complete output of the stage before it.

Two facts carry the induction along the row. A push that succeeds moves its output out of the
meaning of the row and its input into it (`pushAll_ok`), and a push that fails in any stage is a
failure of the composition for every continuation (`pushAll_error`): the stages behind a stage that
has failed have not been pushed, and they no longer matter.
-/

namespace Streaming

variable {α ε σ : Type*}

namespace Transducer

variable (T : Transducer α ε σ)

/-- Push a chunk through all stages; a failure stops there. -/
def pushAll : List σ → List α → Except ε (List α) × List σ
  | [], input => (.ok input, [])
  | s :: ss, input =>
    match T.push s input with
    | (.error e, s') => (.error e, s' :: ss)
    | (.ok out, s') =>
      let (result, ss') := pushAll ss out
      (result, s' :: ss')

/-- Push the last chunk through the stages, each of which finishes behind it. -/
def finishRest : List σ → List α → Except ε (List α) × List σ
  | [], output => (.ok output, [])
  | s :: ss, output =>
    match T.push s output with
    | (.error e, s') => (.error e, s' :: ss)
    | (.ok next, s') =>
      match T.finish s' with
      | (.error e, s'') => (.error e, s'' :: ss)
      | (.ok last, s'') =>
        let (result, ss') := finishRest ss (next ++ last)
        (result, s'' :: ss')

/-- Finish all stages in order. -/
def finishAll : List σ → Except ε (List α) × List σ
  | [] => (.ok [], [])
  | s :: ss =>
    match T.finish s with
    | (.error e, s') => (.error e, s' :: ss)
    | (.ok output, s') =>
      let (result, ss') := T.finishRest ss output
      (result, s' :: ss')

/-- The stages in a row as one transducer. -/
def chain : Transducer α ε (List σ) where
  push := T.pushAll
  finish := T.finishAll

/-- Run the stages one after the other, each alone on the complete output of the one before. -/
def runAlone (stages : List σ) (input : List α) : Except ε (List α) :=
  stages.foldlM (fun text s ↦ T.run s [text]) input

theorem runAlone_cons (s : σ) (ss : List σ) (input : List α) :
    T.runAlone (s :: ss) input = (T.run s [input]).bind (T.runAlone ss) :=
  rfl

/-- What the first stage returns is pushed to the others. -/
theorem pushAll_cons_of_ok {s s' : σ} {input out : List α} (h : T.push s input = (.ok out, s'))
    (ss : List σ) :
    T.pushAll (s :: ss) input = ((T.pushAll ss out).1, s' :: (T.pushAll ss out).2) := by
  rw [pushAll, h]

theorem length_pushAll (stages : List σ) (input : List α) :
    (T.pushAll stages input).2.length = stages.length := by
  induction stages generalizing input with
  | nil => rfl
  | cons s ss ih =>
    rw [pushAll]
    rcases T.push s input with ⟨e | out, s'⟩
    · rfl
    · exact congrArg (· + 1) (ih out)

theorem length_finishRest (stages : List σ) (output : List α) :
    (T.finishRest stages output).2.length = stages.length := by
  induction stages generalizing output with
  | nil => rfl
  | cons s ss ih =>
    rw [finishRest]
    rcases T.push s output with ⟨e | next, s'⟩
    · rfl
    simp only
    rcases T.finish s' with ⟨e | last, s''⟩
    · rfl
    · exact congrArg (· + 1) (ih (next ++ last))

theorem length_finishAll (stages : List σ) :
    (T.finishAll stages).2.length = stages.length := by
  cases stages with
  | nil => rfl
  | cons s ss =>
    rw [finishAll]
    rcases T.finish s with ⟨e | output, s'⟩
    · rfl
    · exact congrArg (· + 1) (T.length_finishRest ss output)

end Transducer

/-- The residual of a chain: the composition of the residuals of its stages. -/
def chainDen (den : σ → List α → Option (List α)) : List σ → List α → Option (List α)
  | [], input => some input
  | s :: ss, input => (den s input).bind (chainDen den ss)

namespace Realizes

variable {T : Transducer α ε σ} {Inv : σ → Prop} {den : σ → List α → Option (List α)}

/-- **A push that succeeds** outputs what the chain then no longer owes. -/
theorem pushAll_ok (h : Realizes T Inv den) {stages : List σ} {input out : List α}
    {stages' : List σ} (hs : ∀ s ∈ stages, Inv s)
    (hpush : T.pushAll stages input = (.ok out, stages')) :
    (∀ s ∈ stages', Inv s) ∧
      ∀ more, chainDen den stages (input ++ more) =
        (chainDen den stages' more).map (out ++ ·) := by
  induction stages generalizing input out stages' with
  | nil =>
    obtain ⟨hout, rfl⟩ := Prod.mk.inj hpush
    obtain rfl := Except.ok.inj hout
    exact ⟨hs, fun more ↦ rfl⟩
  | cons s ss ih =>
    rcases hp : T.push s input with ⟨e | middle, s'⟩
    · rw [Transducer.pushAll, hp] at hpush
      exact absurd (Prod.mk.inj hpush).1 (by simp)
    rw [T.pushAll_cons_of_ok hp] at hpush
    obtain ⟨hresult, rfl⟩ := Prod.mk.inj hpush
    obtain ⟨hs', hden⟩ := h.push_ok (hs s (List.mem_cons_self ..)) hp
    obtain ⟨hss', hdens⟩ :=
      ih (fun t ht ↦ hs t (List.mem_cons_of_mem _ ht)) (Prod.ext hresult rfl)
    refine ⟨fun t ht ↦ ?_, fun more ↦ ?_⟩
    · rcases List.mem_cons.1 ht with rfl | ht
      · exact hs'
      · exact hss' t ht
    · simp only [chainDen, hden, Option.bind_map]
      rcases den s' more with - | rest
      · rfl
      · exact hdens rest

/-- **A push that fails** fails whatever follows. -/
theorem pushAll_error (h : Realizes T Inv den) {stages : List σ} {input : List α} {e : ε}
    {stages' : List σ} (hs : ∀ s ∈ stages, Inv s)
    (hpush : T.pushAll stages input = (.error e, stages')) (more : List α) :
    chainDen den stages (input ++ more) = none := by
  induction stages generalizing input e stages' more with
  | nil => exact absurd (Prod.mk.inj hpush).1 (by simp)
  | cons s ss ih =>
    rcases hp : T.push s input with ⟨e' | middle, s'⟩
    · rw [chainDen, h.push_error (hs s (List.mem_cons_self ..)) hp]
      rfl
    · rw [T.pushAll_cons_of_ok hp] at hpush
      obtain ⟨hresult, rfl⟩ := Prod.mk.inj hpush
      obtain ⟨-, hden⟩ := h.push_ok (hs s (List.mem_cons_self ..)) hp
      simp only [chainDen, hden, Option.bind_map]
      rcases den s' more with - | rest
      · rfl
      · exact ih (fun t ht ↦ hs t (List.mem_cons_of_mem _ ht)) (Prod.ext hresult rfl) rest

/-- Finishing the stages behind a first one completes their common input. -/
theorem finishRest_eq (h : Realizes T Inv den) {stages : List σ} (hs : ∀ s ∈ stages, Inv s)
    (output : List α) :
    chainDen den stages output = (T.finishRest stages output).1.toOption := by
  induction stages generalizing output with
  | nil => rfl
  | cons s ss ih =>
    have hinv := hs s (List.mem_cons_self ..)
    rw [chainDen, Transducer.finishRest]
    rcases hp : T.push s output with ⟨e | next, s'⟩
    · have := h.push_error hinv hp []
      rw [List.append_nil] at this
      rw [this]
      rfl
    obtain ⟨hinv', hden⟩ := h.push_ok hinv hp
    have hnext := hden []
    rw [List.append_nil, h.finish_eq hinv'] at hnext
    rw [hnext]
    simp only
    rcases T.finish s' with ⟨e | last, s''⟩
    · rfl
    · exact ih (fun t ht ↦ hs t (List.mem_cons_of_mem _ ht)) (next ++ last)

/-- **A chain means the composition of its stages.** -/
theorem chain (h : Realizes T Inv den) :
    Realizes T.chain (fun stages ↦ ∀ s ∈ stages, Inv s) (chainDen den) where
  push_ok := fun _ _ _ _ hs hpush ↦ h.pushAll_ok hs hpush
  push_error := fun _ _ _ _ hs hpush ↦ h.pushAll_error hs hpush
  finish_eq := by
    intro stages hs
    cases stages with
    | nil => rfl
    | cons s ss =>
      show (den s []).bind (chainDen den ss) = (T.finishAll (s :: ss)).1.toOption
      rw [h.finish_eq (hs s (List.mem_cons_self ..)), Transducer.finishAll]
      rcases T.finish s with ⟨e | output, s'⟩
      · rfl
      · exact h.finishRest_eq (fun t ht ↦ hs t (List.mem_cons_of_mem _ ht)) output

/-- The composition of the residuals is what the stages compute one after the other. -/
theorem chainDen_eq_runAlone (h : Realizes T Inv den) {stages : List σ}
    (hs : ∀ s ∈ stages, Inv s) (input : List α) :
    chainDen den stages input = (T.runAlone stages input).toOption := by
  induction stages generalizing input with
  | nil => rfl
  | cons s ss ih =>
    have hrun := h.run_eq (hs s (List.mem_cons_self ..)) [input]
    rw [List.flatten_singleton] at hrun
    rw [chainDen, Transducer.runAlone_cons, ← hrun]
    rcases T.run s [input] with e | output
    · rfl
    · exact ih (fun t ht ↦ hs t (List.mem_cons_of_mem _ ht)) output

/-- **A chain means its stages one after the other**, each on the whole output of the one before. -/
theorem chainDen_eq_some_iff (h : Realizes T Inv den) {stages : List σ}
    (hs : ∀ s ∈ stages, Inv s) {input out : List α} :
    chainDen den stages input = some out ↔ T.runAlone stages input = .ok out := by
  rw [h.chainDen_eq_runAlone hs]
  rcases T.runAlone stages input with e | out' <;> simp [Except.toOption]

end Realizes

end Streaming
