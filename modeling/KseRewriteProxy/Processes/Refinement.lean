import KseRewriteProxy.Processes.Interleaving

/-!
# Runs of interleaved processes

Rules for whole runs of a `System`, beyond invariants.

* `Reachable.eq_add_sum_of_gains` is the rule for what is only counted: the shared state gains what
  the process that takes the step gains.
* `Reachable.shared` is the rule for what every step keeps of the shared state.
* `Reachable.forall_mem_of_stable` is the rule for what holds between the shared state and each
  process, and is stable under the steps of the others.
* `Reachable.perm_range` is the rule for numbers that are drawn from a shared counter.
* `Refines.reachable` transfers reachability to another system along a map of the shared state and
  a partial map of the processes: a process that has no image yet may get one, as if it arrived
  then. `Reachable.under` lets a refinement assume what each process keeps by itself.
-/

namespace Processes

variable {σ τ : Type*} {S : System σ τ}

/-! ### Gains -/

/-- **What processes gain is what the shared state gains.** -/
theorem System.Reachable.eq_add_sum_of_gains {M : Type*} [AddCommMonoid M] {state : State σ τ}
    (h : S.Reachable state) {P : τ → Prop} {f : σ → M} {g : τ → M}
    (hstart : ∀ p, S.Start p → P p ∧ g p = 0)
    (hstep : ∀ s p s' p', P p → S.Step s p s' p' →
      P p' ∧ ∃ gain, f s' = f s + gain ∧ g p' = g p + gain) :
    f state.shared = f S.init + (state.processes.map g).sum := by
  have hkeeps : ∀ {state}, S.Reachable state → ∀ p ∈ state.processes, P p := fun h ↦
    h.forall_mem (fun p hp ↦ (hstart p hp).1) fun s p s' p' hp hrun ↦ (hstep s p s' p' hp hrun).1
  induction h with
  | refl => exact (add_zero _).symm
  | tail hreach hnext ih =>
    cases hnext with
    | arrive hp =>
      simp only [List.map_append, List.map_cons, List.map_nil, List.sum_append, List.sum_cons,
        List.sum_nil, (hstart _ hp).2, add_zero]
      exact ih
    | @run s s' p p' before after hrun =>
      have hp : P p := hkeeps hreach p (List.mem_append_right _ List.mem_cons_self)
      obtain ⟨gain, hshared, hprocess⟩ := (hstep _ _ _ _ hp hrun).2
      simp only [List.map_append, List.map_cons, List.sum_append, List.sum_cons] at ih ⊢
      rw [hshared, ih, hprocess]
      abel

/-! ### The shared state -/

/-- **What every step keeps of the shared state** holds in all states, when each process keeps what
its steps need. -/
theorem System.Reachable.shared {state : State σ τ} (h : S.Reachable state) {I : σ → Prop}
    {P : τ → Prop} (hinit : I S.init) (hstart : ∀ p, S.Start p → P p)
    (hstep : ∀ s p s' p', P p → S.Step s p s' p' → P p' ∧ (I s → I s')) : I state.shared := by
  have hkeeps : ∀ {state}, S.Reachable state → ∀ p ∈ state.processes, P p := fun h ↦
    h.forall_mem hstart fun s p s' p' hp hrun ↦ (hstep s p s' p' hp hrun).1
  induction h with
  | refl => exact hinit
  | tail hreach hnext ih =>
    cases hnext with
    | arrive => exact ih
    | @run s s' p p' before after hrun =>
      have hp : P p := hkeeps hreach p (List.mem_append_right _ List.mem_cons_self)
      exact (hstep s p s' p' hp hrun).2 ih

/-- **What holds between the shared state and each process** holds in all states, when the step of
a process keeps it for that process and for every other one. -/
theorem System.Reachable.forall_mem_of_stable {state : State σ τ} (h : S.Reachable state)
    {Q : σ → τ → Prop} (hstart : ∀ s p, S.Start p → Q s p)
    (hstep : ∀ s p s' p', Q s p → S.Step s p s' p' → Q s' p')
    (hstable : ∀ s p s' p' q, Q s q → S.Step s p s' p' → Q s' q) :
    ∀ p ∈ state.processes, Q state.shared p := by
  induction h with
  | refl => exact fun p hp ↦ absurd hp List.not_mem_nil
  | tail _ hnext ih =>
    cases hnext with
    | @arrive s ps p hp => exact List.forall_mem_append.2 ⟨ih, by simpa using hstart s p hp⟩
    | @run s s' p p' before after hrun =>
      obtain ⟨hbefore, hothers⟩ := List.forall_mem_append.1 ih
      obtain ⟨hp, hafter⟩ := List.forall_mem_cons.1 hothers
      refine List.forall_mem_append.2 ⟨fun q hq ↦ ?_, List.forall_mem_cons.2
        ⟨hstep s p s' p' hp hrun, fun q hq ↦ ?_⟩⟩
      · exact hstable s p s' p' q (hbefore q hq) hrun
      · exact hstable s p s' p' q (hafter q hq) hrun

/-! ### Numbering -/

/-- **The numbers that processes draw from a shared counter** are the numbers below its value, each
drawn once. -/
theorem System.Reachable.perm_range {state : State σ τ} (h : S.Reachable state) {f : σ → ℕ}
    {g : τ → Option ℕ} (hinit : f S.init = 0) (hstart : ∀ p, S.Start p → g p = none)
    (hstep : ∀ s p s' p', S.Step s p s' p' →
      f s' = f s ∧ g p' = g p ∨ g p = none ∧ g p' = some (f s) ∧ f s' = f s + 1) :
    (state.processes.filterMap g).Perm (List.range (f state.shared)) := by
  induction h with
  | refl =>
    show List.Perm [] (List.range (f S.init))
    rw [hinit]
    exact .nil
  | tail _ hnext ih =>
    cases hnext with
    | arrive hp =>
      simp only [List.filterMap_append, List.filterMap_cons_none (hstart _ hp), List.filterMap_nil,
        List.append_nil]
      exact ih
    | @run s s' p p' before after hrun =>
      simp only [List.filterMap_append] at ih ⊢
      rcases hstep s p s' p' hrun with ⟨hshared, hsame⟩ | ⟨hnone, hdrawn, hshared⟩
      · rw [List.filterMap_cons, hsame, ← List.filterMap_cons, hshared]
        exact ih
      · rw [List.filterMap_cons_none hnone] at ih
        rw [List.filterMap_cons_some hdrawn, hshared, List.range_succ]
        exact List.perm_middle.trans ((ih.cons _).trans (List.perm_append_singleton _ _).symm)

/-! ### Refinement -/

/-- A process that takes no step may have arrived anywhere between the others. -/
theorem System.Reachable.insert_idle {state : State σ τ} (h : S.Reachable state)
    {before after : List τ} (hprocesses : state.processes = before ++ after) {p : τ}
    (hp : S.Start p) : S.Reachable ⟨state.shared, before ++ p :: after⟩ := by
  induction h generalizing before after with
  | refl =>
    obtain ⟨rfl, rfl⟩ := List.append_eq_nil_iff.1 hprocesses.symm
    exact System.Reachable.init.arrive hp
  | @tail middle state hreach hnext ih =>
    cases hnext with
    | @arrive s processes q hq =>
      rcases List.eq_nil_or_concat after with rfl | ⟨after', last, rfl⟩
      · -- The process arrives after all others.
        rw [List.append_nil] at hprocesses
        rw [← hprocesses]
        exact ((show S.Reachable ⟨s, processes⟩ from hreach).arrive hq).arrive hp
      · rw [List.concat_eq_append, ← List.append_assoc] at hprocesses
        obtain ⟨rfl, hlast⟩ := List.append_inj' hprocesses rfl
        obtain rfl := List.singleton_injective hlast
        have hinserted := (ih rfl).arrive hq
        rw [List.append_assoc, List.cons_append] at hinserted
        rwa [List.concat_eq_append]
    | @run s s' q q' before' after' hrun =>
      -- The step is one of a process before the cut, or of one after it.
      have hleft : ∀ between, before' = before ++ between → after = between ++ q' :: after' →
          S.Reachable ⟨s', before ++ p :: after⟩ := by
        intro between hbefore hafter
        have hinserted := @ih before (between ++ q :: after')
          (by rw [hbefore, List.append_assoc])
        have hmoved := System.Reachable.run (before ++ p :: between) after'
          (by rwa [List.append_assoc, List.cons_append]) hrun
        rwa [List.append_assoc, List.cons_append, ← hafter] at hmoved
      rcases List.append_eq_append_iff.1 hprocesses with ⟨between, hbefore, hafter⟩ |
        ⟨between, hbefore, hafter⟩
      · cases between with
        | nil => exact hleft [] (by rw [hbefore, List.append_nil, List.append_nil]) hafter.symm
        | cons first between =>
          obtain ⟨rfl, rfl⟩ := List.cons.inj hafter
          have hinserted := @ih (before' ++ q :: between) after
            (by rw [List.append_assoc, List.cons_append]; rfl)
          rw [List.append_assoc, List.cons_append] at hinserted
          have hmoved := hinserted.run before' (between ++ p :: after) hrun
          rwa [hbefore, List.append_assoc, List.cons_append]
      · exact hleft between hbefore hafter

/-- **A refinement of systems.** The map `f` forgets part of the shared state, and `g` part of each
process; a process without an image is not there yet for the system `T`. -/
structure Refines {σ' τ' : Type*} (S : System σ τ) (T : System σ' τ') (f : σ → σ')
    (g : τ → Option τ') : Prop where
  init : f S.init = T.init
  start {p : τ} (h : S.Start p) : ∀ q ∈ g p, T.Start q
  /-- A step is no step of `T`, or the arrival of a process in `T`, or a step of one. -/
  step {s s' : σ} {p p' : τ} (h : S.Step s p s' p') :
    f s' = f s ∧ (g p' = g p ∨ g p = none ∧ ∀ q ∈ g p', T.Start q) ∨
      ∃ q q', g p = some q ∧ g p' = some q' ∧ T.Step (f s) q (f s') q'

/-- **The image of a reachable state is reachable.** -/
theorem Refines.reachable {σ' τ' : Type*} {T : System σ' τ'} {f : σ → σ'} {g : τ → Option τ'}
    (hrefines : Refines S T f g) {state : State σ τ} (h : S.Reachable state) :
    T.Reachable ⟨f state.shared, state.processes.filterMap g⟩ := by
  induction h with
  | refl =>
    show T.Reachable ⟨f S.init, []⟩
    rw [hrefines.init]
    exact .init
  | tail _ hnext ih =>
    cases hnext with
    | @arrive s ps p hp =>
      simp only [List.filterMap_append]
      cases hp' : g p with
      | none => rwa [List.filterMap_cons_none hp', List.filterMap_nil, List.append_nil]
      | some q =>
        rw [List.filterMap_cons_some hp', List.filterMap_nil]
        exact ih.arrive (hrefines.start hp q hp')
    | @run s s' p p' before after hrun =>
      simp only [List.filterMap_append] at ih ⊢
      rcases hrefines.step hrun with ⟨hshared, hsame | ⟨hnone, hstart⟩⟩ |
        ⟨q, q', hq, hq', hstep⟩
      · rw [hshared, List.filterMap_cons, hsame, ← List.filterMap_cons]
        exact ih
      · rw [List.filterMap_cons_none hnone, ← List.filterMap_append] at ih
        rw [hshared]
        cases hp' : g p' with
        | none => rwa [List.filterMap_cons_none hp', ← List.filterMap_append]
        | some q =>
          rw [List.filterMap_cons_some hp']
          exact ih.insert_idle List.filterMap_append (hstart q hp')
      · rw [List.filterMap_cons_some hq] at ih
        rw [List.filterMap_cons_some hq']
        exact ih.run _ _ hstep

/-- The system in which only processes with `P` take steps. -/
def System.under (S : System σ τ) (P : τ → Prop) : System σ τ where
  init := S.init
  Start := S.Start
  Step s p s' p' := P p ∧ S.Step s p s' p'

/-- **What each process keeps by itself may be assumed of every step.** -/
theorem System.Reachable.under {state : State σ τ} (h : S.Reachable state) {P : τ → Prop}
    (hstart : ∀ p, S.Start p → P p) (hstep : ∀ s p s' p', P p → S.Step s p s' p' → P p') :
    (S.under P).Reachable state := by
  induction h with
  | refl => exact .refl
  | tail hreach hnext ih =>
    refine ih.tail ?_
    cases hnext with
    | arrive hp => exact .arrive hp
    | @run s s' p p' before after hrun =>
      have hkeeps := System.Reachable.forall_mem hreach hstart hstep
      exact .run before after ⟨hkeeps p (List.mem_append_right _ List.mem_cons_self), hrun⟩

end Processes
