import Mathlib.Algebra.BigOperators.Group.List.Basic
import Mathlib.Algebra.Group.Basic
import Mathlib.Data.Nat.Cast.Basic
import Mathlib.Logic.Relation
import Mathlib.Tactic.Abel

/-!
# Interleaved processes

Any number of processes over one shared state: processes arrive at any time, and each step of the
system is one step of one process, which may read and change the shared state. A process never
leaves its place in the list of all processes, so one that has ended stays there in its last state.

## Invariants

`Reachable.forall_mem` is the rule for what each process keeps by itself. It asks for one step of
one process, and for nothing about the others, because a step changes no local state but its own.

`Reachable.add_sum_eq` is the rule for a quantity that every step only moves between the shared
state and the process that takes it. It is stated for any commutative monoid, so that numbers of
permits as well as gauges with a sign can be measured, and it may use what each process keeps. In a
group it can be read the other way round (`Reachable.eq_add_sum`): what the shared state has gained
is what the processes hold. `sum_map_toNat` turns sums of shares of zero and one into the number of
processes that have one.
-/

namespace Processes

/-- A system of processes with local states in `τ` over a shared state in `σ`. -/
structure System (σ τ : Type*) where
  /-- The shared state in which no process has arrived. -/
  init : σ
  /-- The local states in which a process arrives. -/
  Start : τ → Prop
  /-- One step of one process. -/
  Step : σ → τ → σ → τ → Prop

/-- The state of a system. -/
structure State (σ τ : Type*) where
  shared : σ
  processes : List τ

variable {σ τ : Type*} (S : System σ τ)

namespace System

/-- One step of the system. -/
inductive Next : State σ τ → State σ τ → Prop
  /-- A process arrives. -/
  | arrive {s : σ} {ps : List τ} {p : τ} (h : S.Start p) : Next ⟨s, ps⟩ ⟨s, ps ++ [p]⟩
  /-- A process takes a step. -/
  | run {s s' : σ} {p p' : τ} (before after : List τ) (h : S.Step s p s' p') :
    Next ⟨s, before ++ p :: after⟩ ⟨s', before ++ p' :: after⟩

/-- The states of all runs. -/
def Reachable (state : State σ τ) : Prop :=
  Relation.ReflTransGen S.Next ⟨S.init, []⟩ state

end System

namespace System.Reachable

variable {S}

theorem init : S.Reachable ⟨S.init, []⟩ :=
  Relation.ReflTransGen.refl

theorem arrive {s : σ} {ps : List τ} {p : τ} (h : S.Reachable ⟨s, ps⟩) (hp : S.Start p) :
    S.Reachable ⟨s, ps ++ [p]⟩ :=
  h.tail (.arrive hp)

theorem run {s s' : σ} {p p' : τ} (before after : List τ)
    (h : S.Reachable ⟨s, before ++ p :: after⟩) (hstep : S.Step s p s' p') :
    S.Reachable ⟨s', before ++ p' :: after⟩ :=
  h.tail (.run before after hstep)

/-- **What each process keeps by itself holds of all processes.** -/
theorem forall_mem {state : State σ τ} (h : S.Reachable state) {P : τ → Prop}
    (hstart : ∀ p, S.Start p → P p)
    (hstep : ∀ s p s' p', P p → S.Step s p s' p' → P p') :
    ∀ p ∈ state.processes, P p := by
  induction h with
  | refl => exact fun p hp ↦ absurd hp List.not_mem_nil
  | tail _ hnext ih =>
    cases hnext with
    | arrive hp =>
      intro q hq
      rcases List.mem_append.1 hq with hq | hq
      · exact ih q hq
      · exact List.mem_singleton.1 hq ▸ hstart _ hp
    | run before after hrun =>
      intro q hq
      have hother : ∀ q ∈ before ++ after, P q := by
        intro q hq
        rcases List.mem_append.1 hq with hq | hq
        · exact ih q (List.mem_append_left _ hq)
        · exact ih q (List.mem_append_right _ (List.mem_cons_of_mem _ hq))
      rcases List.mem_append.1 hq with hq | hq
      · exact hother q (List.mem_append_left _ hq)
      · rcases List.mem_cons.1 hq with rfl | hq
        · exact hstep _ _ _ _ (ih _ (List.mem_append_right _ List.mem_cons_self)) hrun
        · exact hother q (List.mem_append_right _ hq)

/-- **What a step only moves is conserved.** A quantity with a share `f` in the shared state and a
share `g` in every process is the same in all states, when a step changes the two shares of its
process and the shared state by opposite amounts and a process arrives with nothing. -/
theorem add_sum_eq {M : Type*} [AddCommMonoid M] {state : State σ τ} (h : S.Reachable state)
    {P : τ → Prop} {f : σ → M} {g : τ → M} (hstart : ∀ p, S.Start p → P p ∧ g p = 0)
    (hstep : ∀ s p s' p', P p → S.Step s p s' p' → P p' ∧ f s' + g p' = f s + g p) :
    f state.shared + (state.processes.map g).sum = f S.init := by
  have hkeeps : ∀ {state}, S.Reachable state → ∀ p ∈ state.processes, P p := fun h ↦
    h.forall_mem (fun p hp ↦ (hstart p hp).1) fun s p s' p' hp hrun ↦ (hstep s p s' p' hp hrun).1
  induction h with
  | refl => exact add_zero _
  | tail hreach hnext ih =>
    cases hnext with
    | arrive hp =>
      simp only [List.map_append, List.map_cons, List.map_nil, List.sum_append, List.sum_cons,
        List.sum_nil, (hstart _ hp).2, add_zero]
      exact ih
    | @run s s' p p' before after hrun =>
      have hp : P p := hkeeps hreach p (List.mem_append_right _ List.mem_cons_self)
      have hmove := (hstep _ _ _ _ hp hrun).2
      simp only [List.map_append, List.map_cons, List.sum_append, List.sum_cons] at ih ⊢
      calc f s' + ((before.map g).sum + (g p' + (after.map g).sum))
          = (f s' + g p') + ((before.map g).sum + (after.map g).sum) := by abel
        _ = (f s + g p) + ((before.map g).sum + (after.map g).sum) := by rw [hmove]
        _ = f s + ((before.map g).sum + (g p + (after.map g).sum)) := by abel
        _ = f S.init := ih

/-- **What a process takes is what the shared state gains.** The same for a quantity of the shared
state that counts the shares of the processes. -/
theorem eq_add_sum {M : Type*} [AddCommGroup M] {state : State σ τ} (h : S.Reachable state)
    {P : τ → Prop} {f : σ → M} {g : τ → M} (hstart : ∀ p, S.Start p → P p ∧ g p = 0)
    (hstep : ∀ s p s' p', P p → S.Step s p s' p' → P p' ∧ f s' + g p = f s + g p') :
    f state.shared = f S.init + (state.processes.map g).sum := by
  have hconserved := h.add_sum_eq (P := P) (f := f) (g := fun p ↦ -g p)
    (fun p hp ↦ ⟨(hstart p hp).1, by rw [(hstart p hp).2, neg_zero]⟩)
    (fun s p s' p' hp hrun ↦ by
      obtain ⟨hp', hmove⟩ := hstep s p s' p' hp hrun
      refine ⟨hp', ?_⟩
      rw [← sub_eq_add_neg, ← sub_eq_add_neg, sub_eq_sub_iff_add_eq_add, hmove])
  rw [← hconserved, add_assoc, ← List.sum_map_add]
  simp

end System.Reachable

/-- Shares of zero and one count processes. -/
theorem sum_map_toNat {M : Type*} [AddCommMonoidWithOne M] (p : τ → Bool) (l : List τ) :
    (l.map fun a ↦ ((p a).toNat : M)).sum = (l.countP p : M) := by
  induction l with
  | nil => exact Nat.cast_zero.symm
  | cons a l ih =>
    rw [List.map_cons, List.sum_cons, ih, List.countP_cons, Nat.cast_add, add_comm]
    cases p a <;> simp

end Processes
