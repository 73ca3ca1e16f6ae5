import Mathlib.Data.List.Nodup
import Mathlib.Data.List.Range
import KseRewriteProxy.Processes.Interleaving

/-!
# Processes that wait in line

Some processes of a system wait for something that the shared state gives out, and they are to be
served in the order in which they began to wait. The interleaving of a `System` lets any of them go
first, so that an invariant of all its runs holds of the served ones too; what this module adds is
for progress, where more runs are no help.

A process is named by its place in the list of the processes, which it never leaves. `InLine` says
that a list of places is a line of exactly the processes that wait, and `Serves` is one step of the
system with what becomes of the line: who begins to wait goes to its end, and who ceases to wait was
its head. `Takes` says which steps the process at a place may take. It stands for all that is not
chosen by the one who schedules the processes, such as what a client has sent.

`Reachable.exists_served` is the rule for progress. Every process that does not wait must be able to
come closer to its end, whatever the place it has, and as soon as only waiting processes are left
each of them must be able to. Then every run can be completed from any line: while some process is
not done there is a step that lowers the sum of all ranks (`Reachable.exists_serves`), because a
line that is not empty has a head. `exists_inLine` says
that there is a line to begin with.
-/

namespace Processes

variable {σ τ : Type*}

/-- The places of the processes that wait, each of them once. -/
structure InLine (Waits : τ → Prop) (processes : List τ) (line : List ℕ) : Prop where
  nodup : line.Nodup
  mem_iff : ∀ place, place ∈ line ↔ ∃ p ∈ processes[place]?, Waits p

/-- One step of the system in which the process at a place takes a step that it may take, and the
waiting processes are served in the order of the line. -/
inductive Serves (Waits : τ → Prop) (Takes : ℕ → σ → τ → σ → τ → Prop) :
    State σ τ × List ℕ → State σ τ × List ℕ → Prop
  /-- A process goes on without waiting. -/
  | goes {s s' : σ} {p p' : τ} {line : List ℕ} (before after : List τ) (hp : ¬ Waits p)
    (hp' : ¬ Waits p') (h : Takes before.length s p s' p') :
    Serves Waits Takes (⟨s, before ++ p :: after⟩, line) (⟨s', before ++ p' :: after⟩, line)
  /-- A process begins to wait. -/
  | joins {s s' : σ} {p p' : τ} {line : List ℕ} (before after : List τ) (hp : ¬ Waits p)
    (hp' : Waits p') (h : Takes before.length s p s' p') :
    Serves Waits Takes (⟨s, before ++ p :: after⟩, line)
      (⟨s', before ++ p' :: after⟩, line ++ [before.length])
  /-- The process that has waited longest ceases to wait. -/
  | leaves {s s' : σ} {p p' : τ} {line : List ℕ} (before after : List τ) (hp : Waits p)
    (hp' : ¬ Waits p') (h : Takes before.length s p s' p') :
    Serves Waits Takes (⟨s, before ++ p :: after⟩, before.length :: line)
      (⟨s', before ++ p' :: after⟩, line)

/-! ### Places -/

theorem getElem?_middle (before after : List τ) (p : τ) :
    (before ++ p :: after)[before.length]? = some p := by
  rw [List.getElem?_append_right le_rfl, Nat.sub_self, List.getElem?_cons_zero]

/-- A step of one process changes no other place. -/
theorem getElem?_middle_ne {before after : List τ} {place : ℕ} (h : place ≠ before.length)
    (p p' : τ) : (before ++ p' :: after)[place]? = (before ++ p :: after)[place]? := by
  rcases Nat.lt_or_gt_of_ne h with hlt | hgt
  · rw [List.getElem?_append_left hlt, List.getElem?_append_left hlt]
  · obtain ⟨n, hn⟩ := Nat.exists_eq_add_of_lt hgt
    rw [List.getElem?_append_right hgt.le, List.getElem?_append_right hgt.le,
      show place - before.length = n + 1 by omega, List.getElem?_cons_succ,
      List.getElem?_cons_succ]

/-- The process at a place, with those before it and those after it. -/
theorem exists_append_of_getElem? {processes : List τ} {place : ℕ} {p : τ}
    (h : processes[place]? = some p) :
    ∃ before after, processes = before ++ p :: after ∧ before.length = place := by
  obtain ⟨hlt, rfl⟩ := List.getElem?_eq_some_iff.1 h
  refine ⟨processes.take place, processes.drop (place + 1), ?_, ?_⟩
  · rw [← List.drop_eq_getElem_cons, List.take_append_drop]
  · rw [List.length_take, min_eq_left hlt.le]

/-! ### Lines -/

section

variable {Waits : τ → Prop} {Takes : ℕ → σ → τ → σ → τ → Prop}

/-- **There is a line** for every list of processes. -/
theorem exists_inLine (Waits : τ → Prop) (processes : List τ) :
    ∃ line, InLine Waits processes line := by
  classical
  refine ⟨(List.range processes.length).filter fun place ↦ ∃ p ∈ processes[place]?, Waits p,
    List.nodup_range.filter _, fun place ↦ ?_⟩
  rw [List.mem_filter, List.mem_range, decide_eq_true_iff, and_iff_right_iff_imp]
  rintro ⟨p, hp, -⟩
  exact (List.getElem?_eq_some_iff.1 hp).1

/-- A line of processes that do not wait is empty. -/
theorem InLine.eq_nil {processes : List τ} {line : List ℕ} (h : InLine Waits processes line)
    (hnone : ∀ p ∈ processes, ¬ Waits p) : line = [] := by
  refine List.eq_nil_iff_forall_not_mem.2 fun place hplace ↦ ?_
  obtain ⟨p, hp, hwaits⟩ := (h.mem_iff place).1 hplace
  exact hnone p (List.mem_of_getElem? hp) hwaits

/-- At the place of a process, the line says whether it waits. -/
theorem InLine.mem_length_iff {before after : List τ} {p : τ} {line : List ℕ}
    (h : InLine Waits (before ++ p :: after) line) : before.length ∈ line ↔ Waits p := by
  rw [h.mem_iff, getElem?_middle]
  simp

/-- The line after a step, when it is right at the place of the process and otherwise the same. -/
theorem InLine.middle {before after : List τ} {p p' : τ} {line line' : List ℕ}
    (h : InLine Waits (before ++ p :: after) line) (hnodup : line'.Nodup)
    (hplace : before.length ∈ line' ↔ Waits p')
    (hothers : ∀ place ≠ before.length, place ∈ line' ↔ place ∈ line) :
    InLine Waits (before ++ p' :: after) line' := by
  refine ⟨hnodup, fun place ↦ ?_⟩
  by_cases heq : place = before.length
  · subst heq
    rw [hplace, getElem?_middle]
    simp
  · rw [hothers place heq, h.mem_iff, getElem?_middle_ne heq p p']

/-- **A step keeps the line.** -/
theorem Serves.inLine {a b : State σ τ × List ℕ} (h : Serves Waits Takes a b)
    (ha : InLine Waits a.1.processes a.2) : InLine Waits b.1.processes b.2 := by
  cases h with
  | goes before after hp hp' h =>
    exact ha.middle ha.nodup (iff_of_false (ha.mem_length_iff.not.2 hp) hp') fun _ _ ↦ Iff.rfl
  | joins before after hp hp' h =>
    refine ha.middle ?_ (iff_of_true (List.mem_append_right _ (List.mem_singleton.2 rfl)) hp')
      fun place hplace ↦ ?_
    · exact List.nodup_append.2 ⟨ha.nodup, List.nodup_singleton _, fun place hplace last hlast ↦
        fun heq ↦ ha.mem_length_iff.not.2 hp (List.mem_singleton.1 hlast ▸ heq ▸ hplace)⟩
    · rw [List.mem_append, List.mem_singleton, or_iff_left hplace]
  | leaves before after hp hp' h =>
    obtain ⟨hfirst, hnodup⟩ := List.nodup_cons.1 ha.nodup
    refine ha.middle hnodup (iff_of_false hfirst hp') fun place hplace ↦ ?_
    rw [List.mem_cons, or_iff_right hplace]

/-- A step in line is a step of the system. -/
theorem Serves.next {S : System σ τ}
    (htakes : ∀ {place s p s' p'}, Takes place s p s' p' → S.Step s p s' p')
    {a b : State σ τ × List ℕ} (h : Serves Waits Takes a b) : S.Next a.1 b.1 := by
  cases h with
  | goes before after hp hp' h => exact .run before after (htakes h)
  | joins before after hp hp' h => exact .run before after (htakes h)
  | leaves before after hp hp' h => exact .run before after (htakes h)

/-- Whatever a process that does not wait does next, the line goes on. -/
theorem exists_serves_of_takes {s s' : σ} {p p' : τ} {before : List τ} (after : List τ)
    (hp : ¬ Waits p) (h : Takes before.length s p s' p') (line : List ℕ) :
    ∃ line', Serves Waits Takes (⟨s, before ++ p :: after⟩, line)
      (⟨s', before ++ p' :: after⟩, line') := by
  by_cases hp' : Waits p'
  · exact ⟨_, .joins before after hp hp' h⟩
  · exact ⟨_, .goes before after hp hp' h⟩

/-- The head of a line waits. -/
theorem InLine.exists_head {processes : List τ} {place : ℕ} {line : List ℕ}
    (h : InLine Waits processes (place :: line)) :
    ∃ before p after, processes = before ++ p :: after ∧ before.length = place ∧ Waits p := by
  obtain ⟨p, hp, hwaits⟩ := (h.mem_iff place).1 List.mem_cons_self
  obtain ⟨before, after, hsplit, hlength⟩ := exists_append_of_getElem? hp
  exact ⟨before, p, after, hsplit, hlength, hwaits⟩

end

/-! ### Progress -/

/-- How far all processes together are from their ends. -/
def totalRank (rank : τ → ℕ) (processes : List τ) : ℕ :=
  (processes.map rank).sum

theorem totalRank_middle_lt {rank : τ → ℕ} {p p' : τ} (h : rank p' < rank p)
    (before after : List τ) :
    totalRank rank (before ++ p' :: after) < totalRank rank (before ++ p :: after) := by
  simp only [totalRank, List.map_append, List.map_cons, List.sum_append, List.sum_cons]
  omega

/-- A step leaves every process at its place. -/
theorem Serves.length_eq {Waits : τ → Prop} {Takes : ℕ → σ → τ → σ → τ → Prop}
    {a b : State σ τ × List ℕ} (h : Serves Waits Takes a b) :
    b.1.processes.length = a.1.processes.length := by
  cases h <;> simp only [List.length_append, List.length_cons]

section

variable {S : System σ τ} {Waits : τ → Prop} {Takes : ℕ → σ → τ → σ → τ → Prop} {rank : τ → ℕ}

/-- **The line can go on** while some process is not done: a process that does not wait takes a
step, or else the head of the line does. -/
theorem System.Reachable.exists_serves
    (hgoes : ∀ {state}, S.Reachable state → ∀ place, ∀ p ∈ state.processes, ¬ Waits p →
      rank p ≠ 0 → ∃ s' p', Takes place state.shared p s' p' ∧ rank p' < rank p)
    (hleaves : ∀ {state}, S.Reachable state →
      (∀ p ∈ state.processes, rank p ≠ 0 → Waits p) → ∀ place, ∀ p ∈ state.processes, Waits p →
        ∃ s' p', Takes place state.shared p s' p' ∧ ¬ Waits p' ∧ rank p' < rank p)
    {state : State σ τ} (h : S.Reachable state) {line : List ℕ}
    (hline : InLine Waits state.processes line) (hopen : ∃ p ∈ state.processes, rank p ≠ 0) :
    ∃ state' line', Serves Waits Takes (state, line) (state', line') ∧
      totalRank rank state'.processes < totalRank rank state.processes := by
  obtain ⟨s, processes⟩ := state
  by_cases hready : ∃ p ∈ processes, ¬ Waits p ∧ rank p ≠ 0
  · obtain ⟨p, hp, hwait, hne⟩ := hready
    obtain ⟨before, after, rfl⟩ := List.append_of_mem hp
    obtain ⟨s', p', htake, hlt⟩ := hgoes h before.length p hp hwait hne
    obtain ⟨line', hserves⟩ := exists_serves_of_takes after hwait htake line
    exact ⟨_, line', hserves, totalRank_middle_lt hlt before after⟩
  · -- Only waiting processes are left, so the line has a head.
    have honly : ∀ p ∈ processes, rank p ≠ 0 → Waits p := fun p hp hne ↦
      Classical.not_not.1 fun hwait ↦ hready ⟨p, hp, hwait, hne⟩
    cases line with
    | nil =>
      obtain ⟨p, hp, hne⟩ := hopen
      obtain ⟨place, hplace⟩ := List.getElem?_of_mem hp
      exact absurd ((hline.mem_iff place).2 ⟨p, hplace, honly p hp hne⟩) List.not_mem_nil
    | cons place line =>
      obtain ⟨before, p, after, hsplit, rfl, hwait⟩ := hline.exists_head
      obtain rfl : processes = before ++ p :: after := hsplit
      obtain ⟨s', p', htake, hwait', hlt⟩ := hleaves h honly before.length p
        (List.mem_append_right _ List.mem_cons_self) hwait
      exact ⟨_, line, .leaves before after hwait hwait' htake,
        totalRank_middle_lt hlt before after⟩

/-- **A run can be completed in line**, from every line of the processes that wait, when in every
reachable state a process that does not wait and is not done can come closer to its end, and each
process that waits can as soon as no other is left. No process arrives meanwhile. -/
theorem System.Reachable.exists_served
    (htakes : ∀ {place s p s' p'}, Takes place s p s' p' → S.Step s p s' p')
    (hwaits : ∀ {p}, Waits p → rank p ≠ 0)
    (hgoes : ∀ {state}, S.Reachable state → ∀ place, ∀ p ∈ state.processes, ¬ Waits p →
      rank p ≠ 0 → ∃ s' p', Takes place state.shared p s' p' ∧ rank p' < rank p)
    (hleaves : ∀ {state}, S.Reachable state →
      (∀ p ∈ state.processes, rank p ≠ 0 → Waits p) → ∀ place, ∀ p ∈ state.processes, Waits p →
        ∃ s' p', Takes place state.shared p s' p' ∧ ¬ Waits p' ∧ rank p' < rank p)
    {state : State σ τ} (h : S.Reachable state) {line : List ℕ}
    (hline : InLine Waits state.processes line) :
    ∃ state', Relation.ReflTransGen (Serves Waits Takes) (state, line) (state', []) ∧
      state'.processes.length = state.processes.length ∧ ∀ p ∈ state'.processes, rank p = 0 := by
  induction hrank : totalRank rank state.processes using Nat.strong_induction_on
    generalizing state line with
  | _ total ih =>
    by_cases hdone : ∀ p ∈ state.processes, rank p = 0
    · obtain rfl := hline.eq_nil fun p hp hwait ↦ hwaits hwait (hdone p hp)
      exact ⟨state, .refl, rfl, hdone⟩
    push Not at hdone
    obtain ⟨state', line', hserves, hlt⟩ := h.exists_serves hgoes hleaves hline hdone
    obtain ⟨last, hrun, hlength, hlast⟩ := ih _ (hrank ▸ hlt) (h.tail (hserves.next htakes))
      (hserves.inLine hline) rfl
    exact ⟨last, .head hserves hrun, hlength.trans hserves.length_eq, hlast⟩

end

end Processes
