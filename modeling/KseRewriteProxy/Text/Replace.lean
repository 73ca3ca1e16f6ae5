import KseRewriteProxy.Text.Search

/-!
# Greedy replacement with context

One left-to-right pass over a text that replaces the greedy non-overlapping occurrences of a
needle, where the replacement may depend on the text before and after the occurrence. The pass is
`replaceFrom`; its arguments are the text already consumed and the text still to be read, so a
pass can be resumed in the middle.

Three laws carry every later argument:

* `replaceFrom_skip`: positions where the needle does not start are copied;
* `replaceFrom_match`: an occurrence at the current position is replaced;
* `replaceFrom_congr_seen`: the consumed text matters only through the replacement function.

`replaceFrom_eq_splice` connects the pass with the declarative reading: the input with the text at
its greedy occurrences exchanged, where `Greedy` says what the greedy occurrences are and
`Greedy.unique` that this determines them.
-/

namespace Text

/-- A needle to search for: a non-empty text. -/
structure Needle (α : Type*) where
  /-- The text that is searched for. -/
  toList : List α
  /-- It is not empty. -/
  ne_nil : toList ≠ []

namespace Needle

variable {α : Type*} (s : Needle α)

/-- The number of symbols of a needle. -/
def length : ℕ :=
  s.toList.length

theorem length_pos : 0 < s.length :=
  List.length_pos_iff.2 s.ne_nil

@[simp] theorem toList_length : s.toList.length = s.length :=
  rfl

@[simp] theorem drop_length_append (l : List α) : (s.toList ++ l).drop s.length = l :=
  List.drop_left

end Needle

variable {α : Type*} [DecidableEq α]

/-! ### The pass -/

/-- One greedy pass over `rest` after `seen` has been consumed: each occurrence of `s` is replaced
by what `f` gives for the text before it and the text after it. -/
def replaceFrom (s : Needle α) (f : List α → List α → List α) (seen rest : List α) : List α :=
  match h : find s.toList rest with
  | none => rest
  | some k =>
    have : rest.length - (k + s.length) < rest.length := by
      have := add_length_le_of_find h
      have := s.length_pos
      rw [s.toList_length] at *
      omega
    rest.take k ++ f (seen ++ rest.take k) (rest.drop (k + s.length)) ++
      replaceFrom s f (seen ++ rest.take k ++ s.toList) (rest.drop (k + s.length))
termination_by rest.length
decreasing_by
  rw [List.length_drop]
  exact this

variable {s : Needle α} {f : List α → List α → List α}

/-- Without an occurrence the text is kept. -/
theorem replaceFrom_of_find_none {seen rest : List α} (h : find s.toList rest = none) :
    replaceFrom s f seen rest = rest := by
  rw [replaceFrom]
  split
  · rfl
  · rename_i k hk
    rw [h] at hk
    exact absurd hk (by simp)

/-- At the first occurrence its replacement is put, and the pass goes on behind it. -/
theorem replaceFrom_of_find_some {seen rest : List α} {k : ℕ}
    (h : find s.toList rest = some k) :
    replaceFrom s f seen rest =
      rest.take k ++ f (seen ++ rest.take k) (rest.drop (k + s.length)) ++
        replaceFrom s f (seen ++ rest.take k ++ s.toList) (rest.drop (k + s.length)) := by
  conv_lhs => rw [replaceFrom]
  split
  · rename_i hk
    rw [h] at hk
    exact absurd hk (by simp)
  · rename_i k' hk
    rw [h] at hk
    obtain rfl := Option.some.inj hk
    rfl

@[simp] theorem replaceFrom_nil (seen : List α) : replaceFrom s f seen [] = [] :=
  replaceFrom_of_find_none (by simp [find, s.ne_nil])

/-- **An occurrence at the current position is replaced.** -/
theorem replaceFrom_match (seen rest : List α) :
    replaceFrom s f seen (s.toList ++ rest) =
      f seen rest ++ replaceFrom s f (seen ++ s.toList) rest := by
  have h : find s.toList (s.toList ++ rest) = some 0 := find_of_prefix (List.prefix_append _ _)
  rw [replaceFrom_of_find_some h]
  simp

/-- **Positions where the needle does not start are copied.** -/
theorem replaceFrom_skip {seen rest : List α} {e : ℕ} (he : e ≤ rest.length)
    (h : ∀ j < e, ¬ s.toList <+: rest.drop j) :
    replaceFrom s f seen rest =
      rest.take e ++ replaceFrom s f (seen ++ rest.take e) (rest.drop e) := by
  have hfind := find_drop he h
  rcases hk : find s.toList (rest.drop e) with - | k
  · rw [hk, Option.map_none] at hfind
    rw [replaceFrom_of_find_none hfind, replaceFrom_of_find_none hk, List.take_append_drop]
  · rw [hk, Option.map_some, Nat.add_comm] at hfind
    rw [replaceFrom_of_find_some hfind, replaceFrom_of_find_some hk]
    simp only [List.take_add, List.drop_drop, List.append_assoc, Nat.add_assoc]

/-- A symbol at which the needle does not start is copied. -/
theorem replaceFrom_cons {seen rest : List α} {a : α} (h : ¬ s.toList <+: a :: rest) :
    replaceFrom s f seen (a :: rest) = a :: replaceFrom s f (seen ++ [a]) rest := by
  have hskip : ∀ j < 1, ¬ s.toList <+: (a :: rest).drop j := by
    intro j hj
    obtain rfl : j = 0 := by omega
    exact h
  rw [replaceFrom_skip (by simp) hskip]
  rfl

/-- **The consumed text matters only through the replacement function.** -/
theorem replaceFrom_congr_seen {seen₁ seen₂ rest : List α}
    (h : ∀ x y, f (seen₁ ++ x) y = f (seen₂ ++ x) y) :
    replaceFrom s f seen₁ rest = replaceFrom s f seen₂ rest := by
  induction hn : rest.length using Nat.strongRecOn generalizing seen₁ seen₂ rest with
  | ind n ih =>
    subst hn
    rcases hk : find s.toList rest with - | k
    · rw [replaceFrom_of_find_none hk, replaceFrom_of_find_none hk]
    · have hlen := add_length_le_of_find hk
      have hpos := s.length_pos
      rw [s.toList_length] at hlen
      rw [replaceFrom_of_find_some hk, replaceFrom_of_find_some hk, h]
      congr 1
      refine ih _ ?_ (fun x y ↦ ?_) rfl
      · rw [List.length_drop]
        omega
      · simp only [List.append_assoc]
        exact h _ _

/-! ### Greedy occurrences -/

/-- `ms` are the greedy occurrences of `s` in `input` from position `pos` on: each is the first
occurrence at or after the end of the one before it, and none is left after the last. -/
def Greedy (s : Needle α) (input : List α) : ℕ → List ℕ → Prop
  | pos, [] => ∀ j, pos ≤ j → ¬ s.toList <+: input.drop j
  | pos, m :: ms =>
    pos ≤ m ∧ s.toList <+: input.drop m ∧ (∀ j, pos ≤ j → j < m → ¬ s.toList <+: input.drop j) ∧
      Greedy s input (m + s.length) ms

omit [DecidableEq α] in
/-- **The greedy occurrences are determined.** -/
theorem Greedy.unique {input : List α} {pos : ℕ} {ms ms' : List ℕ} (h : Greedy s input pos ms)
    (h' : Greedy s input pos ms') : ms = ms' := by
  induction ms generalizing pos ms' with
  | nil =>
    cases ms' with
    | nil => rfl
    | cons m' ms' => exact absurd h'.2.1 (h m' h'.1)
  | cons m ms ih =>
    cases ms' with
    | nil => exact absurd h.2.1 (h' m h.1)
    | cons m' ms' =>
      obtain ⟨hle, hocc, hmin, htail⟩ := h
      obtain ⟨hle', hocc', hmin', htail'⟩ := h'
      have heq : m = m' := by
        rcases Nat.lt_trichotomy m m' with hlt | heq | hlt
        · exact absurd hocc (hmin' m hle hlt)
        · exact heq
        · exact absurd hocc' (hmin m' hle' hlt)
      subst heq
      rw [ih htail htail']

/-- The input with the `len` symbols at each listed position exchanged for `f` of the position,
read from position `pos` on. -/
def splice (input : List α) (len : ℕ) (f : ℕ → List α) : ℕ → List ℕ → List α
  | pos, [] => input.drop pos
  | pos, m :: ms => (input.take m).drop pos ++ f m ++ splice input len f (m + len) ms

omit [DecidableEq α] in
/-- The positions of the greedy occurrences lie at or after the position where they were sought. -/
theorem Greedy.le_of_mem {input : List α} {pos : ℕ} {ms : List ℕ} (h : Greedy s input pos ms)
    {m : ℕ} (hm : m ∈ ms) : pos ≤ m := by
  induction ms generalizing pos with
  | nil => exact absurd hm (by simp)
  | cons k ms ih =>
    obtain ⟨hle, -, -, htail⟩ := h
    rcases List.mem_cons.1 hm with rfl | hm
    · exact hle
    · have := ih htail hm
      omega

omit [DecidableEq α] in
/-- A splice that only inserts copies the text up to the next position. -/
theorem splice_zero_advance {input : List α} {g : ℕ → List α} {pos pos' : ℕ} {ms : List ℕ}
    (hpos : pos ≤ pos') (hms : ∀ m ∈ ms, pos' ≤ m) :
    splice input 0 g pos ms = (input.take pos').drop pos ++ splice input 0 g pos' ms := by
  cases ms with
  | nil =>
    simp only [splice]
    rw [List.drop_take, show pos' = pos + (pos' - pos) by omega, ← List.drop_drop,
      Nat.add_sub_cancel_left, List.take_append_drop]
  | cons m ms =>
    have hm := hms m (List.mem_cons_self ..)
    have hcopy : (input.take m).drop pos =
        (input.take pos').drop pos ++ (input.take m).drop pos' := by
      rw [List.drop_take, List.drop_take, List.drop_take,
        show m - pos = (pos' - pos) + (m - pos') by omega, List.take_add, List.drop_drop,
        show pos + (pos' - pos) = pos' by omega]
    simp only [splice, hcopy, List.append_assoc]

omit [DecidableEq α] in
/-- **Replacing each occurrence by something that ends with it is an insertion**: the input is
copied, and the new text stands directly before the occurrences. -/
theorem Greedy.splice_append_eq {input : List α} {g : ℕ → List α} {pos : ℕ} {ms : List ℕ}
    (h : Greedy s input pos ms) :
    splice input s.length (fun m ↦ g m ++ s.toList) pos ms = splice input 0 g pos ms := by
  induction ms generalizing pos with
  | nil => rfl
  | cons m ms ih =>
    obtain ⟨-, hocc, -, htail⟩ := h
    have hsource : (input.take (m + s.length)).drop m = s.toList := by
      rw [List.drop_take, Nat.add_sub_cancel_left]
      exact (List.prefix_iff_eq_take.1 hocc).symm
    have hadvance : splice input 0 g m ms =
        s.toList ++ splice input 0 g (m + s.length) ms := by
      rw [splice_zero_advance (Nat.le_add_right m s.length) fun k hk ↦ htail.le_of_mem hk,
        hsource]
    simp only [splice, ih htail, Nat.add_zero, hadvance, List.append_assoc]

omit [DecidableEq α] in
/-- **Replacing each occurrence by something that begins with it is an insertion** as well: the new
text stands directly after the occurrences. -/
theorem Greedy.splice_prepend_eq {input : List α} {pos : ℕ} {ms : List ℕ}
    (h : Greedy s input pos ms) (g : ℕ → List α) :
    splice input s.length (fun m ↦ s.toList ++ g (m + s.length)) pos ms =
      splice input 0 g pos (ms.map (· + s.length)) := by
  induction ms generalizing pos with
  | nil => rfl
  | cons m ms ih =>
    obtain ⟨hle, hocc, -, htail⟩ := h
    have hm : m ≤ input.length := by
      have hlen := hocc.length_le
      have hpos := s.length_pos
      rw [List.length_drop, s.toList_length] at hlen
      omega
    have hcopy : (input.take (m + s.length)).drop pos = (input.take m).drop pos ++ s.toList := by
      rw [List.take_add, List.drop_append_of_le_length (by rw [List.length_take]; omega)]
      exact congrArg _ (List.prefix_iff_eq_take.1 hocc).symm
    simp only [splice, List.map_cons, Nat.add_zero, ih htail, hcopy, List.append_assoc]

omit [DecidableEq α] in
/-- A splice that only inserts keeps the input, in order. -/
theorem Greedy.sublist_splice {input : List α} {pos : ℕ} {ms : List ℕ}
    (h : Greedy s input pos ms) (g : ℕ → List α) :
    (input.drop pos).Sublist (splice input 0 g pos ms) := by
  induction ms generalizing pos with
  | nil => exact List.Sublist.refl _
  | cons m ms ih =>
    obtain ⟨hle, -, -, htail⟩ := h
    have hcopy : ∀ {a b : ℕ}, a ≤ b → input.drop a = (input.take b).drop a ++ input.drop b :=
      fun hab ↦ splice_zero_advance (g := g) hab fun _ hm ↦ absurd hm List.not_mem_nil
    simp only [splice, Nat.add_zero, List.append_assoc]
    rw [hcopy hle, hcopy (Nat.le_add_right m s.length),
      splice_zero_advance (Nat.le_add_right m s.length) fun k hk ↦ htail.le_of_mem hk]
    exact (List.Sublist.refl _).append
      (List.sublist_append_of_sublist_right ((List.Sublist.refl _).append (ih htail)))

/-- **The pass exchanges exactly the greedy occurrences.** -/
theorem replaceFrom_eq_splice (s : Needle α) (f : List α → List α → List α) (input : List α)
    {pos : ℕ} (hpos : pos ≤ input.length) :
    ∃ ms, Greedy s input pos ms ∧
      replaceFrom s f (input.take pos) (input.drop pos) =
        splice input s.length (fun m ↦ f (input.take m) (input.drop (m + s.length))) pos ms := by
  induction hn : input.length - pos using Nat.strongRecOn generalizing pos with
  | ind n ih =>
    subst hn
    rcases hk : find s.toList (input.drop pos) with - | k
    · refine ⟨[], fun j hj ↦ ?_, replaceFrom_of_find_none hk⟩
      have := find_eq_none_iff.1 hk (j - pos)
      rwa [List.drop_drop, show pos + (j - pos) = j by omega] at this
    · have hlen := add_length_le_of_find hk
      have hspos := s.length_pos
      rw [s.toList_length, List.length_drop] at hlen
      obtain ⟨-, hocc, hmin⟩ := find_eq_some_iff.1 hk
      rw [List.drop_drop] at hocc
      obtain ⟨ms, hms, heq⟩ := ih (input.length - (pos + k + s.length)) (by omega)
        (show pos + k + s.length ≤ input.length by omega) rfl
      refine ⟨(pos + k) :: ms, ⟨by omega, hocc, fun j hj hjm ↦ ?_,
        hms⟩, ?_⟩
      · have := hmin (j - pos) (by omega)
        rwa [List.drop_drop, show pos + (j - pos) = j by omega] at this
      · have htake : input.take pos ++ (input.drop pos).take k = input.take (pos + k) := by
          rw [List.take_add]
        have hseen : input.take (pos + k) ++ s.toList = input.take (pos + k + s.length) := by
          rw [List.take_add (i := pos + k)]
          exact congrArg _ (List.prefix_iff_eq_take.1 hocc)
        rw [replaceFrom_of_find_some hk, htake, hseen, List.drop_drop, ← Nat.add_assoc, heq]
        simp only [splice]
        rw [List.drop_take, show pos + k - pos = k by omega]

end Text
