import Mathlib.Data.List.Basic

/-!
# Searching and splitting text

Plain search on lists over an arbitrary alphabet: the leftmost occurrence of a needle, and the
splitting operations built from it. Nothing here knows what is searched or why.

`find` is the executable search. Its two characterizations, `find_eq_some_iff` and
`find_eq_none_iff`, say that it returns the leftmost occurrence and fails exactly when there is
none; everything below uses only these two.

The streaming facts are at the end: an occurrence that is found stays the leftmost one when text
is appended (`find_append_of_some`), and a text without an occurrence can only acquire one in its
last `s.length - 1` positions (`not_prefix_drop_append`).
-/

namespace Text

variable {α : Type*} [DecidableEq α]

/-! ### The leftmost occurrence -/

/-- The position of the leftmost occurrence of `s`. -/
def find (s : List α) : List α → Option ℕ
  | [] => if s = [] then some 0 else none
  | a :: l => if s <+: a :: l then some 0 else (find s l).map (· + 1)

/-- **The search returns the leftmost occurrence.** -/
theorem find_eq_some_iff {s l : List α} {k : ℕ} :
    find s l = some k ↔ k ≤ l.length ∧ s <+: l.drop k ∧ ∀ j < k, ¬ s <+: l.drop j := by
  induction l generalizing k with
  | nil =>
    by_cases hs : s = []
    · subst hs
      simp only [find, if_true, Option.some.injEq, List.length_nil, List.drop_nil]
      constructor
      · rintro rfl
        simp
      · rintro ⟨hk, -, -⟩
        omega
    · simp [find, hs]
  | cons a l ih =>
    rw [find]
    by_cases hp : s <+: a :: l
    · rw [if_pos hp]
      constructor
      · rintro ⟨⟩
        exact ⟨Nat.zero_le _, hp, fun j hj ↦ absurd hj (Nat.not_lt_zero j)⟩
      · rintro ⟨-, -, hmin⟩
        rcases Nat.eq_zero_or_pos k with rfl | hk
        · rfl
        · exact absurd hp (hmin 0 hk)
    · rw [if_neg hp, Option.map_eq_some_iff]
      constructor
      · rintro ⟨k', hk', rfl⟩
        obtain ⟨hle, hpre, hmin⟩ := ih.1 hk'
        refine ⟨by simpa using hle, hpre, fun j hj ↦ ?_⟩
        cases j with
        | zero => exact hp
        | succ j => exact hmin j (by omega)
      · rintro ⟨hle, hpre, hmin⟩
        cases k with
        | zero => exact absurd hpre hp
        | succ k =>
          exact ⟨k, ih.2 ⟨by simpa using hle, hpre, fun j hj ↦ hmin (j + 1) (by omega)⟩, rfl⟩

/-- **The search fails exactly when there is no occurrence.** -/
theorem find_eq_none_iff {s l : List α} : find s l = none ↔ ∀ j, ¬ s <+: l.drop j := by
  induction l with
  | nil => by_cases hs : s = [] <;> simp [find, hs]
  | cons a l ih =>
    rw [find]
    by_cases hp : s <+: a :: l
    · simp only [if_pos hp, reduceCtorEq, false_iff, not_forall, not_not]
      exact ⟨0, hp⟩
    · rw [if_neg hp, Option.map_eq_none_iff, ih]
      constructor
      · intro h j
        cases j with
        | zero => exact hp
        | succ j => exact h j
      · exact fun h j ↦ h (j + 1)

omit [DecidableEq α] in
/-- An occurrence at some position is an infix. -/
theorem isInfix_iff_exists_prefix_drop {s l : List α} : s <:+: l ↔ ∃ j, s <+: l.drop j := by
  constructor
  · rintro ⟨u, v, rfl⟩
    exact ⟨u.length, by simp⟩
  · rintro ⟨j, h⟩
    exact h.isInfix.trans (List.drop_suffix j l).isInfix

theorem find_eq_none_iff_not_isInfix {s l : List α} : find s l = none ↔ ¬ s <:+: l := by
  rw [find_eq_none_iff, isInfix_iff_exists_prefix_drop, not_exists]

/-- The text around the leftmost occurrence. -/
theorem eq_append_of_find {s l : List α} {k : ℕ} (h : find s l = some k) :
    l = l.take k ++ s ++ l.drop (k + s.length) := by
  obtain ⟨-, ⟨t, ht⟩, -⟩ := find_eq_some_iff.1 h
  have hdrop : l.drop (k + s.length) = t := by
    rw [← List.drop_drop, ← ht, List.drop_left]
  rw [hdrop, List.append_assoc, ht, List.take_append_drop]

theorem add_length_le_of_find {s l : List α} {k : ℕ} (h : find s l = some k) :
    k + s.length ≤ l.length := by
  obtain ⟨hk, hp, -⟩ := find_eq_some_iff.1 h
  have := hp.length_le
  rw [List.length_drop] at this
  omega

/-- A needle that starts the text is found at its start. -/
theorem find_of_prefix {s l : List α} (h : s <+: l) : find s l = some 0 :=
  find_eq_some_iff.2 ⟨Nat.zero_le _, h, fun j hj ↦ absurd hj (Nat.not_lt_zero j)⟩

/-- A search that skips `k` positions without an occurrence is the search from position `k`. -/
theorem find_drop {s l : List α} {k : ℕ} (hk : k ≤ l.length) (h : ∀ j < k, ¬ s <+: l.drop j) :
    find s l = (find s (l.drop k)).map (· + k) := by
  rcases hf : find s (l.drop k) with - | m
  · rw [Option.map_none, find_eq_none_iff]
    intro j
    by_cases hj : j < k
    · exact h j hj
    · have := find_eq_none_iff.1 hf (j - k)
      rwa [List.drop_drop, show k + (j - k) = j by omega] at this
  · obtain ⟨hle, hpre, hmin⟩ := find_eq_some_iff.1 hf
    rw [List.length_drop] at hle
    rw [Option.map_some, find_eq_some_iff]
    refine ⟨by omega, by rwa [List.drop_drop, Nat.add_comm] at hpre, fun j hj ↦ ?_⟩
    by_cases hjk : j < k
    · exact h j hjk
    · have := hmin (j - k) (by omega)
      rwa [List.drop_drop, show k + (j - k) = j by omega] at this

/-! ### Searching a text that still grows -/

/-- **An occurrence that is found stays the leftmost one** when more text arrives. -/
theorem find_append_of_some {s l : List α} {k : ℕ} (h : find s l = some k) (more : List α) :
    find s (l ++ more) = some k := by
  obtain ⟨hk, hpre, hmin⟩ := find_eq_some_iff.1 h
  have hlen := add_length_le_of_find h
  refine find_eq_some_iff.2 ⟨by simp; omega, ?_, fun j hj hp ↦ hmin j hj ?_⟩
  · rw [List.drop_append_of_le_length hk]
    exact hpre.trans (List.prefix_append _ _)
  · rw [List.drop_append_of_le_length (by omega)] at hp
    refine List.prefix_of_prefix_length_le hp (List.prefix_append _ _) ?_
    rw [List.length_drop]
    omega

omit [DecidableEq α] in
/-- **A text without an occurrence acquires one only near its end**: none starts at a position
that already has `s.length` symbols after it. -/
theorem not_prefix_drop_append {s l : List α} {j : ℕ} (h : ¬ s <+: l.drop j)
    (hj : j + s.length ≤ l.length) (more : List α) : ¬ s <+: (l ++ more).drop j := by
  intro hp
  rw [List.drop_append_of_le_length (by omega)] at hp
  refine h (List.prefix_of_prefix_length_le hp (List.prefix_append _ _) ?_)
  rw [List.length_drop]
  omega

/-! ### A symbol that the needle does not have -/

omit [DecidableEq α] in
/-- A text does not go over a symbol that it does not have. -/
theorem isPrefix_append_cons_iff {d : α} {w u l : List α} (hw : d ∉ w) :
    w <+: u ++ d :: l ↔ w <+: u := by
  refine ⟨fun h ↦ ?_, fun h ↦ h.trans (List.prefix_append _ _)⟩
  rcases List.prefix_or_prefix_of_prefix h (List.prefix_append u (d :: l)) with h' | ⟨t, rfl⟩
  · exact h'
  · have ht := (List.prefix_append_right_inj u).1 h
    cases t with
    | nil => simp
    | cons a t =>
      obtain ⟨rfl, -⟩ := List.cons_prefix_cons.1 ht
      exact absurd (List.mem_append_right _ List.mem_cons_self) hw

/-- **Behind a text without the needle the search starts at the symbol.** -/
theorem find_append_cons {d : α} {s u : List α} (hs : d ∉ s) (hu : ¬ s <:+: u) (l : List α) :
    find s (u ++ d :: l) = (find s (d :: l)).map (· + u.length) := by
  have hskip : ∀ j < u.length, ¬ s <+: (u ++ d :: l).drop j := by
    intro j hj hp
    rw [List.drop_append_of_le_length (Nat.le_of_lt hj), isPrefix_append_cons_iff hs] at hp
    exact hu (hp.isInfix.trans (List.drop_suffix j u).isInfix)
  rw [find_drop (by simp) hskip, List.drop_left]

/-! ### Splitting -/

/-- The text after a leading `p`, if it starts with `p`. -/
def stripPrefix (p l : List α) : Option (List α) :=
  if p <+: l then some (l.drop p.length) else none

/-- The text before a trailing `p`, if it ends with `p`. -/
def stripSuffix (p l : List α) : Option (List α) :=
  if p <:+ l then some (l.take (l.length - p.length)) else none

/-- The text before and after the leftmost occurrence of `d`. -/
def splitOnce (d l : List α) : Option (List α × List α) :=
  (find d l).map fun k ↦ (l.take k, l.drop (k + d.length))

/-- The text without the trailing symbols that satisfy `p`. -/
def trimEndMatches (p : α → Bool) (l : List α) : List α :=
  (l.reverse.dropWhile p).reverse

/-- The segments between the separators `d`. -/
def split (d : α) : List α → List (List α)
  | [] => [[]]
  | a :: l =>
    if a = d then [] :: split d l
    else
      match split d l with
      | [] => [[a]]
      | s :: ss => (a :: s) :: ss

/-- The segments hold symbols of the text. -/
theorem mem_of_mem_split {d a : α} {l segment : List α} (h : segment ∈ split d l)
    (ha : a ∈ segment) : a ∈ l := by
  induction l generalizing segment with
  | nil => exact absurd (List.mem_singleton.1 h ▸ ha) List.not_mem_nil
  | cons b l ih =>
    rw [split] at h
    split at h
    · rcases List.mem_cons.1 h with rfl | h
      · exact absurd ha List.not_mem_nil
      · exact List.mem_cons_of_mem _ (ih h ha)
    · split at h
      · exact List.mem_cons.2 (Or.inl (List.mem_singleton.1 (List.mem_singleton.1 h ▸ ha)))
      · rename_i first rest hsplit
        rcases List.mem_cons.1 h with rfl | h
        · -- The segment at the front has grown by the symbol in front of it.
          rcases List.mem_cons.1 ha with rfl | ha
          · exact List.mem_cons_self
          · exact List.mem_cons_of_mem _ (ih (hsplit ▸ List.mem_cons_self) ha)
        · exact List.mem_cons_of_mem _ (ih (hsplit ▸ List.mem_cons_of_mem _ h) ha)

/-- No segment has the separator. -/
theorem not_mem_of_mem_split {d : α} {l segment : List α} (h : segment ∈ split d l) :
    d ∉ segment := by
  induction l generalizing segment with
  | nil =>
    rw [List.mem_singleton.1 h]
    exact List.not_mem_nil
  | cons a l ih =>
    rw [split] at h
    split at h
    · rcases List.mem_cons.1 h with rfl | h
      · exact List.not_mem_nil
      · exact ih h
    · rename_i had
      split at h
      · rw [List.mem_singleton.1 h, List.mem_singleton]
        exact fun hd ↦ had hd.symm
      · rename_i first rest hsplit
        rcases List.mem_cons.1 h with rfl | h
        · exact List.not_mem_cons_of_ne_of_not_mem (fun hd ↦ had hd.symm)
            (ih (hsplit ▸ List.mem_cons_self))
        · exact ih (hsplit ▸ List.mem_cons_of_mem _ h)

theorem split_ne_nil (d : α) (l : List α) : split d l ≠ [] := by
  cases l with
  | nil => exact List.cons_ne_nil _ _
  | cons a l =>
    rw [split]
    split
    · exact List.cons_ne_nil _ _
    · split
      · exact List.cons_ne_nil _ _
      · exact List.cons_ne_nil _ _

theorem split_cons_of_ne {d a : α} (h : a ≠ d) (l : List α) :
    ∃ first rest, split d l = first :: rest ∧ split d (a :: l) = (a :: first) :: rest := by
  obtain ⟨first, rest, hsplit⟩ := List.exists_cons_of_ne_nil (split_ne_nil d l)
  refine ⟨first, rest, hsplit, ?_⟩
  rw [split, if_neg h, hsplit]

/-- A text without a separator is one segment. -/
theorem split_of_not_mem {d : α} {l : List α} (h : d ∉ l) : split d l = [l] := by
  induction l with
  | nil => rfl
  | cons a l ih =>
    obtain ⟨first, rest, hl, hsplit⟩ := split_cons_of_ne
      (fun had ↦ h (had ▸ List.mem_cons_self) : a ≠ d) l
    rw [ih fun hd ↦ h (List.mem_cons_of_mem _ hd)] at hl
    obtain ⟨rfl, rfl⟩ := List.cons.inj hl
    exact hsplit

theorem split_cons_self (d : α) (l : List α) : split d (d :: l) = [] :: split d l := by
  rw [split, if_pos rfl]

/-- **A separator separates the segments before it from those after it.** -/
theorem split_append_cons (d : α) (l m : List α) :
    split d (l ++ d :: m) = split d l ++ split d m := by
  induction l with
  | nil => exact split_cons_self d m
  | cons a l ih =>
    rcases eq_or_ne a d with rfl | had
    · rw [List.cons_append, split_cons_self, ih, split_cons_self, List.cons_append]
    · obtain ⟨first, rest, hl, hsplit⟩ := split_cons_of_ne had l
      obtain ⟨first', rest', hl', hsplit'⟩ := split_cons_of_ne had (l ++ d :: m)
      rw [ih, hl, List.cons_append] at hl'
      obtain ⟨rfl, rfl⟩ := List.cons.inj hl'
      rw [List.cons_append, hsplit', hsplit, List.cons_append]

/-- A text with one segment has no separator. -/
theorem eq_of_split_eq_singleton {d : α} {l segment : List α} (h : split d l = [segment]) :
    l = segment ∧ d ∉ l := by
  have hd : d ∉ l := by
    intro hd
    obtain ⟨u, v, rfl⟩ := List.append_of_mem hd
    have hlen := congrArg List.length h
    have hu := List.length_pos_iff.2 (split_ne_nil d u)
    have hv := List.length_pos_iff.2 (split_ne_nil d v)
    rw [split_append_cons, List.length_append, List.length_singleton] at hlen
    omega
  rw [split_of_not_mem hd] at h
  exact ⟨(List.cons.inj h).1, hd⟩

/-- **Where the segments are cut in two, there is a separator.** -/
theorem exists_of_split_eq_append {d : α} {l : List α} {a b : List (List α)}
    (h : split d l = a ++ b) (ha : a ≠ []) (hb : b ≠ []) :
    ∃ u v, l = u ++ d :: v ∧ split d u = a ∧ split d v = b := by
  induction l generalizing a with
  | nil =>
    have hlen := congrArg List.length h
    have hapos := List.length_pos_iff.2 ha
    have hbpos := List.length_pos_iff.2 hb
    rw [split, List.length_append, List.length_singleton] at hlen
    omega
  | cons x l ih =>
    obtain ⟨first, a, rfl⟩ := List.exists_cons_of_ne_nil ha
    rcases eq_or_ne x d with rfl | hx
    · rw [split_cons_self, List.cons_append] at h
      obtain ⟨rfl, htail⟩ := List.cons.inj h
      rcases eq_or_ne a [] with rfl | hne
      · exact ⟨[], l, rfl, rfl, htail⟩
      · obtain ⟨u, v, rfl, hu, hv⟩ := ih htail hne
        exact ⟨x :: u, v, rfl, by rw [split_cons_self, hu], hv⟩
    · obtain ⟨first', rest, hl, hsplit⟩ := split_cons_of_ne hx l
      rw [hsplit, List.cons_append] at h
      obtain ⟨rfl, rfl⟩ := List.cons.inj h
      obtain ⟨u, v, rfl, hu, hv⟩ := ih (a := first' :: a) hl (List.cons_ne_nil _ _)
      obtain ⟨first'', rest', hu', hsplit'⟩ := split_cons_of_ne hx u
      obtain ⟨rfl, rfl⟩ := List.cons.inj (hu'.symm.trans hu)
      exact ⟨x :: u, v, rfl, hsplit', hv⟩

/-- **The segments** are the stretches between two separators, or between one and an end. -/
theorem mem_split_iff {d : α} {l segment : List α} : segment ∈ split d l ↔
    d ∉ segment ∧ ∃ u v, l = u ++ segment ++ v ∧ (u = [] ∨ [d] <:+ u) ∧ (v = [] ∨ [d] <+: v) := by
  constructor
  · intro hmem
    refine ⟨not_mem_of_mem_split hmem, ?_⟩
    obtain ⟨a, b, hsplit⟩ := List.append_of_mem hmem
    -- what is behind the segments `a`, and in front of the segments `b`
    obtain ⟨u, w, rfl, hw, hu⟩ : ∃ u w, l = u ++ w ∧ split d w = segment :: b ∧
        (u = [] ∨ [d] <:+ u) := by
      by_cases ha : a = []
      · subst ha
        exact ⟨[], l, rfl, hsplit, Or.inl rfl⟩
      · obtain ⟨u, w, rfl, -, hw⟩ := exists_of_split_eq_append hsplit ha (List.cons_ne_nil _ _)
        exact ⟨u ++ [d], w, by simp, hw, Or.inr (List.suffix_append u [d])⟩
    by_cases hb : b = []
    · subst hb
      obtain ⟨rfl, -⟩ := eq_of_split_eq_singleton hw
      exact ⟨u, [], by simp, hu, Or.inl rfl⟩
    · obtain ⟨w, v, rfl, hsegment, -⟩ :=
        exists_of_split_eq_append (a := [segment]) hw (List.cons_ne_nil _ _) hb
      obtain ⟨rfl, -⟩ := eq_of_split_eq_singleton hsegment
      exact ⟨u, d :: v, by simp, hu, Or.inr (List.prefix_append [d] v)⟩
  · rintro ⟨hd, u, v, rfl, hu, hv⟩
    have hright : segment ∈ split d (segment ++ v) := by
      rcases hv with rfl | ⟨v, rfl⟩
      · rw [List.append_nil, split_of_not_mem hd]
        exact List.mem_singleton_self _
      · show segment ∈ split d (segment ++ d :: v)
        rw [split_append_cons, split_of_not_mem hd]
        exact List.mem_cons_self
    rcases hu with rfl | ⟨u, rfl⟩
    · exact hright
    · rw [List.append_assoc, List.append_assoc, List.singleton_append, split_append_cons]
      exact List.mem_append_right _ hright

/-- Text without a separator in front of a text belongs to its first segment. -/
theorem split_append_left {d : α} {z : List α} (hz : d ∉ z) {l first : List α}
    {rest : List (List α)} (h : split d l = first :: rest) :
    split d (z ++ l) = (z ++ first) :: rest := by
  induction z with
  | nil => exact h
  | cons a z ih =>
    have had : a ≠ d := fun had ↦ hz (had ▸ List.mem_cons_self)
    obtain ⟨first', rest', hl, hsplit⟩ := split_cons_of_ne had (z ++ l)
    rw [ih fun hd ↦ hz (List.mem_cons_of_mem _ hd)] at hl
    obtain ⟨rfl, rfl⟩ := List.cons.inj hl
    exact hsplit

/-- Text without a separator behind a text belongs to its last segment. -/
theorem split_append_right {d : α} {z : List α} (hz : d ∉ z) {l last : List α}
    {init : List (List α)} (h : split d l = init ++ [last]) :
    split d (l ++ z) = init ++ [last ++ z] := by
  rcases eq_or_ne init [] with rfl | hne
  · obtain ⟨rfl, hl⟩ := eq_of_split_eq_singleton h
    refine split_of_not_mem fun hd ↦ ?_
    rcases List.mem_append.1 hd with hd | hd
    · exact hl hd
    · exact hz hd
  · obtain ⟨u, v, rfl, hu, hv⟩ := exists_of_split_eq_append h hne (List.cons_ne_nil _ _)
    obtain ⟨rfl, hmem⟩ := eq_of_split_eq_singleton hv
    rw [List.append_assoc, List.cons_append, split_append_cons, hu, split_of_not_mem]
    intro hd
    rcases List.mem_append.1 hd with hd | hd
    · exact hmem hd
    · exact hz hd

theorem stripPrefix_eq_some_iff {p l t : List α} : stripPrefix p l = some t ↔ l = p ++ t := by
  unfold stripPrefix
  constructor
  · intro h
    split at h
    · rename_i hp
      obtain ⟨u, rfl⟩ := hp
      simpa using h
    · simp at h
  · rintro rfl
    simp

theorem stripPrefix_append (p t : List α) : stripPrefix p (p ++ t) = some t :=
  stripPrefix_eq_some_iff.2 rfl

theorem stripSuffix_eq_some_iff {p l t : List α} : stripSuffix p l = some t ↔ l = t ++ p := by
  unfold stripSuffix
  constructor
  · intro h
    split at h
    · rename_i hp
      obtain ⟨u, rfl⟩ := hp
      simpa using h
    · simp at h
  · rintro rfl
    simp

theorem stripSuffix_append (t p : List α) : stripSuffix p (t ++ p) = some t :=
  stripSuffix_eq_some_iff.2 rfl

omit [DecidableEq α] in
/-- What is trimmed at the end. -/
theorem exists_trimEndMatches_append (p : α → Bool) (l : List α) :
    ∃ t, l = trimEndMatches p l ++ t ∧ ∀ a ∈ t, p a = true := by
  refine ⟨(l.reverse.takeWhile p).reverse, ?_, fun a ha ↦ ?_⟩
  · rw [trimEndMatches, ← List.reverse_append, List.takeWhile_append_dropWhile,
      List.reverse_reverse]
  · exact List.all_eq_true.1 List.all_takeWhile a (List.mem_reverse.1 ha)

omit [DecidableEq α] in
/-- Trimming at the end keeps a beginning of the text. -/
theorem trimEndMatches_isPrefix (p : α → Bool) (l : List α) : trimEndMatches p l <+: l := by
  obtain ⟨t, ht, -⟩ := exists_trimEndMatches_append p l
  exact ⟨t, ht.symm⟩

omit [DecidableEq α] in
/-- A trimmed text does not end with a symbol that is trimmed. -/
theorem getLast_trimEndMatches {p : α → Bool} {l : List α} (h : trimEndMatches p l ≠ []) :
    p ((trimEndMatches p l).getLast h) = false := by
  simp only [trimEndMatches, List.getLast_reverse]
  exact List.head_dropWhile_not p _

/-- **Splitting at the leftmost separator.** -/
theorem splitOnce_eq_some_iff {d l u v : List α} :
    splitOnce d l = some (u, v) ↔ l = u ++ d ++ v ∧ ∀ j < u.length, ¬ d <+: l.drop j := by
  unfold splitOnce
  rw [Option.map_eq_some_iff]
  constructor
  · rintro ⟨k, hk, heq⟩
    obtain ⟨rfl, rfl⟩ := Prod.mk.inj heq
    have hlen := add_length_le_of_find hk
    refine ⟨eq_append_of_find hk, fun j hj ↦ (find_eq_some_iff.1 hk).2.2 j ?_⟩
    rw [List.length_take] at hj
    omega
  · rintro ⟨rfl, hmin⟩
    refine ⟨u.length, find_eq_some_iff.2 ⟨by simp, by simp, hmin⟩, ?_⟩
    rw [List.append_assoc, List.take_left, ← List.drop_drop, List.drop_left, List.drop_left]

/-- A text without the separator's first symbol before the separator splits there. -/
theorem splitOnce_of_not_mem {c : α} {d u v : List α} (h : c ∉ u) :
    splitOnce (c :: d) (u ++ (c :: d) ++ v) = some (u, v) := by
  refine splitOnce_eq_some_iff.2 ⟨rfl, fun j hj hp ↦ h ?_⟩
  rw [List.append_assoc, List.drop_append_of_le_length (by omega),
    List.drop_eq_getElem_cons hj, List.cons_append, List.cons_prefix_cons] at hp
  exact hp.1 ▸ List.getElem_mem hj

/-- Splitting at a single symbol: the text before it does not contain it. -/
theorem splitOnce_singleton_eq_some_iff {c : α} {l u v : List α} :
    splitOnce [c] l = some (u, v) ↔ l = u ++ c :: v ∧ c ∉ u := by
  constructor
  · intro h
    obtain ⟨rfl, hmin⟩ := splitOnce_eq_some_iff.1 h
    refine ⟨by simp, fun hc ↦ ?_⟩
    obtain ⟨j, hj, rfl⟩ := List.mem_iff_getElem.1 hc
    refine hmin j hj ?_
    rw [List.append_assoc, List.drop_append_of_le_length (by omega),
      List.drop_eq_getElem_cons hj]
    exact List.prefix_append [u[j]] _
  · rintro ⟨rfl, hc⟩
    have h := splitOnce_of_not_mem (d := []) (v := v) hc
    rwa [List.append_assoc] at h

end Text
