import Mathlib.Data.List.Infix
import KseRewriteProxy.Text.Segments

/-!
# Passes that one run finishes

When a second run of a pass finds nothing to do. A pass that replaces its needle by one text `x`
leaves no needle in any text exactly if `x` is `Apart` from the needle: it does not contain it, and
does not end with a beginning of it, which the text behind could complete
(`Apart.not_infix_replaceFrom`, `exists_replaceFrom_of_not_apart`). That `x` might end an occurrence
that the text before has begun is no third case, when the needle and `x` begin with a delimiter that
the needle has nowhere else.

The passes that insert `x` behind keys leave a key in front of the root where they have inserted, if
the root begins again at `x`, and nowhere else (`AreKeys.hasKey_foldl_insertPass_iff`).
-/

namespace Text

variable {α : Type*} [DecidableEq α]

/-! ### Texts that no text completes -/

/-- The text `x` neither contains `w` nor ends with a beginning of it. -/
structure Apart (w x : List α) : Prop where
  not_isInfix : ¬ w <:+: x
  not_isPrefix : ∀ y, y ≠ [] → y <:+ x → ¬ y <+: w

instance (w x : List α) : Decidable (Apart w x) :=
  decidable_of_iff (¬ w <:+: x ∧ ∀ y ∈ x.tails, y ≠ [] → ¬ y <+: w)
    ⟨fun h ↦ ⟨h.1, fun y hne hy ↦ h.2 y ((List.mem_tails y x).2 hy) hne⟩,
      fun h ↦ ⟨h.not_isInfix, fun y hy hne ↦ h.not_isPrefix y hne ((List.mem_tails y x).1 hy)⟩⟩

/-- A pass copies such a text. -/
theorem Apart.replaceFrom_append {s : Needle α} {f : List α → List α → List α} {u : List α}
    (h : Apart s.toList u) (seen l : List α) :
    replaceFrom s f seen (u ++ l) = u ++ replaceFrom s f (seen ++ u) l := by
  induction u generalizing seen with
  | nil => simp
  | cons a u ih =>
    have hrest : Apart s.toList u :=
      ⟨fun hinside ↦ h.not_isInfix (hinside.trans (List.suffix_cons a u).isInfix),
        fun y hne hy ↦ h.not_isPrefix y hne (hy.trans (List.suffix_cons a u))⟩
    have hnot : ¬ s.toList <+: a :: (u ++ l) := by
      intro hprefix
      rcases List.prefix_or_prefix_of_prefix hprefix (List.prefix_append (a :: u) l) with hle | hle
      · exact h.not_isInfix hle.isInfix
      · exact h.not_isPrefix (a :: u) (List.cons_ne_nil a u) (List.suffix_refl _) hle
    rw [List.cons_append, replaceFrom_cons hnot, ih hrest]
    simp

omit [DecidableEq α] in
/-- Any other text is completed by a part of `w`. -/
theorem exists_infix_append_of_not_apart {w x : List α} (hw : w ≠ []) (h : ¬ Apart w x) :
    ∃ y m, w = y ++ m ∧ y ≠ [] ∧ w <:+: x ++ m := by
  by_contra hnot
  refine h ⟨fun hinside ↦ hnot ⟨w, [], by simp, hw, by simpa using hinside⟩, ?_⟩
  rintro y hne ⟨z, rfl⟩ ⟨m, rfl⟩
  exact hnot ⟨y, m, rfl, hne, ⟨z, [], by simp⟩⟩

/-! ### Replacing by one text -/

section Constant

variable {s : Needle α} {x : List α}

/-- Every occurrence that a pass replaces changes the length by the same number. -/
theorem exists_length_replaceFrom (seen l : List α) :
    ∃ n, (replaceFrom s (fun _ _ ↦ x) seen l).length + n * s.length =
      l.length + n * x.length := by
  induction l using s.induction generalizing seen with
  | nil => exact ⟨0, by simp⟩
  | occurrence after ih =>
    obtain ⟨n, hn⟩ := ih (seen ++ s.toList)
    refine ⟨n + 1, ?_⟩
    rw [replaceFrom_match, List.length_append, List.length_append, s.toList_length,
      Nat.succ_mul, Nat.succ_mul]
    omega
  | copy a rest h ih =>
    obtain ⟨n, hn⟩ := ih (seen ++ [a])
    refine ⟨n, ?_⟩
    rw [replaceFrom_cons h, List.length_cons, List.length_cons]
    omega

/-- **A pass keeps exactly the texts without its needle**, unless it replaces the needle by
itself. -/
theorem replaceFrom_const_eq_self_iff (hx : x ≠ s.toList) {seen l : List α} :
    replaceFrom s (fun _ _ ↦ x) seen l = l ↔ ¬ s.toList <:+: l := by
  refine ⟨fun h hoccurs ↦ ?_, replaceFrom_of_not_isInfix⟩
  induction l using s.induction generalizing seen with
  | nil => exact absurd (List.infix_nil.1 hoccurs) s.ne_nil
  | occurrence after ih =>
    rw [replaceFrom_match] at h
    obtain ⟨n, hn⟩ := exists_length_replaceFrom (s := s) (x := x) (seen ++ s.toList) after
    have hlen := congrArg List.length h
    rw [List.length_append, List.length_append, s.toList_length] at hlen
    -- the text has the length of the needle, so it is the needle
    have hsame : (n + 1) * x.length = (n + 1) * s.length := by
      rw [Nat.succ_mul, Nat.succ_mul]
      omega
    exact hx (List.append_inj_left h (Nat.eq_of_mul_eq_mul_left n.succ_pos hsame))
  | copy a rest hnot ih =>
    rw [replaceFrom_cons hnot] at h
    rcases List.infix_cons_iff.1 hoccurs with hstart | hrest
    · exact hnot hstart
    · exact ih (List.cons.inj h).2 hrest

/-- A pass that replaces the needle by itself keeps every text. -/
theorem replaceFrom_const_toList (seen l : List α) :
    replaceFrom s (fun _ _ ↦ s.toList) seen l = l := by
  induction l using s.induction generalizing seen with
  | nil => exact replaceFrom_nil seen
  | occurrence after ih => rw [replaceFrom_match, ih]
  | copy a rest h ih => rw [replaceFrom_cons h, ih]

/-- **A pass leaves no needle behind**, if its replacement is apart from it. Both start with a
symbol that the needle has nowhere else. -/
theorem Apart.not_infix_replaceFrom {c : α} {t : List α} (hs : s.toList = c :: t) (ht : c ∉ t)
    (hhead : HeadIn (· = c) x) (h : Apart s.toList x) (seen l : List α) :
    ¬ s.toList <:+: replaceFrom s (fun _ _ ↦ x) seen l := by
  have hleft : s.toList = c :: t ∨ ¬ c :: t <:+: l := Or.inl hs
  rw [hs] at h ⊢
  refine Text.not_infix_replaceFrom (p := (· = c)) ⟨c, t, hs, rfl⟩ (fun _ _ ↦ hhead)
    (fun a ha heq ↦ ht (heq ▸ ha)) (fun _ _ y hne hy m hprefix ↦ ?_) hleft seen
  rcases List.prefix_or_prefix_of_prefix hprefix (List.prefix_append y m) with hle | hle
  · exact h.not_isInfix (hle.isInfix.trans hy.isInfix)
  · exact h.not_isPrefix y hne hy hle

/-- An occurrence in front of a text without the needle. -/
theorem replaceFrom_toList_append {m : List α} (hm : ¬ s.toList <:+: m) (seen : List α) :
    replaceFrom s (fun _ _ ↦ x) seen (s.toList ++ m) = x ++ m := by
  rw [replaceFrom_match, replaceFrom_of_not_isInfix hm]

/-- Otherwise there is a text in which it leaves one: the needle and what completes the replacement
to it again. -/
theorem exists_replaceFrom_of_not_apart (h : ¬ Apart s.toList x) :
    ∃ m, m <:+ s.toList ∧ replaceFrom s (fun _ _ ↦ x) [] (s.toList ++ m) = x ++ m ∧
      s.toList <:+: x ++ m := by
  obtain ⟨y, m, heq, hne, hinside⟩ := exists_infix_append_of_not_apart s.ne_nil h
  have hpos := List.length_pos_iff.2 hne
  have hm : ¬ s.toList <:+: m := by
    intro hm
    have hle := hm.length_le
    rw [heq, List.length_append] at hle
    omega
  exact ⟨m, heq ▸ List.suffix_append y m, replaceFrom_toList_append hm [], hinside⟩

/-- What begins without the symbol that the needle starts with is copied by the pass. -/
theorem append_isPrefix_replaceFrom_iff {c : α} {t u v : List α} (hs : s.toList = c :: t)
    (hhead : HeadIn (· = c) x) (hu : c ∉ u) {seen l : List α} :
    u ++ v <+: replaceFrom s (fun _ _ ↦ x) seen l ↔
      ∃ l', l = u ++ l' ∧ v <+: replaceFrom s (fun _ _ ↦ x) (seen ++ u) l' := by
  have hfree : Free (· = c) u := fun a ha heq ↦ hu (heq ▸ ha)
  have hcopied : ∀ l', replaceFrom s (fun _ _ ↦ x) seen (u ++ l') =
      u ++ replaceFrom s (fun _ _ ↦ x) (seen ++ u) l' := fun l' ↦
    replaceFrom_append_of_free (p := (· = c)) hs rfl hfree seen l'
  constructor
  · intro h
    have hprefix := (List.prefix_append u v).trans h
    rw [prefix_replaceFrom_iff (p := (· = c)) ⟨c, t, hs, rfl⟩ (fun _ _ ↦ hhead) hfree] at hprefix
    obtain ⟨l', rfl⟩ := hprefix
    rw [hcopied, List.prefix_append_right_inj] at h
    exact ⟨l', rfl, h⟩
  · rintro ⟨l', rfl, h⟩
    rw [hcopied]
    exact (List.prefix_append_right_inj u).2 h

/-- **What the replacement does not begin is copied by the pass** up to the next symbol that can
start a replacement. -/
theorem exists_of_cons_append_isPrefix_replaceFrom {c : α} {t u v : List α}
    (hs : s.toList = c :: t) (hhead : HeadIn (· = c) x) (hu : c ∉ u)
    (hleft : ¬ c :: (u ++ v) <+: x) (hright : ¬ x <+: c :: (u ++ v)) {seen l : List α}
    (h : c :: (u ++ v) <+: replaceFrom s (fun _ _ ↦ x) seen l) :
    ∃ l' seen', l = c :: (u ++ l') ∧ v <+: replaceFrom s (fun _ _ ↦ x) seen' l' := by
  induction l using s.induction generalizing seen with
  | nil =>
    rw [replaceFrom_nil] at h
    exact absurd (List.prefix_nil.1 h) (List.cons_ne_nil _ _)
  | occurrence after ih =>
    rw [replaceFrom_match] at h
    rcases List.prefix_or_prefix_of_prefix h (List.prefix_append x _) with hle | hle
    · exact absurd hle hleft
    · exact absurd hle hright
  | copy a rest hnot ih =>
    rw [replaceFrom_cons hnot, List.cons_prefix_cons] at h
    obtain ⟨rfl, hrest⟩ := h
    obtain ⟨l', rfl, hv⟩ := (append_isPrefix_replaceFrom_iff hs hhead hu).1 hrest
    exact ⟨l', _, rfl, hv⟩

end Constant

/-! ### Inserting behind keys -/

section Keys

variable {p : α → Prop} {keys : List (α × List α)} {root x : List α}

/-- Somewhere a key stands before `root`. -/
def HasKey (keys : List (α × List α)) (root l : List α) : Prop :=
  ∃ k ∈ keys, (keyNeedle root k).toList <:+: l

instance (keys : List (α × List α)) (root l : List α) : Decidable (HasKey keys root l) :=
  inferInstanceAs (Decidable (∃ k ∈ keys, _))

omit [DecidableEq α] in
/-- A text whose first symbol does not occur does not start. -/
theorem infix_append_iff_of_not_mem {c : α} {t u : List α} (hc : c ∉ u) (l : List α) :
    c :: t <:+: u ++ l ↔ c :: t <:+: l := by
  refine ⟨fun h ↦ ?_, fun h ↦ h.trans (List.suffix_append u l).isInfix⟩
  rcases infix_append_cases h with ⟨y, hne, hy, hprefix⟩ | h
  · obtain ⟨b, y, rfl⟩ := List.exists_cons_of_ne_nil hne
    obtain ⟨rfl, -⟩ := List.cons_prefix_cons.1 hprefix
    exact absurd (hy.subset List.mem_cons_self) hc
  · exact h

omit [DecidableEq α] in
/-- A delimiter and a piece of a segment occur in a text exactly if they begin a segment of it. -/
theorem cons_infix_append_join_iff {c : α} {t first : List α} {segments : List (α × List α)}
    (hc : p c) (ht : Free p t) (hfirst : Free p first) (hsegments : Segmented p segments) :
    c :: t <:+: first ++ join segments ↔ ∃ seg, (c, seg) ∈ segments ∧ t <+: seg := by
  rw [infix_append_iff_of_not_mem fun hmem ↦ hfirst c hmem hc]
  induction segments with
  | nil => exact iff_of_false (by simp [join]) (by simp)
  | cons q segments ih =>
    obtain ⟨d, seg⟩ := q
    obtain ⟨⟨-, hseg⟩, htail⟩ := segmented_cons.1 hsegments
    rw [join_cons, List.infix_cons_iff, List.cons_prefix_cons, isPrefix_append_join ht htail,
      infix_append_iff_of_not_mem fun hmem ↦ hseg c hmem hc, ih htail]
    constructor
    · rintro (⟨rfl, hprefix⟩ | ⟨seg', hmem, hprefix⟩)
      · exact ⟨seg, List.mem_cons_self, hprefix⟩
      · exact ⟨seg', List.mem_cons_of_mem _ hmem, hprefix⟩
    · rintro ⟨seg', hmem, hprefix⟩
      rcases List.mem_cons.1 hmem with heq | hmem
      · obtain ⟨rfl, rfl⟩ := Prod.mk.inj heq
        exact Or.inl ⟨rfl, hprefix⟩
      · exact Or.inr ⟨seg', hmem, hprefix⟩

/-- The segment begins with a key and `root`. -/
def StartsWithKey (keys : List (α × List α)) (root : List α) (s : α × List α) : Prop :=
  ∃ w, (s.1, w) ∈ keys ∧ w ++ root <+: s.2

omit [DecidableEq α] in
/-- A rooted key is in some segment. -/
theorem hasKey_append_join_iff (h : AreKeys p keys) (hroot : Free p root) {first : List α}
    {segments : List (α × List α)} (hfirst : Free p first) (hsegments : Segmented p segments) :
    HasKey keys root (first ++ join segments) ↔ ∃ s ∈ segments, StartsWithKey keys root s := by
  have hkey : ∀ k ∈ keys, ((keyNeedle root k).toList <:+: first ++ join segments ↔
      ∃ seg, (k.1, seg) ∈ segments ∧ k.2 ++ root <+: seg) := by
    intro k hk
    obtain ⟨hdelim, hfree⟩ := h.delimiter k hk
    exact cons_infix_append_join_iff hdelim (free_append.2 ⟨hfree, hroot⟩) hfirst hsegments
  constructor
  · rintro ⟨k, hk, hinside⟩
    obtain ⟨seg, hmem, hprefix⟩ := (hkey k hk).1 hinside
    exact ⟨(k.1, seg), hmem, k.2, hk, hprefix⟩
  · rintro ⟨s, hs, w, hw, hprefix⟩
    exact ⟨(s.1, w), hw, (hkey (s.1, w) hw).2 ⟨s.2, hs, hprefix⟩⟩

/-- What all passes make of a segment begins with a key and `root` again. -/
theorem AreKeys.startsWithKey_stepAll_iff (h : AreKeys p keys) (s : α × List α) :
    StartsWithKey keys root (stepAll keys root x s) ↔
      StartsWithKey keys root s ∧ root <+: x ++ root := by
  obtain ⟨c, seg⟩ := s
  by_cases hkey : StartsWithKey keys root (c, seg)
  · rw [and_iff_right hkey]
    obtain ⟨w, hw, rest, hrest⟩ := hkey
    have hstep : stepAll keys root x (c, seg) = (c, w ++ (x ++ (root ++ rest))) := by
      obtain rfl : w ++ root ++ rest = seg := hrest
      rw [List.append_assoc]
      exact h.stepAll_of_mem hw
    rw [hstep]
    constructor
    · rintro ⟨w', hw', hprefix⟩
      -- behind the delimiter there is no other key
      obtain rfl : w' = w := h.eq_of_isPrefix_of_isPrefix hw' hw
        ((List.prefix_append w' root).trans hprefix) (List.prefix_append w _)
      have hroot := (List.prefix_append_right_inj w').1 hprefix
      rw [← List.append_assoc] at hroot
      exact List.prefix_of_prefix_length_le hroot (List.prefix_append _ rest) (by simp)
    · intro hroot
      have hagain : root <+: x ++ (root ++ rest) := by
        rw [← List.append_assoc]
        exact hroot.trans (List.prefix_append _ rest)
      exact ⟨w, hw, (List.prefix_append_right_inj w).2 hagain⟩
  · have hnot : ∀ w, (c, w) ∈ keys → ¬ w ++ root <+: seg := fun w hw hprefix ↦
      hkey ⟨w, hw, hprefix⟩
    rw [stepAll_of_forall_not hnot]
    exact iff_of_false hkey fun h ↦ hkey h.1

/-- Rewriting all keys keeps the segments. -/
theorem Segmented.map_stepAll {segments : List (α × List α)} (h : Segmented p segments)
    (hkeys : ∀ k ∈ keys, p k.1 ∧ Free p k.2) (hroot : Free p root) (hx : Free p x) :
    Segmented p (segments.map (stepAll keys root x)) := by
  induction keys generalizing segments with
  | nil =>
    show Segmented p (segments.map fun s ↦ s)
    rwa [List.map_id']
  | cons k keys ih =>
    obtain ⟨⟨-, hfree⟩, hkeys⟩ := List.forall_mem_cons.1 hkeys
    have hstep := h.map_stepSegment (d := k.1) (t := k.2 ++ root)
      (free_append.2 ⟨free_append.2 ⟨hfree, hx⟩, hroot⟩)
    have hrest := ih hstep hkeys
    rw [List.map_map] at hrest
    exact hrest

/-- **What the passes leave**: a key stands before `root` again exactly if there was one and `root`
begins at the inserted text. -/
theorem AreKeys.hasKey_foldl_insertPass_iff (h : AreKeys p keys) (hroot : Free p root)
    (hx : Free p x) (l : List α) :
    HasKey keys root (keys.foldl (insertPass root x) l) ↔
      HasKey keys root l ∧ root <+: x ++ root := by
  obtain ⟨first, segments, hfirst, hsegments, rfl⟩ := exists_eq_append_join p l
  have hsteps := hsegments.map_stepAll h.delimiter hroot hx
  rw [foldl_insertPass_join h.delimiter hroot hx hfirst hsegments,
    hasKey_append_join_iff h hroot hfirst hsteps, hasKey_append_join_iff h hroot hfirst hsegments]
  constructor
  · rintro ⟨s', hs', hstart⟩
    obtain ⟨s, hs, rfl⟩ := List.mem_map.1 hs'
    obtain ⟨hstart, hagain⟩ := (h.startsWithKey_stepAll_iff s).1 hstart
    exact ⟨⟨s, hs, hstart⟩, hagain⟩
  · rintro ⟨⟨s, hs, hstart⟩, hagain⟩
    exact ⟨_, List.mem_map_of_mem hs, (h.startsWithKey_stepAll_iff s).2 ⟨hstart, hagain⟩⟩

end Keys

end Text
