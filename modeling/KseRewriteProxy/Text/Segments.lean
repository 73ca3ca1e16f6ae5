import KseRewriteProxy.Text.Delimiter

/-!
# Segments

A text is cut at its delimiters: `join` puts a delimiter before each segment. A replacement pass
whose needle is one delimiter and a piece of a segment works on every segment alone
(`replaceFrom_join`), because no occurrence reaches across a delimiter.

`insertWhere` inserts a text at all positions of a text that satisfy a condition, at once. The main
result, `foldl_insertPass_eq_insertWhere`, is about passes that insert the same text behind
different keys, each a delimiter and a piece of a segment: one after the other, in any order, they
insert it at all positions behind a key at once.

`AreKeys` is what makes the passes independent: no key begins another, so at most one key begins a
segment, and what a pass inserts has no delimiter, so it makes no new key.
-/

namespace Text

variable {α : Type*} [DecidableEq α] {p : α → Prop}

/-! ### Cutting at delimiters -/

/-- A text without a delimiter. -/
def Free (p : α → Prop) (l : List α) : Prop :=
  ∀ a ∈ l, ¬ p a

instance [DecidablePred p] (l : List α) : Decidable (Free p l) :=
  decidable_of_iff (l.all (fun a ↦ !decide (p a)) = true) (by simp [Free])

/-- Segments, each behind its delimiter. -/
def join (segments : List (α × List α)) : List α :=
  segments.flatMap fun s ↦ s.1 :: s.2

/-- Segments behind delimiters, without delimiters in them. -/
def Segmented (p : α → Prop) (segments : List (α × List α)) : Prop :=
  ∀ s ∈ segments, p s.1 ∧ Free p s.2

omit [DecidableEq α] in
theorem free_append {l m : List α} : Free p (l ++ m) ↔ Free p l ∧ Free p m := by
  simp only [Free, List.mem_append, or_imp, forall_and]

omit [DecidableEq α] in
theorem free_cons {a : α} {l : List α} : Free p (a :: l) ↔ ¬ p a ∧ Free p l :=
  List.forall_mem_cons

omit [DecidableEq α] in
@[simp] theorem join_cons (s : α × List α) (segments : List (α × List α)) :
    join (s :: segments) = s.1 :: (s.2 ++ join segments) :=
  rfl

omit [DecidableEq α] in
theorem segmented_cons {s : α × List α} {segments : List (α × List α)} :
    Segmented p (s :: segments) ↔ (p s.1 ∧ Free p s.2) ∧ Segmented p segments :=
  List.forall_mem_cons

omit [DecidableEq α] in
/-- **Every text is a text without a delimiter and segments behind it.** -/
theorem exists_eq_append_join (p : α → Prop) (l : List α) :
    ∃ first segments, Free p first ∧ Segmented p segments ∧ l = first ++ join segments := by
  induction l with
  | nil =>
    exact ⟨[], [], fun _ h ↦ absurd h List.not_mem_nil, fun _ h ↦ absurd h List.not_mem_nil, rfl⟩
  | cons a l ih =>
    obtain ⟨first, segments, hfirst, hsegments, rfl⟩ := ih
    by_cases ha : p a
    · exact ⟨[], (a, first) :: segments, fun _ h ↦ absurd h List.not_mem_nil,
        segmented_cons.2 ⟨⟨ha, hfirst⟩, hsegments⟩, rfl⟩
    · exact ⟨a :: first, segments, free_cons.2 ⟨ha, hfirst⟩, hsegments, rfl⟩

omit [DecidableEq α] in
/-- A text without a delimiter does not reach into the next segment. -/
theorem isPrefix_append_join {w l : List α} {segments : List (α × List α)} (hw : Free p w)
    (hsegments : Segmented p segments) : w <+: l ++ join segments ↔ w <+: l := by
  refine ⟨fun h ↦ ?_, fun h ↦ h.trans (List.prefix_append _ _)⟩
  rcases List.prefix_or_prefix_of_prefix h (List.prefix_append l _) with h' | ⟨t, rfl⟩
  · exact h'
  · have ht := (List.prefix_append_right_inj l).1 h
    rcases segments with - | ⟨s, segments⟩
    · obtain rfl := List.prefix_nil.1 ht
      exact ⟨[], by simp⟩
    · rcases t with - | ⟨a, t⟩
      · exact ⟨[], by simp⟩
      · rw [join_cons, List.cons_prefix_cons] at ht
        obtain ⟨rfl, -⟩ := ht
        exact absurd (hsegments s List.mem_cons_self).1
          (hw _ (List.mem_append_right _ List.mem_cons_self))

omit [DecidableEq α] in
/-- The last delimiter of a text, and what stands behind it, are determined by the text. -/
theorem cons_isSuffix_append_cons_iff {d c : α} {t v seen : List α} (hd : p d) (hc : p c)
    (ht : Free p t) (hv : Free p v) : d :: t <:+ seen ++ c :: v ↔ d = c ∧ t = v := by
  constructor
  · rintro ⟨z, hz⟩
    rcases List.append_eq_append_iff.1 hz with ⟨u, -, hu⟩ | ⟨u, -, hu⟩
    · rcases u with - | ⟨b, u⟩
      · obtain ⟨rfl, rfl⟩ := List.cons.inj hu
        exact ⟨rfl, rfl⟩
      · obtain ⟨-, rfl⟩ := List.cons.inj hu
        exact absurd hc (ht c (List.mem_append_right _ List.mem_cons_self))
    · rcases u with - | ⟨b, u⟩
      · obtain ⟨rfl, rfl⟩ := List.cons.inj hu
        exact ⟨rfl, rfl⟩
      · obtain ⟨-, rfl⟩ := List.cons.inj hu
        exact absurd hd (hv d (List.mem_append_right _ List.mem_cons_self))
  · rintro ⟨rfl, rfl⟩
    exact List.suffix_append _ _

/-! ### A pass over segments -/

variable {d : α} {t t' : List α}

/-- What a pass does to one segment: behind the delimiter `d`, a leading `t` becomes `t'`. -/
def stepSegment (d : α) (t t' : List α) (s : α × List α) : α × List α :=
  if s.1 = d ∧ t <+: s.2 then (s.1, t' ++ s.2.drop t.length) else s

/-- Rewriting one key keeps the segments. -/
theorem Segmented.map_stepSegment {segments : List (α × List α)} (h : Segmented p segments)
    (ht' : Free p t') : Segmented p (segments.map (stepSegment d t t')) := by
  intro s hs
  obtain ⟨q, hq, rfl⟩ := List.mem_map.1 hs
  obtain ⟨hdelim, hfree⟩ := h q hq
  rw [stepSegment]
  split
  · exact ⟨hdelim, free_append.2 ⟨ht', fun a ha ↦ hfree a (List.mem_of_mem_drop ha)⟩⟩
  · exact ⟨hdelim, hfree⟩

/-- A needle that starts with a delimiter does not occur before the first one. -/
theorem replaceFrom_append_of_free {s : Needle α} {f : List α → List α → List α}
    (hs : s.toList = d :: t) (hd : p d) {u : List α} (hu : Free p u) (seen l : List α) :
    replaceFrom s f seen (u ++ l) = u ++ replaceFrom s f (seen ++ u) l := by
  induction u generalizing seen with
  | nil => simp
  | cons a u ih =>
    obtain ⟨ha, hu⟩ := free_cons.1 hu
    have hnot : ¬ s.toList <+: a :: (u ++ l) := by
      rw [hs, List.cons_prefix_cons]
      exact fun h ↦ ha (h.1 ▸ hd)
    rw [List.cons_append, replaceFrom_cons hnot, ih hu]
    simp

/-- **A pass works on every segment alone**, if its needle is a delimiter and a piece of a
segment. -/
theorem replaceFrom_join {s : Needle α} (hs : s.toList = d :: t) (hd : p d) (ht : Free p t)
    {segments : List (α × List α)} (hsegments : Segmented p segments) (seen : List α) :
    replaceFrom s (fun _ _ ↦ d :: t') seen (join segments) =
      join (segments.map (stepSegment d t t')) := by
  induction segments generalizing seen with
  | nil => exact replaceFrom_nil seen
  | cons q segments ih =>
    obtain ⟨c, seg⟩ := q
    obtain ⟨⟨hc, hseg⟩, htail⟩ := segmented_cons.1 hsegments
    have hstart : s.toList <+: c :: (seg ++ join segments) ↔ d = c ∧ t <+: seg := by
      rw [hs, List.cons_prefix_cons, isPrefix_append_join ht htail]
    rw [List.map_cons, join_cons, join_cons, stepSegment]
    by_cases h : d = c ∧ t <+: seg
    · -- the needle is replaced, and the rest of the segment is copied
      obtain ⟨rfl, rest, rfl⟩ := h
      have hrest := (free_append.1 hseg).2
      have hneedle : d :: (t ++ rest ++ join segments) = s.toList ++ (rest ++ join segments) := by
        rw [hs]
        simp
      rw [if_pos ⟨rfl, List.prefix_append _ _⟩, List.drop_left, hneedle, replaceFrom_match,
        replaceFrom_append_of_free hs hd hrest, ih htail]
      simp
    · rw [if_neg fun h' ↦ h ⟨h'.1.symm, h'.2⟩, replaceFrom_cons fun h' ↦ h (hstart.1 h'),
        replaceFrom_append_of_free hs hd hseg, ih htail]

/-! ### Inserting at many positions at once -/

/-- The text `x` is inserted at every position where `here` holds of what stands before and behind
the position. -/
def insertWhere (here : List α → List α → Bool) (x seen : List α) : List α → List α
  | [] => if here seen [] then x else []
  | a :: rest =>
    (if here seen (a :: rest) then x else []) ++ a :: insertWhere here x (seen ++ [a]) rest

omit [DecidableEq α] in
/-- Positions where nothing is inserted. -/
theorem insertWhere_append_of_false {here : List α → List α → Bool} {x u l : List α}
    {seen : List α} (h : ∀ v w, u = v ++ w → w ≠ [] → here (seen ++ v) (w ++ l) = false) :
    insertWhere here x seen (u ++ l) = u ++ insertWhere here x (seen ++ u) l := by
  induction u generalizing seen with
  | nil => simp
  | cons a u ih =>
    have hhere : here seen (a :: (u ++ l)) = false := by
      have := h [] (a :: u) rfl (List.cons_ne_nil _ _)
      rwa [List.append_nil] at this
    have hrest : ∀ v w, u = v ++ w → w ≠ [] → here (seen ++ [a] ++ v) (w ++ l) = false := by
      intro v w hu hw
      rw [List.append_assoc]
      exact h (a :: v) w (by rw [hu]; rfl) hw
    rw [List.cons_append, insertWhere, hhere, ih hrest]
    simp

omit [DecidableEq α] in
/-- At most one insertion for each position. -/
theorem length_insertWhere_le (here : List α → List α → Bool) (x seen l : List α) :
    (insertWhere here x seen l).length ≤ l.length + (l.length + 1) * x.length := by
  have hinserted : ∀ b : Bool, (if b = true then x else []).length ≤ x.length := by
    intro b
    cases b <;> simp
  -- the text may be inserted before each symbol and at the end
  induction l generalizing seen with
  | nil =>
    have := hinserted (here seen [])
    rw [insertWhere]
    simpa using this
  | cons a l ih =>
    have hhead := hinserted (here seen (a :: l))
    have htail := ih (seen ++ [a])
    rw [insertWhere, List.length_append, List.length_cons, List.length_cons, Nat.succ_mul]
    omega

/-! ### Keys -/

/-- What a key stands before. -/
def keyNeedle (root : List α) (k : α × List α) : Needle α :=
  ⟨k.1 :: (k.2 ++ root), List.cons_ne_nil _ _⟩

/-- The pass that inserts `x` behind a key that stands before `root`. -/
def insertPass (root x l : List α) (k : α × List α) : List α :=
  replaceFrom (keyNeedle root k) (fun _ _ ↦ k.1 :: (k.2 ++ x ++ root)) [] l

/-- The positions behind a key and before `root`. -/
def behindKey (keys : List (α × List α)) (root seen rest : List α) : Bool :=
  keys.any fun k ↦ decide (k.1 :: k.2 <:+ seen) && decide (root <+: rest)

/-- Keys that consist of a delimiter and a piece of a segment, none of which begins another. -/
structure AreKeys (p : α → Prop) (keys : List (α × List α)) : Prop where
  delimiter : ∀ k ∈ keys, p k.1 ∧ Free p k.2
  nodup : keys.Nodup
  eq_of_isPrefix : ∀ k ∈ keys, ∀ k' ∈ keys, k.1 = k'.1 → k.2 <+: k'.2 → k = k'

section Keys

variable {keys : List (α × List α)} {root x : List α}

/-- The check is for a key before and the root behind. -/
theorem behindKey_eq_true_iff {seen rest : List α} :
    behindKey keys root seen rest = true ↔
      (∃ k ∈ keys, k.1 :: k.2 <:+ seen) ∧ root <+: rest := by
  simp [behindKey, ← exists_and_right, and_assoc]

omit [DecidableEq α] in
/-- Two keys behind the same delimiter that begin one text are the same. -/
theorem AreKeys.eq_of_isPrefix_of_isPrefix (h : AreKeys p keys) {c : α} {w w' l : List α}
    (hw : (c, w) ∈ keys) (hw' : (c, w') ∈ keys) (hl : w <+: l) (hl' : w' <+: l) : w = w' := by
  rcases List.prefix_or_prefix_of_prefix hl hl' with hle | hle
  · exact congrArg Prod.snd (h.eq_of_isPrefix _ hw _ hw' rfl hle)
  · exact (congrArg Prod.snd (h.eq_of_isPrefix _ hw' _ hw rfl hle)).symm

/-- All passes on one segment. -/
def stepAll (keys : List (α × List α)) (root x : List α) (s : α × List α) : α × List α :=
  keys.foldl (fun s k ↦ stepSegment k.1 (k.2 ++ root) (k.2 ++ x ++ root) s) s

/-- A segment that does not begin with a key and `root` is kept. -/
theorem stepAll_of_forall_not {c : α} {seg : List α}
    (hnot : ∀ w, (c, w) ∈ keys → ¬ w ++ root <+: seg) :
    stepAll keys root x (c, seg) = (c, seg) := by
  induction keys with
  | nil => rfl
  | cons k keys ih =>
    have hstep : stepSegment k.1 (k.2 ++ root) (k.2 ++ x ++ root) (c, seg) = (c, seg) := by
      rw [stepSegment, if_neg]
      rintro ⟨hc, hprefix⟩
      refine hnot k.2 (List.mem_cons.2 (Or.inl ?_)) hprefix
      exact Prod.ext hc rfl
    rw [stepAll, List.foldl_cons, hstep]
    exact ih fun w hw ↦ hnot w (List.mem_cons_of_mem _ hw)

/-- **A segment that begins with a key and `root` gets `x` once**, in whatever order the passes
are made. -/
theorem AreKeys.stepAll_of_mem (h : AreKeys p keys) {c : α} {w rest : List α}
    (hw : (c, w) ∈ keys) :
    stepAll keys root x (c, w ++ (root ++ rest)) = (c, w ++ (x ++ (root ++ rest))) := by
  obtain ⟨before, after, hkeys⟩ := List.append_of_mem hw
  have hother : ∀ w', (c, w') ∈ before ++ after → ∀ l, ¬ w' ++ root <+: w ++ l := by
    intro w' hw' l hprefix
    have hmem : (c, w') ∈ keys := by
      rw [hkeys]
      exact List.mem_append.2 ((List.mem_append.1 hw').imp_right (List.mem_cons_of_mem _))
    obtain rfl : w' = w := h.eq_of_isPrefix_of_isPrefix hmem hw
      ((List.prefix_append _ _).trans hprefix) (List.prefix_append w l)
    have hnodup := h.nodup
    rw [hkeys, List.perm_middle.nodup_iff, List.nodup_cons] at hnodup
    exact hnodup.1 hw'
  have hbefore : stepAll before root x (c, w ++ (root ++ rest)) = (c, w ++ (root ++ rest)) :=
    stepAll_of_forall_not fun w' hw' ↦ hother w' (List.mem_append_left _ hw') _
  have hafter : stepAll after root x (c, w ++ (x ++ (root ++ rest))) =
      (c, w ++ (x ++ (root ++ rest))) :=
    stepAll_of_forall_not fun w' hw' ↦ hother w' (List.mem_append_right _ hw') _
  have hstep : stepSegment c (w ++ root) (w ++ x ++ root) (c, w ++ (root ++ rest)) =
      (c, w ++ (x ++ (root ++ rest))) := by
    have hsplit : w ++ (root ++ rest) = (w ++ root) ++ rest := (List.append_assoc _ _ _).symm
    rw [stepSegment, hsplit, if_pos ⟨rfl, List.prefix_append _ _⟩, List.drop_left]
    simp
  calc stepAll keys root x (c, w ++ (root ++ rest))
      = stepAll after root x (stepSegment c (w ++ root) (w ++ x ++ root)
          (stepAll before root x (c, w ++ (root ++ rest)))) := by
        rw [hkeys, stepAll, List.foldl_append, List.foldl_cons]
        rfl
    _ = (c, w ++ (x ++ (root ++ rest))) := by rw [hbefore, hstep, hafter]

/-- **The passes work on every segment alone.** -/
theorem foldl_insertPass_join (hkeys : ∀ k ∈ keys, p k.1 ∧ Free p k.2) (hroot : Free p root)
    (hx : Free p x) {first : List α} (hfirst : Free p first) {segments : List (α × List α)}
    (hsegments : Segmented p segments) :
    keys.foldl (insertPass root x) (first ++ join segments) =
      first ++ join (segments.map (stepAll keys root x)) := by
  induction keys generalizing segments with
  | nil =>
    show first ++ join segments = first ++ join (segments.map fun s ↦ s)
    rw [List.map_id']
  | cons k keys ih =>
    obtain ⟨⟨hdelim, hfree⟩, hkeys⟩ := List.forall_mem_cons.1 hkeys
    have hreplaced : Free p (k.2 ++ x ++ root) := free_append.2 ⟨free_append.2 ⟨hfree, hx⟩, hroot⟩
    have hpass : insertPass root x (first ++ join segments) k =
        first ++ join (segments.map (stepSegment k.1 (k.2 ++ root) (k.2 ++ x ++ root))) := by
      rw [insertPass, replaceFrom_append_of_free (t := k.2 ++ root) rfl hdelim hfirst,
        replaceFrom_join rfl hdelim (free_append.2 ⟨hfree, hroot⟩) hsegments]
    rw [List.foldl_cons, hpass, ih hkeys (hsegments.map_stepSegment hreplaced), List.map_map]
    rfl

/-- The positions in a segment at which `x` is inserted. -/
theorem behindKey_segment_iff (h : AreKeys p keys) (hroot : Free p root) {c : α} (hc : p c)
    {v w seen : List α} (hv : Free p v) {segments : List (α × List α)}
    (hsegments : Segmented p segments) :
    behindKey keys root (seen ++ c :: v) (w ++ join segments) = true ↔
      (c, v) ∈ keys ∧ root <+: w := by
  rw [behindKey_eq_true_iff, isPrefix_append_join hroot hsegments]
  refine and_congr_left fun _ ↦ ⟨?_, fun hmem ↦ ⟨_, hmem, List.suffix_append _ _⟩⟩
  rintro ⟨⟨d, t⟩, hmem, hsuffix⟩
  obtain ⟨hd, ht⟩ := h.delimiter _ hmem
  obtain ⟨rfl, rfl⟩ := (cons_isSuffix_append_cons_iff hd hc ht hv).1 hsuffix
  exact hmem

/-- Nothing is inserted before a segment. -/
theorem behindKey_join_eq_false (hroot : Free p root) (hne : root ≠ []) {seen : List α}
    {segments : List (α × List α)} (hsegments : Segmented p segments) :
    behindKey keys root seen (join segments) = false := by
  rw [Bool.eq_false_iff, ne_eq, behindKey_eq_true_iff]
  rintro ⟨-, hprefix⟩
  exact hne (List.prefix_nil.1 ((isPrefix_append_join (l := []) hroot hsegments).1 hprefix))

/-- The pass goes through the first segment and then through the others. -/
theorem insertWhere_join_cons (h : AreKeys p keys) (hroot : Free p root) (hne : root ≠ [])
    {c : α} {seg seen : List α} {segments : List (α × List α)}
    (hsegments : Segmented p ((c, seg) :: segments)) :
    insertWhere (behindKey keys root) x seen (join ((c, seg) :: segments)) =
      (stepAll keys root x (c, seg)).1 :: ((stepAll keys root x (c, seg)).2 ++
        insertWhere (behindKey keys root) x (seen ++ c :: seg) (join segments)) := by
  obtain ⟨⟨hc, hseg⟩, htail⟩ := segmented_cons.1 hsegments
  have hbefore : behindKey keys root seen _ = false :=
    behindKey_join_eq_false hroot hne hsegments
  rw [join_cons] at hbefore ⊢
  by_cases hkey : ∃ w, (c, w) ∈ keys ∧ w ++ root <+: seg
  · obtain ⟨w, hw, rest, rfl⟩ := hkey
    obtain ⟨a, root', rfl⟩ := List.exists_cons_of_ne_nil hne
    have hposition : ∀ {v z}, w ++ (a :: root') ++ rest = v ++ z →
        (behindKey keys (a :: root') (seen ++ c :: v) (z ++ join segments) = true ↔
          (c, v) ∈ keys ∧ a :: root' <+: z) := by
      intro v z hvz
      rw [hvz] at hseg
      exact behindKey_segment_iff h hroot hc (free_append.1 hseg).1 htail
    -- the key ends at one position of the segment only
    have honly : ∀ {v z}, w ++ (a :: root') ++ rest = v ++ z → v ≠ w →
        behindKey keys (a :: root') (seen ++ c :: v) (z ++ join segments) = false := by
      intro v z hvz hne'
      rw [Bool.eq_false_iff, ne_eq, hposition hvz]
      rintro ⟨hmem, -⟩
      refine hne' (h.eq_of_isPrefix_of_isPrefix hmem hw (l := w ++ (a :: root') ++ rest) ?_ ?_)
      · rw [hvz]
        exact List.prefix_append _ _
      · rw [List.append_assoc]
        exact List.prefix_append _ _
    have hkey : insertWhere (behindKey keys (a :: root')) x seen
        (c :: w ++ (a :: (root' ++ rest) ++ join segments)) =
          c :: w ++ insertWhere (behindKey keys (a :: root')) x (seen ++ c :: w)
            (a :: (root' ++ rest) ++ join segments) := by
      refine insertWhere_append_of_false fun v z hvz hz ↦ ?_
      rcases v with - | ⟨b, v⟩
      · obtain rfl : c :: w = z := hvz
        simpa using hbefore
      · obtain ⟨rfl, rfl⟩ := List.cons.inj hvz
        have hlonger := honly (v := v) (z := z ++ (a :: root') ++ rest) (by simp)
          fun heq ↦ hz (List.append_right_eq_self.1 heq.symm)
        simpa using hlonger
    have hhere : behindKey keys (a :: root') (seen ++ c :: w)
        (a :: (root' ++ rest) ++ join segments) = true := by
      have hroot' := (hposition (v := w) (z := a :: root' ++ rest) (by simp)).2
        ⟨hw, List.prefix_append _ _⟩
      simpa using hroot'
    have hrest : insertWhere (behindKey keys (a :: root')) x (seen ++ c :: w ++ [a])
        (root' ++ rest ++ join segments) =
          root' ++ rest ++ insertWhere (behindKey keys (a :: root')) x
            (seen ++ c :: w ++ [a] ++ (root' ++ rest)) (join segments) := by
      refine insertWhere_append_of_false fun v z hvz hz ↦ ?_
      have hlonger := honly (v := w ++ a :: v) (z := z) (by simp [hvz])
        fun heq ↦ by simp at heq
      simpa using hlonger
    have hsegment : w ++ (a :: root') ++ rest = w ++ (a :: root' ++ rest) := List.append_assoc _ _ _
    have htext : c :: (w ++ (a :: root' ++ rest) ++ join segments) =
        c :: w ++ (a :: (root' ++ rest) ++ join segments) := by simp
    have hinsert : insertWhere (behindKey keys (a :: root')) x (seen ++ c :: w)
        (a :: (root' ++ rest) ++ join segments) =
          x ++ a :: insertWhere (behindKey keys (a :: root')) x (seen ++ c :: w ++ [a])
            (root' ++ rest ++ join segments) := by
      rw [List.cons_append] at hhere ⊢
      rw [insertWhere, hhere, if_pos rfl]
    rw [hsegment, h.stepAll_of_mem hw, htext, hkey, hinsert, hrest]
    simp
  · -- no key stands in the segment
    have hnot : ∀ w, (c, w) ∈ keys → ¬ w ++ root <+: seg := fun w hw hprefix ↦
      hkey ⟨w, hw, hprefix⟩
    rw [stepAll_of_forall_not hnot, ← List.cons_append, insertWhere_append_of_false]
    · rfl
    intro v w hvw hw
    rcases v with - | ⟨b, v⟩
    · obtain rfl : c :: seg = w := hvw
      rwa [List.append_nil]
    · obtain ⟨rfl, rfl⟩ := List.cons.inj hvw
      rw [Bool.eq_false_iff, ne_eq, behindKey_segment_iff h hroot hc (free_append.1 hseg).1 htail]
      rintro ⟨hmem, rest, rfl⟩
      exact hnot v hmem ⟨rest, by simp⟩

/-- **The pass works on each segment alone.** -/
theorem insertWhere_join (h : AreKeys p keys) (hroot : Free p root) (hne : root ≠ [])
    {segments : List (α × List α)} (hsegments : Segmented p segments) (seen : List α) :
    insertWhere (behindKey keys root) x seen (join segments) =
      join (segments.map (stepAll keys root x)) := by
  induction segments generalizing seen with
  | nil =>
    have hend : behindKey keys root seen (join []) = false :=
      behindKey_join_eq_false hroot hne hsegments
    show insertWhere (behindKey keys root) x seen [] = []
    rw [insertWhere]
    exact if_neg (Bool.eq_false_iff.1 hend)
  | cons s segments ih =>
    rw [insertWhere_join_cons h hroot hne hsegments, ih (segmented_cons.1 hsegments).2,
      List.map_cons, join_cons]

/-- **Passes with different keys do not interfere**: one after the other they insert `x` at all
positions behind a key and before `root` at once. -/
theorem foldl_insertPass_eq_insertWhere (h : AreKeys p keys) (hroot : Free p root)
    (hne : root ≠ []) (hx : Free p x) (l : List α) :
    keys.foldl (insertPass root x) l = insertWhere (behindKey keys root) x [] l := by
  obtain ⟨first, segments, hfirst, hsegments, rfl⟩ := exists_eq_append_join p l
  have hstart : insertWhere (behindKey keys root) x [] (first ++ join segments) =
      first ++ insertWhere (behindKey keys root) x ([] ++ first) (join segments) := by
    -- before the first delimiter there is no key
    refine insertWhere_append_of_false fun v w hvw _ ↦ ?_
    rw [Bool.eq_false_iff, ne_eq, behindKey_eq_true_iff, List.nil_append]
    rintro ⟨⟨k, hk, hsuffix⟩, -⟩
    refine hfirst k.1 ?_ (h.delimiter k hk).1
    rw [hvw]
    exact List.mem_append_left _ (hsuffix.subset List.mem_cons_self)
  rw [foldl_insertPass_join h.delimiter hroot hx hfirst hsegments, hstart,
    insertWhere_join h hroot hne hsegments]

omit [DecidableEq α] in
theorem AreKeys.sublist (h : AreKeys p keys) {keys' : List (α × List α)}
    (hsub : keys'.Sublist keys) : AreKeys p keys' where
  delimiter k hk := h.delimiter k (hsub.subset hk)
  nodup := h.nodup.sublist hsub
  eq_of_isPrefix k hk k' hk' := h.eq_of_isPrefix k (hsub.subset hk) k' (hsub.subset hk')

omit [DecidableEq α] in
/-- The order of the keys does not matter. -/
theorem AreKeys.perm (h : AreKeys p keys) {keys' : List (α × List α)} (hperm : keys'.Perm keys) :
    AreKeys p keys' where
  delimiter k hk := h.delimiter k (hperm.mem_iff.1 hk)
  nodup := hperm.nodup_iff.2 h.nodup
  eq_of_isPrefix k hk k' hk' := h.eq_of_isPrefix k (hperm.mem_iff.1 hk) k' (hperm.mem_iff.1 hk')

/-- The order of the keys does not matter. -/
theorem behindKey_perm {keys' : List (α × List α)} (hperm : keys'.Perm keys) :
    behindKey keys' root = behindKey keys root := by
  funext seen rest
  rw [Bool.eq_iff_iff, behindKey_eq_true_iff, behindKey_eq_true_iff]
  simp only [hperm.mem_iff]

end Keys

end Text
