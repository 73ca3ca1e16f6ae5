import KseRewriteProxy.Text.Replace

/-!
# Replacement passes and delimiters

What a replacement pass does to the occurrences of *another* text. The arguments all have one
shape: the needle and everything it is replaced by start with a delimiter, so between delimiters
the pass changes nothing (`prefix_replaceFrom_iff`).

* `not_infix_replaceFrom`: a text that the replacements cannot begin does not appear;
* `infix_replaceFrom_iff`: a text that neither the needle nor a replacement can begin is kept;
* `quoted_infix_replaceFrom_iff`: a pass that replaces a text between two quotes leaves one exactly
  where two of them share a quote;
* `replaceFrom_eq_or_length_lt`: a pass that only makes texts longer is the identity where it keeps
  the length, and so `replaceFrom_eq_self_iff` says which texts it keeps.

The last section is about passes that insert a text behind the needle. `Follows` says that every
needle of a text is followed by the inserted text, which is what such a pass achieves
(`follows_replaceFrom_appendAfter`) and what makes it do nothing
(`Follows.replaceFrom_appendAfter`).
-/

namespace Text

variable {α : Type*} [DecidableEq α]

/-! ### Following a pass -/

/-- Induction along a pass: a text is empty, starts with the needle, or starts with a symbol that
is copied. -/
theorem Needle.induction (s : Needle α) {motive : List α → Prop} (nil : motive [])
    (occurrence : ∀ after, motive after → motive (s.toList ++ after))
    (copy : ∀ a rest, ¬ s.toList <+: a :: rest → motive rest → motive (a :: rest))
    (l : List α) : motive l := by
  induction hn : l.length using Nat.strongRecOn generalizing l with
  | ind n ih =>
    subst hn
    have hpos := s.length_pos
    cases l with
    | nil => exact nil
    | cons a rest =>
      by_cases h : s.toList <+: a :: rest
      · obtain ⟨after, hafter⟩ := h
        rw [← hafter]
        refine occurrence after (ih _ ?_ after rfl)
        rw [← hafter, List.length_append, s.toList_length]
        omega
      · exact copy a rest h (ih _ (by simp) rest rfl)

variable {s : Needle α} {f : List α → List α → List α}

/-- A text without the needle is kept. -/
theorem replaceFrom_of_not_isInfix {seen l : List α} (h : ¬ s.toList <:+: l) :
    replaceFrom s f seen l = l :=
  replaceFrom_of_find_none (find_eq_none_iff_not_isInfix.2 h)

omit [DecidableEq α] in
/-- An occurrence in a concatenation starts in the first part or lies in the second. -/
theorem infix_append_cases {w l m : List α} (h : w <:+: l ++ m) :
    (∃ x, x ≠ [] ∧ x <:+ l ∧ w <+: x ++ m) ∨ w <:+: m := by
  induction l with
  | nil => exact Or.inr h
  | cons a l ih =>
    rcases List.infix_cons_iff.1 h with h | h
    · exact Or.inl ⟨a :: l, List.cons_ne_nil _ _, List.suffix_refl _, h⟩
    · rcases ih h with ⟨x, hne, hsuffix, hx⟩ | h
      · exact Or.inl ⟨x, hne, hsuffix.trans (List.suffix_cons _ _), hx⟩
      · exact Or.inr h

/-! ### Delimiters -/

/-- The text starts with a delimiter. -/
def HeadIn (p : α → Prop) (l : List α) : Prop :=
  ∃ a t, l = a :: t ∧ p a

omit [DecidableEq α] in
/-- A text that begins with a delimiter is not begun by a word without delimiters. -/
theorem HeadIn.not_isPrefix {p : α → Prop} {l w : List α} (h : HeadIn p l) (hw : ∀ a ∈ w, ¬ p a)
    (hne : w ≠ []) (m : List α) : ¬ w <+: l ++ m := by
  obtain ⟨a, t, rfl, ha⟩ := h
  rcases w with - | ⟨b, w⟩
  · exact absurd rfl hne
  · rw [List.cons_append, List.cons_prefix_cons]
    rintro ⟨rfl, -⟩
    exact hw b (List.mem_cons_self ..) ha

/-- **Between delimiters a pass changes nothing**, if the needle and its replacements start with a
delimiter. -/
theorem prefix_replaceFrom_iff {p : α → Prop} (hs : HeadIn p s.toList)
    (hf : ∀ u v, HeadIn p (f u v)) {w : List α} (hw : ∀ a ∈ w, ¬ p a) (seen l : List α) :
    w <+: replaceFrom s f seen l ↔ w <+: l := by
  induction l using s.induction generalizing w seen with
  | nil => rw [replaceFrom_nil]
  | occurrence after ih =>
    rcases eq_or_ne w [] with rfl | hne
    · simp
    · rw [replaceFrom_match]
      exact iff_of_false ((hf seen after).not_isPrefix hw hne _) (hs.not_isPrefix hw hne _)
  | copy a rest h ih =>
    rw [replaceFrom_cons h]
    cases w with
    | nil => simp
    | cons b w =>
      rw [List.cons_prefix_cons, List.cons_prefix_cons,
        ih fun c hc ↦ hw c (List.mem_cons_of_mem _ hc)]

/-- The first delimiter is kept as well, if all of them are the same. -/
theorem concat_prefix_replaceFrom_iff {d : α} (hs : HeadIn (· = d) s.toList)
    (hf : ∀ u v, HeadIn (· = d) (f u v)) {w : List α} (hw : d ∉ w) (seen l : List α) :
    w ++ [d] <+: replaceFrom s f seen l ↔ w ++ [d] <+: l := by
  induction l using s.induction generalizing w seen with
  | nil => rw [replaceFrom_nil]
  | occurrence after ih =>
    rw [replaceFrom_match]
    cases w with
    | nil =>
      obtain ⟨a, t, ha, rfl⟩ := hs
      obtain ⟨b, t', hb, rfl⟩ := hf seen after
      simp [ha, hb]
    | cons b w =>
      have hbw : ∀ c ∈ [b], ¬ c = d := fun c hc heq ↦ hw (by simp_all)
      have hstart : [b] <+: b :: w ++ [d] := List.prefix_append [b] (w ++ [d])
      exact iff_of_false
        (fun h ↦ (hf seen after).not_isPrefix hbw (by simp) _ (hstart.trans h))
        (fun h ↦ hs.not_isPrefix hbw (by simp) _ (hstart.trans h))
  | copy a rest h ih =>
    rw [replaceFrom_cons h]
    cases w with
    | nil => simp
    | cons b w =>
      rw [List.cons_append, List.cons_prefix_cons, List.cons_prefix_cons,
        ih fun hd ↦ hw (List.mem_cons_of_mem _ hd)]

/-- **A text that the replacements cannot begin does not appear.** The needle itself disappears. -/
theorem not_infix_replaceFrom {p : α → Prop} (hs : HeadIn p s.toList)
    (hf : ∀ u v, HeadIn p (f u v)) {c : α} {t : List α} (ht : ∀ a ∈ t, ¬ p a)
    (hnew : ∀ u v x, x ≠ [] → x <:+ f u v → ∀ m, ¬ c :: t <+: x ++ m) {l : List α}
    (hl : s.toList = c :: t ∨ ¬ c :: t <:+: l) (seen : List α) :
    ¬ c :: t <:+: replaceFrom s f seen l := by
  induction l using s.induction generalizing seen with
  | nil => simp
  | occurrence after ih =>
    have hafter : s.toList = c :: t ∨ ¬ c :: t <:+: after :=
      hl.imp_right fun h h' ↦ h (h'.trans (List.suffix_append _ _).isInfix)
    rw [replaceFrom_match]
    intro h
    rcases infix_append_cases h with ⟨x, hne, hsuffix, hx⟩ | h
    · exact hnew seen after x hne hsuffix _ hx
    · exact ih hafter _ h
  | copy a rest h ih =>
    have hrest : s.toList = c :: t ∨ ¬ c :: t <:+: rest :=
      hl.imp_right fun h h' ↦ h (h'.trans (List.suffix_cons _ _).isInfix)
    rw [replaceFrom_cons h, List.infix_cons_iff, not_or]
    refine ⟨fun hstart ↦ ?_, ih hrest _⟩
    rw [List.cons_prefix_cons, prefix_replaceFrom_iff hs hf ht, ← List.cons_prefix_cons] at hstart
    rcases hl with heq | hl
    · exact h (heq ▸ hstart)
    · exact hl hstart.isInfix

/-- **A text that neither the needle nor a replacement can begin is kept.** -/
theorem infix_replaceFrom_iff {p : α → Prop} (hs : HeadIn p s.toList)
    (hf : ∀ u v, HeadIn p (f u v)) {c : α} {t : List α} (ht : ∀ a ∈ t, ¬ p a)
    (hcs : c ∉ s.toList) (hcf : ∀ u v, c ∉ f u v) (seen l : List α) :
    c :: t <:+: replaceFrom s f seen l ↔ c :: t <:+: l := by
  have hskip : ∀ {x m : List α}, c ∉ x → (c :: t <:+: x ++ m ↔ c :: t <:+: m) := by
    refine fun {x m} hx ↦ ⟨fun h ↦ ?_, fun h ↦ h.trans (List.suffix_append _ _).isInfix⟩
    rcases infix_append_cases h with ⟨y, hne, hsuffix, hy⟩ | h
    · refine absurd (hsuffix.subset ?_) hx
      rcases y with - | ⟨b, y⟩
      · exact absurd rfl hne
      · rw [List.cons_append, List.cons_prefix_cons] at hy
        exact hy.1 ▸ List.mem_cons_self ..
    · exact h
  induction l using s.induction generalizing seen with
  | nil => rw [replaceFrom_nil]
  | occurrence after ih =>
    rw [replaceFrom_match, hskip (hcf seen after), hskip hcs]
    exact ih (seen ++ s.toList)
  | copy a rest h ih =>
    rw [replaceFrom_cons h, List.infix_cons_iff, List.infix_cons_iff, List.cons_prefix_cons,
      List.cons_prefix_cons, prefix_replaceFrom_iff hs hf ht]
    exact or_congr_right (ih (seen ++ [a]))

/-! ### Quoted texts -/

/-- A text that is enclosed in quotes `q`. -/
def quoted (q : α) (l : List α) : List α :=
  q :: (l ++ [q])

omit [DecidableEq α] in
/-- Texts up to a quote are equal if one continues the other. -/
theorem eq_of_concat_isPrefix {q : α} {l m z : List α} (hl : q ∉ l) (hm : q ∉ m)
    (h : l ++ [q] <+: m ++ q :: z) : l = m := by
  induction l generalizing m with
  | nil =>
    cases m with
    | nil => rfl
    | cons b m =>
      rw [List.nil_append, List.cons_append, List.cons_prefix_cons] at h
      exact absurd (h.1 ▸ List.mem_cons_self ..) hm
  | cons a l ih =>
    cases m with
    | nil =>
      rw [List.nil_append, List.cons_append, List.cons_prefix_cons] at h
      exact absurd (h.1 ▸ List.mem_cons_self ..) hl
    | cons b m =>
      rw [List.cons_append, List.cons_append, List.cons_prefix_cons] at h
      rw [h.1, ih (fun hq ↦ hl (List.mem_cons_of_mem _ hq))
        (fun hq ↦ hm (List.mem_cons_of_mem _ hq)) h.2]

omit [DecidableEq α] in
/-- The texts around the first quote are determined by the whole. -/
theorem append_cons_inj {q : α} {l m y z : List α} (hl : q ∉ l) (hm : q ∉ m)
    (h : l ++ q :: y = m ++ q :: z) : l = m ∧ y = z := by
  obtain rfl : l = m := eq_of_concat_isPrefix hl hm ⟨y, by rw [← h]; simp⟩
  exact ⟨rfl, (List.cons.inj (List.append_cancel_left h)).2⟩

omit [DecidableEq α] in
/-- Where a text that begins with a quote can lie in what follows a quoted text. -/
theorem infix_quoted_append_iff {q : α} {w m z : List α} (hm : q ∉ m) :
    q :: w <:+: quoted q m ++ z ↔ w <+: m ++ q :: z ∨ w <+: z ∨ q :: w <:+: z := by
  have hskip : q :: w <:+: m ++ q :: z ↔ q :: w <:+: q :: z := by
    refine ⟨fun h ↦ ?_, fun h ↦ h.trans (List.suffix_append _ _).isInfix⟩
    rcases infix_append_cases h with ⟨y, hne, hsuffix, hy⟩ | h
    · refine absurd (hsuffix.subset ?_) hm
      rcases y with - | ⟨b, y⟩
      · exact absurd rfl hne
      · rw [List.cons_append, List.cons_prefix_cons] at hy
        exact hy.1 ▸ List.mem_cons_self ..
    · exact h
  rw [show quoted q m ++ z = q :: (m ++ q :: z) by simp [quoted], List.infix_cons_iff,
    List.cons_prefix_cons, hskip, List.infix_cons_iff, List.cons_prefix_cons]
  simp only [true_and]

/-- **One pass over quoted texts leaves those that share a quote with the one before**: the quoted
text is still there exactly if two of them shared a quote. -/
theorem quoted_infix_replaceFrom_iff {q : α} {l m : List α} (hs : s.toList = quoted q l)
    (hf : ∀ u v, f u v = quoted q m) (hl : q ∉ l) (hm : q ∉ m) (hne : l ≠ m) (seen y : List α) :
    quoted q l <:+: replaceFrom s f seen y ↔ q :: (l ++ quoted q l) <:+: y := by
  have hpass : ∀ seen y, l ++ [q] <+: replaceFrom s f seen y ↔ l ++ [q] <+: y :=
    concat_prefix_replaceFrom_iff ⟨q, l ++ [q], hs, rfl⟩ (fun u v ↦ ⟨q, m ++ [q], hf u v, rfl⟩) hl
  have hshorter : ∀ z, l ++ quoted q l <+: z → l ++ [q] <+: z := fun z h ↦
    ((List.prefix_append_right_inj l).2 (List.prefix_append [q] (l ++ [q]))).trans h
  induction y using s.induction generalizing seen with
  | nil => simp [quoted]
  | occurrence after ih =>
    have hafter := ih (seen ++ s.toList)
    rw [replaceFrom_match, hf]
    generalize seen ++ s.toList = seen' at hafter ⊢
    have hout : ¬ l ++ [q] <+: m ++ q :: replaceFrom s f seen' after :=
      fun h ↦ hne (eq_of_concat_isPrefix hl hm h)
    have hin : l ++ quoted q l <+: l ++ q :: after ↔ l ++ [q] <+: after := by
      rw [List.prefix_append_right_inj, quoted, List.cons_prefix_cons]
      simp only [true_and]
    rw [hs, infix_quoted_append_iff hl, hin]
    conv_lhs => rw [quoted, infix_quoted_append_iff hm, ← quoted]
    rw [hpass]
    constructor
    · rintro (h | h | h)
      exacts [absurd h hout, Or.inl h, Or.inr (Or.inr (hafter.1 h))]
    · rintro (h | h | h)
      exacts [Or.inr (Or.inl h), Or.inr (Or.inl (hshorter _ h)), Or.inr (Or.inr (hafter.2 h))]
  | copy a rest hnot ih =>
    rw [hs, quoted, List.cons_prefix_cons] at hnot
    rw [replaceFrom_cons (by rwa [hs, quoted, List.cons_prefix_cons]), List.infix_cons_iff,
      List.infix_cons_iff]
    refine or_congr (iff_of_false ?_ ?_) (ih (seen ++ [a]))
    · rw [quoted, List.cons_prefix_cons, hpass]
      exact hnot
    · rw [List.cons_prefix_cons]
      exact fun h ↦ hnot ⟨h.1, hshorter _ h.2⟩

/-! ### Passes that make texts longer -/

/-- **A pass whose replacements are the needle or longer** is the identity or makes the text
longer. -/
theorem replaceFrom_eq_or_length_lt
    (hf : ∀ u v, f u v = s.toList ∨ s.length < (f u v).length) (seen l : List α) :
    replaceFrom s f seen l = l ∨ l.length < (replaceFrom s f seen l).length := by
  induction l using s.induction generalizing seen with
  | nil => exact Or.inl (replaceFrom_nil seen)
  | occurrence after ih =>
    rw [replaceFrom_match, List.length_append, List.length_append, s.toList_length]
    rcases hf seen after with heq | hlt
    · rw [heq, s.toList_length]
      rcases ih (seen ++ s.toList) with h | h
      · exact Or.inl (by rw [h])
      · exact Or.inr (by omega)
    · rcases ih (seen ++ s.toList) with h | h
      · exact Or.inr (by rw [h]; omega)
      · exact Or.inr (by omega)
  | copy a rest h ih =>
    rw [replaceFrom_cons h, List.length_cons, List.length_cons]
    rcases ih (seen ++ [a]) with heq | hlt
    · exact Or.inl (by rw [heq])
    · exact Or.inr (by omega)

/-- A pass that always replaces by something longer is the identity on the texts without the
needle. -/
theorem replaceFrom_eq_self_iff (hf : ∀ u v, s.length < (f u v).length) {seen l : List α} :
    replaceFrom s f seen l = l ↔ ¬ s.toList <:+: l := by
  refine ⟨fun h hoccurs ↦ ?_, replaceFrom_of_not_isInfix⟩
  induction l using s.induction generalizing seen with
  | nil => exact absurd (List.infix_nil.1 hoccurs) s.ne_nil
  | occurrence after ih =>
    have hlen := congrArg List.length h
    have hafter := replaceFrom_eq_or_length_lt (fun u v ↦ Or.inr (hf u v)) (seen ++ s.toList) after
    have hfirst := hf seen after
    rw [replaceFrom_match, List.length_append, List.length_append, s.toList_length] at hlen
    rcases hafter with heq | hlt
    · rw [heq] at hlen
      omega
    · omega
  | copy a rest hnot ih =>
    rw [replaceFrom_cons hnot] at h
    rcases List.infix_cons_iff.1 hoccurs with hstart | hrest
    · exact hnot hstart
    · exact ih (List.cons.inj h).2 hrest

/-! ### Inserting behind the needle -/

/-- Every occurrence of `w` is followed by `x`. -/
def Follows (w x l : List α) : Prop :=
  ∀ z, z <:+ l → w <+: z → w ++ x <+: z

omit [DecidableEq α] in
theorem follows_nil {w x : List α} (hw : w ≠ []) : Follows w x [] := by
  intro z hz h
  obtain rfl := List.suffix_nil.1 hz
  exact absurd (List.prefix_nil.1 h) hw

omit [DecidableEq α] in
/-- The condition at the first position and at the others. -/
theorem follows_cons_iff {w x l : List α} {a : α} :
    Follows w x (a :: l) ↔ (w <+: a :: l → w ++ x <+: a :: l) ∧ Follows w x l := by
  constructor
  · exact fun h ↦ ⟨h _ (List.suffix_refl _), fun z hz ↦ h z (hz.trans (List.suffix_cons _ _))⟩
  · rintro ⟨h, h'⟩ z hz
    rcases List.suffix_cons_iff.1 hz with rfl | hz
    · exact h
    · exact h' z hz

omit [DecidableEq α] in
/-- A text in which `w` cannot begin does not matter. -/
theorem follows_append_iff {c : α} {t x l m : List α} (hl : c ∉ l) :
    Follows (c :: t) x (l ++ m) ↔ Follows (c :: t) x m := by
  induction l with
  | nil => rfl
  | cons a l ih =>
    rw [List.cons_append, follows_cons_iff, ih fun h ↦ hl (List.mem_cons_of_mem _ h),
      and_iff_right_iff_imp, List.cons_prefix_cons]
    rintro - ⟨rfl, -⟩
    exact absurd (List.mem_cons_self ..) hl

/-- **A pass keeps what follows a text**, if neither its needle nor its replacements contain the
first symbol of the text. -/
theorem Follows.replaceFrom {p : α → Prop} (hs : HeadIn p s.toList) (hf : ∀ u v, HeadIn p (f u v))
    {c : α} {t x : List α} (ht : ∀ a ∈ t ++ x, ¬ p a) (hcs : c ∉ s.toList)
    (hcf : ∀ u v, c ∉ f u v) {l : List α} (h : Follows (c :: t) x l) (seen : List α) :
    Follows (c :: t) x (replaceFrom s f seen l) := by
  induction l using s.induction generalizing seen with
  | nil => exact (replaceFrom_nil (s := s) (f := f) seen).symm ▸ h
  | occurrence after ih =>
    rw [replaceFrom_match, follows_append_iff (hcf seen after)]
    exact ih ((follows_append_iff hcs).1 h) _
  | copy a rest hnot ih =>
    rw [follows_cons_iff] at h
    rw [replaceFrom_cons hnot, follows_cons_iff]
    refine ⟨?_, ih h.2 _⟩
    have ht' : ∀ a ∈ t, ¬ p a := fun a ha ↦ ht a (List.mem_append_left _ ha)
    rw [List.cons_append, List.cons_prefix_cons, List.cons_prefix_cons,
      prefix_replaceFrom_iff hs hf ht', prefix_replaceFrom_iff hs hf ht, ← List.cons_prefix_cons,
      ← List.cons_prefix_cons]
    exact h.1

section Append

variable {x : List α} {c : α} {t : List α}

/-- The replacement of a pass that inserts `x` behind the needle unless it is there. -/
def appendAfter (s : Needle α) (x : List α) (_ after : List α) : List α :=
  if x <+: after then s.toList else s.toList ++ x

theorem headIn_appendAfter (hs : s.toList = c :: t) (u v : List α) :
    HeadIn (· = c) (appendAfter s x u v) := by
  rw [appendAfter]
  split
  · exact ⟨c, t, hs, rfl⟩
  · exact ⟨c, t ++ x, by rw [hs, List.cons_append], rfl⟩

/-- **After the pass the inserted text follows every needle**, if the first symbol of the needle
occurs neither later in it nor in the inserted text. -/
theorem follows_replaceFrom_appendAfter (hs : s.toList = c :: t) (ht : c ∉ t) (hx : c ∉ x)
    (seen l : List α) : Follows s.toList x (replaceFrom s (appendAfter s x) seen l) := by
  have hpass : ∀ {w}, c ∉ w → ∀ seen l, w <+: replaceFrom s (appendAfter s x) seen l ↔ w <+: l :=
    fun hw ↦ prefix_replaceFrom_iff (p := (· = c)) ⟨c, t, hs, rfl⟩ (headIn_appendAfter hs)
      fun a ha heq ↦ hw (heq ▸ ha)
  induction l using s.induction generalizing seen with
  | nil => exact (replaceFrom_nil (s := s) (f := appendAfter s x) seen).symm ▸ follows_nil s.ne_nil
  | occurrence after ih =>
    rw [replaceFrom_match, appendAfter, hs]
    split
    · rename_i h
      rw [List.cons_append, follows_cons_iff, follows_append_iff ht, ← hs]
      refine ⟨fun _ ↦ ?_, ih _⟩
      rw [hs, List.cons_append, List.cons_prefix_cons, List.prefix_append_right_inj]
      exact ⟨rfl, (hpass hx _ _).2 h⟩
    · rw [List.append_assoc, List.cons_append, follows_cons_iff, follows_append_iff ht,
        follows_append_iff hx, ← hs]
      refine ⟨fun _ ↦ ?_, ih _⟩
      rw [hs, List.cons_append, List.cons_prefix_cons, List.prefix_append_right_inj]
      exact ⟨rfl, List.prefix_append _ _⟩
  | copy a rest hnot ih =>
    rw [replaceFrom_cons hnot, follows_cons_iff]
    refine ⟨fun h ↦ absurd ?_ hnot, ih _⟩
    rw [hs, List.cons_prefix_cons] at h ⊢
    exact ⟨h.1, (hpass ht _ _).1 h.2⟩

/-- **A text in which the inserted text follows every needle is kept.** -/
theorem Follows.replaceFrom_appendAfter {l : List α} (h : Follows s.toList x l) (seen : List α) :
    Text.replaceFrom s (appendAfter s x) seen l = l := by
  induction l using s.induction generalizing seen with
  | nil => exact replaceFrom_nil seen
  | occurrence after ih =>
    have hx : x <+: after := by
      have := h _ (List.suffix_refl _) (List.prefix_append _ _)
      rwa [List.prefix_append_right_inj] at this
    rw [replaceFrom_match, appendAfter, if_pos hx,
      ih fun z hz ↦ h z (hz.trans (List.suffix_append _ _))]
  | copy a rest hnot ih =>
    rw [replaceFrom_cons hnot, ih (follows_cons_iff.1 h).2]

end Append

end Text
