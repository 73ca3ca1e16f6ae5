import KseRewriteProxy.Proxy.Representation

/-!
# The field `If-None-Match`

`if_none_match_matches` of `proxy.rs` splits the field at every comma, also at those inside a tag.
This module compares it with the grammar of the field: an asterisk, or a list of entity tags.

## What the split gets right

A derived tag has no comma and two quotes (`IsDerived`). A part of another tag that is cut at its
commas has at most one quote, or it is the whole tag. So no part is mistaken for a derived tag.

## What it gets wrong

An opaque tag may hold an asterisk between two commas, and the split turns this asterisk into a list
element of its own, which then asks for any representation. `ifNoneMatchMatches_iff` says that
nothing else goes wrong: the code and the grammar agree exactly if no tag of the field has `,*,` in
it, or the field holds of the tag anyway.
-/

namespace KseRewriteProxy

open Text

/-! ### The grammar -/

/-- A character of an opaque tag. -/
def isTagChar (c : Char) : Bool :=
  c.toNat == 0x21 || (0x23 ≤ c.toNat && c.toNat ≤ 0x7E)

/-- An entity tag. -/
structure EntityTag where
  weak : Bool
  opaqueTag : Str
  all_isTagChar : opaqueTag.all isTagChar = true

/-- What stands in front of the opaque tag. -/
def EntityTag.opening (tag : EntityTag) : Str :=
  if tag.weak then str "W/\"" else str "\""

/-- The text of a tag. -/
def EntityTag.text (tag : EntityTag) : Str :=
  tag.opening ++ tag.opaqueTag ++ str "\""

/-- Optional whitespace. -/
def isOws (c : Char) : Bool :=
  c == ' ' || c == '\t'

/-- A tag in a list, with the whitespace around it. -/
structure ListedTag where
  before : Str
  tag : EntityTag
  after : Str
  all_before : before.all isOws = true
  all_after : after.all isOws = true

/-- The text of a list element. -/
def ListedTag.text (listed : ListedTag) : Str :=
  listed.before ++ listed.tag.text ++ listed.after

/-- The values of the field. -/
inductive IfNoneMatch where
  | any
  | list (tags : List ListedTag)

namespace IfNoneMatch

/-- The text of a value. -/
def text : IfNoneMatch → Str
  | any => str "*"
  | list tags => (str ",").intercalate (tags.map ListedTag.text)

/-- The tags of a value. -/
def tags : IfNoneMatch → List EntityTag
  | any => []
  | list tags => tags.map ListedTag.tag

/-- The client holds the representation with the tag, or asks for any. -/
def Holds (field : IfNoneMatch) (etag : Str) : Prop :=
  field = any ∨ ∃ tag ∈ field.tags, tag.text = etag

end IfNoneMatch

/-! ### Tags -/

theorem isWhitespace_of_isOws {c : Char} (h : isOws c = true) : isWhitespace c = true := by
  simp only [isOws, Bool.or_eq_true, beq_iff_eq] at h
  rcases h with rfl | rfl
  · decide
  · decide

namespace EntityTag

variable (tag : EntityTag)

theorem isTagChar_of_mem {c : Char} (h : c ∈ tag.opaqueTag) : isTagChar c = true :=
  List.all_eq_true.1 tag.all_isTagChar c h

theorem not_mem_quote : '"' ∉ tag.opaqueTag :=
  fun h ↦ absurd (tag.isTagChar_of_mem h) (by decide)

theorem isWhitespace_eq_false {c : Char} (h : c ∈ tag.opaqueTag) : isWhitespace c = false := by
  have hc := tag.isTagChar_of_mem h
  simp only [isTagChar, Bool.or_eq_true, Bool.and_eq_true, beq_iff_eq, decide_eq_true_eq] at hc
  rw [Bool.eq_false_iff]
  intro hspace
  simp only [isWhitespace, Bool.or_eq_true, Bool.and_eq_true, beq_iff_eq, decide_eq_true_eq]
    at hspace
  omega

/-- A tag opens with a quote, behind `W/` if it is weak. -/
theorem opening_eq : tag.opening = str "W/\"" ∨ tag.opening = str "\"" := by
  unfold opening
  split
  · exact Or.inl rfl
  · exact Or.inr rfl

/-- The commas of a tag are between its quotes. -/
theorem mem_comma_text_iff : ',' ∈ tag.text ↔ ',' ∈ tag.opaqueTag := by
  rw [text, List.mem_append, List.mem_append]
  constructor
  · rintro ((h | h) | h)
    · rcases tag.opening_eq with heq | heq
      all_goals
        rw [heq] at h
        exact absurd h (by decide)
    · exact h
    · exact absurd h (by decide)
  · exact fun h ↦ Or.inl (Or.inr h)

/-- The whitespace around a tag is trimmed, and nothing else. -/
theorem trim_text {before after : Str} (hbefore : before.all isOws = true)
    (hafter : after.all isOws = true) : trim (before ++ tag.text ++ after) = tag.text := by
  refine trimMatches_append
    (fun c hc ↦ isWhitespace_of_isOws (List.all_eq_true.1 hbefore c hc))
    (fun c hc ↦ isWhitespace_of_isOws (List.all_eq_true.1 hafter c hc)) ?_
    ⟨tag.opening ++ tag.opaqueTag, '"', rfl, by decide⟩
  rcases tag.opening_eq with heq | heq
  · exact ⟨'W', '/' :: '"' :: (tag.opaqueTag ++ str "\""), by rw [text, heq]; rfl, by decide⟩
  · exact ⟨'"', tag.opaqueTag ++ str "\"", by rw [text, heq]; rfl, by decide⟩

end EntityTag

/-! ### Derived tags -/

/-- What the comparison uses of a derived tag. -/
structure IsDerived (etag : Str) : Prop where
  not_mem_comma : ',' ∉ etag
  two_le_count : 2 ≤ etag.count '"'

/-- A derived tag has two quotes and no comma. -/
theorem isDerived_deriveEtag {crates : DigestCrates} (h : crates.EncodesUrlSafe)
    (upstreamEtag : Bytes) (basePath extension : Str) :
    IsDerived (deriveEtag crates upstreamEtag basePath extension) := by
  constructor
  · rw [deriveEtag]
    simp only [List.mem_append, not_or]
    refine ⟨⟨⟨⟨by decide, by decide⟩, by decide⟩, fun hcomma ↦ ?_⟩, by decide⟩
    exact absurd (h _ _ hcomma) (by decide)
  · rw [deriveEtag]
    simp only [List.count_append]
    have hfirst : (str "W/\"kserw-").count '"' = 1 := by decide
    have hlast : (str "\"").count '"' = 1 := by decide
    omega

/-! ### One list element -/

/-- A candidate is accepted. -/
def Accepts (etag candidate : Str) : Prop :=
  trim candidate = str "*" ∨ trim candidate = etag

/-- A candidate with exactly one quote is not accepted. -/
theorem not_accepts_of_count {etag candidate : Str} (h : IsDerived etag)
    (hcount : candidate.count '"' = 1) : ¬ Accepts etag candidate := by
  rintro (heq | heq)
  · have hmem : '"' ∈ candidate := List.count_pos_iff.1 (by omega)
    have hkept := mem_trimMatches (p := isWhitespace) hmem (by decide)
    rw [show trimMatches isWhitespace candidate = str "*" from heq] at hkept
    exact absurd hkept (by decide)
  · have hle := (trimMatches_sublist isWhitespace candidate).count_le '"'
    rw [show trimMatches isWhitespace candidate = etag from heq] at hle
    have := h.two_le_count
    omega

theorem not_mem_of_isOws {ows : Str} (h : ows.all isOws = true) {c : Char}
    (hc : isOws c = false) : c ∉ ows := by
  intro hmem
  rw [List.all_eq_true.1 h c hmem] at hc
  exact absurd hc (by simp)

/-- A tag without a comma is one candidate. -/
theorem accepts_listed_iff_of_not_mem {etag : Str} {tag : EntityTag} {before after : Str}
    (hbefore : before.all isOws = true) (hafter : after.all isOws = true)
    (hcomma : ',' ∉ tag.opaqueTag) :
    (∃ candidate ∈ split ',' (before ++ tag.text ++ after), Accepts etag candidate) ↔
      tag.text = etag := by
  have hnone : ',' ∉ before ++ tag.text ++ after := by
    rw [List.mem_append, List.mem_append, tag.mem_comma_text_iff]
    rintro ((hc | hc) | hc)
    · exact not_mem_of_isOws hbefore (by decide) hc
    · exact hcomma hc
    · exact not_mem_of_isOws hafter (by decide) hc
  rw [split_of_not_mem hnone]
  simp only [List.mem_singleton, exists_eq_left, Accepts, tag.trim_text hbefore hafter]
  refine ⟨fun h ↦ h.resolve_left fun heq ↦ ?_, Or.inr⟩
  have hquote : '"' ∈ tag.text := List.mem_append_right _ (by decide)
  rw [heq] at hquote
  exact absurd hquote (by decide)

/-- A tag with commas is cut into one candidate for each segment; the first and the last hold the
quotes. -/
theorem exists_split_listed {tag : EntityTag} {before after : Str}
    (hbefore : before.all isOws = true) (hafter : after.all isOws = true)
    (hcomma : ',' ∈ tag.opaqueTag) :
    ∃ first middle last, split ',' tag.opaqueTag = first :: (middle ++ [last]) ∧
      split ',' (before ++ tag.text ++ after) =
        (before ++ tag.opening ++ first) :: (middle ++ [last ++ (str "\"" ++ after)]) := by
  obtain ⟨u, v, hsplit⟩ := List.append_of_mem hcomma
  obtain ⟨first, us, hu⟩ := List.exists_cons_of_ne_nil (split_ne_nil ',' u)
  obtain ⟨vs, last, hv⟩ := (List.eq_nil_or_concat' _).resolve_left (split_ne_nil ',' v)
  have hsegments : split ',' tag.opaqueTag = first :: (us ++ vs ++ [last]) := by
    rw [hsplit, split_append_cons, hu, hv, List.cons_append, List.append_assoc]
  have hstart : ',' ∉ before ++ tag.opening := by
    rw [List.mem_append]
    rintro (hc | hc)
    · exact not_mem_of_isOws hbefore (by decide) hc
    · rcases tag.opening_eq with heq | heq
      all_goals
        rw [heq] at hc
        exact absurd hc (by decide)
  have hend : ',' ∉ str "\"" ++ after := by
    rw [List.mem_append]
    rintro (hc | hc)
    · exact absurd hc (by decide)
    · exact not_mem_of_isOws hafter (by decide) hc
  refine ⟨first, us ++ vs, last, hsegments, ?_⟩
  have hright : split ',' (tag.opaqueTag ++ (str "\"" ++ after)) =
      (first :: (us ++ vs)) ++ [last ++ (str "\"" ++ after)] :=
    split_append_right hend hsegments
  have hleft := split_append_left hstart hright
  simp only [List.append_assoc, List.append_eq] at hleft
  simp only [EntityTag.text, List.append_assoc]
  exact hleft

/-- An asterisk between two commas is a segment that is neither the first nor the last. -/
theorem mem_middle_iff {o first last : Str} {middle : List Str}
    (h : split ',' o = first :: (middle ++ [last])) :
    str "*" ∈ middle ↔ str ",*," <:+: o := by
  constructor
  · intro hmem
    obtain ⟨m, n, rfl⟩ := List.append_of_mem hmem
    have hcut : split ',' o = (first :: m) ++ (str "*" :: (n ++ [last])) := by
      rw [h]
      simp
    obtain ⟨u, v, rfl, -, hv⟩ :=
      exists_of_split_eq_append hcut (List.cons_ne_nil _ _) (List.cons_ne_nil _ _)
    have hcut' : split ',' v = [str "*"] ++ (n ++ [last]) := hv
    obtain ⟨star, w, rfl, hstar, -⟩ :=
      exists_of_split_eq_append hcut' (List.cons_ne_nil _ _) (by simp)
    obtain ⟨rfl, -⟩ := eq_of_split_eq_singleton hstar
    exact ⟨u, w, by simp [str]⟩
  · rintro ⟨u, v, rfl⟩
    have hcut : u ++ str ",*," ++ v = u ++ ',' :: (str "*" ++ ',' :: v) := by simp [str]
    rw [hcut, split_append_cons, split_append_cons,
      split_of_not_mem (by decide : ',' ∉ str "*")] at h
    obtain ⟨a, us, hu⟩ := List.exists_cons_of_ne_nil (split_ne_nil ',' u)
    obtain ⟨vs, b, hv⟩ := (List.eq_nil_or_concat' _).resolve_left (split_ne_nil ',' v)
    rw [hu, hv, List.cons_append] at h
    have htail : us ++ str "*" :: vs ++ [b] = middle ++ [last] := by
      rw [← (List.cons.inj h).2]
      simp
    rw [← (List.append_inj' htail rfl).1]
    simp

/-- **The split of one list element** yields an accepted candidate if the tag is the derived one,
or if its opaque tag has an asterisk between two commas. -/
theorem exists_accepts_split_iff {etag : Str} (h : IsDerived etag) (listed : ListedTag) :
    (∃ candidate ∈ split ',' listed.text, Accepts etag candidate) ↔
      listed.tag.text = etag ∨ str ",*," <:+: listed.tag.opaqueTag := by
  obtain ⟨before, tag, after, hbefore, hafter⟩ := listed
  show (∃ candidate ∈ split ',' (before ++ tag.text ++ after), Accepts etag candidate) ↔
    tag.text = etag ∨ str ",*," <:+: tag.opaqueTag
  by_cases hcomma : ',' ∈ tag.opaqueTag
  case neg =>
    have hstar : ¬ str ",*," <:+: tag.opaqueTag :=
      fun hstar ↦ hcomma (hstar.subset (by decide))
    rw [accepts_listed_iff_of_not_mem hbefore hafter hcomma, or_iff_left hstar]
  case pos =>
    have hne : tag.text ≠ etag :=
      fun heq ↦ h.not_mem_comma (heq ▸ tag.mem_comma_text_iff.2 hcomma)
    obtain ⟨first, middle, last, hsegments, hsplit⟩ := exists_split_listed hbefore hafter hcomma
    have hsegment : ∀ {segment}, segment ∈ split ',' tag.opaqueTag → ∀ {c}, c ∈ segment →
        c ∈ tag.opaqueTag := fun hs _ hc ↦ mem_of_mem_split hs hc
    have hnoquote : ∀ {segment}, segment ∈ split ',' tag.opaqueTag → segment.count '"' = 0 :=
      fun hs ↦ List.count_eq_zero.2 fun hc ↦ tag.not_mem_quote (hsegment hs hc)
    have hbeforeCount : before.count '"' = 0 :=
      List.count_eq_zero.2 (not_mem_of_isOws hbefore (by decide))
    have hafterCount : after.count '"' = 0 :=
      List.count_eq_zero.2 (not_mem_of_isOws hafter (by decide))
    rw [hsplit, or_iff_right hne, ← mem_middle_iff hsegments]
    constructor
    · rintro ⟨candidate, hmem, haccepts⟩
      rcases List.mem_cons.1 hmem with rfl | hmem
      · -- the first candidate holds the opening quote
        refine absurd haccepts (not_accepts_of_count h ?_)
        have hfirst : first.count '"' = 0 := hnoquote (hsegments ▸ List.mem_cons_self)
        rw [List.count_append, List.count_append, hbeforeCount, hfirst]
        rcases tag.opening_eq with heq | heq
        all_goals
          rw [heq]
          decide
      rcases List.mem_append.1 hmem with hmem | hmem
      · -- a candidate in the middle holds neither a quote nor whitespace
        have hs : candidate ∈ split ',' tag.opaqueTag := by
          rw [hsegments]
          exact List.mem_cons_of_mem _ (List.mem_append_left _ hmem)
        have htrim : trim candidate = candidate :=
          trimMatches_of_forall fun c hc ↦ tag.isWhitespace_eq_false (hsegment hs hc)
        rcases haccepts with heq | heq
        · rwa [htrim.symm.trans heq] at hmem
        · have hcount := h.two_le_count
          rw [← heq, htrim, hnoquote hs] at hcount
          omega
      · -- the last candidate holds the closing quote
        obtain rfl := List.mem_singleton.1 hmem
        refine absurd haccepts (not_accepts_of_count h ?_)
        have hlast : last.count '"' = 0 :=
          hnoquote (hsegments ▸ List.mem_cons_of_mem _ (by simp))
        rw [List.count_append, List.count_append, hafterCount, hlast]
        decide
    · intro hmem
      refine ⟨str "*", List.mem_cons_of_mem _ (List.mem_append_left _ hmem), Or.inl ?_⟩
      decide

/-! ### The field -/

/-- The split of a list is the split of its elements. -/
theorem exists_mem_split_intercalate {etag : Str} (h : IsDerived etag) (tags : List ListedTag) :
    (∃ candidate ∈ split ',' ((str ",").intercalate (tags.map ListedTag.text)),
        Accepts etag candidate) ↔
      ∃ listed ∈ tags, ∃ candidate ∈ split ',' listed.text, Accepts etag candidate := by
  induction tags with
  | nil =>
    refine iff_of_false ?_ (by simp)
    rintro ⟨candidate, hmem, haccepts⟩
    obtain rfl := List.mem_singleton.1 hmem
    rcases haccepts with heq | heq
    · exact absurd heq (by decide)
    · have hcount := h.two_le_count
      rw [← heq] at hcount
      exact absurd hcount (by decide)
  | cons listed tags ih =>
    cases tags with
    | nil => simp
    | cons listed' tags =>
      have hcons : (str ",").intercalate ((listed :: listed' :: tags).map ListedTag.text) =
          listed.text ++ ',' :: (str ",").intercalate ((listed' :: tags).map ListedTag.text) := by
        simp [List.intercalate, str]
      rw [hcons, split_append_cons, List.exists_mem_cons_iff, ← ih]
      simp only [List.mem_append, or_and_right, exists_or]

/-- The text of a value is visible. -/
theorem IfNoneMatch.visible_text (field : IfNoneMatch) : Visible field.text := by
  have hows : ∀ {ows : Str}, ows.all isOws = true → Visible ows := by
    intro ows hall c hc
    have hc := List.all_eq_true.1 hall c hc
    simp only [isOws, Bool.or_eq_true, beq_iff_eq] at hc
    rcases hc with rfl | rfl
    · exact Or.inl (by decide)
    · exact Or.inr (by decide)
  have htag : ∀ tag : EntityTag, Visible tag.text := by
    intro tag
    refine Visible.append (Visible.append ?_ fun c hc ↦ ?_) ?_
    · rcases tag.opening_eq with heq | heq
      all_goals
        rw [heq]
        exact visible_str (by decide)
    · have hc := tag.isTagChar_of_mem hc
      simp only [isTagChar, Bool.or_eq_true, Bool.and_eq_true, beq_iff_eq, decide_eq_true_eq]
        at hc
      omega
    · exact visible_str (by decide)
  cases field with
  | any => exact visible_str (by decide)
  | list tags =>
    refine visible_intercalate ?_ fun value hvalue ↦ ?_
    · exact visible_str (by decide)
    · obtain ⟨listed, -, rfl⟩ := List.mem_map.1 hvalue
      exact ((hows listed.all_before).append (htag _)).append (hows listed.all_after)

/-- **What the comparison accepts**: the asterisk, the derived tag, and every list with a tag that
has an asterisk between two commas. -/
theorem ifNoneMatchMatches_eq_true_iff {etag : Str} (h : IsDerived etag) (field : IfNoneMatch)
    {value : HeaderValue} (hvalue : value.asBytes = field.text.asBytes) :
    ifNoneMatchMatches (some value) etag = true ↔
      field.Holds etag ∨ ∃ tag ∈ field.tags, str ",*," <:+: tag.opaqueTag := by
  have haccepts : ∀ {candidate : Str},
      (trim candidate == str "*" || trim candidate == etag) = true ↔ Accepts etag candidate := by
    intro candidate
    rw [Bool.or_eq_true, beq_iff_eq, beq_iff_eq, Accepts]
  have htext := HeaderValue.toStr_of_visible field.visible_text hvalue
  have hmatches : ifNoneMatchMatches (some value) etag = true ↔
      ∃ candidate ∈ split ',' field.text, Accepts etag candidate := by
    simp only [ifNoneMatchMatches, Option.bind_some, htext, Option.any_some, List.any_map,
      List.any_eq_true, Function.comp_apply, haccepts]
  rw [hmatches]
  cases field with
  | any =>
    refine iff_of_true ⟨str "*", by decide, Or.inl (by decide)⟩ (Or.inl (Or.inl rfl))
  | list tags =>
    show (∃ candidate ∈ split ',' ((str ",").intercalate (tags.map ListedTag.text)),
      Accepts etag candidate) ↔ _
    rw [exists_mem_split_intercalate h]
    simp only [exists_accepts_split_iff h, IfNoneMatch.Holds, IfNoneMatch.tags, reduceCtorEq,
      false_or, List.mem_map, exists_exists_and_eq_and, ← exists_or, ← and_or_left]

/-- **The `304` shortcut follows the grammar** of `If-None-Match` exactly when no listed tag has an
asterisk between two commas, or the answer is yes anyway: for these values, and for no others, the
comparison says whether the client holds the derived tag or asks for any representation. -/
theorem ifNoneMatchMatches_iff {crates : DigestCrates} (h : crates.EncodesUrlSafe)
    (field : IfNoneMatch) {value : HeaderValue} (hvalue : value.asBytes = field.text.asBytes)
    (upstreamEtag : Bytes) (basePath extension : Str) :
    (ifNoneMatchMatches (some value) (deriveEtag crates upstreamEtag basePath extension) = true ↔
      field.Holds (deriveEtag crates upstreamEtag basePath extension)) ↔
      (∀ tag ∈ field.tags, ¬ str ",*," <:+: tag.opaqueTag) ∨
        field.Holds (deriveEtag crates upstreamEtag basePath extension) := by
  rw [ifNoneMatchMatches_eq_true_iff (isDerived_deriveEtag h _ _ _) field hvalue]
  constructor
  · intro hiff
    refine (Classical.em (field.Holds _)).elim Or.inr fun hnot ↦ Or.inl ?_
    exact fun tag htag hstar ↦ hnot (hiff.1 (Or.inr ⟨tag, htag, hstar⟩))
  · rintro (hnone | hholds)
    · refine or_iff_left ?_
      rintro ⟨tag, htag, hstar⟩
      exact hnone tag htag hstar
    · exact iff_of_true (Or.inl hholds) hholds

/-- A field with the single tag `"a,*,b"`. -/
def starredField : IfNoneMatch :=
  .list [⟨[], ⟨false, str "a,*,b", by decide⟩, [], rfl, rfl⟩]

/-- A field with a plain tag. -/
def plainField : IfNoneMatch :=
  .list [⟨[], ⟨true, str "a,b", by decide⟩, str " ", rfl, rfl⟩]

/-- The tag that is derived from `"v1"` for one extension. -/
def embedEtag : Str :=
  deriveEtag (.ofHash recordedBlake3) (bytes "\"v1\"") (str "/regions/r1") (str "embed")

/-- The theorem for a tag with a comma. -/
theorem ifNoneMatchMatches_iff_plain :
    (ifNoneMatchMatches (some ⟨bytes "W/\"a,b\" ", by decide⟩) embedEtag = true ↔
      plainField.Holds embedEtag) ↔
      (∀ tag ∈ plainField.tags, ¬ str ",*," <:+: tag.opaqueTag) ∨ plainField.Holds embedEtag :=
  ifNoneMatchMatches_iff (DigestCrates.ofHash_encodesUrlSafe recordedBlake3) plainField
    (by decide) _ _ _

/-- The asterisk inside a tag is taken for the asterisk that asks for any representation. -/
theorem not_ifNoneMatchMatches_iff_starred :
    ifNoneMatchMatches (some ⟨bytes "\"a,*,b\"", by decide⟩) embedEtag = true ∧
      ¬ starredField.Holds embedEtag ∧ bytes "\"a,*,b\"" = starredField.text.asBytes := by
  have hderived : IsDerived embedEtag := isDerived_deriveEtag
    (DigestCrates.ofHash_encodesUrlSafe recordedBlake3) (bytes "\"v1\"") _ _
  have hbytes : bytes "\"a,*,b\"" = starredField.text.asBytes := by decide
  refine ⟨(ifNoneMatchMatches_eq_true_iff hderived starredField hbytes).2 (Or.inr ?_), ?_, hbytes⟩
  · exact ⟨_, List.mem_singleton_self _, str "a", str "b", rfl⟩
  · rintro (hany | ⟨tag, htag, heq⟩)
    · exact absurd hany (by simp [starredField])
    · obtain rfl := List.mem_singleton.1 htag
      -- the tag has commas, a derived one has none
      exact hderived.not_mem_comma (heq ▸ by decide)

end KseRewriteProxy
