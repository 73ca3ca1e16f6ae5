import KseRewriteProxy.Rewrite.MigMetaExchange
import KseRewriteProxy.Rewrite.AttributeRules

/-!
# The `_mig_meta` transform behind the attribute rules

In the `ys1000` pipeline the transform reads what the attribute rules have made of the body. Whether
it exchanges a payload there is already decided by the body: a base path that is inserted behind the
quote of an attribute neither makes a marker nor an opening, and a payload around it has a quote and
is no Base64 (`hasExchangeable_insert`). So the rules keep whether there is something to exchange
(`hasExchangeable_applyAll_htmlRules`).

The argument goes along the turns of the scan, one insertion at a time. An insertion may stand in
text that the scan copies, in an opening, in a payload, or behind an unclosed quote. It has no quote
of its own, so it does not move the end of a payload; and it begins with a slash, at which no
opening goes on (`EndsOpening`). What stands before it ends with the quote of an attribute, so an
insertion in a payload is one in a payload that another quote has got into, which no codec decodes
(`not_exchangeable_of_mem`).
-/

namespace KseRewriteProxy

open Text Text.Utf8 StreamingRewritePipeline

/-- What the crate documents of a payload with a quote: it is not decoded. -/
def MetadataCodec.RejectsQuotes (codec : MetadataCodec) : Prop :=
  ∀ payload decoded, codec.decode payload = some decoded →
    ∀ byte ∈ payload, isQuote byte = false

variable {codec : MetadataCodec} {desired : Str}

/-! ### Inputs that the transform changes -/

/-- Some assignment before the first quote that is not closed has a payload to exchange. -/
def HasExchangeable (codec : MetadataCodec) (desired : Str) (input : Bytes) : Prop :=
  ∃ head quote payload, Turn.assigned head quote payload ∈ (turns input).takeWhile Turn.closed ∧
    Exchangeable codec desired payload

/-- **The transform changes exactly the inputs with a payload to exchange.** -/
theorem rewriteMigMetaBaseUri_eq_self_iff (h : codec.Lawful) (input : Bytes) :
    rewriteMigMetaBaseUri codec input desired = input ↔ ¬ HasExchangeable codec desired input := by
  have hinput : ((turns input).takeWhile Turn.closed).flatMap Turn.text ++
      ((turns input).dropWhile Turn.closed).flatMap Turn.text = input := by
    rw [← List.flatMap_append, List.takeWhile_append_dropWhile, flatMap_text_turns]
  have hkept := @flatMap_exchanged_eq_iff _ desired h ((turns input).takeWhile Turn.closed)
    fun head quote payload hmem ↦ quote_of_mem_turns ((List.takeWhile_sublist _).subset hmem)
  rw [rewriteMigMetaBaseUri_eq_migMetaScan, migMetaScan]
  conv_lhs => rhs; rw [← hinput]
  rw [List.append_cancel_right_eq, hkept, HasExchangeable]
  simp only [not_exists, not_and]

/-- Without a marker there is nothing to exchange. -/
theorem not_hasExchangeable_of_find_none {input : Bytes}
    (h : find assignment.toList input = none) : ¬ HasExchangeable codec desired input := by
  rintro ⟨head, quote, payload, hmem, -⟩
  rw [turns_of_find_none h] at hmem
  exact absurd (List.mem_singleton.1 ((List.takeWhile_sublist _).subset hmem)) (by simp)

/-- The first turn decides, or the rest of the input. -/
theorem hasExchangeable_append {before : Bytes} (hbefore : EndsAtMarker before) (rest : Bytes) :
    HasExchangeable codec desired (before ++ rest) ↔
      match following rest with
      | .malformed => HasExchangeable codec desired rest
      | .unterminated => False
      | .assigned _ _ payload rest' =>
        Exchangeable codec desired payload ∨ HasExchangeable codec desired rest' := by
  rw [HasExchangeable, turns_append hbefore]
  rcases following rest with - | - | ⟨opening, quote, payload, rest'⟩
  · simp only [List.takeWhile_cons_of_pos (show Turn.closed (.copied before) = true from rfl),
      List.mem_cons, reduceCtorEq, false_or]
    rfl
  · simp [Turn.closed]
  · simp only [List.takeWhile_cons_of_pos
      (show Turn.closed (.assigned (before ++ opening) quote payload) = true from rfl),
      List.mem_cons, Turn.assigned.injEq]
    constructor
    · rintro ⟨head, quote', payload', ⟨-, -, rfl⟩ | hmem, hex⟩
      · exact Or.inl hex
      · exact Or.inr ⟨head, quote', payload', hmem, hex⟩
    · rintro (hex | ⟨head, quote', payload', hmem, hex⟩)
      · exact ⟨_, _, payload, Or.inl ⟨rfl, rfl, rfl⟩, hex⟩
      · exact ⟨head, quote', payload', Or.inr hmem, hex⟩

/-! ### Openings -/

/-- A byte that can stand neither in an opening nor behind it. -/
def EndsOpening (byte : UInt8) : Prop :=
  isAsciiWhitespace byte = false ∧ byte ≠ 0x3D ∧ isQuote byte = false

theorem endsOpening_slash : EndsOpening 0x2F := by
  exact ⟨by decide, by decide, by decide⟩

/-- What ends an opening is no byte inside it. -/
theorem EndsOpening.not_mem {byte : UInt8} (h : EndsOpening byte) {opening : Bytes}
    (hopening : IsOpening opening) {quote : UInt8} (hquote : isQuote quote = true) :
    byte ∉ opening ++ [quote] := by
  obtain ⟨hspace, hsign, hnot⟩ := h
  obtain ⟨u, v, rfl, hu, hv⟩ := hopening
  intro hmem
  simp only [List.mem_append, List.mem_cons, List.not_mem_nil, or_false] at hmem
  rcases hmem with (hmem | rfl | hmem) | rfl
  · exact absurd (hu _ hmem) (by simp [hspace])
  · exact hsign rfl
  · exact absurd (hv _ hmem) (by simp [hspace])
  · exact absurd hquote (by simp [hnot])

/-- **Such a byte hides what stands behind it**: whether there is an opening is decided before
it. -/
theorem readOpening_append_cons {byte : UInt8} (h : EndsOpening byte) (w y : Bytes) :
    readOpening (w ++ byte :: y) =
      (readOpening w).map fun found ↦ (found.1, found.2.1, found.2.2 ++ byte :: y) := by
  rcases hw : readOpening w with - | ⟨opening, quote, tail⟩
  · rw [Option.map_none, Option.eq_none_iff_forall_ne_some]
    rintro ⟨opening, quote, tail⟩ hfound
    obtain ⟨hopening, hquote, heq⟩ := readOpening_eq_some_iff.1 hfound
    have hprefix : opening ++ [quote] <+: w ++ byte :: y := ⟨tail, by rw [heq]; simp⟩
    obtain ⟨tail', rfl⟩ := (isPrefix_append_cons_iff (h.not_mem hopening hquote)).1 hprefix
    have hfound' : opening ++ [quote] ++ tail' = opening ++ quote :: tail' := by simp
    rw [readOpening_eq_some_iff.2 ⟨hopening, hquote, hfound'⟩] at hw
    exact absurd hw (by simp)
  · obtain ⟨hopening, hquote, rfl⟩ := readOpening_eq_some_iff.1 hw
    rw [Option.map_some, readOpening_eq_some_iff]
    exact ⟨hopening, hquote, by simp⟩

/-! ### Texts in front of a slash -/

/-- A text without the marker in front of a slash does not matter. -/
theorem hasExchangeable_append_slash {u : Bytes} (hu : ¬ assignment.toList <:+: u) (l : Bytes) :
    HasExchangeable codec desired (u ++ 0x2F :: l) ↔
      HasExchangeable codec desired (0x2F :: l) := by
  have hslash : (0x2F : UInt8) ∉ assignment.toList := by decide
  have hfind := find_append_cons hslash hu l
  rcases hk : find assignment.toList (0x2F :: l) with - | k
  · rw [hk] at hfind
    exact iff_of_false (not_hasExchangeable_of_find_none hfind)
      (not_hasExchangeable_of_find_none hk)
  · obtain ⟨hbefore, hlength⟩ := endsAtMarker_take hk
    have hsplit := List.take_append_drop (k + assignment.length) (0x2F :: l)
    generalize (0x2F :: l).take (k + assignment.length) = before at hbefore hlength hsplit
    generalize (0x2F :: l).drop (k + assignment.length) = rest at hsplit
    -- the text up to the marker starts with the slash, so the text in front of it can be added
    obtain ⟨before', rfl⟩ : ∃ before', before = 0x2F :: before' := by
      cases before with
      | nil => exact absurd hbefore.length_le (by decide)
      | cons b before' => exact ⟨before', by rw [(List.cons.inj hsplit).1]⟩
    have hbefore' : EndsAtMarker (u ++ 0x2F :: before') := by
      have hle := hbefore.length_le
      rw [EndsAtMarker, find_append_cons hslash hu, hbefore, Option.map_some, List.length_append]
      congr 1
      omega
    rw [← hsplit, ← List.append_assoc, hasExchangeable_append hbefore',
      hasExchangeable_append hbefore]

/-- A text without quotes in front of a slash does not matter: a marker in it has no assignment. -/
theorem hasExchangeable_append_of_isQuote {x : Bytes} (hx : ∀ b ∈ x, isQuote b = false)
    (l : Bytes) :
    HasExchangeable codec desired (x ++ 0x2F :: l) ↔
      HasExchangeable codec desired (0x2F :: l) := by
  induction hn : x.length using Nat.strongRecOn generalizing x with
  | ind n ih =>
    subst hn
    rcases hfind : find assignment.toList x with - | k
    · exact hasExchangeable_append_slash (find_eq_none_iff_not_isInfix.1 hfind) l
    · obtain ⟨hbefore, -⟩ := endsAtMarker_take hfind
      have hlt := length_drop_lt_of_find hfind
      have hsplit := List.take_append_drop (k + assignment.length) x
      generalize x.take (k + assignment.length) = before at hbefore hsplit
      generalize x.drop (k + assignment.length) = x' at hlt hsplit
      have hx' : ∀ b ∈ x', isQuote b = false := fun b hb ↦
        hx b (hsplit ▸ List.mem_append_right _ hb)
      have hnone : readOpening x' = none := by
        rw [Option.eq_none_iff_forall_ne_some]
        rintro ⟨opening, quote, tail⟩ hfound
        obtain ⟨-, hquote, rfl⟩ := readOpening_eq_some_iff.1 hfound
        exact absurd hquote (by simp [hx' quote (by simp)])
      have hcase : following (x' ++ 0x2F :: l) = .malformed := by
        rw [following, readOpening_append_cons endsOpening_slash, hnone]
        rfl
      rw [← hsplit, List.append_assoc, hasExchangeable_append hbefore, hcase]
      exact ih _ hlt hx' rfl

/-! ### Inserting behind the quote of an attribute -/

/-- The text ends with the end of an attribute: a letter of its name, the equals sign and the
quote. -/
def EndsWithAttribute (u : Bytes) : Prop :=
  ∃ w letter quote, u = w ++ [letter, 0x3D, quote] ∧ (letter = 0x66 ∨ letter = 0x63) ∧
    isQuote quote = true

theorem EndsWithAttribute.append_left {u : Bytes} (h : EndsWithAttribute u) (before : Bytes) :
    EndsWithAttribute (before ++ u) := by
  obtain ⟨w, letter, quote, rfl, hletter, hquote⟩ := h
  exact ⟨before ++ w, letter, quote, by simp, hletter, hquote⟩

/-- A marker in front of the end of an attribute is in front of all of it. -/
theorem EndsWithAttribute.of_append {before u : Bytes} (hbefore : EndsAtMarker before)
    (h : EndsWithAttribute (before ++ u)) : EndsWithAttribute u := by
  obtain ⟨w, letter, quote, heq, hletter, hquote⟩ := h
  rcases List.append_eq_append_iff.1 heq with ⟨v, rfl, hv⟩ | ⟨v, rfl, hv⟩
  · exact ⟨v, letter, quote, hv, hletter, hquote⟩
  · rcases List.eq_nil_or_concat' v with rfl | ⟨v, last, rfl⟩
    · exact ⟨[], letter, quote, hv.symm, hletter, hquote⟩
    · -- the marker ends with a letter that is none of these three symbols
      obtain ⟨t, ht⟩ := hbefore.isSuffix
      have hlast := congrArg List.getLast? ht
      rw [List.getLast?_append, show assignment.toList.getLast? = some 0x61 by decide,
        Option.some_or, ← List.append_assoc, List.getLast?_concat, Option.some.injEq] at hlast
      have hmem : last ∈ [letter, 0x3D, quote] := by
        rw [hv]
        simp
      rw [← hlast] at hmem
      simp only [List.mem_cons, List.not_mem_nil, or_false] at hmem
      rcases hmem with rfl | hsign | rfl
      · exact absurd hletter (by decide)
      · exact absurd hsign (by decide)
      · exact absurd hquote (by decide)

/-- A payload with a quote is not exchanged. -/
theorem not_exchangeable_of_mem (hcodec : codec.RejectsQuotes) {payload : Bytes} {quote : UInt8}
    (hquote : isQuote quote = true) (hmem : quote ∈ payload) :
    ¬ Exchangeable codec desired payload := by
  rintro ⟨decoded, -, -, hdecoded, -⟩
  rw [hcodec payload decoded hdecoded quote hmem] at hquote
  exact absurd hquote (by simp)

section

variable {before opening v x : Bytes} {quote q : UInt8}

/-- Behind an assignment: its payload, or one in the rest. -/
theorem hasExchangeable_assigned (hbefore : EndsAtMarker before) (hopening : IsOpening opening)
    (hquote : isQuote quote = true) (hv : quote ∉ v) (rest : Bytes) :
    HasExchangeable codec desired (before ++ (opening ++ quote :: (v ++ quote :: rest))) ↔
      Exchangeable codec desired v ∨ HasExchangeable codec desired rest := by
  rw [hasExchangeable_append hbefore, following_assigned hopening hquote hv]

/-- Behind an unclosed quote nothing is exchanged. -/
theorem not_hasExchangeable_unterminated (hbefore : EndsAtMarker before)
    (hopening : IsOpening opening) (hquote : isQuote quote = true) (hv : quote ∉ v) :
    ¬ HasExchangeable codec desired (before ++ (opening ++ quote :: v)) := by
  rw [hasExchangeable_append hbefore,
    following_eq_unterminated_iff.2 ⟨opening, quote, v, hopening, hquote, hv, rfl⟩]
  exact not_false

/-- An insertion behind an opening whose quote is still open: the quote of the attribute closes it,
or is part of the payload. -/
theorem hasExchangeable_insert_opening (hcodec : codec.RejectsQuotes)
    (hx : ∀ b ∈ x, isQuote b = false) (hbefore : EndsAtMarker before)
    (hopening : IsOpening opening) (hquote : isQuote quote = true) (hv : quote ∉ v)
    (hq : isQuote q = true) (l : Bytes) :
    HasExchangeable codec desired
        (before ++ (opening ++ quote :: (v ++ q :: 0x2F :: (x ++ 0x2F :: l)))) ↔
      HasExchangeable codec desired (before ++ (opening ++ quote :: (v ++ q :: 0x2F :: l))) := by
  by_cases hend : quote = q
  · subst hend
    rw [hasExchangeable_assigned hbefore hopening hquote hv,
      hasExchangeable_assigned hbefore hopening hquote hv]
    exact or_congr_right (hasExchangeable_append_of_isQuote (x := 0x2F :: x)
      (List.forall_mem_cons.2 ⟨by decide, hx⟩) l)
  · have hslash : quote ≠ 0x2F := by
      rintro rfl
      exact absurd hquote (by decide)
    have hquotex : quote ∉ x := fun hmem ↦ absurd hquote (by simp [hx quote hmem])
    by_cases hl : quote ∈ l
    · -- the payload has the quote of the attribute, with the insertion and without it
      obtain ⟨l, rest, rfl, hfirst⟩ := List.eq_append_cons_of_mem hl
      have hcase : ∀ z, quote ∉ z →
          (HasExchangeable codec desired
            (before ++ (opening ++ quote :: ((v ++ q :: z) ++ quote :: rest))) ↔
            HasExchangeable codec desired rest) := by
        intro z hz
        have hpayload : quote ∉ v ++ q :: z := by
          rw [List.mem_append, List.mem_cons, not_or, not_or]
          exact ⟨hv, hend, hz⟩
        rw [hasExchangeable_assigned hbefore hopening hquote hpayload]
        exact or_iff_right (not_exchangeable_of_mem hcodec hq (by simp))
      have hwith := hcase (0x2F :: (x ++ 0x2F :: l)) (by simp [hslash, hquotex, hfirst])
      have hwithout := hcase (0x2F :: l) (by simp [hslash, hfirst])
      simp only [List.append_assoc, List.cons_append] at hwith hwithout
      exact hwith.trans hwithout.symm
    · refine iff_of_false ?_ ?_
      · exact not_hasExchangeable_unterminated hbefore hopening hquote
          (by simp [hv, hend, hslash, hquotex, hl])
      · exact not_hasExchangeable_unterminated hbefore hopening hquote
          (by simp [hv, hend, hslash, hl])

end

/-- **Inserting behind the quote of an attribute** a text that starts with a slash and has no quotes
keeps whether there is a payload to exchange, if a slash stands behind it. -/
theorem hasExchangeable_insert (hcodec : codec.RejectsQuotes) {x : Bytes}
    (hx : ∀ b ∈ x, isQuote b = false) {u : Bytes} (hu : EndsWithAttribute u) (l : Bytes) :
    HasExchangeable codec desired (u ++ 0x2F :: (x ++ 0x2F :: l)) ↔
      HasExchangeable codec desired (u ++ 0x2F :: l) := by
  induction hn : u.length using Nat.strongRecOn generalizing u with
  | ind n ih =>
    subst hn
    rcases hfind : find assignment.toList u with - | k
    · have hfree := find_eq_none_iff_not_isInfix.1 hfind
      rw [hasExchangeable_append_slash hfree, hasExchangeable_append_slash hfree]
      exact hasExchangeable_append_of_isQuote (x := 0x2F :: x)
        (List.forall_mem_cons.2 ⟨by decide, hx⟩) l
    · obtain ⟨hbefore, -⟩ := endsAtMarker_take hfind
      have hlt := length_drop_lt_of_find hfind
      have hsplit := List.take_append_drop (k + assignment.length) u
      generalize u.take (k + assignment.length) = before at hbefore hsplit
      generalize u.drop (k + assignment.length) = u' at hlt hsplit
      rw [← hsplit] at hu
      obtain ⟨w, letter, q, rfl, hletter, hq⟩ := hu.of_append hbefore
      have hends : EndsOpening letter := by
        rcases hletter with rfl | rfl <;> exact ⟨by decide, by decide, by decide⟩
      rw [← hsplit, List.append_assoc before, List.append_assoc before]
      rcases hw : readOpening w with - | ⟨opening, quote, tail⟩
      · have hcase : ∀ y, following (w ++ [letter, 0x3D, q] ++ y) = .malformed := by
          intro y
          rw [List.append_assoc, following, List.cons_append, readOpening_append_cons hends, hw]
          rfl
        rw [hasExchangeable_append hbefore, hasExchangeable_append hbefore, hcase, hcase]
        exact ih _ hlt ⟨w, letter, q, rfl, hletter, hq⟩ rfl
      obtain ⟨hopening, hquote, rfl⟩ := readOpening_eq_some_iff.1 hw
      by_cases hmem : quote ∈ tail
      · obtain ⟨payload, tail, rfl, hpayload⟩ := List.eq_append_cons_of_mem hmem
        have hrest := ih (tail ++ [letter, 0x3D, q]).length (by
          simp only [List.length_append, List.length_cons] at hlt ⊢
          omega) ⟨tail, letter, q, rfl, hletter, hq⟩ rfl
        have hcase : ∀ y, HasExchangeable codec desired (before ++
            (opening ++ quote :: (payload ++ quote :: tail) ++ [letter, 0x3D, q] ++ y)) ↔
              Exchangeable codec desired payload ∨
                HasExchangeable codec desired (tail ++ [letter, 0x3D, q] ++ y) := by
          intro y
          rw [← hasExchangeable_assigned hbefore hopening hquote hpayload]
          simp only [List.append_assoc, List.cons_append]
        rw [hcase, hcase, hrest]
      · have hv : quote ∉ tail ++ [letter, 0x3D] := by
          simp only [List.mem_append, List.mem_cons, List.not_mem_nil, or_false, not_or]
          refine ⟨hmem, ?_, ?_⟩
          · rintro rfl
            exact absurd hquote (by simp [hends.2.2])
          · rintro rfl
            exact absurd hquote (by decide)
        have hinserted := @hasExchangeable_insert_opening _ desired _ _ _ _ _ _ hcodec hx hbefore
          hopening hquote hv hq l
        simp only [List.append_assoc, List.cons_append, List.nil_append] at hinserted ⊢
        exact hinserted

/-! ### The attribute rules -/

theorem endsWithAttribute_of_mem {key : UInt8 × Bytes} (hkey : key ∈ attributeKeys) :
    EndsWithAttribute (key.1 :: key.2) := by
  obtain ⟨-, hattr⟩ := mem_attributeKeys_iff.1 hkey
  simp only [htmlAttributes, List.mem_cons, List.not_mem_nil, or_false] at hattr
  rcases hattr with h | h | h | h
  · exact ⟨key.1 :: bytes "hre", 0x66, 0x22, by rw [h]; rfl, Or.inl rfl, by decide⟩
  · exact ⟨key.1 :: bytes "hre", 0x66, 0x27, by rw [h]; rfl, Or.inl rfl, by decide⟩
  · exact ⟨key.1 :: bytes "sr", 0x63, 0x22, by rw [h]; rfl, Or.inr rfl, by decide⟩
  · exact ⟨key.1 :: bytes "sr", 0x63, 0x27, by rw [h]; rfl, Or.inr rfl, by decide⟩

section

variable {basePath extension : Str} {x : Bytes}

/-- A rule of the attributes keeps whether there is a payload to exchange, in every context. -/
theorem hasExchangeable_replaceFrom (hcodec : codec.RejectsQuotes) {key : UInt8 × Bytes}
    (hkey : EndsWithAttribute (key.1 :: key.2)) (hbase : basePath.asBytes = 0x2F :: x)
    (hx : ∀ b ∈ x, isQuote b = false) (text : Bytes) :
    ∀ seen before, HasExchangeable codec desired (before ++
        replaceFrom (attributeRule basePath extension key).1
          (fun _ _ ↦ (attributeRule basePath extension key).2) seen text) ↔
      HasExchangeable codec desired (before ++ text) := by
  obtain ⟨root, hroot⟩ : ∃ root, proxyRoot extension = 0x2F :: root := ⟨_, rfl⟩
  have hneedle : (attributeRule basePath extension key).1.toList =
      key.1 :: key.2 ++ 0x2F :: root := by
    rw [← hroot]
    rfl
  have hreplacement : (attributeRule basePath extension key).2 =
      key.1 :: key.2 ++ 0x2F :: (x ++ 0x2F :: root) := by
    rw [← hroot, ← List.cons_append, ← hbase, ← List.append_assoc]
    rfl
  induction text using (attributeRule basePath extension key).1.induction with
  | nil =>
    intro seen before
    rw [replaceFrom_nil]
  | occurrence after ih =>
    intro seen before
    -- first the pass behind the occurrence, then the insertion at the occurrence
    have hrest := ih (seen ++ (attributeRule basePath extension key).1.toList)
      (before ++ (attributeRule basePath extension key).2)
    have hinserted := @hasExchangeable_insert _ desired hcodec _ hx _ (hkey.append_left before)
      (root ++ after)
    rw [replaceFrom_match, ← List.append_assoc, hrest, hreplacement, hneedle]
    simp only [List.append_assoc, List.cons_append] at hinserted ⊢
    exact hinserted
  | copy a rest hnot ih =>
    intro seen before
    have hrest := ih (seen ++ [a]) (before ++ [a])
    rw [List.append_assoc, List.append_assoc] at hrest
    rw [replaceFrom_cons hnot]
    exact hrest

/-- **The attribute rules keep whether there is a payload to exchange.** -/
theorem hasExchangeable_applyAll_htmlRules (hcodec : codec.RejectsQuotes)
    (hbase : basePath.asBytes = 0x2F :: x) (hx : ∀ b ∈ x, isQuote b = false) (body : Bytes) :
    HasExchangeable codec desired
        (applyAll ((htmlRules basePath extension).map exactStage) body) ↔
      HasExchangeable codec desired body := by
  have hkeys : ∀ keys : List (UInt8 × Bytes),
      (∀ key ∈ keys, EndsWithAttribute (key.1 :: key.2)) → ∀ body,
      (HasExchangeable codec desired (applyAll (keys.map fun key ↦
        exactStage (attributeRule basePath extension key)) body) ↔
          HasExchangeable codec desired body) := by
    intro keys
    induction keys with
    | nil => exact fun _ _ ↦ Iff.rfl
    | cons key keys ih =>
      intro hall body
      obtain ⟨hkey, hall⟩ := List.forall_mem_cons.1 hall
      rw [List.map_cons, applyAll_cons, ih hall]
      exact hasExchangeable_replaceFrom hcodec hkey hbase hx body [] []
  rw [htmlRules_eq, List.map_map]
  exact hkeys attributeKeys (fun key hkey ↦ endsWithAttribute_of_mem hkey) body

end

/-- **When the `ys1000` pipeline makes of a body what Named Proxy HTML makes of it**: exactly when
the body has no payload to exchange. -/
theorem applyAll_ys1000Html_eq_iff (h : codec.Lawful) (hcodec : codec.RejectsQuotes)
    {url : UrlCrate} {basePath : Str} (hbase : IsBasePath url basePath) (body : Bytes) :
    applyAll (responseStages codec .ys1000Html basePath ys1000Name) body =
        applyAll (responseStages codec .namedProxyHtml basePath ys1000Name) body ↔
      ¬ HasExchangeable codec (desiredBaseUri basePath ys1000Name) body := by
  obtain ⟨c, rest, hcons, -⟩ := hbase.exists_eq_cons
  have hrules : namedProxyRules basePath ys1000Name = htmlRules basePath ys1000Name :=
    if_neg (by decide)
  have hquotes : ∀ b ∈ basePath.asBytes, isQuote b = false := by
    intro b hb
    rw [isQuote, Bool.or_eq_false_iff, beq_eq_false_iff_ne, beq_eq_false_iff_ne]
    constructor
    · rintro rfl
      exact not_mem_basePath_of_isQuoteMark hbase (Or.inr rfl) hb
    · rintro rfl
      exact not_mem_basePath_of_isQuoteMark hbase (Or.inl rfl) hb
  have hslash : basePath.asBytes = 0x2F :: Str.asBytes (c :: rest) := by
    rw [hcons]
    rfl
  show applyAll ((namedProxyRules basePath ys1000Name).map exactStage ++ _) body =
    applyAll ((namedProxyRules basePath ys1000Name).map exactStage) body ↔ _
  rw [hrules, applyAll_append]
  refine (rewriteMigMetaBaseUri_eq_self_iff h _).trans (not_congr ?_)
  exact hasExchangeable_applyAll_htmlRules hcodec hslash
    (fun b hb ↦ hquotes b (by rw [hslash]; exact List.mem_cons_of_mem _ hb)) body

theorem baseUriObject_rejectsQuotes : baseUriObject.RejectsQuotes :=
  fun _ _ hdecoded byte hbyte ↦
    isQuote_standardAlphabet (Base64.mem_of_decode standardAlphabet hdecoded byte hbyte)

end KseRewriteProxy
