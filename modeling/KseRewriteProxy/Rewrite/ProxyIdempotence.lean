import KseRewriteProxy.Rewrite.MigMetaInsertion
import KseRewriteProxy.Text.Saturation

/-!
# The Named Proxy rewrites run again

A second run over rewritten HTML finds an attribute value that begins with the root of the proxy
exactly if the first run found one and the root begins at the inserted base path again
(`hasRootedValue_applyAll_htmlRules_iff`), as for the base path `/proxy/x` in front of `/proxy/x/`.

## The transform behind the rules

The `_mig_meta` transform keeps the attribute values that begin so
(`hasRootedValue_migMetaScan_iff`): what it exchanges has neither whitespace nor quotes, and the
quote in front of a payload is not the one of an attribute, since an opening has an equals sign
behind the marker and no attribute ends with the marker. In turn the attribute rules keep what the
transform exchanges, so one run of both leaves the transform nothing to do.

`stable_namedProxy_iff` puts this together for the two HTML profiles of all names but `kubekey`: all
stages only make texts longer or keep them, so a text is stable exactly if each stage keeps it.
-/

namespace KseRewriteProxy

open Text Text.Utf8 Streaming StreamingRewritePipeline

/-! ### The attribute rules -/

/-- Some attribute value of the body begins with the root of the proxy. -/
def HasRootedValue (extension : Str) (body : Bytes) : Prop :=
  HasKey attributeKeys (proxyRoot extension) body

instance (extension : Str) (body : Bytes) : Decidable (HasRootedValue extension body) :=
  inferInstanceAs (Decidable (HasKey _ _ _))

section HtmlRules

variable {basePath extension : Str}

theorem map_exactStage_htmlRules (basePath extension : Str) :
    (htmlRules basePath extension).map exactStage =
      attributeKeys.map fun key ↦ exactStage (attributeRule basePath extension key) := by
  rw [htmlRules_eq, List.map_map]
  rfl

theorem length_lt_attributeRule (hne : basePath.asBytes ≠ []) (key : UInt8 × Bytes) :
    (attributeRule basePath extension key).1.length <
      (attributeRule basePath extension key).2.length := by
  have hpos := List.length_pos_iff.2 hne
  show (key.1 :: (key.2 ++ proxyRoot extension)).length <
    (key.1 :: (key.2 ++ basePath.asBytes ++ proxyRoot extension)).length
  simp only [List.length_cons, List.length_append]
  omega

theorem grows_htmlRules (hne : basePath.asBytes ≠ []) :
    ∀ s ∈ (htmlRules basePath extension).map exactStage, s.Grows := by
  rw [map_exactStage_htmlRules]
  intro s hs
  obtain ⟨key, -, rfl⟩ := List.mem_map.1 hs
  exact Stage.grows_literal fun _ _ ↦ Or.inr (length_lt_attributeRule hne key)

/-- **The attribute rules keep exactly the texts without a value to prefix.** -/
theorem applyAll_htmlRules_eq_self_iff (hne : basePath.asBytes ≠ []) {text : Bytes} :
    applyAll ((htmlRules basePath extension).map exactStage) text = text ↔
      ¬ HasRootedValue extension text := by
  have hkept : ∀ key, (exactStage (attributeRule basePath extension key)).apply text = text ↔
      ¬ (keyNeedle (proxyRoot extension) key).toList <:+: text := fun key ↦
    replaceFrom_eq_self_iff (s := (attributeRule basePath extension key).1) fun _ _ ↦
      length_lt_attributeRule hne key
  rw [applyAll_eq_self_iff (grows_htmlRules hne), map_exactStage_htmlRules, List.forall_mem_map]
  simp only [hkept, HasRootedValue, HasKey, not_exists, not_and]

/-- **What the attribute rules leave to prefix.** -/
theorem hasRootedValue_applyAll_htmlRules_iff (hbase : Free IsHtmlWhitespace basePath)
    (hextension : Free IsHtmlWhitespace extension) (body : Bytes) :
    HasRootedValue extension (applyAll ((htmlRules basePath extension).map exactStage) body) ↔
      HasRootedValue extension body ∧
        proxyRoot extension <+: basePath.asBytes ++ proxyRoot extension := by
  have hpasses : applyAll ((htmlRules basePath extension).map exactStage) body =
      attributeKeys.foldl (insertPass (proxyRoot extension) basePath.asBytes) body := by
    rw [map_exactStage_htmlRules, applyAll, List.foldl_map]
    rfl
  rw [hpasses]
  exact areKeys_attributeKeys.hasKey_foldl_insertPass_iff (free_proxyRoot hextension)
    (free_asBytes hbase) body

end HtmlRules

/-- A base path has no HTML whitespace: a space is encoded in a path, and the rest are control
characters. -/
theorem IsBasePath.free_isHtmlWhitespace {url : UrlCrate} {basePath : Str}
    (hbase : IsBasePath url basePath) (hurl : url.Encodes ' ') :
    Free IsHtmlWhitespace basePath := by
  intro c hc hspace
  have hallowed := hbase.isForbiddenCharacter_eq_false hc
  rcases hspace with rfl | rfl | rfl | rfl | rfl
  · exact hbase.not_mem_of_encodes hurl hc
  all_goals exact absurd hallowed (by decide)

/-- A base path has no quote that could close a payload. -/
theorem isQuote_eq_false_of_mem_basePath {url : UrlCrate} {basePath : Str}
    (hbase : IsBasePath url basePath) : ∀ b ∈ basePath.asBytes, isQuote b = false := by
  intro b hb
  rw [isQuote, Bool.or_eq_false_iff, beq_eq_false_iff_ne, beq_eq_false_iff_ne]
  constructor
  · rintro rfl
    exact not_mem_basePath_of_isQuoteMark hbase (Or.inr rfl) hb
  · rintro rfl
    exact not_mem_basePath_of_isQuoteMark hbase (Or.inl rfl) hb

/-! ### What Base64 holds -/

/-- A byte of the standard alphabet, or its padding. -/
def IsBase64 (byte : UInt8) : Prop :=
  byte ∈ standardAlphabet.table ∨ byte = standardAlphabet.pad

/-- What the crate documents of a payload with another byte: it is not decoded. -/
def MetadataCodec.RejectsOthers (codec : MetadataCodec) : Prop :=
  ∀ payload decoded, codec.decode payload = some decoded → ∀ byte ∈ payload, IsBase64 byte

theorem IsBase64.of_all {p : UInt8 → Bool} (htable : standardAlphabet.table.all p = true)
    (hpad : p standardAlphabet.pad = true) {byte : UInt8} (h : IsBase64 byte) : p byte = true := by
  rcases h with h | rfl
  · exact List.all_eq_true.1 htable byte h
  · exact hpad

/-- No byte of an encoding is a boundary of attributes. -/
theorem IsBase64.not_isHtmlBoundary {byte : UInt8} (h : IsBase64 byte) :
    ¬ IsHtmlBoundary byte := by
  simpa using h.of_all (p := fun byte ↦ !decide (IsHtmlBoundary byte)) (by decide) (by decide)

theorem IsBase64.toNat_lt {byte : UInt8} (h : IsBase64 byte) : byte.toNat < 0x80 := by
  simpa using h.of_all (p := fun byte ↦ decide (byte.toNat < 0x80)) (by decide) (by decide)

/-- A codec that rejects other bytes rejects quotes. -/
theorem MetadataCodec.RejectsOthers.rejectsQuotes {codec : MetadataCodec}
    (h : codec.RejectsOthers) : codec.RejectsQuotes :=
  fun payload decoded hdecoded byte hbyte ↦
    isQuote_standardAlphabet (h payload decoded hdecoded byte hbyte)

section Transform

variable {codec : MetadataCodec} {desired : Str}

/-- A payload is kept, or both it and what stands in its place are Base64. -/
theorem exchangedPayload_cases (h : codec.Lawful) (hcodec : codec.RejectsOthers)
    (payload : Bytes) :
    Turn.exchangedPayload codec desired payload = payload ∨
      (∀ byte ∈ payload, IsBase64 byte) ∧
        ∀ byte ∈ Turn.exchangedPayload codec desired payload, IsBase64 byte := by
  rw [Turn.exchangedPayload]
  rcases hrewritten : rewriteMigMetaPayload codec payload desired with - | rewritten
  · exact Or.inl rfl
  · obtain ⟨decoded, -, serialized, hdecoded, -, -, -, rfl⟩ :=
      rewriteMigMetaPayload_eq_some_iff.1 hrewritten
    exact Or.inr ⟨hcodec payload decoded hdecoded,
      hcodec (codec.encode serialized) serialized (h.decode_encode serialized)⟩

/-- The transform keeps texts valid. -/
theorem valid_migMetaScan (h : codec.Lawful) (hcodec : codec.RejectsOthers) {input : Bytes}
    (hvalid : Valid input) : Valid (migMetaScan codec desired input) := by
  -- a marker is ASCII, so the text splits behind it
  have hmarker : ∀ {before rest}, EndsAtMarker before → Valid (before ++ rest) →
      Valid before ∧ Valid rest := by
    intro before rest hbefore hvalid
    obtain ⟨u, rfl⟩ := hbefore.isSuffix
    have hassignment : Valid assignment.toList := valid_bytes _
    obtain ⟨hu, hrest⟩ := hvalid.append_cancel_middle hassignment assignment.ne_nil
    exact ⟨hu.append hassignment, hrest⟩
  have hquoted : ∀ {quote : UInt8} {a b : Bytes}, isQuote quote = true →
      Valid (a ++ quote :: b) → Valid a ∧ Valid [quote] ∧ Valid b := by
    intro quote a b hquote hvalid
    have hascii : Valid [quote] := by
      rw [isQuote, Bool.or_eq_true, beq_iff_eq, beq_iff_eq] at hquote
      rcases hquote with rfl | rfl <;> exact valid_cons_of_ascii (by decide) (valid_encode [])
    rw [← List.singleton_append, ← List.append_assoc] at hvalid
    obtain ⟨ha, hb⟩ := hvalid.append_cancel_middle hascii (List.cons_ne_nil _ _)
    exact ⟨ha, hascii, hb⟩
  induction input using markerInduction with
  | absent input hfind => rwa [migMetaScan_of_find_none hfind]
  | malformed before rest hbefore hcase ih =>
    obtain ⟨hvalidBefore, hvalidRest⟩ := hmarker hbefore hvalid
    rw [migMetaScan_append hbefore, hcase]
    exact hvalidBefore.append (ih hvalidRest)
  | unterminated before rest hbefore hcase ih =>
    rwa [migMetaScan_append hbefore, hcase]
  | assigned before opening quote payload rest hbefore hopening hquote hpayload ih =>
    rw [← List.append_assoc] at hvalid
    obtain ⟨hhead, hascii, hvalid⟩ := hquoted hquote hvalid
    obtain ⟨hvalidPayload, -, hvalidRest⟩ := hquoted hquote hvalid
    have hexchanged : Valid (Turn.exchangedPayload codec desired payload) := by
      rcases exchangedPayload_cases h hcodec payload with heq | ⟨-, hbytes⟩
      · rwa [heq]
      · exact valid_of_ascii fun b hb ↦ (hbytes b hb).toNat_lt
    rw [migMetaScan_append hbefore, following_assigned hopening hquote hpayload]
    have hend := hascii.append (ih hvalidRest)
    have hall := hhead.append (hascii.append (hexchanged.append hend))
    simpa using hall

/-! ### The transform keeps the attribute values -/

/-- A text that cannot hold the marker is read from the front of a scan as from its input. -/
theorem isPrefix_migMetaScan_iff {t : Bytes} (ht : ¬ assignment.toList <:+: t) (input : Bytes) :
    t <+: migMetaScan codec desired input ↔ t <+: input := by
  rcases migMetaScan_cases codec desired input with heq | ⟨before, rest, rest', hbefore, rfl, heq⟩
  · rw [heq]
  · -- the text ends before the marker does
    have hend : ∀ l, t <+: before ++ l ↔ t <+: before := by
      refine fun l ↦ ⟨fun h ↦ ?_, fun h ↦ h.trans (List.prefix_append before l)⟩
      rcases List.prefix_or_prefix_of_prefix h (List.prefix_append before l) with hle | hle
      · exact hle
      · exact absurd (hbefore.isInfix.trans hle.isInfix) ht
    rw [heq, hend, hend]

/-- So the scan of the rest matters only for what occurs in it. -/
theorem infix_append_migMetaScan_iff {w : Bytes} (hw : ¬ assignment.toList <:+: w) {rest : Bytes}
    (h : w <:+: migMetaScan codec desired rest ↔ w <:+: rest) (z : Bytes) :
    w <:+: z ++ migMetaScan codec desired rest ↔ w <:+: z ++ rest := by
  have hkept : ∀ {l l' : Bytes}, (∀ t, ¬ assignment.toList <:+: t → t <+: l → t <+: l') →
      (w <:+: l → w <:+: l') → w <:+: z ++ l → w <:+: z ++ l' := by
    intro l l' hprefix hinside hoccurs
    rcases infix_append_cases hoccurs with ⟨y, -, hy, hstart⟩ | hoccurs
    · have hyl' : y ++ l' <:+: z ++ l' := by
        obtain ⟨v, rfl⟩ := hy
        rw [List.append_assoc]
        exact (List.suffix_append v (y ++ l')).isInfix
      refine List.IsInfix.trans ?_ hyl'
      rcases List.prefix_or_prefix_of_prefix hstart (List.prefix_append y l) with hle | ⟨t, rfl⟩
      · exact (hle.trans (List.prefix_append y l')).isInfix
      · -- a part of the text stands in front of the scan
        have ht : ¬ assignment.toList <:+: t := fun ht ↦
          hw (ht.trans (List.suffix_append y t).isInfix)
        have hbehind := hprefix t ht ((List.prefix_append_right_inj y).1 hstart)
        exact ((List.prefix_append_right_inj y).2 hbehind).isInfix
    · exact (hinside hoccurs).trans (List.suffix_append z l').isInfix
  exact ⟨hkept (fun t ht ↦ (isPrefix_migMetaScan_iff ht rest).1) h.1,
    hkept (fun t ht ↦ (isPrefix_migMetaScan_iff ht rest).2) h.2⟩

/-- Exchanging a payload does not matter to a text whose first symbol is not in it, if the quote in
front of the payload is not reached from the text before. -/
theorem infix_of_infix_exchange {c quote : UInt8} {t head payload payload' rest : Bytes}
    (hhead : ∀ y v, y <:+ head → c :: t ≠ y ++ quote :: v) (hquote : c ≠ quote)
    (hpayload : c ∉ payload) (h : c :: t <:+: head ++ quote :: (payload ++ rest)) :
    c :: t <:+: head ++ quote :: (payload' ++ rest) := by
  rcases infix_append_cases h with ⟨y, -, hy, hstart⟩ | h
  · have hinside : c :: t <:+: head := by
      rcases List.prefix_or_prefix_of_prefix hstart (List.prefix_append y _) with hle | ⟨v, hv⟩
      · exact hle.isInfix.trans hy.isInfix
      · rw [← hv, List.prefix_append_right_inj] at hstart
        rcases v with - | ⟨b, v⟩
        · rw [← hv, List.append_nil]
          exact hy.isInfix
        · obtain ⟨rfl, -⟩ := List.cons_prefix_cons.1 hstart
          exact absurd hv.symm (hhead y v hy)
    exact hinside.trans (List.prefix_append head _).isInfix
  · have hmem : c ∉ quote :: payload := by
      rw [List.mem_cons, not_or]
      exact ⟨hquote, hpayload⟩
    have hrest := (infix_append_iff_of_not_mem hmem rest).1 h
    rw [← List.cons_append, ← List.append_assoc]
    exact hrest.trans (List.suffix_append _ rest).isInfix

section Keys

variable {key : UInt8 × Bytes}

/-- What a key stands before, for `ys1000`. -/
theorem not_mem_keyNeedle : ∀ key ∈ attributeKeys,
    (0x5F : UInt8) ∉ (keyNeedle (proxyRoot ys1000Name) key).toList := by
  decide

/-- A rooted key has no marker in it. -/
theorem not_infix_keyNeedle (hkey : key ∈ attributeKeys) :
    ¬ assignment.toList <:+: (keyNeedle (proxyRoot ys1000Name) key).toList :=
  fun h ↦ not_mem_keyNeedle key hkey (h.subset (by decide))

theorem isQuote_eq_false_of_mem_dropLast : ∀ key ∈ attributeKeys, ∀ b ∈ (key.1 :: key.2).dropLast,
    isQuote b = false := by
  decide +kernel

theorem isQuote_eq_false_of_mem_ys1000Root : ∀ b ∈ proxyRoot ys1000Name, isQuote b = false := by
  decide +kernel

theorem isQuote_eq_false_of_mem_htmlBoundaries : ∀ b ∈ htmlBoundaries, isQuote b = false := by
  decide +kernel

/-- The only quote of a key and the root is the one of the attribute. -/
theorem eq_key_of_eq_append (hkey : key ∈ attributeKeys) {y v : Bytes} {quote : UInt8}
    (hquote : isQuote quote = true)
    (h : (keyNeedle (proxyRoot ys1000Name) key).toList = y ++ quote :: v) :
    key.1 :: key.2 = y ++ [quote] := by
  have hnone := isQuote_eq_false_of_mem_dropLast key hkey
  obtain ⟨w, letter, q, heq, -, -⟩ := endsWithAttribute_of_mem hkey
  have hsplit : (keyNeedle (proxyRoot ys1000Name) key).toList =
      (w ++ [letter, 0x3D]) ++ q :: proxyRoot ys1000Name := by
    show key.1 :: key.2 ++ proxyRoot ys1000Name = _
    rw [heq]
    simp
  have hlast : key.1 :: key.2 = (w ++ [letter, 0x3D]) ++ [q] := by
    rw [heq]
    simp
  rw [hlast, List.dropLast_concat] at hnone
  rw [hlast]
  rw [hsplit] at h
  generalize w ++ [letter, 0x3D] = u at h hnone
  rcases List.append_eq_append_iff.1 h with ⟨z, rfl, hz⟩ | ⟨z, rfl, hz⟩
  · rcases z with - | ⟨b, z⟩
    · obtain ⟨rfl, -⟩ := List.cons.inj hz
      simp
    · obtain ⟨rfl, hroot⟩ := List.cons.inj hz
      have hmem : quote ∈ proxyRoot ys1000Name := by
        rw [hroot]
        simp
      exact absurd hquote (by simp [isQuote_eq_false_of_mem_ys1000Root quote hmem])
  · rcases z with - | ⟨b, z⟩
    · obtain ⟨rfl, -⟩ := List.cons.inj hz
      simp
    · obtain ⟨rfl, -⟩ := List.cons.inj hz
      exact absurd hquote (by simp [hnone quote (by simp)])

end Keys

/-- **The transform keeps the attribute values** that begin with the root of `ys1000`. -/
theorem hasRootedValue_migMetaScan_iff (h : codec.Lawful) (hcodec : codec.RejectsOthers)
    (input : Bytes) : HasRootedValue ys1000Name (migMetaScan codec desired input) ↔
      HasRootedValue ys1000Name input := by
  suffices hkept : ∀ key ∈ attributeKeys,
      ((keyNeedle (proxyRoot ys1000Name) key).toList <:+: migMetaScan codec desired input ↔
        (keyNeedle (proxyRoot ys1000Name) key).toList <:+: input) from
    exists_congr fun key ↦ and_congr_right (hkept key)
  intro key hkey
  have hmarker := not_infix_keyNeedle hkey
  induction input using markerInduction with
  | absent input hfind => rw [migMetaScan_of_find_none hfind]
  | malformed before rest hbefore hcase ih =>
    rw [migMetaScan_append hbefore, hcase]
    exact infix_append_migMetaScan_iff hmarker ih before
  | unterminated before rest hbefore hcase ih => rw [migMetaScan_append hbefore, hcase]
  | assigned before opening quote payload rest hbefore hopening hquote hpayload ih =>
    -- the quote in front of the payload is not the one of an attribute
    have hhead : ∀ y v, y <:+ before ++ opening →
        (keyNeedle (proxyRoot ys1000Name) key).toList ≠ y ++ quote :: v := by
      rintro y v ⟨z, hz⟩ heq
      have hends : EndsWithAttribute (before ++ (opening ++ [quote])) := by
        rw [← List.append_assoc, ← hz, List.append_assoc, ← eq_key_of_eq_append hkey hquote heq]
        exact (endsWithAttribute_of_mem hkey).append_left z
      obtain ⟨w, letter, q, hopened, hletter, -⟩ := hends.of_append hbefore
      have hletter : EndsOpening letter := by
        rcases hletter with rfl | rfl <;> exact ⟨by decide, by decide, by decide⟩
      refine hletter.not_mem hopening hquote ?_
      rw [hopened]
      simp
    have hboundary := (mem_attributeKeys_iff.1 hkey).1
    have hne : key.1 ≠ quote := by
      rintro rfl
      exact absurd hquote (by simp [isQuote_eq_false_of_mem_htmlBoundaries _ hboundary])
    rw [migMetaScan_append hbefore, following_assigned hopening hquote hpayload]
    show _ <:+: before ++ (opening ++ quote :: (Turn.exchangedPayload codec desired payload ++
      quote :: migMetaScan codec desired rest)) ↔ _
    have hrest : ∀ z : Bytes, ((keyNeedle (proxyRoot ys1000Name) key).toList <:+:
        before ++ (opening ++ quote :: (z ++ quote :: migMetaScan codec desired rest)) ↔
          (keyNeedle (proxyRoot ys1000Name) key).toList <:+:
            before ++ (opening ++ quote :: (z ++ quote :: rest))) := by
      intro z
      have hbehind := infix_append_migMetaScan_iff hmarker ih
        (before ++ (opening ++ quote :: (z ++ [quote])))
      simpa using hbehind
    rw [hrest]
    rcases exchangedPayload_cases h hcodec payload with heq | ⟨hbytes, hbytes'⟩
    · rw [heq]
    · have hmem : ∀ {bs : Bytes}, (∀ b ∈ bs, IsBase64 b) → key.1 ∉ bs := fun hbs hmem ↦
        (hbs key.1 hmem).not_isHtmlBoundary hboundary
      rw [← List.append_assoc, ← List.append_assoc before]
      exact ⟨infix_of_infix_exchange hhead hne (hmem hbytes'),
        infix_of_infix_exchange hhead hne (hmem hbytes)⟩

end Transform

/-! ### The HTML profiles -/

section Profiles

variable {codec : MetadataCodec} {url : UrlCrate} {basePath extension : Str} {body out : Bytes}

theorem namedProxyRules_eq (hother : extension ≠ kubekeyName) :
    namedProxyRules basePath extension = htmlRules basePath extension :=
  if_neg hother

/-- The stages of all names but `kubekey` are the attribute rules. -/
theorem responseStages_namedProxyHtml (hother : extension ≠ kubekeyName) :
    responseStages codec .namedProxyHtml basePath extension =
      (htmlRules basePath extension).map exactStage := by
  show (namedProxyRules basePath extension).map exactStage = _
  rw [namedProxyRules_eq hother]

/-- The stages for `ys1000` are the attribute rules and then the transform. -/
theorem responseStages_ys1000Html :
    responseStages codec .ys1000Html basePath ys1000Name =
      (htmlRules basePath ys1000Name).map exactStage ++
        [.buffered fun input ↦
          rewriteMigMetaBaseUri codec input (desiredBaseUri basePath ys1000Name)] := by
  show (namedProxyRules basePath ys1000Name).map exactStage ++ _ = _
  rw [namedProxyRules_eq (by decide)]

/-- A second run of Named Proxy HTML changes exactly the outputs with a value left to prefix. -/
theorem stable_namedProxyHtml_iff_not_hasRootedValue (hbase : IsBasePath url basePath)
    (hother : extension ≠ kubekeyName)
    (h : Outputs codec .namedProxyHtml basePath extension body out) (hlen : out.length ≤ usizeMax) :
    Stable codec .namedProxyHtml basePath extension out ↔ ¬ HasRootedValue extension out := by
  have hne := asBytes_ne_nil hbase
  obtain ⟨hvalid, happly⟩ := h.valid_and_applyAll
  have hvalidOut : Valid out := happly ▸ valid_applyAll
    (keepsValid_of_mem codec (by simp) basePath extension) hvalid
  rw [← @applyAll_htmlRules_eq_self_iff basePath _ hne]
  constructor
  · intro hstable
    have hagain := hstable.applyAll_eq hlen
    rwa [responseStages_namedProxyHtml hother] at hagain
  · intro hagain
    refine stable_of_forall_apply_eq hvalidOut ?_
    rw [responseStages_namedProxyHtml hother]
    exact (applyAll_eq_self_iff (grows_htmlRules hne)).1 hagain

/-- The transform has nothing to exchange in its output. -/
theorem rewriteMigMetaBaseUri_desiredBaseUri (hlawful : codec.Lawful)
    (hbase : IsBasePath url basePath) (input : Bytes) :
    rewriteMigMetaBaseUri codec
        (rewriteMigMetaBaseUri codec input (desiredBaseUri basePath ys1000Name))
        (desiredBaseUri basePath ys1000Name) =
      rewriteMigMetaBaseUri codec input (desiredBaseUri basePath ys1000Name) := by
  have hdesired : desiredBaseUri basePath ys1000Name ≠ migMetaBaseUri := by
    rw [desiredBaseUri, List.append_assoc]
    exact fun heq ↦ hbase.ne_nil (List.append_left_eq_self.1 heq)
  simp only [rewriteMigMetaBaseUri_eq_migMetaScan]
  exact migMetaScan_migMetaScan hlawful hdesired input

/-- So does a second run of the `ys1000` pipeline: the transform has done its part. -/
theorem stable_ys1000Html_iff_not_hasRootedValue (hlawful : codec.Lawful)
    (hcodec : codec.RejectsOthers) (hbase : IsBasePath url basePath)
    (h : Outputs codec .ys1000Html basePath ys1000Name body out) (hlen : out.length ≤ usizeMax) :
    Stable codec .ys1000Html basePath ys1000Name out ↔ ¬ HasRootedValue ys1000Name out := by
  have hne := asBytes_ne_nil hbase
  obtain ⟨hvalid, happly⟩ := h.valid_and_applyAll
  rw [responseStages_ys1000Html, applyAll_append] at happly
  have hvalidOut : Valid out := by
    have hkeeps := keepsValid_map_exactStage (valid_namedProxyRules basePath ys1000Name)
    rw [namedProxyRules_eq (by decide)] at hkeeps
    rw [← happly]
    show Valid (rewriteMigMetaBaseUri codec _ _)
    rw [rewriteMigMetaBaseUri_eq_migMetaScan]
    exact valid_migMetaScan hlawful hcodec (valid_applyAll hkeeps hvalid)
  have hkept : rewriteMigMetaBaseUri codec out (desiredBaseUri basePath ys1000Name) = out := by
    rw [← happly]
    exact rewriteMigMetaBaseUri_desiredBaseUri hlawful hbase _
  rw [← @applyAll_htmlRules_eq_self_iff basePath _ hne]
  constructor
  · intro hstable
    have hagain := hstable.applyAll_eq hlen
    rw [responseStages_ys1000Html, applyAll_append] at hagain
    -- behind the rules there is still nothing to exchange
    obtain ⟨x, hslash, hx⟩ : ∃ x, basePath.asBytes = 0x2F :: x ∧ ∀ b ∈ x, isQuote b = false := by
      obtain ⟨c, rest, rfl, -⟩ := hbase.exists_eq_cons
      exact ⟨_, rfl, fun b hb ↦
        isQuote_eq_false_of_mem_basePath hbase b (List.mem_cons_of_mem _ hb)⟩
    have hnothing := (rewriteMigMetaBaseUri_eq_self_iff hlawful _).1 hkept
    rw [← hasExchangeable_applyAll_htmlRules hcodec.rejectsQuotes hslash hx,
      ← rewriteMigMetaBaseUri_eq_self_iff hlawful] at hnothing
    exact hnothing.symm.trans hagain
  · intro hagain
    refine stable_of_forall_apply_eq hvalidOut ?_
    rw [responseStages_ys1000Html, List.forall_mem_append, List.forall_mem_singleton]
    exact ⟨(applyAll_eq_self_iff (grows_htmlRules hne)).1 hagain, hkept⟩

/-- **When rewritten HTML is rewritten again**: an output is stable unless the body had an attribute
value that begins with the root of the proxy, and the root begins at the base path again. -/
theorem stable_namedProxy_iff (hlawful : codec.Lawful) (hcodec : codec.RejectsOthers)
    (hurl : url.Encodes ' ') (hbase : IsBasePath url basePath)
    (hextension : Free IsHtmlWhitespace extension) {profile : RewriteProfile}
    (hprofile : profile = .namedProxyHtml ∧ extension ≠ kubekeyName ∨
      profile = .ys1000Html ∧ extension = ys1000Name)
    (h : Outputs codec profile basePath extension body out) (hlen : out.length ≤ usizeMax) :
    Stable codec profile basePath extension out ↔
      ¬ (HasRootedValue extension body ∧
        proxyRoot extension <+: basePath.asBytes ++ proxyRoot extension) := by
  have hspace := hbase.free_isHtmlWhitespace hurl
  rw [← hasRootedValue_applyAll_htmlRules_iff hspace hextension]
  have happly := h.valid_and_applyAll.2
  rcases hprofile with ⟨rfl, hother⟩ | ⟨rfl, rfl⟩
  · rw [stable_namedProxyHtml_iff_not_hasRootedValue hbase hother h hlen, ← happly,
      responseStages_namedProxyHtml hother]
  · rw [stable_ys1000Html_iff_not_hasRootedValue hlawful hcodec hbase h hlen, ← happly,
      responseStages_ys1000Html, applyAll_append]
    show ¬ HasRootedValue ys1000Name (rewriteMigMetaBaseUri codec _ _) ↔ _
    rw [rewriteMigMetaBaseUri_eq_migMetaScan, hasRootedValue_migMetaScan_iff hlawful hcodec]

end Profiles

/-- The output for a body that fits. -/
theorem outputs_prefixedHtml {codec : MetadataCodec} {basePath extension : Str} {body : Bytes}
    (hbase : Free IsHtmlWhitespace basePath) (hextension : Free IsHtmlWhitespace extension)
    (hother : extension ≠ kubekeyName) (hvalid : Valid body)
    (hlen : body.length + (body.length + 1) * basePath.asBytes.length ≤ usizeMax) :
    Outputs codec .namedProxyHtml basePath extension body
      (prefixedHtml basePath extension body) := by
  rw [← applyAll_namedProxyHtml codec hbase hextension]
  refine outputs_applyAll hvalid ?_
  rw [responseStages_namedProxyHtml hother]
  exact fitsUsize_htmlRules hbase hextension hlen

theorem baseUriObject_rejectsOthers : baseUriObject.RejectsOthers :=
  fun _ _ hdecoded ↦ Base64.mem_of_decode standardAlphabet hdecoded

/-- A link below a region is prefixed once. Below a base path that is the root of the proxy itself,
it is prefixed again. -/
theorem stable_namedProxy_iff_link :
    Stable baseUriObject .namedProxyHtml (str "/regions/r1") (str "x")
        (prefixedHtml (str "/regions/r1") (str "x") (bytes "<a href=\"/proxy/x/a\">")) ∧
      ¬ Stable baseUriObject .namedProxyHtml (str "/proxy/x") (str "x")
        (prefixedHtml (str "/proxy/x") (str "x") (bytes "<a href=\"/proxy/x/a\">")) := by
  have hurl : UrlCrate.unreserved.Encodes ' ' := UrlCrate.unreserved_encodes (by decide)
  have hproxy : IsBasePath .unreserved (str "/proxy/x") :=
    ⟨⟨str "/proxy/x/", by decide +kernel⟩, by decide⟩
  have hextension : Free IsHtmlWhitespace (str "x") := by decide
  have hother : str "x" ≠ kubekeyName := by decide
  have hvalid : Valid (bytes "<a href=\"/proxy/x/a\">") := valid_bytes _
  have hregion := @outputs_prefixedHtml baseUriObject (str "/regions/r1") _ _
    (by decide) hextension hother hvalid (by decide)
  have hagain := @outputs_prefixedHtml baseUriObject (str "/proxy/x") _ _
    (by decide) hextension hother hvalid (by decide)
  constructor
  · exact (stable_namedProxy_iff baseUriObject_lawful baseUriObject_rejectsOthers hurl
      isBasePath_unreserved hextension (Or.inl ⟨rfl, hother⟩) hregion (by decide)).2 (by decide)
  · rw [stable_namedProxy_iff baseUriObject_lawful baseUriObject_rejectsOthers hurl hproxy
      hextension (Or.inl ⟨rfl, hother⟩) hagain (by decide), not_not]
    decide

end KseRewriteProxy
