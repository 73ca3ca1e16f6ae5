import KseRewriteProxy.Rewrite.MigMetaScan
import KseRewriteProxy.Text.Delimiter
import KseRewriteProxy.Text.Search

/-!
# Which payloads the `_mig_meta` transform exchanges

The transform is meant to exchange the payload of every assignment of the input (`turns`). It does
so up to the first opening quote that is never closed:

* `rewriteMigMetaBaseUri_eq_iff`: the output has the payloads of all assignments exchanged if and
  only if no assignment behind such a quote has a payload to exchange;
* `rewriteMigMetaBaseUri_idempotent`: a second run changes nothing, whatever the input holds.

## Why the second run changes nothing

What is put into a payload has no quote, so the turns of the output are those of the input with
other payloads, and an unclosed quote stays where it was. A payload that has been exchanged decodes
to an object with the wanted `baseURI`, which is not the one that is exchanged.

`MetadataCodec.Lawful` is what the crates `base64` and `serde_json` document: what is encoded is
decoded again, and an encoding has no quotes.
-/

namespace KseRewriteProxy

open Text

/-! ### The crates -/

/-- What the crates document of the operations that the transform calls. -/
structure MetadataCodec.Lawful (codec : MetadataCodec) : Prop where
  /-- Decoding undoes encoding. -/
  decode_encode : ∀ input, codec.decode (codec.encode input) = some input
  /-- Parsing undoes serializing. -/
  fromSlice_toVec : ∀ {value serialized}, codec.toVec value = some serialized →
    codec.fromSlice serialized = some value
  /-- A string that is stored is read back. -/
  baseUri_setBaseUri : ∀ {value s}, codec.baseUri value = some s → ∀ desired,
    codec.baseUri (codec.setBaseUri value desired) = some desired
  /-- The alphabet of Base64 has no quotes. -/
  isQuote_of_mem_encode : ∀ {input byte}, byte ∈ codec.encode input → isQuote byte = false

variable {codec : MetadataCodec} {desired : Str}

/-! ### The payloads -/

/-- A payload that is to be exchanged: the Base64 of a JSON object with the `baseURI` that is
looked for, and not yet the Base64 of the same object with the desired one. -/
def Exchangeable (codec : MetadataCodec) (desired : Str) (payload : Bytes) : Prop :=
  ∃ decoded metadata serialized, codec.decode payload = some decoded ∧
    codec.fromSlice decoded = some metadata ∧ codec.baseUri metadata = some migMetaBaseUri ∧
    codec.toVec (codec.setBaseUri metadata desired) = some serialized ∧
    codec.encode serialized ≠ payload

/-- What `rewrite_mig_meta_payload` returns. -/
theorem rewriteMigMetaPayload_eq_some_iff {payload rewritten : Bytes} :
    rewriteMigMetaPayload codec payload desired = some rewritten ↔
      ∃ decoded metadata serialized, codec.decode payload = some decoded ∧
        codec.fromSlice decoded = some metadata ∧ codec.baseUri metadata = some migMetaBaseUri ∧
        codec.toVec (codec.setBaseUri metadata desired) = some serialized ∧
        codec.encode serialized = rewritten := by
  constructor
  · intro h
    obtain ⟨decoded, hdecoded, h⟩ := Option.bind_eq_some_iff.1 h
    obtain ⟨metadata, hmetadata, h⟩ := Option.bind_eq_some_iff.1 h
    obtain ⟨baseUri, hbaseUri, h⟩ := Option.bind_eq_some_iff.1 h
    split at h
    · rename_i heq
      obtain ⟨serialized, hserialized, hencode⟩ := Option.map_eq_some_iff.1 h
      exact ⟨decoded, metadata, serialized, hdecoded, hmetadata, heq ▸ hbaseUri, hserialized,
        hencode⟩
    · exact absurd h (by simp)
  · rintro ⟨decoded, metadata, serialized, hdecoded, hmetadata, hbaseUri, hserialized, rfl⟩
    simp [rewriteMigMetaPayload, hdecoded, hmetadata, hbaseUri, hserialized]

/-- A payload is exchanged exactly when it is to be exchanged. -/
theorem exchangedPayload_ne_iff {payload : Bytes} :
    Turn.exchangedPayload codec desired payload ≠ payload ↔ Exchangeable codec desired payload := by
  rw [Turn.exchangedPayload]
  rcases hrewritten : rewriteMigMetaPayload codec payload desired with - | rewritten
  · refine iff_of_false (fun h ↦ h rfl) ?_
    rintro ⟨decoded, metadata, serialized, hdecoded, hmetadata, hbaseUri, hserialized, -⟩
    rw [rewriteMigMetaPayload_eq_some_iff.2
      ⟨decoded, metadata, serialized, hdecoded, hmetadata, hbaseUri, hserialized,
        rfl⟩] at hrewritten
    exact absurd hrewritten (by simp)
  · rw [Option.getD_some]
    constructor
    · intro hne
      obtain ⟨decoded, metadata, serialized, hdecoded, hmetadata, hbaseUri, hserialized, rfl⟩ :=
        rewriteMigMetaPayload_eq_some_iff.1 hrewritten
      exact ⟨decoded, metadata, serialized, hdecoded, hmetadata, hbaseUri, hserialized, hne⟩
    · rintro ⟨decoded, metadata, serialized, hdecoded, hmetadata, hbaseUri, hserialized, hne⟩
      have hagain := rewriteMigMetaPayload_eq_some_iff.2
        ⟨decoded, metadata, serialized, hdecoded, hmetadata, hbaseUri, hserialized, rfl⟩
      exact Option.some.inj (hrewritten.symm.trans hagain) ▸ hne

/-- A payload that is exchanged does not get the quote of its assignment. -/
theorem not_mem_exchangedPayload (h : codec.Lawful) {payload : Bytes} {quote : UInt8}
    (hquote : isQuote quote = true) (hpayload : quote ∉ payload) :
    quote ∉ Turn.exchangedPayload codec desired payload := by
  rw [Turn.exchangedPayload]
  rcases hrewritten : rewriteMigMetaPayload codec payload desired with - | rewritten
  · exact hpayload
  · obtain ⟨-, -, serialized, -, -, -, -, rfl⟩ := rewriteMigMetaPayload_eq_some_iff.1 hrewritten
    intro hmem
    exact absurd hquote (by simp [h.isQuote_of_mem_encode hmem])

/-- A payload is exchanged once. -/
theorem exchangedPayload_exchangedPayload (h : codec.Lawful) (hdesired : desired ≠ migMetaBaseUri)
    (payload : Bytes) :
    Turn.exchangedPayload codec desired (Turn.exchangedPayload codec desired payload) =
      Turn.exchangedPayload codec desired payload := by
  rcases hrewritten : rewriteMigMetaPayload codec payload desired with - | rewritten
  · rw [Turn.exchangedPayload, Turn.exchangedPayload, hrewritten, Option.getD_none, hrewritten,
      Option.getD_none]
  · obtain ⟨decoded, metadata, serialized, -, -, hbaseUri, hserialized, rfl⟩ :=
      rewriteMigMetaPayload_eq_some_iff.1 hrewritten
    have hkept : rewriteMigMetaPayload codec (codec.encode serialized) desired = none := by
      simp [rewriteMigMetaPayload, h.decode_encode, h.fromSlice_toVec hserialized,
        h.baseUri_setBaseUri hbaseUri, hdesired]
    rw [Turn.exchangedPayload, Turn.exchangedPayload, hrewritten, Option.getD_some, hkept,
      Option.getD_none]

/-! ### All assignments, or those up to an open quote -/

/-- In the turns of a scan, payloads stand between quotes that they do not hold. -/
theorem quote_of_mem_turns {input head payload : Bytes} {quote : UInt8}
    (h : Turn.assigned head quote payload ∈ turns input) :
    isQuote quote = true ∧ quote ∉ payload := by
  induction input using markerInduction with
  | absent input hfind =>
    rw [turns_of_find_none hfind, List.mem_singleton] at h
    exact absurd h (by simp)
  | malformed before rest hbefore hcase ih =>
    rw [turns_append hbefore, hcase] at h
    exact ih ((List.mem_cons.1 h).resolve_left (by simp))
  | unterminated before rest hbefore hcase ih =>
    rw [turns_append hbefore, hcase] at h
    exact ih ((List.mem_cons.1 h).resolve_left (by simp))
  | assigned before opening quote' payload' rest hbefore hopening hquote hpayload ih =>
    rw [turns_append hbefore, following_assigned hopening hquote hpayload] at h
    rcases List.mem_cons.1 h with heq | h
    · obtain ⟨-, rfl, rfl⟩ : _ ∧ quote = quote' ∧ payload = payload' := by simpa using heq
      exact ⟨hquote, hpayload⟩
    · exact ih h

/-- Turns keep their text exactly when each of them keeps its payload. -/
theorem flatMap_exchanged_eq_iff (h : codec.Lawful) {ts : List Turn}
    (hts : ∀ head quote payload, Turn.assigned head quote payload ∈ ts →
      isQuote quote = true ∧ quote ∉ payload) :
    ts.flatMap (Turn.exchanged codec desired) = ts.flatMap Turn.text ↔
      ∀ head quote payload, Turn.assigned head quote payload ∈ ts →
        ¬ Exchangeable codec desired payload := by
  induction ts with
  | nil => exact iff_of_true rfl fun _ _ _ hmem ↦ absurd hmem List.not_mem_nil
  | cons t ts ih =>
    have ih := ih fun head quote payload hmem ↦ hts _ _ _ (List.mem_cons_of_mem _ hmem)
    rw [List.flatMap_cons, List.flatMap_cons]
    rcases t with text | text | ⟨head, quote, payload⟩
    · show text ++ _ = text ++ _ ↔ _
      rw [List.append_cancel_left_eq, ih]
      simp
    · show text ++ _ = text ++ _ ↔ _
      rw [List.append_cancel_left_eq, ih]
      simp
    · obtain ⟨hquote, hpayload⟩ := hts head quote payload List.mem_cons_self
      have hexchanged : quote ∉ Turn.exchangedPayload codec desired payload :=
        not_mem_exchangedPayload h hquote hpayload
      show (head ++ quote :: (Turn.exchangedPayload codec desired payload ++ [quote])) ++ _ =
        (head ++ quote :: (payload ++ [quote])) ++ _ ↔ _
      simp only [List.append_assoc, List.cons_append, List.append_cancel_left_eq, List.cons.injEq,
        true_and, List.nil_append]
      -- the closing quotes are the first ones behind the opening quotes
      constructor
      · intro heq head' quote' payload' hmem
        obtain ⟨hsame, hrest⟩ := append_cons_inj hexchanged hpayload heq
        rcases List.mem_cons.1 hmem with hhead | hmem
        · obtain ⟨-, -, rfl⟩ : _ ∧ _ ∧ payload' = payload := by simpa using hhead
          exact fun hex ↦ exchangedPayload_ne_iff.2 hex hsame
        · exact ih.1 hrest head' quote' payload' hmem
      · intro hkept
        have hsame := not_not.1 fun hne ↦ hkept head quote payload List.mem_cons_self
          (exchangedPayload_ne_iff.1 hne)
        rw [hsame, ih.2 fun head' quote' payload' hmem ↦
          hkept head' quote' payload' (List.mem_cons_of_mem _ hmem)]

/-- **When all assignments are rewritten**: exactly when no assignment behind an opening quote that
is never closed has a payload to exchange. -/
theorem rewriteMigMetaBaseUri_eq_iff (h : codec.Lawful) (input : Bytes) (desired : Str) :
    rewriteMigMetaBaseUri codec input desired =
        (turns input).flatMap (Turn.exchanged codec desired) ↔
      ∀ head quote payload,
        Turn.assigned head quote payload ∈ (turns input).dropWhile Turn.closed →
          ¬ Exchangeable codec desired payload := by
  have hturns : (turns input).flatMap (Turn.exchanged codec desired) =
      ((turns input).takeWhile Turn.closed).flatMap (Turn.exchanged codec desired) ++
        ((turns input).dropWhile Turn.closed).flatMap (Turn.exchanged codec desired) := by
    rw [← List.flatMap_append, List.takeWhile_append_dropWhile]
  rw [rewriteMigMetaBaseUri_eq_migMetaScan, hturns, migMetaScan, List.append_cancel_left_eq,
    eq_comm]
  exact flatMap_exchanged_eq_iff h fun head quote payload hmem ↦
    quote_of_mem_turns ((List.dropWhile_sublist _).subset hmem)

/-! ### A second run -/

/-- A scan keeps its input, or at least the input up to the first marker. -/
theorem migMetaScan_cases (codec : MetadataCodec) (desired : Str) (input : Bytes) :
    migMetaScan codec desired input = input ∨
      ∃ before rest rest', EndsAtMarker before ∧ input = before ++ rest ∧
        migMetaScan codec desired input = before ++ rest' := by
  rcases hfind : find assignment.toList input with - | k
  · exact Or.inl (migMetaScan_of_find_none hfind)
  · have hbefore := (endsAtMarker_take hfind).1
    have hscan : migMetaScan codec desired
        (input.take (k + assignment.length) ++ input.drop (k + assignment.length)) = _ :=
      migMetaScan_append hbefore _
    rw [List.take_append_drop] at hscan
    exact Or.inr ⟨_, _, _, hbefore, (List.take_append_drop _ input).symm, hscan⟩

/-- Whether an opening and a quote stand at the start of a text is decided before the first
marker. -/
theorem malformed_of_malformed {before rest : Bytes} (hbefore : EndsAtMarker before)
    (h : following (before ++ rest) = .malformed) (rest' : Bytes) :
    following (before ++ rest') = .malformed := by
  rw [following_eq_malformed_iff] at h ⊢
  intro opening quote tail hopening hquote heq
  have heq' : before ++ rest' = (opening ++ [quote]) ++ tail := by
    rw [heq]
    simp
  rcases List.append_eq_append_iff.1 heq' with ⟨u, hu, -⟩ | ⟨u, hu, -⟩
  · -- the marker would stand in the opening, but its first letter is no whitespace
    have hletter : (0x77 : UInt8) ∈ opening ++ [quote] := by
      rw [hu]
      exact List.mem_append_left _ (hbefore.isInfix.subset (by decide))
    obtain ⟨v, w, rfl, hv, hw⟩ := hopening
    simp only [List.mem_append, List.mem_cons, List.not_mem_nil, or_false] at hletter
    rcases hletter with (hmem | hmem | hmem) | rfl
    · exact absurd (hv _ hmem) (by decide)
    · exact absurd hmem (by decide)
    · exact absurd (hw _ hmem) (by decide)
    · exact absurd hquote (by decide)
  · refine h opening quote (u ++ rest) hopening hquote ?_
    rw [hu]
    simp

/-- A scan does not make an opening where there was none. -/
theorem following_migMetaScan {rest : Bytes} (h : following rest = .malformed) :
    following (migMetaScan codec desired rest) = .malformed := by
  rcases migMetaScan_cases codec desired rest with heq | ⟨before, rest', rest'', hbefore, rfl, heq⟩
  · rw [heq, h]
  · rw [heq]
    exact malformed_of_malformed hbefore h rest''

/-- **The scan is idempotent**: it meets the same assignments again, with payloads that it keeps. -/
theorem migMetaScan_migMetaScan (h : codec.Lawful) (hdesired : desired ≠ migMetaBaseUri)
    (input : Bytes) :
    migMetaScan codec desired (migMetaScan codec desired input) =
      migMetaScan codec desired input := by
  induction input using markerInduction with
  | absent input hfind => rw [migMetaScan_of_find_none hfind, migMetaScan_of_find_none hfind]
  | malformed before rest hbefore hcase ih =>
    rw [migMetaScan_append hbefore, hcase]
    show migMetaScan codec desired (before ++ migMetaScan codec desired rest) = _
    rw [migMetaScan_append hbefore, following_migMetaScan hcase]
    exact congrArg (before ++ ·) ih
  | unterminated before rest hbefore hcase ih =>
    -- nothing is exchanged from here on, in both runs
    rw [migMetaScan_append hbefore, hcase]
    show migMetaScan codec desired (before ++ rest) = _
    rw [migMetaScan_append hbefore, hcase]
  | assigned before opening quote payload rest hbefore hopening hquote hpayload ih =>
    have hpayload' : quote ∉ Turn.exchangedPayload codec desired payload :=
      not_mem_exchangedPayload h hquote hpayload
    rw [migMetaScan_append hbefore, following_assigned hopening hquote hpayload]
    show migMetaScan codec desired (before ++ (opening ++
      quote :: (Turn.exchangedPayload codec desired payload ++
        quote :: migMetaScan codec desired rest))) = _
    rw [migMetaScan_append hbefore, following_assigned hopening hquote hpayload']
    show before ++ (opening ++ quote :: (Turn.exchangedPayload codec desired
      (Turn.exchangedPayload codec desired payload) ++
        quote :: migMetaScan codec desired (migMetaScan codec desired rest))) = _
    rw [exchangedPayload_exchangedPayload h hdesired, ih]

/-- **The transform is idempotent** for the base URI that the proxy asks for. -/
theorem rewriteMigMetaBaseUri_idempotent (h : codec.Lawful) {basePath : Str}
    (hbase : basePath ≠ []) (input : Bytes) :
    rewriteMigMetaBaseUri codec
        (rewriteMigMetaBaseUri codec input (basePath ++ migMetaBaseUri))
        (basePath ++ migMetaBaseUri) =
      rewriteMigMetaBaseUri codec input (basePath ++ migMetaBaseUri) := by
  have hdesired : basePath ++ migMetaBaseUri ≠ migMetaBaseUri :=
    fun heq ↦ hbase (List.append_left_eq_self.1 heq)
  simp only [rewriteMigMetaBaseUri_eq_migMetaScan]
  exact migMetaScan_migMetaScan h hdesired input

/-! ### A codec -/

/-- `alphabet::STANDARD`. -/
def standardAlphabet : Base64.Alphabet where
  table := bytes "ABCDEFGHIJKLMNOPQRSTUVWXYZabcdefghijklmnopqrstuvwxyz0123456789+/"
  pad := 0x3D
  length_table := by decide
  nodup_table := by decide
  pad_not_mem := by decide

/-- The standard alphabet has no quotes. -/
theorem isQuote_standardAlphabet {byte : UInt8}
    (h : byte ∈ standardAlphabet.table ∨ byte = standardAlphabet.pad) : isQuote byte = false := by
  have htable : (standardAlphabet.table.all fun byte ↦ !isQuote byte) = true := by decide
  rcases h with h | rfl
  · simpa using List.all_eq_true.1 htable byte h
  · decide

/-- A character that JSON does not escape in a string. -/
def isUnescaped (c : Char) : Bool :=
  c != '"' && c != '\\' && decide (0x20 ≤ c.toNat)

/-- The text of an object before the value of its only member. -/
def objectHead : Str :=
  str "\x7b\"baseURI\":\""

/-- The text of an object behind the value of its only member. -/
def objectTail : Str :=
  str "\"\x7d"

/-- The crates on objects whose only member is a `baseURI` without a character that is escaped. -/
def baseUriObject : MetadataCodec where
  Value := Str
  decode := Base64.decode standardAlphabet true
  encode := Base64.encode standardAlphabet true
  fromSlice input :=
    (((Utf8.decode input).bind (stripPrefix objectHead)).bind (stripSuffix objectTail)).filter
      (·.all isUnescaped)
  toVec value :=
    if value.all isUnescaped then some (Str.asBytes (objectHead ++ (value ++ objectTail))) else none
  baseUri := some
  setBaseUri _ value := value

/-- The codec of the examples decodes what it encodes. -/
theorem baseUriObject_lawful : baseUriObject.Lawful where
  decode_encode := Base64.decode_encode standardAlphabet true
  fromSlice_toVec := by
    intro (value : Str) serialized h
    have hvalue : value.all isUnescaped = true := by
      by_contra hnot
      exact absurd h (by simp [baseUriObject, hnot])
    obtain rfl : Str.asBytes (objectHead ++ (value ++ objectTail)) = serialized := by
      simpa [baseUriObject, hvalue] using h
    have hdecode : Utf8.decode (Str.asBytes (objectHead ++ (value ++ objectTail))) =
        some (objectHead ++ (value ++ objectTail)) := Utf8.decode_eq_some_iff.2 rfl
    show Option.filter _ (((Utf8.decode _).bind _).bind _) = _
    rw [hdecode, Option.bind_some, stripPrefix_append, Option.bind_some, stripSuffix_append]
    exact Option.filter_some_pos hvalue
  baseUri_setBaseUri := fun _ _ ↦ rfl
  isQuote_of_mem_encode := by
    intro input byte hbyte
    exact isQuote_standardAlphabet
      ((Base64.mem_of_mem_encode standardAlphabet hbyte).imp_right And.right)

/-- The Base64 of an object with the base URI that is exchanged. -/
def ys1000Payload : Bytes :=
  bytes "eyJiYXNlVVJJIjoiL3Byb3h5L3lzMTAwMCJ9"

/-- The Base64 of the same object with the base URI below `/regions/r1`. -/
def regionPayload : Bytes :=
  bytes "eyJiYXNlVVJJIjoiL3JlZ2lvbnMvcjEvcHJveHkveXMxMDAwIn0="

theorem rewriteMigMetaPayload_ys1000Payload :
    rewriteMigMetaPayload baseUriObject ys1000Payload (str "/regions/r1/proxy/ys1000") =
      some regionPayload := by
  have hpayload : baseUriObject.encode
      (Str.asBytes (objectHead ++ (migMetaBaseUri ++ objectTail))) = ys1000Payload := by decide
  have hrewritten : baseUriObject.encode
      (Str.asBytes (objectHead ++ (str "/regions/r1/proxy/ys1000" ++ objectTail))) =
        regionPayload := by decide
  have hdecode : baseUriObject.decode ys1000Payload =
      some (Str.asBytes (objectHead ++ (migMetaBaseUri ++ objectTail))) := by
    rw [← hpayload]
    exact baseUriObject_lawful.decode_encode _
  have hparse : baseUriObject.fromSlice
      (Str.asBytes (objectHead ++ (migMetaBaseUri ++ objectTail))) = some migMetaBaseUri :=
    baseUriObject_lawful.fromSlice_toVec (by decide)
  exact rewriteMigMetaPayload_eq_some_iff.2
    ⟨_, _, _, hdecode, hparse, rfl, by decide, hrewritten⟩

theorem exchangedPayload_ys1000Payload :
    Turn.exchangedPayload baseUriObject (str "/regions/r1/proxy/ys1000") ys1000Payload =
      regionPayload := by
  rw [Turn.exchangedPayload, rewriteMigMetaPayload_ys1000Payload, Option.getD_some]

/-- A body with one assignment. -/
def assignedBody : Bytes :=
  bytes "window._mig_meta = '" ++ (ys1000Payload ++ bytes "'")

theorem isOpening_spaces : IsOpening (bytes " = ") :=
  ⟨[0x20], [0x20], by decide, List.forall_mem_singleton.2 (by decide),
    List.forall_mem_singleton.2 (by decide)⟩

theorem turns_assignedBody :
    turns assignedBody =
      [.assigned (bytes "window._mig_meta = ") 0x27 ys1000Payload, .copied []] := by
  have hbefore : EndsAtMarker (bytes "window._mig_meta") := by decide
  have hbody : assignedBody =
      bytes "window._mig_meta" ++ (bytes " = " ++ 0x27 :: (ys1000Payload ++ 0x27 :: [])) := by
    decide
  rw [hbody, turns_append hbefore, following_assigned isOpening_spaces (by decide) (by decide)]
  dsimp only
  rw [turns_of_find_none (by decide)]
  rfl

/-- A body with one assignment, whose quote is closed. -/
theorem rewriteMigMetaBaseUri_eq_iff_assignedBody :
    rewriteMigMetaBaseUri baseUriObject assignedBody (str "/regions/r1/proxy/ys1000") =
      bytes "window._mig_meta = '" ++ (regionPayload ++ bytes "'") := by
  have hcondition : ∀ head quote payload,
      Turn.assigned head quote payload ∈ (turns assignedBody).dropWhile Turn.closed →
        ¬ Exchangeable baseUriObject (str "/regions/r1/proxy/ys1000") payload := by
    rw [turns_assignedBody]
    exact fun _ _ _ hmem ↦ absurd hmem List.not_mem_nil
  rw [(rewriteMigMetaBaseUri_eq_iff baseUriObject_lawful _ _).2 hcondition, turns_assignedBody,
    List.flatMap_cons, Turn.exchanged, exchangedPayload_ys1000Payload]
  decide

/-- A body with an assignment whose quote is not closed, and another one behind it. -/
def unterminatedBody : Bytes :=
  bytes "window._mig_meta = 'x window._mig_meta = \"" ++ (ys1000Payload ++ bytes "\"")

theorem turns_unterminatedBody :
    turns unterminatedBody =
      [.unterminated (bytes "window._mig_meta"),
        .assigned (bytes " = 'x window._mig_meta = ") 0x22 ys1000Payload, .copied []] := by
  have hbefore : EndsAtMarker (bytes "window._mig_meta") := by decide
  have hbefore' : EndsAtMarker (bytes " = 'x window._mig_meta") := by decide
  have hbody : unterminatedBody =
      bytes "window._mig_meta" ++ (bytes " = 'x window._mig_meta" ++
        (bytes " = " ++ 0x22 :: (ys1000Payload ++ 0x22 :: []))) := by
    decide
  have hopen : following (bytes " = 'x window._mig_meta" ++
      (bytes " = " ++ 0x22 :: (ys1000Payload ++ 0x22 :: []))) = .unterminated :=
    following_eq_unterminated_iff.2 ⟨bytes " = ", 0x27, bytes "x window._mig_meta" ++
      (bytes " = " ++ 0x22 :: (ys1000Payload ++ 0x22 :: [])), isOpening_spaces, by decide,
      by decide, by decide⟩
  rw [hbody, turns_append hbefore, hopen]
  dsimp only
  rw [turns_append hbefore', following_assigned isOpening_spaces (by decide) (by decide)]
  dsimp only
  rw [turns_of_find_none (by decide)]
  rfl

/-- **A quote that is not closed hides the assignments behind it.** -/
theorem not_rewriteMigMetaBaseUri_eq_unterminatedBody :
    baseUriObject.Lawful ∧
      rewriteMigMetaBaseUri baseUriObject unterminatedBody (str "/regions/r1/proxy/ys1000") =
        unterminatedBody ∧
      rewriteMigMetaBaseUri baseUriObject unterminatedBody (str "/regions/r1/proxy/ys1000") ≠
        (turns unterminatedBody).flatMap
          (Turn.exchanged baseUriObject (str "/regions/r1/proxy/ys1000")) := by
  have hkept : rewriteMigMetaBaseUri baseUriObject unterminatedBody
      (str "/regions/r1/proxy/ys1000") = unterminatedBody := by
    rw [rewriteMigMetaBaseUri_eq_migMetaScan, migMetaScan, turns_unterminatedBody]
    decide
  refine ⟨baseUriObject_lawful, hkept, ?_⟩
  rw [hkept, turns_unterminatedBody, List.flatMap_cons, List.flatMap_cons, Turn.exchanged,
    Turn.exchanged, exchangedPayload_ys1000Payload]
  decide

/-- The theorem for a body with an assignment that is rewritten and one whose quote is not
closed. -/
theorem rewriteMigMetaBaseUri_idempotent_regions :
    rewriteMigMetaBaseUri baseUriObject
        (rewriteMigMetaBaseUri baseUriObject (assignedBody ++ unterminatedBody)
          (str "/regions/r1" ++ migMetaBaseUri))
        (str "/regions/r1" ++ migMetaBaseUri) =
      rewriteMigMetaBaseUri baseUriObject (assignedBody ++ unterminatedBody)
        (str "/regions/r1" ++ migMetaBaseUri) :=
  rewriteMigMetaBaseUri_idempotent baseUriObject_lawful (by decide) _

end KseRewriteProxy
