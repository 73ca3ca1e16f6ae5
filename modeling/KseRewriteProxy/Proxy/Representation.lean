import KseRewriteProxy.Config.BasePath
import KseRewriteProxy.Proxy.Headers
import KseRewriteProxy.Text.Delimiter
import KseRewriteProxy.Text.Base64

/-!
# The representation of a response

The pure functions of `proxy.rs` that decide how a response is treated: which content types and
encodings are rewritten, which upstream tags are reliable, the tag that is derived from one, and
whether the client already holds it.

## The derived tag

The hash and the text encoding of the tag come from the crates `blake3` and `base64`. They are the
parameter `DigestCrates`. What is hashed is framed by zero bytes, which neither a reliable tag nor
an accepted base path contains, so the components are read back from the bytes that are hashed
(`etagInput_separates`), and two tags are equal only if the components are or the hash collides.

`DigestCrates.ofHash` is the crate `base64` as it is documented over any hash, and `recordedBlake3`
a hash that is BLAKE3 at the inputs that are evaluated in this development.
-/

namespace KseRewriteProxy

open Text

/-! ### Content types -/

/-- `selects_html_by_response_content_type`. -/
def selectsHtmlByResponseContentType (profile : RewriteProfile) : Bool :=
  profile == .namedProxyHtml || profile == .ys1000Html

/-- `should_force_unconditional_full_response`. -/
def shouldForceUnconditionalFullResponse (profile : RewriteProfile) : Bool :=
  !selectsHtmlByResponseContentType profile

/-- `media_type_allowed`. -/
def mediaTypeAllowed (profile : RewriteProfile) (mediaType : Str) : Bool :=
  ((profile == .frontendIndexJsBundle || profile == .ys1000FrontendIndexJsBundle)
      && mediaType == str "text/plain")
    || if selectsHtmlByResponseContentType profile then
        mediaType == str "text/html" || mediaType == str "application/xhtml+xml"
      else
        [str "text/javascript", str "application/javascript", str "application/x-javascript",
          str "text/css", str "application/json", str "text/json", str "text/html",
          str "application/xhtml+xml"].contains mediaType

/-- The check of one parameter of a content type. -/
def parameterAllowed (parameter : Str) : Bool :=
  match splitOnce (str "=") parameter with
  | none => true
  | some (name, value) =>
    !eqIgnoreAsciiCase (trim name) (str "charset")
      || [str "utf-8", str "utf8"].contains
        (toAsciiLowercase (trimMatches (· == '"') (trim value)))

/-- `is_rewritable_content_type`. -/
def isRewritableContentType (profile : RewriteProfile) (value : Option HeaderValue) : Bool :=
  match value.bind HeaderValue.toStr with
  | none => false
  | some value =>
    let parts := (split ';' value).map trim
    mediaTypeAllowed profile (toAsciiLowercase (parts.head?.getD []))
      && parts.tail.all parameterAllowed

/-- `is_identity_encoding`. -/
def isIdentityEncoding (value : Option HeaderValue) : Bool :=
  match value.bind HeaderValue.toStr with
  | none => true
  | some encoding => (trim encoding).isEmpty || eqIgnoreAsciiCase encoding (str "identity")

/-! ### Entity tags -/

/-- What `derive_etag` calls of `blake3` and `base64`. -/
structure DigestCrates where
  /-- The hash of everything that was given to `Hasher::update`. -/
  blake3 : Bytes → Bytes
  /-- `URL_SAFE_NO_PAD.encode`. -/
  urlSafeNoPad : Bytes → Str

/-- The alphabet of URL-safe Base64. -/
def isUrlSafe (c : Char) : Bool :=
  (0x30 ≤ c.toNat && c.toNat ≤ 0x39) || (0x41 ≤ c.toNat && c.toNat ≤ 0x5A)
    || (0x61 ≤ c.toNat && c.toNat ≤ 0x7A) || c == '-' || c == '_'

/-- The text encoding uses its alphabet. -/
def DigestCrates.EncodesUrlSafe (crates : DigestCrates) : Prop :=
  ∀ bytes, ∀ c ∈ crates.urlSafeNoPad bytes, isUrlSafe c = true

/-- `REWRITE_RULE_VERSION`. -/
def rewriteRuleVersion : Str :=
  str "v34"

/-- The bytes that `derive_etag` gives to the hasher. -/
def etagInput (upstreamEtag : Bytes) (basePath extension : Str) : Bytes :=
  [upstreamEtag, basePath.asBytes, extension.asBytes, rewriteRuleVersion.asBytes].flatMap
    (· ++ [0])

/-- `derive_etag`. -/
def deriveEtag (crates : DigestCrates) (upstreamEtag : Bytes) (basePath extension : Str) : Str :=
  str "W/\"kserw-" ++ rewriteRuleVersion ++ str "-"
    ++ crates.urlSafeNoPad (crates.blake3 (etagInput upstreamEtag basePath extension)) ++ str "\""

/-- The bytes between the quotes of a tag. -/
def isEtagByte (byte : UInt8) : Bool :=
  byte == 0x21 || (0x23 ≤ byte && byte ≤ 0x7E) || 0x80 ≤ byte

/-- `reliable_etag`. -/
def reliableEtag (value : HeaderValue) : Option Bytes :=
  let opaqueTag := (stripPrefix (bytes "W/") value.asBytes).getD value.asBytes
  if opaqueTag.length < 2 || opaqueTag.head? != some 0x22 || opaqueTag.getLast? != some 0x22 then
    none
  else if ((opaqueTag.take (opaqueTag.length - 1)).drop 1).all isEtagByte then some value.asBytes
  else none

/-- `if_none_match_matches`. -/
def ifNoneMatchMatches (value : Option HeaderValue) (derivedEtag : Str) : Bool :=
  (value.bind HeaderValue.toStr).any fun header ↦
    ((split ',' header).map trim).any fun candidate ↦
      candidate == str "*" || candidate == derivedEtag

/-! ### `Vary` -/

/-- The values of `Vary`. -/
def varyValues (response : ResponseHeader) : List Str :=
  ((((response.headers.getAll (str "vary")).filterMap HeaderValue.toStr).flatMap (split ',')).map
    trim).filter fun value ↦ !value.isEmpty

/-- `ensure_vary_accept_encoding`. -/
def ensureVaryAcceptEncoding (response : ResponseHeader) : Except ProxyError ResponseHeader :=
  let vary := varyValues response
  if vary.any fun value ↦ value == str "*" || eqIgnoreAsciiCase value (str "accept-encoding") then
    .ok response
  else
    response.insertHeader (str "vary")
      (Str.asBytes ((str ", ").intercalate (vary ++ [str "Accept-Encoding"])))

/-! ### Inserted values are accepted -/

theorem visible_str {text : String}
    (h : (str text).all fun c ↦ (0x20 ≤ c.toNat && c.toNat < 0x7F) || c.toNat == 0x09) :
    Visible (str text) := by
  intro c hc
  simpa using List.all_eq_true.1 h c hc

theorem visible_of_isUrlSafe {value : Str} (h : ∀ c ∈ value, isUrlSafe c = true) :
    Visible value := by
  intro c hc
  have hsafe := h c hc
  simp only [isUrlSafe, Bool.or_eq_true, Bool.and_eq_true, decide_eq_true_eq, beq_iff_eq] at hsafe
  rcases hsafe with ((hsafe | rfl) | rfl)
  · omega
  · decide
  · decide

/-- A derived tag is visible, because its digest is. -/
theorem visible_deriveEtag {crates : DigestCrates} (h : crates.EncodesUrlSafe)
    (upstreamEtag : Bytes) (basePath extension : Str) :
    Visible (deriveEtag crates upstreamEtag basePath extension) := by
  rw [deriveEtag, rewriteRuleVersion]
  exact (((visible_str (by decide)).append (visible_str (by decide))).append
    (visible_str (by decide))).append (visible_of_isUrlSafe (h _)) |>.append
      (visible_str (by decide))

theorem visible_of_mem_varyValues {response : ResponseHeader} {value : Str}
    (h : value ∈ varyValues response) : Visible value := by
  obtain ⟨segment, hsegment, rfl⟩ := List.mem_map.1 (List.mem_of_mem_filter h)
  obtain ⟨text, htext, hsegment⟩ := List.mem_flatMap.1 hsegment
  obtain ⟨field, -, hfield⟩ := List.mem_filterMap.1 htext
  have hsegment : Visible segment := fun c hc ↦
    HeaderValue.visible_of_toStr hfield c (mem_of_mem_split hsegment hc)
  exact hsegment.sublist (trimMatches_sublist _ _)

theorem mem_intersperse {α : Type*} {separator a : α} {l : List α}
    (h : a ∈ l.intersperse separator) : a = separator ∨ a ∈ l := by
  fun_induction l.intersperse separator with
  | case1 => exact Or.inr h
  | case2 b => exact Or.inr h
  | case3 b c l ih =>
    rcases List.mem_cons.1 h with rfl | h
    · exact Or.inr List.mem_cons_self
    · rcases List.mem_cons.1 h with rfl | h
      · exact Or.inl rfl
      · exact (ih h).imp_right (List.mem_cons_of_mem _)

theorem visible_intercalate {separator : Str} (hseparator : Visible separator) {values : List Str}
    (h : ∀ value ∈ values, Visible value) : Visible (separator.intercalate values) := by
  intro c hc
  rw [List.intercalate, List.mem_flatten] at hc
  obtain ⟨part, hpart, hc⟩ := hc
  rcases mem_intersperse hpart with rfl | hpart
  · exact hseparator c hc
  · exact h part hpart c hc

/-- **The `Vary` header can always be completed.** -/
theorem exists_ensureVaryAcceptEncoding_eq (response : ResponseHeader) :
    ∃ headers, ensureVaryAcceptEncoding response = .ok { response with headers := headers } ∧
      ∀ name ≠ str "vary", headers.getAll name = response.headers.getAll name := by
  rw [ensureVaryAcceptEncoding]
  split
  · exact ⟨response.headers, rfl, fun _ _ ↦ rfl⟩
  · have hvisible : Visible ((str ", ").intercalate
        (varyValues response ++ [str "Accept-Encoding"])) := by
      refine visible_intercalate ?_ fun value hvalue ↦ ?_
      · exact visible_str (by decide)
      · rcases List.mem_append.1 hvalue with hvalue | hvalue
        · exact visible_of_mem_varyValues hvalue
        · rw [List.mem_singleton.1 hvalue]
          exact visible_str (by decide)
    exact ⟨_, response.insertHeader_eq _ (all_isHeaderByte_of_visible hvisible), fun name hname ↦
      HeaderMap.getAll_insert_of_ne _ hname _⟩

/-! ### The tag separates its inputs -/

/-- A reliable tag has no zero byte, so it ends where the framing ends it. -/
theorem zero_not_mem_of_reliableEtag {value : HeaderValue} {etag : Bytes}
    (h : reliableEtag value = some etag) : 0 ∉ etag := by
  have hvalue : etag = value.asBytes := by
    simp only [reliableEtag] at h
    split at h
    · exact nomatch h
    · split at h
      · exact (Option.some.inj h).symm
      · exact nomatch h
  intro hmem
  exact absurd (List.all_eq_true.1 value.all_isHeaderByte 0 (hvalue ▸ hmem)) (by decide)

/-- **The hashed bytes determine what is hashed**, when the tag and the base path have no zero
byte. -/
theorem etagInput_inj {etag etag' : Bytes} {basePath basePath' extension extension' : Str}
    (hetag : 0 ∉ etag) (hetag' : 0 ∉ etag') (hbase : 0 ∉ basePath.asBytes)
    (hbase' : 0 ∉ basePath'.asBytes)
    (h : etagInput etag basePath extension = etagInput etag' basePath' extension') :
    etag = etag' ∧ basePath.asBytes = basePath'.asBytes ∧
      extension.asBytes = extension'.asBytes := by
  simp only [etagInput, List.flatMap_cons, List.append_assoc, List.cons_append,
    List.nil_append] at h
  obtain ⟨hetags, h⟩ := append_cons_inj hetag hetag' h
  obtain ⟨hbases, h⟩ := append_cons_inj hbase hbase' h
  exact ⟨hetags, hbases, List.append_cancel_right h⟩

/-- A base path that the configuration accepts has no zero byte, also when it is empty. -/
theorem zero_not_mem_of_normalizeBasePath {url : UrlCrate} {input basePath : Str}
    (h : normalizeBasePath url input = .ok basePath) : 0 ∉ basePath.asBytes := by
  intro hzero
  have hmem : Char.ofNat 0 ∈ basePath := Utf8.mem_of_mem_encode (by decide) hzero
  have hbase : IsBasePath url basePath := ⟨⟨input, h⟩, List.ne_nil_of_mem hmem⟩
  exact absurd (hbase.isForbiddenCharacter_eq_false hmem) (by decide)

/-- Reliable tags and accepted base paths are told apart by the hashed bytes. -/
theorem eq_of_etagInput_eq {value value' : HeaderValue} {etag etag' : Bytes}
    (hetag : reliableEtag value = some etag) (hetag' : reliableEtag value' = some etag')
    {url : UrlCrate} {input input' basePath basePath' : Str}
    (hbase : normalizeBasePath url input = .ok basePath)
    (hbase' : normalizeBasePath url input' = .ok basePath') {extension extension' : Str}
    (h : etagInput etag basePath extension = etagInput etag' basePath' extension') :
    etag = etag' ∧ basePath = basePath' ∧ extension = extension' := by
  obtain ⟨hetags, hbases, hextensions⟩ :=
    etagInput_inj (zero_not_mem_of_reliableEtag hetag) (zero_not_mem_of_reliableEtag hetag')
      (zero_not_mem_of_normalizeBasePath hbase) (zero_not_mem_of_normalizeBasePath hbase') h
  exact ⟨hetags, Utf8.encode_injective hbases, Utf8.encode_injective hextensions⟩

/-- **The derived tag separates its inputs**: two reliable tags, two accepted base paths and any
two extensions that lead to the same hashed bytes are equal. So a tag that is derived twice, from
different inputs, comes from a collision of the hash on the two byte strings. -/
theorem etagInput_separates (value value' : HeaderValue) {etag etag' : Bytes}
    (hetag : reliableEtag value = some etag) (hetag' : reliableEtag value' = some etag')
    {url : UrlCrate} {input input' basePath basePath' : Str}
    (hbase : normalizeBasePath url input = .ok basePath)
    (hbase' : normalizeBasePath url input' = .ok basePath') (extension extension' : Str) :
    (etagInput etag basePath extension = etagInput etag' basePath' extension' →
      etag = etag' ∧ basePath = basePath' ∧ extension = extension') ∧
    ∀ crates : DigestCrates, Function.Injective crates.urlSafeNoPad →
      deriveEtag crates etag basePath extension = deriveEtag crates etag' basePath' extension' →
      (etag = etag' ∧ basePath = basePath' ∧ extension = extension') ∨
        etagInput etag basePath extension ≠ etagInput etag' basePath' extension' ∧
          crates.blake3 (etagInput etag basePath extension) =
            crates.blake3 (etagInput etag' basePath' extension') := by
  have hseparates : etagInput etag basePath extension = etagInput etag' basePath' extension' →
      etag = etag' ∧ basePath = basePath' ∧ extension = extension' :=
    eq_of_etagInput_eq hetag hetag' hbase hbase'
  refine ⟨hseparates, fun crates hinjective h ↦ ?_⟩
  -- equal tags have equal digests, since the rest of the tag is fixed
  have hdigest := hinjective (List.append_cancel_left (List.append_cancel_right h))
  rcases Classical.em (etagInput etag basePath extension = etagInput etag' basePath' extension')
    with heq | hne
  · exact Or.inl (hseparates heq)
  · exact Or.inr ⟨hne, hdigest⟩

/-- Two extensions below one base path. -/
theorem etagInput_separates_regions :
    etagInput (bytes "\"v1\"") (str "/regions/r1") (str "embed") ≠
      etagInput (bytes "\"v1\"") (str "/regions/r1") (str "other") := by
  intro h
  obtain ⟨-, -, hextension⟩ :=
    (etagInput_separates ⟨bytes "\"v1\"", by decide⟩ ⟨bytes "\"v1\"", by decide⟩ (by decide)
      (by decide) normalizeBasePath_unreserved normalizeBasePath_unreserved _ _).1 h
  exact absurd hextension (by decide)

/-! ### URL-safe Base64 -/

/-- `alphabet::URL_SAFE`. -/
def urlSafeAlphabet : Base64.Alphabet where
  table := bytes "ABCDEFGHIJKLMNOPQRSTUVWXYZabcdefghijklmnopqrstuvwxyz0123456789-_"
  pad := 0x3D
  length_table := by decide
  nodup_table := by decide
  pad_not_mem := by decide

/-- A hash, with `URL_SAFE_NO_PAD` as it is documented. -/
def DigestCrates.ofHash (hash : Bytes → Bytes) : DigestCrates where
  blake3 := hash
  urlSafeNoPad input :=
    (Base64.encode urlSafeAlphabet false input).map fun byte ↦ Char.ofNat byte.toNat

/-- URL-safe Base64 has no other characters. -/
theorem DigestCrates.ofHash_encodesUrlSafe (hash : Bytes → Bytes) :
    (DigestCrates.ofHash hash).EncodesUrlSafe := by
  have htable :
      (urlSafeAlphabet.table.all fun byte ↦ isUrlSafe (Char.ofNat byte.toNat)) = true := by
    decide
  intro input c hc
  obtain ⟨byte, hbyte, rfl⟩ := List.mem_map.1 hc
  rcases Base64.mem_of_mem_encode urlSafeAlphabet hbyte with hbyte | ⟨hpadded, -⟩
  · exact List.all_eq_true.1 htable byte hbyte
  · exact nomatch hpadded

/-- URL-safe Base64 is read back. -/
theorem DigestCrates.ofHash_injective (hash : Bytes → Bytes) :
    Function.Injective (DigestCrates.ofHash hash).urlSafeNoPad := by
  have hchar : Function.Injective fun byte : UInt8 ↦ Char.ofNat byte.toNat := by
    intro a b h
    have hnat := congrArg Char.toNat h
    simp only [toNat_ofNat_toNat] at hnat
    exact UInt8.toNat_inj.1 hnat
  intro input input' h
  exact Base64.encode_injective urlSafeAlphabet false (List.map_injective_iff.2 hchar h)

/-! ### Recorded digests -/

/-- The BLAKE3 digests of two tags below `/regions/r1`. -/
def recordedDigests : List (Bytes × Bytes) :=
  [(etagInput (bytes "\"v1\"") (str "/regions/r1") (str "embed"),
    [0xA1, 0x5E, 0x4E, 0xC1, 0x92, 0x52, 0x00, 0x94, 0xBD, 0x8C, 0x6F, 0x33, 0xF1, 0x55, 0xE1, 0x3B,
      0xE7, 0x07, 0xE2, 0x2C, 0x42, 0xCF, 0x3E, 0xC5, 0x14, 0xC7, 0x72, 0x00, 0xC7, 0x53, 0xE3,
      0x3F]),
   (etagInput (bytes "\"v1\"") (str "/regions/r1") (str "ys1000-frontend"),
    [0x6F, 0x8E, 0xC7, 0xAB, 0xB8, 0x95, 0x33, 0xBE, 0xC1, 0x7B, 0x8D, 0xD0, 0x6B, 0x10, 0x79, 0xE5,
      0x3B, 0x9D, 0x45, 0xBA, 0x32, 0x70, 0xF7, 0x5E, 0xCE, 0xE6, 0xE6, 0x6D, 0x5B, 0x0F, 0xCD,
      0x24])]

/-- A hash without collisions that is BLAKE3 where a digest is recorded. Elsewhere the input stands
for itself, behind more zero bytes than a digest has. -/
def recordedBlake3 (input : Bytes) : Bytes :=
  match recordedDigests.find? (·.1 == input) with
  | some entry => entry.2
  | none => List.replicate 33 0 ++ input

/-- The recorded digests are distinct, and shorter than anything else. -/
theorem recordedBlake3_injective : Function.Injective recordedBlake3 := by
  have hlength : ∀ entry ∈ recordedDigests, entry.2.length = 32 := by decide
  have hdistinct : ∀ entry ∈ recordedDigests, ∀ entry' ∈ recordedDigests,
      entry.2 = entry'.2 → entry.1 = entry'.1 := by decide
  -- A recorded digest is shorter than anything else.
  have hne : ∀ {entry input}, entry ∈ recordedDigests →
      entry.2 ≠ List.replicate 33 0 ++ input := by
    intro entry input hentry heq
    have := congrArg List.length heq
    rw [hlength entry hentry, List.length_append, List.length_replicate] at this
    omega
  intro input input' h
  rw [recordedBlake3, recordedBlake3] at h
  cases hfind : recordedDigests.find? (·.1 == input) with
  | none =>
    cases hfind' : recordedDigests.find? (·.1 == input') with
    | none =>
      rw [hfind, hfind'] at h
      exact List.append_cancel_left h
    | some entry' =>
      rw [hfind, hfind'] at h
      exact absurd h.symm (hne (List.mem_of_find?_eq_some hfind'))
  | some entry =>
    cases hfind' : recordedDigests.find? (·.1 == input') with
    | none =>
      rw [hfind, hfind'] at h
      exact absurd h (hne (List.mem_of_find?_eq_some hfind))
    | some entry' =>
      rw [hfind, hfind'] at h
      have hsame := hdistinct entry (List.mem_of_find?_eq_some hfind) entry'
        (List.mem_of_find?_eq_some hfind') h
      have hinput := (List.find?_eq_some_iff_append.1 hfind).1
      have hinput' := (List.find?_eq_some_iff_append.1 hfind').1
      rw [← beq_iff_eq.1 hinput, ← beq_iff_eq.1 hinput', hsame]

example : deriveEtag (.ofHash recordedBlake3) (bytes "\"v1\"") (str "/regions/r1") (str "embed") =
    str "W/\"kserw-v34-oV5OwZJSAJS9jG8z8VXhO-cH4ixCzz7FFMdyAMdT4z8\"" := by
  decide +kernel

end KseRewriteProxy
