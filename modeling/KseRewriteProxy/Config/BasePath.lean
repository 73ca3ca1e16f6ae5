import KseRewriteProxy.Rewrite.Policy

/-!
# The base path

`normalize_base_path` of `config.rs`: which values of `client.basePath` are accepted, and what the
accepted value is. Everything that is rewritten is prefixed with this string, so what it cannot
contain is what the rewrites rely on.

The crate `url` is the parameter `UrlCrate`. What is needed of it is that it percent-encodes a
character in a path, `UrlCrate.Encodes`; the comparison of the parsed path with the input turns this
into a check of the input: a character that the crate would encode is refused, because the path of
the parsed URL is not the input any more.

`Accepted` is the inversion of the function, and `IsBasePath` what later modules know of a base path
other than the empty one: the facts that the rewrites use (it begins with a slash and does not end
with one, it is short, it has no forbidden character and none that is encoded) are lemmas about
`IsBasePath`, and none of them unfolds the function again.
-/

namespace KseRewriteProxy

open Text

/-! ### Errors -/

/-- `ConfigError`. -/
inductive ConfigError where
  | invalidYaml (error : Str)
  | invalidBasePath (message : Str)
  | invalidListen (value : Str)
  | invalidAdminListen (value : Str)
  | conflictingListeners
  | listenerOverlapsUpstream (field : Str)
  | invalidUpstream (message : Str)
  | invalidExtension (field extension : Str)
  | wildcardWithExtensions
  | duplicateExtension (field extension : Str)
  | unknownRule (number : UInt8)
  | nonPositiveLimit (field : Str)
  deriving DecidableEq

/-! ### The crate `url` -/

/-- What `normalize_base_path` reads of an input that is joined to the static base URL. -/
structure JoinedUrl where
  /-- The origin is the one of the base URL. -/
  sameOrigin : Bool
  /-- `Url::path`. -/
  path : Str

/-- `Url::parse("http://kubesphere.local")` and `join`. -/
structure UrlCrate where
  join : Str → Option JoinedUrl

/-- The character is percent-encoded in a path. -/
def UrlCrate.Encodes (url : UrlCrate) (c : Char) : Prop :=
  ∀ input joined, url.join input = some joined → c ∉ joined.path

/-! ### Checks of characters and segments -/

/-- `MAX_BASE_PATH_LENGTH`. -/
def maxBasePathLength : ℕ :=
  1024

/-- `invalid_base_path`. -/
def invalidBasePath (message : String) : ConfigError :=
  .invalidBasePath (str message)

/-- `char::is_control`: the Unicode category `Cc`. -/
def isControl (c : Char) : Bool :=
  c.toNat ≤ 0x1F || (0x7F ≤ c.toNat && c.toNat ≤ 0x9F)

/-- The characters that `contains_forbidden_character` looks for. -/
def isForbiddenCharacter (c : Char) : Bool :=
  c == '?' || c == '#' || c == '\'' || c == '"' || c == '\\' || c == '\u2028' || c == '\u2029'
    || isControl c

/-- `contains_forbidden_character`. -/
def containsForbiddenCharacter (value : Str) : Bool :=
  value.any isForbiddenCharacter

/-- `has_dot_segment`. -/
def hasDotSegment (value : Str) : Bool :=
  (split '/' value).any fun segment ↦ segment == str "." || segment == str ".."

/-! ### Percent encoding -/

/-- `u8::is_ascii_hexdigit` with the value of the digit. -/
def hexValue (byte : UInt8) : Option UInt8 :=
  if 0x30 ≤ byte && byte ≤ 0x39 then some (byte - 0x30)
  else if 0x41 ≤ byte && byte ≤ 0x46 then some (byte - 0x37)
  else if 0x61 ≤ byte && byte ≤ 0x66 then some (byte - 0x57)
  else none

/-- `validate_percent_encoding`, on the bytes from the index on. -/
def validatePercentEncoding : Bytes → Except ConfigError Unit
  | [] => .ok ()
  | byte :: rest =>
    if byte = 0x25 then
      match rest with
      | high :: low :: rest =>
        if (hexValue high).isSome && (hexValue low).isSome then validatePercentEncoding rest
        else .error (invalidBasePath "contains invalid percent encoding")
      | _ => .error (invalidBasePath "contains invalid percent encoding")
    else validatePercentEncoding rest

/-- `percent_decode_str`: every escape is replaced by its byte, other bytes are kept. -/
def percentDecode : Bytes → Bytes
  | byte :: high :: low :: rest =>
    match (hexValue high).filter fun _ ↦ byte = 0x25, hexValue low with
    | some high, some low => (high * 16 + low) :: percentDecode rest
    | _, _ => byte :: percentDecode (high :: low :: rest)
  | bytes => bytes

/-- The loop of `decode_repeatedly`, with the number of iterations left. -/
def decodeLoop : ℕ → Str → Except ConfigError Str
  | 0, decoded => .ok decoded
  | iterations + 1, decoded => do
    validatePercentEncoding decoded.asBytes
    match Utf8.decode (percentDecode decoded.asBytes) with
    | none => .error (invalidBasePath "contains invalid percent encoding")
    | some next => if next = decoded then return decoded else decodeLoop iterations next

/-- `decode_repeatedly`. -/
def decodeRepeatedly (value : Str) : Except ConfigError Str :=
  decodeLoop maxBasePathLength value

/-! ### The normalization -/

/-- `normalize_base_path`. -/
def normalizeBasePath (url : UrlCrate) (input : Str) : Except ConfigError Str := do
  if input.isEmpty || input == str "/" then return []
  if input.length > maxBasePathLength then
    throw (invalidBasePath "must not exceed 1024 characters")
  if !(str "/").isPrefixOf input || (str "//").isPrefixOf input then
    throw (invalidBasePath "must be an absolute same-origin path")
  if containsForbiddenCharacter input then
    throw (invalidBasePath ("must not contain query, hash, quotes, backslash, line separators, " ++
      "or control characters"))
  validatePercentEncoding input.asBytes
  let decoded ← decodeRepeatedly input
  if containsForbiddenCharacter decoded || (find (str "//") decoded).isSome
      || hasDotSegment input || hasDotSegment decoded then
    throw (invalidBasePath "contains unsafe encoded characters or path segments")
  match url.join input with
  | none => throw (invalidBasePath "must be an absolute same-origin path")
  | some parsed =>
    if !parsed.sameOrigin || parsed.path ≠ input then
      throw (invalidBasePath "must not change when URL-normalized")
    return trimEndMatches (· == '/') input

/-- What an input is that has passed all checks. -/
structure Accepted (url : UrlCrate) (input : Str) : Prop where
  length_le : input.length ≤ maxBasePathLength
  root : str "/" <+: input
  not_slashes : ¬ str "//" <+: input
  not_forbidden : ∀ c ∈ input, isForbiddenCharacter c = false
  /-- The fixed point of the decoding passes the checks as well. -/
  decoded : ∃ decoded, decodeRepeatedly input = .ok decoded ∧
    containsForbiddenCharacter decoded = false ∧ ¬ str "//" <:+: decoded ∧
    hasDotSegment decoded = false
  joined : ∃ joined, url.join input = some joined ∧ joined.path = input

/-- **The inversion of the normalization**: an input with a result has passed all checks. -/
theorem accepted_of_normalizeBasePath {url : UrlCrate} {input basePath : Str}
    (h : normalizeBasePath url input = .ok basePath) (hne : basePath ≠ []) :
    Accepted url input ∧ basePath = trimEndMatches (· == '/') input := by
  rw [normalizeBasePath] at h
  simp only [bind, Except.bind, pure, Except.pure, throw, throwThe, MonadExceptOf.throw] at h
  split at h
  · obtain rfl := Except.ok.inj h
    exact absurd rfl hne
  split at h
  · contradiction
  rename_i hlen
  split at h
  · contradiction
  rename_i hroot
  split at h
  · contradiction
  rename_i hforbidden
  split at h
  · contradiction
  split at h
  · contradiction
  rename_i decoded hdecoded
  split at h
  · contradiction
  rename_i hsafe
  split at h
  · contradiction
  rename_i joined hjoin
  split at h
  · contradiction
  rename_i hpath
  simp only [Bool.or_eq_true, not_or, Bool.not_eq_true, Option.isSome_eq_false_iff,
    Option.isNone_iff_eq_none, find_eq_none_iff_not_isInfix] at hsafe
  simp only [Bool.or_eq_true, not_or, Bool.not_eq_eq_eq_not, Bool.not_true, Bool.not_eq_false,
    decide_eq_true_eq, not_not, ne_eq, List.isPrefixOf_iff_prefix] at hroot hpath
  refine ⟨⟨Nat.le_of_not_lt hlen, hroot.1, fun hslashes ↦ ?_, fun c hc ↦ ?_,
    ⟨decoded, hdecoded, hsafe.1.1.1, hsafe.1.1.2, hsafe.2⟩, ⟨joined, hjoin, hpath.2⟩⟩,
    (Except.ok.inj h).symm⟩
  · exact absurd (List.isPrefixOf_iff_prefix.2 hslashes) (by simp [hroot.2])
  · exact Bool.not_eq_true _ ▸ fun hc' ↦ hforbidden (List.any_eq_true.2 ⟨c, hc, hc'⟩)

/-- A base path that the normalization returns, other than the empty one. -/
structure IsBasePath (url : UrlCrate) (basePath : Str) : Prop where
  /-- It is the result for some input. -/
  accepted : ∃ input, normalizeBasePath url input = .ok basePath
  /-- Rewriting is on. -/
  ne_nil : basePath ≠ []

namespace IsBasePath

variable {url : UrlCrate} {basePath : Str}

/-- The input that a base path is trimmed from. -/
theorem exists_accepted (h : IsBasePath url basePath) :
    ∃ input, Accepted url input ∧ basePath = trimEndMatches (· == '/') input := by
  obtain ⟨⟨input, hinput⟩, hne⟩ := h
  exact ⟨input, accepted_of_normalizeBasePath hinput hne⟩

/-- A base path starts with a slash, which is not all of it. -/
theorem exists_eq_cons (h : IsBasePath url basePath) :
    ∃ c rest, basePath = '/' :: c :: rest ∧ c ≠ '/' := by
  have hne := h.ne_nil
  obtain ⟨input, haccepted, heq⟩ := h.exists_accepted
  obtain ⟨rest, rfl⟩ := haccepted.root
  have hlast : (basePath.getLast hne == '/') = false := by
    simp only [heq]
    exact getLast_trimEndMatches (p := (· == '/')) _
  obtain ⟨tail, htail⟩ := trimEndMatches_isPrefix (· == '/') (str "/" ++ rest)
  rw [← heq] at htail
  cases basePath with
  | nil => exact absurd rfl hne
  | cons a rest' =>
    obtain ⟨ha, htail⟩ := List.cons.inj htail
    obtain rfl : a = '/' := ha
    cases rest' with
    | nil => exact absurd hlast (by simp)
    | cons c rest' =>
      refine ⟨c, rest', rfl, ?_⟩
      rintro rfl
      refine haccepted.not_slashes ⟨rest' ++ tail, ?_⟩
      rw [← htail]
      rfl

theorem length_le (h : IsBasePath url basePath) : basePath.length ≤ maxBasePathLength := by
  obtain ⟨input, haccepted, rfl⟩ := h.exists_accepted
  exact (trimEndMatches_isPrefix _ input).length_le.trans haccepted.length_le

theorem isForbiddenCharacter_eq_false (h : IsBasePath url basePath) {c : Char}
    (hc : c ∈ basePath) : isForbiddenCharacter c = false := by
  obtain ⟨input, haccepted, rfl⟩ := h.exists_accepted
  exact haccepted.not_forbidden c ((trimEndMatches_isPrefix _ input).subset hc)

/-- A character that is encoded in a path does not occur. -/
theorem not_mem_of_encodes (h : IsBasePath url basePath) {c : Char} (hurl : url.Encodes c) :
    c ∉ basePath := by
  obtain ⟨input, haccepted, rfl⟩ := h.exists_accepted
  obtain ⟨joined, hjoined, hpath⟩ := haccepted.joined
  refine fun hc ↦ hurl input joined hjoined ?_
  rw [hpath]
  exact (trimEndMatches_isPrefix _ input).subset hc

/-- A base path does not end with a slash. -/
theorem getLast_ne (h : IsBasePath url basePath) : basePath.getLast h.ne_nil ≠ '/' := by
  have hne := h.ne_nil
  obtain ⟨input, -, rfl⟩ := h.exists_accepted
  simpa using getLast_trimEndMatches hne

end IsBasePath

/-! ### A parser of plain paths -/

/-- A URL parser that joins paths of unreserved characters and slashes, and no others. -/
def UrlCrate.unreserved : UrlCrate where
  join := fun input ↦
    if input.all fun c ↦ c.isAlphanum || c == '/' || c == '-' || c == '.' || c == '_' || c == '~'
    then some { sameOrigin := true, path := input }
    else none

/-- The crate encodes every character that is not unreserved. -/
theorem UrlCrate.unreserved_encodes {c : Char}
    (hc : ¬ (c.isAlphanum || c == '/' || c == '-' || c == '.' || c == '_' || c == '~')) :
    UrlCrate.unreserved.Encodes c := by
  intro input joined h hmem
  simp only [unreserved] at h
  split at h
  · rename_i hall
    obtain rfl := Option.some.inj h
    exact hc (List.all_eq_true.1 hall c hmem)
  · exact absurd h (by simp)

theorem normalizeBasePath_unreserved :
    normalizeBasePath .unreserved (str "/regions/r1/") = .ok (str "/regions/r1") := by
  decide +kernel

theorem isBasePath_unreserved : IsBasePath .unreserved (str "/regions/r1") :=
  ⟨⟨str "/regions/r1/", normalizeBasePath_unreserved⟩, by decide⟩

end KseRewriteProxy
