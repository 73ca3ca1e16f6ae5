import KseRewriteProxy.Rewrite.Policy

/-!
# Header fields

What `proxy.rs` uses of the crates `http` and `pingora`: header values, header maps, the headers of
a request and of a response, and the errors of a hook.

`HeaderValue` carries the check of its bytes, so that a value that is read from one header can be
inserted into another. A header map is the list of its fields in order, with names in lower case; a
name may occur more than once, and inserting a value replaces all of them (`getAll_insert_self`)
and no others (`getAll_insert_of_ne`).

Inserting text can fail, because not every byte may stand in a header. The code inserts request
ids, derived tags and lists of field names, all of which are `Visible`: visible text has one byte
for each character, all of them allowed (`all_isHeaderByte_of_visible`), and it is what reading the
header gives back (`HeaderValue.toStr_of_visible`). So the insertions of the hooks succeed.
-/

namespace KseRewriteProxy

open Text

/-! ### Strings -/

/-- `char::is_whitespace`. -/
def isWhitespace (c : Char) : Bool :=
  (0x09 ≤ c.toNat && c.toNat ≤ 0x0D) || c.toNat == 0x20 || c.toNat == 0x85 || c.toNat == 0xA0
    || c.toNat == 0x1680 || (0x2000 ≤ c.toNat && c.toNat ≤ 0x200A) || c.toNat == 0x2028
    || c.toNat == 0x2029 || c.toNat == 0x202F || c.toNat == 0x205F || c.toNat == 0x3000

/-- `str::trim_matches`. -/
def trimMatches (p : Char → Bool) (value : Str) : Str :=
  trimEndMatches p (value.dropWhile p)

/-- `str::trim`. -/
def trim (value : Str) : Str :=
  trimMatches isWhitespace value

/-- `str::to_ascii_lowercase`. -/
def toAsciiLowercase (value : Str) : Str :=
  value.map Char.toLower

theorem trimMatches_sublist (p : Char → Bool) (value : Str) :
    (trimMatches p value).Sublist value :=
  (trimEndMatches_isPrefix p _).sublist.trans (List.dropWhile_sublist p)

/-- What is not trimmed stays. -/
theorem mem_trimMatches {p : Char → Bool} {value : Str} {c : Char} (hc : c ∈ value)
    (hp : p c = false) : c ∈ trimMatches p value := by
  have hkept : ∀ {t : Str}, (∀ a ∈ t, p a = true) → c ∉ t := by
    intro t ht hmem
    rw [ht c hmem] at hp
    exact absurd hp (by simp)
  rw [← List.takeWhile_append_dropWhile (p := p) (l := value), List.mem_append] at hc
  rcases hc with hc | hc
  · exact absurd hc (hkept fun a ha ↦ List.all_eq_true.1 List.all_takeWhile a ha)
  · obtain ⟨t, ht, hall⟩ := exists_trimEndMatches_append p (value.dropWhile p)
    rw [ht, List.mem_append] at hc
    exact hc.resolve_right (hkept hall)

/-- **Trimming removes what stands around a text** that neither begins nor ends with something to
trim. -/
theorem trimMatches_append {p : Char → Bool} {a m b : Str} (ha : ∀ c ∈ a, p c = true)
    (hb : ∀ c ∈ b, p c = true) (hfirst : ∃ c t, m = c :: t ∧ p c = false)
    (hlast : ∃ t c, m = t ++ [c] ∧ p c = false) : trimMatches p (a ++ m ++ b) = m := by
  have hstart : (a ++ m ++ b).dropWhile p = m ++ b := by
    obtain ⟨c, t, rfl, hc⟩ := hfirst
    rw [List.append_assoc, List.dropWhile_append_of_pos ha, List.cons_append,
      List.dropWhile_cons_of_neg (by rw [hc]; simp)]
  rw [trimMatches, hstart, trimEndMatches, List.reverse_append,
    List.dropWhile_append_of_pos fun c hc ↦ hb c (List.mem_reverse.1 hc)]
  obtain ⟨t, c, rfl, hc⟩ := hlast
  rw [List.reverse_append, List.reverse_singleton, List.singleton_append,
    List.dropWhile_cons_of_neg (by rw [hc]; simp), List.reverse_cons, List.reverse_reverse]

theorem trimMatches_of_forall {p : Char → Bool} {value : Str} (h : ∀ c ∈ value, p c = false) :
    trimMatches p value = value := by
  rcases eq_or_ne value [] with rfl | hne
  · rfl
  · obtain ⟨c, t, hcons⟩ := List.exists_cons_of_ne_nil hne
    have hconcat := List.dropLast_concat_getLast hne
    have hkeep := trimMatches_append (p := p) (a := []) (m := value) (b := []) (by simp) (by simp)
      ⟨c, t, hcons, h c (hcons ▸ List.mem_cons_self)⟩
      ⟨_, _, hconcat.symm, h _ (List.getLast_mem hne)⟩
    rwa [List.nil_append, List.append_nil] at hkeep

/-! ### Header values -/

/-- The bytes that `HeaderValue` accepts. -/
def isHeaderByte (byte : UInt8) : Bool :=
  (0x20 ≤ byte && byte != 0x7F) || byte == 0x09

/-- The bytes that `HeaderValue::to_str` accepts. -/
def isVisibleAscii (byte : UInt8) : Bool :=
  (0x20 ≤ byte && byte < 0x7F) || byte == 0x09

/-- `HeaderValue`. -/
structure HeaderValue where
  asBytes : Bytes
  all_isHeaderByte : asBytes.all isHeaderByte = true
  deriving DecidableEq

namespace HeaderValue

/-- `HeaderValue::from_bytes`. -/
def fromBytes (value : Bytes) : Option HeaderValue :=
  if h : value.all isHeaderByte = true then some ⟨value, h⟩ else none

/-- `HeaderValue::to_str`. -/
def toStr (self : HeaderValue) : Option Str :=
  if self.asBytes.all isVisibleAscii then
    some (self.asBytes.map fun byte ↦ Char.ofNat byte.toNat)
  else none

end HeaderValue

/-! ### Header maps -/

/-- `HeaderMap`, with names in lower case. -/
abbrev HeaderMap :=
  List (Str × HeaderValue)

namespace HeaderMap

/-- `HeaderMap::get_all`. -/
def getAll (self : HeaderMap) (name : Str) : List HeaderValue :=
  (self.filter (·.1 == name)).map (·.2)

/-- `HeaderMap::get`. -/
def get (self : HeaderMap) (name : Str) : Option HeaderValue :=
  (self.getAll name).head?

/-- `HeaderMap::remove`. -/
def remove (self : HeaderMap) (name : Str) : HeaderMap :=
  self.filter (·.1 != name)

/-- `HeaderMap::insert`. -/
def insert (self : HeaderMap) (name : Str) (value : HeaderValue) : HeaderMap :=
  remove self name ++ [(name, value)]

variable (self : HeaderMap) (name : Str)

theorem getAll_remove_self : (self.remove name).getAll name = [] := by
  rw [getAll, remove, List.filter_filter, List.filter_eq_nil_iff.2, List.map_nil]
  intro field _
  simp

theorem getAll_remove_of_ne {name other : Str} (h : other ≠ name) :
    (self.remove name).getAll other = self.getAll other := by
  rw [getAll, remove, List.filter_filter, getAll]
  refine congrArg _ (List.filter_congr fun field _ ↦ ?_)
  by_cases hfield : field.1 = other
  · simp [hfield, h]
  · simp [hfield]

theorem getAll_insert_self (value : HeaderValue) :
    (self.insert name value).getAll name = [value] := by
  have hremoved : getAll (remove self name) name = [] := getAll_remove_self self name
  rw [getAll] at hremoved
  rw [getAll, insert, List.filter_append, List.map_append, hremoved]
  simp

theorem getAll_insert_of_ne {name other : Str} (h : other ≠ name) (value : HeaderValue) :
    (self.insert name value).getAll other = self.getAll other := by
  have hkept : getAll (remove self name) other = getAll self other := getAll_remove_of_ne self h
  rw [getAll] at hkept
  rw [getAll, insert, List.filter_append, List.map_append, hkept]
  simp [h.symm]

@[simp] theorem get_remove_self : (self.remove name).get name = none := by
  rw [get, getAll_remove_self]
  rfl

theorem get_remove_of_ne {name other : Str} (h : other ≠ name) :
    (self.remove name).get other = self.get other := by
  rw [get, getAll_remove_of_ne self h, get]

@[simp] theorem get_insert_self (value : HeaderValue) :
    (self.insert name value).get name = some value := by
  rw [get, getAll_insert_self]
  rfl

theorem get_insert_of_ne {name other : Str} (h : other ≠ name) (value : HeaderValue) :
    (self.insert name value).get other = self.get other := by
  rw [get, getAll_insert_of_ne self h, get]

end HeaderMap

/-! ### Messages -/

/-- The errors of the hooks. -/
inductive ProxyError where
  /-- `ErrorType::InternalError`, with the cause. -/
  | internalError (context : Str) (cause : RewriteError)
  /-- `ErrorType::HTTPStatus`. -/
  | httpStatus (code : ℕ) (context : Str) (cause : Option RewriteError)
  /-- A header value that is refused. -/
  | invalidHttpHeader

/-- `RequestHeader`. -/
structure RequestHeader where
  method : Str
  path : Str
  headers : HeaderMap

/-- `ResponseHeader`. -/
structure ResponseHeader where
  status : ℕ
  headers : HeaderMap

namespace ResponseHeader

/-- `ResponseHeader::insert_header`. -/
def insertHeader (self : ResponseHeader) (name : Str) (value : Bytes) :
    Except ProxyError ResponseHeader :=
  match HeaderValue.fromBytes value with
  | some value => .ok { self with headers := HeaderMap.insert self.headers name value }
  | none => .error .invalidHttpHeader

/-- `ResponseHeader::remove_header`. -/
def removeHeader (self : ResponseHeader) (name : Str) : ResponseHeader :=
  { self with headers := HeaderMap.remove self.headers name }

/-- A text of accepted bytes is inserted. -/
theorem insertHeader_eq (self : ResponseHeader) (name : Str) {value : Bytes}
    (h : value.all isHeaderByte = true) :
    self.insertHeader name value =
      .ok { self with headers := HeaderMap.insert self.headers name ⟨value, h⟩ } := by
  rw [insertHeader, HeaderValue.fromBytes, dif_pos h]

theorem status_of_insertHeader {self response : ResponseHeader} {name : Str} {value : Bytes}
    (h : self.insertHeader name value = .ok response) : response.status = self.status := by
  rw [insertHeader] at h
  split at h
  · exact Except.ok.inj h ▸ rfl
  · exact nomatch h

end ResponseHeader

/-! ### Visible texts -/

/-- Characters that a header value may have and that `to_str` reads. -/
def Visible (value : Str) : Prop :=
  ∀ c ∈ value, (0x20 ≤ c.toNat ∧ c.toNat < 0x7F) ∨ c.toNat = 0x09

theorem Visible.append {value value' : Str} (h : Visible value) (h' : Visible value') :
    Visible (value ++ value') := by
  intro c hc
  rcases List.mem_append.1 hc with hc | hc
  · exact h c hc
  · exact h' c hc

theorem Visible.sublist {value value' : Str} (h : Visible value) (hsub : value'.Sublist value) :
    Visible value' :=
  fun c hc ↦ h c (hsub.subset hc)

/-- A visible text has one byte for each character. -/
theorem Visible.asBytes_eq {value : Str} (h : Visible value) :
    value.asBytes = value.map fun c ↦ UInt8.ofNat c.toNat := by
  induction value with
  | nil => rfl
  | cons c value ih =>
    have hvisible := h c List.mem_cons_self
    have hascii : c.val.toNat ≤ 127 := by
      rw [Char.toNat] at hvisible
      omega
    have hchar : String.utf8EncodeChar c = [UInt8.ofNat c.toNat] := if_pos hascii
    show String.utf8EncodeChar c ++ Str.asBytes value = _
    rw [hchar, ih fun d hd ↦ h d (List.mem_cons_of_mem _ hd)]
    rfl

/-- The byte of a visible character. -/
theorem Visible.toNat_byte {value : Str} (h : Visible value) {c : Char} (hc : c ∈ value) :
    (UInt8.ofNat c.toNat).toNat = c.toNat := by
  have hvisible := h c hc
  rw [UInt8.toNat_ofNat']
  omega

/-- Visible text can be sent as the value of a header. -/
theorem all_isHeaderByte_of_visible {value : Str} (h : Visible value) :
    value.asBytes.all isHeaderByte = true := by
  refine List.all_eq_true.2 fun byte hbyte ↦ ?_
  rw [h.asBytes_eq] at hbyte
  obtain ⟨c, hc, rfl⟩ := List.mem_map.1 hbyte
  have hvisible := h c hc
  simp only [isHeaderByte, Bool.or_eq_true, Bool.and_eq_true, decide_eq_true_eq, bne_iff_ne,
    beq_iff_eq, UInt8.le_iff_toNat_le, ← UInt8.toNat_inj, ne_eq, h.toNat_byte hc]
  show (32 ≤ c.toNat ∧ ¬ c.toNat = 127) ∨ c.toNat = 9
  omega

theorem toNat_ofNat_toNat (byte : UInt8) : (Char.ofNat byte.toNat).toNat = byte.toNat := by
  have hlt := byte.toNat_lt
  rw [Char.ofNat, dif_pos (Or.inl (by omega))]
  rfl

/-- **A visible text is read back from its bytes.** -/
theorem HeaderValue.toStr_of_visible {value : HeaderValue} {text : Str} (h : Visible text)
    (hbytes : value.asBytes = text.asBytes) : value.toStr = some text := by
  have hall : value.asBytes.all isVisibleAscii = true := by
    rw [hbytes, h.asBytes_eq, List.all_eq_true]
    intro byte hbyte
    obtain ⟨c, hc, rfl⟩ := List.mem_map.1 hbyte
    have hvisible := h c hc
    simp only [isVisibleAscii, Bool.or_eq_true, Bool.and_eq_true, decide_eq_true_eq, beq_iff_eq,
      UInt8.le_iff_toNat_le, UInt8.lt_iff_toNat_lt, ← UInt8.toNat_inj, h.toNat_byte hc]
    exact hvisible
  rw [HeaderValue.toStr, if_pos hall, hbytes, h.asBytes_eq, List.map_map]
  refine congrArg some ((List.map_congr_left fun c hc ↦ ?_).trans (List.map_id _))
  show Char.ofNat (UInt8.ofNat c.toNat).toNat = c
  rw [h.toNat_byte hc, Char.ofNat_toNat]

/-- **A value that is read as a text is a visible text.** -/
theorem HeaderValue.visible_of_toStr {value : HeaderValue} {text : Str}
    (h : value.toStr = some text) : Visible text := by
  rw [HeaderValue.toStr] at h
  split at h
  · rename_i hall
    obtain rfl := Option.some.inj h
    intro c hc
    obtain ⟨byte, hbyte, rfl⟩ := List.mem_map.1 hc
    have hvisible := List.all_eq_true.1 hall byte hbyte
    simp only [isVisibleAscii, Bool.or_eq_true, Bool.and_eq_true, decide_eq_true_eq, beq_iff_eq,
      UInt8.le_iff_toNat_le, UInt8.lt_iff_toNat_lt, ← UInt8.toNat_inj] at hvisible
    rw [toNat_ofNat_toNat]
    exact hvisible
  · exact nomatch h

end KseRewriteProxy
