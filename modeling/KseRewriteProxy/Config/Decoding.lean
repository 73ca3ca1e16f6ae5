import KseRewriteProxy.Config.BasePath

/-!
# A base path under repeated decoding

`normalize_base_path` checks its input and the fixed point of the percent-decoding, and nothing in
between. This is enough, because what it looks for never disappears: a character that is neither a
percent sign nor a hexadecimal digit is copied by a decoding and separates the text before it from
the text after it (`decodeOnce_append_iff`). So a forbidden character, a double slash or a dot
segment of any decoding is still there in the fixed point (`Unsafe.decodeOnce`), and
`safe_under_decoding` covers all decodings of an accepted base path.

`Forbidden` and `HasDots` say in words of their own what the checks of the code look for
(`isForbiddenCharacter_eq_true_iff`, `hasDotSegment_eq_true_iff`), and `safe_under_decoding` is
stated with them.

## The loop stops in time

The loop of `decode_repeatedly` has a bound on its turns. A decoding that changes its text replaces
three ASCII characters by one byte, and an input that reaches the loop has at most 1024 characters,
so the fixed point comes before the bound (`decodeLoopExit_ne_exhausted`). The loop is left through
the fixed point, or through an escape that is malformed or decodes to no text.
-/

namespace KseRewriteProxy

open Text

/-! ### One decoding -/

/-- One percent-decoding of a text with valid escapes, if it is a text again. -/
def decodeOnce (value : Str) : Option Str :=
  match validatePercentEncoding value.asBytes with
  | .ok () => Utf8.decode (percentDecode value.asBytes)
  | .error _ => none

/-- The text after `k` decodings. -/
def decodeTimes : ℕ → Str → Option Str
  | 0, value => some value
  | k + 1, value => (decodeOnce value).bind (decodeTimes k)

/-- A byte that has no part in an escape. -/
def IsPlain (byte : UInt8) : Prop :=
  byte ≠ 0x25 ∧ hexValue byte = none

/-- An escape at the beginning of a text. -/
def EscapeAt (byte : UInt8) (rest : Bytes) : Prop :=
  byte = 0x25 ∧ ∃ high low rest', rest = high :: low :: rest' ∧ (hexValue high).isSome ∧
    (hexValue low).isSome

/-- An escape is replaced by its byte. -/
theorem percentDecode_escape {high low : UInt8} (hhigh : (hexValue high).isSome)
    (hlow : (hexValue low).isSome) : ∃ value, ∀ rest,
    percentDecode (0x25 :: high :: low :: rest) = value :: percentDecode rest := by
  obtain ⟨x, hx⟩ := Option.isSome_iff_exists.1 hhigh
  obtain ⟨y, hy⟩ := Option.isSome_iff_exists.1 hlow
  refine ⟨x * 16 + y, fun rest ↦ ?_⟩
  rw [percentDecode, hx, hy]
  rfl

/-- A byte that begins no escape is copied. -/
theorem percentDecode_copy {byte : UInt8} {rest : Bytes} (h : ¬ EscapeAt byte rest) :
    percentDecode (byte :: rest) = byte :: percentDecode rest := by
  match rest with
  | [] => rfl
  | [_] => rfl
  | high :: low :: rest' =>
    rw [percentDecode]
    split
    · -- both digits are there, so this would be an escape
      rename_i x y hx hy
      obtain ⟨hx, hbyte⟩ := Option.filter_eq_some_iff.1 hx
      exact absurd ⟨of_decide_eq_true hbyte, high, low, rest', rfl, Option.isSome_of_eq_some hx,
        Option.isSome_of_eq_some hy⟩ h
    · rfl

/-- A text that begins with an escape keeps it, and gets no other one, when a byte that is no
hexadecimal digit follows. -/
theorem escapeAt_append_iff {byte plain : UInt8} (h : hexValue plain = none) (u v : Bytes) :
    EscapeAt byte (u ++ plain :: v) ↔ EscapeAt byte u := by
  constructor
  · rintro ⟨rfl, high, low, rest, heq, hhigh, hlow⟩
    refine ⟨rfl, ?_⟩
    match u with
    | [] =>
      rw [← (List.cons.inj heq).1, h] at hhigh
      exact absurd hhigh (by simp)
    | [a] =>
      rw [← (List.cons.inj (List.cons.inj heq).2).1, h] at hlow
      exact absurd hlow (by simp)
    | a :: b :: u' =>
      obtain ⟨ha, heq⟩ := List.cons.inj heq
      obtain ⟨hb, -⟩ := List.cons.inj heq
      exact ⟨a, b, u', rfl, ha ▸ hhigh, hb ▸ hlow⟩
  · rintro ⟨rfl, high, low, rest, rfl, hhigh, hlow⟩
    exact ⟨rfl, high, low, rest ++ plain :: v, rfl, hhigh, hlow⟩

/-- Induction over the escapes of a text. -/
theorem escape_induction {motive : Bytes → Prop} (nil : motive [])
    (escape : ∀ high low rest, (hexValue high).isSome → (hexValue low).isSome → motive rest →
      motive (0x25 :: high :: low :: rest))
    (copy : ∀ byte rest, ¬ EscapeAt byte rest → motive rest → motive (byte :: rest))
    (text : Bytes) : motive text := by
  induction hn : text.length using Nat.strongRecOn generalizing text with
  | ind n ih =>
    subst hn
    cases text with
    | nil => exact nil
    | cons byte rest =>
      by_cases h : EscapeAt byte rest
      · obtain ⟨rfl, high, low, rest', rfl, hhigh, hlow⟩ := h
        exact escape high low rest' hhigh hlow (ih _ (by simp only [List.length_cons]; omega) _ rfl)
      · exact copy byte rest h (ih _ (Nat.lt_succ_self _) _ rfl)

/-- **Bytes without a part in an escape are copied**, and the text around them is decoded on its
own. -/
theorem percentDecode_append {w : Bytes} (hw : ∀ byte ∈ w, IsPlain byte) (u v : Bytes)
    (hne : w ≠ []) : percentDecode (u ++ w ++ v) = percentDecode u ++ w ++ percentDecode v := by
  induction u using escape_induction with
  | nil =>
    clear hne
    induction w with
    | nil => rfl
    | cons byte w ih =>
      have hbyte := (hw byte List.mem_cons_self).1
      show percentDecode (byte :: (w ++ v)) = byte :: (w ++ percentDecode v)
      rw [percentDecode_copy fun h ↦ hbyte h.1]
      exact congrArg _ (ih fun b hb ↦ hw b (List.mem_cons_of_mem _ hb))
  | escape high low rest hhigh hlow ih =>
    obtain ⟨value, hvalue⟩ := percentDecode_escape hhigh hlow
    simp only [List.cons_append, hvalue, ih]
  | copy byte rest h ih =>
    obtain ⟨plain, w', rfl⟩ := List.exists_cons_of_ne_nil hne
    have hplain := (hw plain List.mem_cons_self).2
    rw [percentDecode_copy h, List.cons_append, List.cons_append, percentDecode_copy, ih]
    · rfl
    · rwa [List.append_assoc, List.cons_append, escapeAt_append_iff hplain]

theorem validatePercentEncoding_escape {high low : UInt8} (hhigh : (hexValue high).isSome)
    (hlow : (hexValue low).isSome) (rest : Bytes) :
    validatePercentEncoding (0x25 :: high :: low :: rest) = validatePercentEncoding rest := by
  rw [validatePercentEncoding, if_pos rfl]
  simp only [hhigh, hlow, Bool.and_true, if_true]

/-- A byte that begins no escape is valid unless it is a percent sign. -/
theorem validatePercentEncoding_copy {byte : UInt8} {rest : Bytes} (h : ¬ EscapeAt byte rest) :
    validatePercentEncoding (byte :: rest) = .ok () ↔
      byte ≠ 0x25 ∧ validatePercentEncoding rest = .ok () := by
  rcases eq_or_ne byte 0x25 with hbyte | hbyte
  · refine iff_of_false ?_ fun hne ↦ hne.1 hbyte
    match rest with
    | [] => rw [hbyte]; simp [validatePercentEncoding]
    | [_] => rw [hbyte]; simp [validatePercentEncoding]
    | high :: low :: rest' =>
      rw [validatePercentEncoding, if_pos hbyte, if_neg]
      · simp
      · rw [Bool.and_eq_true]
        exact fun hdigits ↦ h ⟨hbyte, high, low, rest', rfl, hdigits.1, hdigits.2⟩
  · rw [validatePercentEncoding.eq_def]
    simp only
    rw [if_neg hbyte, and_iff_right hbyte]

/-- Plain bytes between two texts keep an escape from reaching across them, so each is checked
alone. -/
theorem validatePercentEncoding_append_iff {w : Bytes} (hw : ∀ byte ∈ w, IsPlain byte)
    (u v : Bytes) (hne : w ≠ []) :
    validatePercentEncoding (u ++ w ++ v) = .ok () ↔
      validatePercentEncoding u = .ok () ∧ validatePercentEncoding v = .ok () := by
  induction u using escape_induction with
  | nil =>
    rw [show validatePercentEncoding [] = .ok () from rfl, List.nil_append]
    simp only [true_and]
    clear hne
    induction w with
    | nil => rfl
    | cons byte w ih =>
      have hbyte := (hw byte List.mem_cons_self).1
      rw [List.cons_append, validatePercentEncoding_copy fun h ↦ hbyte h.1, and_iff_right hbyte]
      exact ih fun b hb ↦ hw b (List.mem_cons_of_mem _ hb)
  | escape high low rest hhigh hlow ih =>
    simp only [List.cons_append, validatePercentEncoding_escape hhigh hlow]
    exact ih
  | copy byte rest h ih =>
    obtain ⟨plain, w', rfl⟩ := List.exists_cons_of_ne_nil hne
    have hplain := (hw plain List.mem_cons_self).2
    rw [validatePercentEncoding_copy h, List.cons_append, List.cons_append,
      validatePercentEncoding_copy, ih, and_assoc]
    rwa [List.append_assoc, List.cons_append, escapeAt_append_iff hplain]

/-! ### Characters -/

/-- A character that has no part in an escape. -/
def IsPlainChar (c : Char) : Prop :=
  c.toNat ≠ 0x25 ∧ ¬ (0x30 ≤ c.toNat ∧ c.toNat ≤ 0x39) ∧ ¬ (0x41 ≤ c.toNat ∧ c.toNat ≤ 0x46) ∧
    ¬ (0x61 ≤ c.toNat ∧ c.toNat ≤ 0x66)

instance (c : Char) : Decidable (IsPlainChar c) :=
  inferInstanceAs (Decidable (_ ∧ ¬ (_ ∧ _) ∧ ¬ (_ ∧ _) ∧ ¬ (_ ∧ _)))

theorem IsPlainChar.isPlain {c : Char} (h : IsPlainChar c) {byte : UInt8}
    (hbyte : byte ∈ String.utf8EncodeChar c) : IsPlain byte := by
  obtain ⟨hpercent, hdigit, hupper, hlower⟩ := h
  unfold IsPlain hexValue
  simp only [Bool.and_eq_true, decide_eq_true_eq, UInt8.le_iff_toNat_le, UInt8.reduceToNat, ne_eq,
    ← UInt8.toNat_inj]
  rcases Utf8.toNat_of_mem_utf8EncodeChar hbyte with ⟨-, -, heq⟩ | ⟨-, hhigh⟩
  · rw [heq, if_neg hdigit, if_neg hupper, if_neg hlower]
    exact ⟨hpercent, rfl⟩
  · rw [if_neg (by omega), if_neg (by omega), if_neg (by omega)]
    exact ⟨by omega, rfl⟩

/-- **A decoding copies every character without a part in an escape** and treats the text before
it and the text after it on their own. -/
theorem decodeOnce_append_iff {c : Char} (hc : IsPlainChar c) {u v y : Str} :
    decodeOnce (u ++ c :: v) = some y ↔
      ∃ yu yv, decodeOnce u = some yu ∧ decodeOnce v = some yv ∧ y = yu ++ c :: yv := by
  have hw : ∀ byte ∈ String.utf8EncodeChar c, IsPlain byte := fun byte ↦ hc.isPlain
  have hne : String.utf8EncodeChar c ≠ [] := by simp
  have hbytes : Str.asBytes (u ++ c :: v) =
      u.asBytes ++ String.utf8EncodeChar c ++ v.asBytes := by
    rw [Str.asBytes, Utf8.encode_append, Utf8.encode_cons, List.append_assoc]
  have hok : ∀ {x : Except ConfigError Unit} {z : Option Str},
      (match x with | .ok () => z | .error _ => none) = some y ↔ x = .ok () ∧ z = some y := by
    intro x z
    cases x <;> simp
  have hvalid := validatePercentEncoding_append_iff hw u.asBytes v.asBytes hne
  constructor
  · intro h
    unfold decodeOnce at h
    rw [hbytes] at h
    rcases hx : validatePercentEncoding (u.asBytes ++ String.utf8EncodeChar c ++ v.asBytes) with
      e | ⟨⟩
    · rw [hx] at h
      exact absurd h (by simp)
    · rw [hx, percentDecode_append hw _ _ hne] at h
      obtain ⟨yu, yv, hyu, hyv, heq⟩ := Utf8.decode_append_char_iff.1 h
      obtain ⟨hu, hv⟩ := hvalid.1 hx
      refine ⟨yu, yv, ?_, ?_, heq⟩
      · rw [decodeOnce, hu]
        exact hyu
      · rw [decodeOnce, hv]
        exact hyv
  · rintro ⟨yu, yv, hyu, hyv, rfl⟩
    unfold decodeOnce at hyu hyv ⊢
    rw [hbytes]
    rcases hu : validatePercentEncoding u.asBytes with e | ⟨⟩
    · rw [hu] at hyu
      exact absurd hyu (by simp)
    rcases hv : validatePercentEncoding v.asBytes with e | ⟨⟩
    · rw [hv] at hyv
      exact absurd hyv (by simp)
    rw [hu] at hyu
    rw [hv] at hyv
    rw [hvalid.2 ⟨hu, hv⟩, percentDecode_append hw _ _ hne]
    exact Utf8.decode_append_char_iff.2 ⟨yu, yv, hyu, hyv, rfl⟩

/-! ### What never disappears -/

/-- What an accepted text must not contain. -/
def Unsafe (value : Str) : Prop :=
  containsForbiddenCharacter value = true ∨ str "//" <:+: value ∨ hasDotSegment value = true

/-- A forbidden character has no part in an escape. -/
theorem isPlainChar_of_isForbiddenCharacter {c : Char} (h : isForbiddenCharacter c = true) :
    IsPlainChar c := by
  simp only [isForbiddenCharacter, isControl, Bool.or_eq_true, Bool.and_eq_true, beq_iff_eq,
    decide_eq_true_eq] at h
  rcases h with ((((((rfl | rfl) | rfl) | rfl) | rfl) | rfl) | rfl) | h
  case inr => exact ⟨by omega, by omega, by omega, by omega⟩
  all_goals decide

theorem isPlainChar_slash : IsPlainChar '/' := by
  decide

theorem decodeOnce_nil : decodeOnce [] = some [] :=
  Utf8.decode_eq_some_iff.2 rfl

/-- A text without an escape is kept. -/
theorem decodeOnce_of_plain {x : Str} (h : ∀ c ∈ x, IsPlainChar c) : decodeOnce x = some x := by
  induction x with
  | nil => exact decodeOnce_nil
  | cons c x ih =>
    have hx := ih fun d hd ↦ h d (List.mem_cons_of_mem _ hd)
    have hsplit := decodeOnce_append_iff (u := []) (v := x) (y := c :: x) (h c List.mem_cons_self)
    exact hsplit.2 ⟨[], x, decodeOnce_nil, hx, rfl⟩

/-- A forbidden character stays. -/
theorem containsForbiddenCharacter_decodeOnce {x y : Str} (h : decodeOnce x = some y)
    (hx : containsForbiddenCharacter x = true) : containsForbiddenCharacter y = true := by
  obtain ⟨c, hc, hforbidden⟩ := List.any_eq_true.1 hx
  obtain ⟨u, v, rfl⟩ := List.append_of_mem hc
  obtain ⟨yu, yv, -, -, rfl⟩ :=
    (decodeOnce_append_iff (isPlainChar_of_isForbiddenCharacter hforbidden)).1 h
  exact List.any_eq_true.2 ⟨c, by simp, hforbidden⟩

/-- A double slash stays. -/
theorem infix_slashes_decodeOnce {x y : Str} (h : decodeOnce x = some y)
    (hx : str "//" <:+: x) : str "//" <:+: y := by
  obtain ⟨u, v, rfl⟩ := hx
  have hsplit : u ++ str "//" ++ v = u ++ '/' :: ([] ++ '/' :: v) := by simp [str]
  rw [hsplit] at h
  obtain ⟨yu, yv, -, hyv, rfl⟩ := (decodeOnce_append_iff isPlainChar_slash).1 h
  obtain ⟨ye, yv', hye, -, rfl⟩ := (decodeOnce_append_iff isPlainChar_slash).1 hyv
  obtain rfl : [] = ye := Option.some.inj (decodeOnce_nil ▸ hye)
  exact ⟨yu, yv', by simp [str]⟩

/-- The dot segments of two paths with a slash between them are those of either path. -/
theorem hasDotSegment_append_slash (u v : Str) :
    hasDotSegment (u ++ '/' :: v) = (hasDotSegment u || hasDotSegment v) := by
  simp only [hasDotSegment, split_append_cons, List.any_append]

/-- A dot segment stays. -/
theorem hasDotSegment_decodeOnce {x y : Str} (h : decodeOnce x = some y)
    (hx : hasDotSegment x = true) : hasDotSegment y = true := by
  induction hn : x.length using Nat.strongRecOn generalizing x y with
  | ind n ih =>
    subst hn
    by_cases hslash : '/' ∈ x
    · -- the segments before and after a slash are decoded on their own
      obtain ⟨u, v, rfl⟩ := List.append_of_mem hslash
      obtain ⟨yu, yv, hyu, hyv, rfl⟩ := (decodeOnce_append_iff isPlainChar_slash).1 h
      rw [hasDotSegment_append_slash, Bool.or_eq_true] at hx ⊢
      rw [List.length_append, List.length_cons] at ih
      exact hx.imp (fun hu ↦ ih _ (by omega) hyu hu rfl) (fun hv ↦ ih _ (by omega) hyv hv rfl)
    · rw [hasDotSegment, split_of_not_mem hslash, List.any_cons, List.any_nil, Bool.or_false,
        Bool.or_eq_true, beq_iff_eq, beq_iff_eq] at hx
      -- the only segment consists of dots, which are kept
      have hdot : IsPlainChar '.' := by decide
      have hone : KseRewriteProxy.decodeOnce (str ".") = some (str ".") :=
        decodeOnce_of_plain (List.forall_mem_cons.2 ⟨hdot, fun _ hd ↦ absurd hd List.not_mem_nil⟩)
      have htwo : KseRewriteProxy.decodeOnce (str "..") = some (str "..") :=
        decodeOnce_of_plain (List.forall_mem_cons.2 ⟨hdot, List.forall_mem_cons.2
          ⟨hdot, fun _ hd ↦ absurd hd List.not_mem_nil⟩⟩)
      rcases hx with rfl | rfl
      · obtain rfl := Option.some.inj (hone.symm.trans h)
        decide
      · obtain rfl := Option.some.inj (htwo.symm.trans h)
        decide

/-- **What is unsafe stays unsafe** in the next decoding. -/
theorem Unsafe.decodeOnce {x y : Str} (hx : Unsafe x) (h : KseRewriteProxy.decodeOnce x = some y) :
    Unsafe y := by
  rcases hx with hx | hx | hx
  · exact Or.inl (containsForbiddenCharacter_decodeOnce h hx)
  · exact Or.inr (Or.inl (infix_slashes_decodeOnce h hx))
  · exact Or.inr (Or.inr (hasDotSegment_decodeOnce h hx))

/-- A text with a slash behind it is unsafe if the text is. -/
theorem Unsafe.append_slashes {x t : Str} (hx : Unsafe x) (ht : ∀ c ∈ t, c = '/') :
    Unsafe (x ++ t) := by
  rcases hx with hx | hx | hx
  · obtain ⟨c, hc, hforbidden⟩ := List.any_eq_true.1 hx
    exact Or.inl (List.any_eq_true.2 ⟨c, List.mem_append_left _ hc, hforbidden⟩)
  · exact Or.inr (Or.inl (hx.trans (List.prefix_append _ _).isInfix))
  · cases t with
    | nil => exact Or.inr (Or.inr (by rwa [List.append_nil]))
    | cons c t =>
      obtain rfl := ht c List.mem_cons_self
      exact Or.inr (Or.inr (by rw [hasDotSegment_append_slash, hx, Bool.true_or]))

/-- Slashes at the end are kept. -/
theorem decodeTimes_append_slashes {t : Str} (ht : ∀ c ∈ t, c = '/') {k : ℕ} {x y : Str}
    (h : decodeTimes k (x ++ t) = some y) :
    ∃ d, decodeTimes k x = some d ∧ y = d ++ t := by
  have honce : ∀ {t : Str}, (∀ c ∈ t, c = '/') → ∀ {x y}, decodeOnce (x ++ t) = some y →
      ∃ d, decodeOnce x = some d ∧ y = d ++ t := by
    intro t ht
    induction t with
    | nil =>
      intro x y h
      rw [List.append_nil] at h
      exact ⟨y, h, (List.append_nil y).symm⟩
    | cons c t ih =>
      intro x y h
      obtain rfl := ht c List.mem_cons_self
      obtain ⟨yu, yv, hyu, hyv, rfl⟩ := (decodeOnce_append_iff isPlainChar_slash).1 h
      obtain ⟨d, hd, rfl⟩ := ih (fun c hc ↦ ht c (List.mem_cons_of_mem _ hc)) (x := []) hyv
      obtain rfl : [] = d := Option.some.inj (decodeOnce_nil ▸ hd)
      exact ⟨yu, hyu, rfl⟩
  induction k generalizing x y with
  | zero => exact ⟨x, rfl, (Option.some.inj h).symm⟩
  | succ k ih =>
    obtain ⟨z, hz, hy⟩ := Option.bind_eq_some_iff.1 h
    obtain ⟨d, hd, rfl⟩ := honce ht hz
    obtain ⟨d', hd', rfl⟩ := ih hy
    exact ⟨d', Option.bind_eq_some_iff.2 ⟨d, hd, hd'⟩, rfl⟩

/-! ### The loop -/

/-- How the loop of `decode_repeatedly` ends. -/
inductive DecodeExit where
  /-- A decoding that changes nothing. -/
  | fixedPoint (decoded : Str)
  | failed (error : ConfigError)
  /-- The range of the loop is used up. -/
  | exhausted (decoded : Str)
  deriving DecidableEq

/-- What the source returns. -/
def DecodeExit.result : DecodeExit → Except ConfigError Str
  | fixedPoint decoded => .ok decoded
  | failed error => .error error
  | exhausted decoded => .ok decoded

/-- The loop of `decode_repeatedly`, with the exit it takes. -/
def decodeLoopExit : ℕ → Str → DecodeExit
  | 0, decoded => .exhausted decoded
  | iterations + 1, decoded =>
    match validatePercentEncoding decoded.asBytes with
    | .error error => .failed error
    | .ok () =>
      match Utf8.decode (percentDecode decoded.asBytes) with
      | none => .failed (invalidBasePath "contains invalid percent encoding")
      | some next =>
        if next = decoded then .fixedPoint decoded else decodeLoopExit iterations next

/-- The result of the loop is what it returns where it exits. -/
theorem decodeLoop_eq (iterations : ℕ) (value : Str) :
    decodeLoop iterations value = (decodeLoopExit iterations value).result := by
  induction iterations generalizing value with
  | zero => rfl
  | succ iterations ih =>
    rw [decodeLoop, decodeLoopExit]
    rcases validatePercentEncoding value.asBytes with e | ⟨⟩
    · rfl
    · simp only [bind, Except.bind]
      rcases Utf8.decode (percentDecode value.asBytes) with - | next
      · rfl
      · simp only
        split
        · rfl
        · exact ih next

/-- **The loop up to a fixed point** runs through all decodings. -/
theorem decodeTimes_of_fixedPoint {iterations : ℕ} {value decoded : Str}
    (h : decodeLoopExit iterations value = .fixedPoint decoded) :
    decodeOnce decoded = some decoded ∧
      ∀ k, ∃ d, decodeTimes k value = some d ∧ (Unsafe d → Unsafe decoded) := by
  induction iterations generalizing value with
  | zero => exact absurd h (by simp [decodeLoopExit])
  | succ iterations ih =>
    rw [decodeLoopExit] at h
    rcases hv : validatePercentEncoding value.asBytes with e | ⟨⟩
    · rw [hv] at h
      exact absurd h (by simp)
    rcases hd : Utf8.decode (percentDecode value.asBytes) with - | next
    · rw [hv, hd] at h
      exact absurd h (by simp)
    have honce : decodeOnce value = some next := by
      rw [decodeOnce, hv]
      exact hd
    rw [hv, hd] at h
    simp only at h
    split at h
    · -- no further decoding changes the text
      rename_i heq
      subst heq
      obtain rfl := DecodeExit.fixedPoint.inj h
      refine ⟨honce, fun k ↦ ⟨next, ?_, id⟩⟩
      induction k with
      | zero => rfl
      | succ k ihk => rw [decodeTimes, honce, Option.bind_some, ihk]
    · obtain ⟨hfixed, htimes⟩ := ih h
      refine ⟨hfixed, fun k ↦ ?_⟩
      cases k with
      | zero =>
        obtain ⟨d, hd', hrejected⟩ := htimes 0
        obtain rfl := Option.some.inj hd'
        exact ⟨value, rfl, fun hvalue ↦ hrejected (hvalue.decodeOnce honce)⟩
      | succ k =>
        obtain ⟨d, hd', hrejected⟩ := htimes k
        exact ⟨d, by rw [decodeTimes, honce, Option.bind_some, hd'], hrejected⟩

/-! ### The number of iterations -/

/-- The number of ASCII bytes. -/
def asciiCount (text : Bytes) : ℕ :=
  text.countP (· < 0x80)

theorem asciiCount_cons (byte : UInt8) (text : Bytes) :
    asciiCount (byte :: text) = asciiCount text + if byte < 0x80 then 1 else 0 := by
  simp [asciiCount, List.countP_cons]

/-- A hexadecimal digit is an ASCII byte. -/
theorem lt_of_hexValue {byte : UInt8} (h : (hexValue byte).isSome) : byte < 0x80 := by
  rw [UInt8.lt_iff_toNat_lt]
  unfold hexValue at h
  simp only [Bool.and_eq_true, decide_eq_true_eq, UInt8.le_iff_toNat_le, UInt8.reduceToNat] at h ⊢
  split at h
  · omega
  split at h
  · omega
  split at h
  · omega
  · exact absurd h (by simp)

/-- **A decoding that changes something removes ASCII bytes.** -/
theorem percentDecode_eq_or_asciiCount_lt (text : Bytes) :
    percentDecode text = text ∨ asciiCount (percentDecode text) + 2 ≤ asciiCount text := by
  induction text using escape_induction with
  | nil => exact Or.inl rfl
  | escape high low rest hhigh hlow ih =>
    obtain ⟨value, hvalue⟩ := percentDecode_escape hhigh hlow
    rw [hvalue]
    refine Or.inr ?_
    have hpercent : (0x25 : UInt8) < 0x80 := by decide
    rw [asciiCount_cons, asciiCount_cons 0x25, asciiCount_cons high, asciiCount_cons low,
      if_pos (lt_of_hexValue hhigh), if_pos (lt_of_hexValue hlow), if_pos hpercent]
    have hrest : asciiCount (percentDecode rest) ≤ asciiCount rest := by
      rcases ih with heq | hlt
      · rw [heq]
      · omega
    split
    · omega
    · omega
  | copy byte rest h ih =>
    rw [percentDecode_copy h, asciiCount_cons, asciiCount_cons]
    rcases ih with heq | hlt
    · exact Or.inl (by rw [heq])
    · exact Or.inr (by omega)

/-- A text has no more ASCII bytes than characters. -/
theorem asciiCount_asBytes_le (value : Str) :
    asciiCount (Str.asBytes value) ≤ value.length := by
  induction value with
  | nil => exact Nat.le_refl 0
  | cons c value ih =>
    have hchar : asciiCount (String.utf8EncodeChar c) ≤ 1 := by
      rcases hbytes : String.utf8EncodeChar c with - | ⟨byte, rest⟩
      · exact Nat.zero_le 1
      rcases Utf8.toNat_of_mem_utf8EncodeChar (hbytes ▸ List.mem_cons_self) with
        ⟨-, hone, -⟩ | ⟨hc, -⟩
      · rw [hbytes] at hone
        rw [hone]
        exact List.countP_le_length
      · -- no byte of a longer character is an ASCII byte
        rw [asciiCount, List.countP_eq_zero.2]
        · exact Nat.zero_le 1
        intro byte' hbyte'
        rw [decide_eq_true_eq, UInt8.lt_iff_toNat_lt]
        rcases Utf8.toNat_of_mem_utf8EncodeChar (hbytes ▸ hbyte') with ⟨hc', -, -⟩ | ⟨-, hhigh⟩
        · omega
        · exact Nat.not_lt.2 hhigh
    have hcount : asciiCount (Str.asBytes (c :: value)) =
        asciiCount (String.utf8EncodeChar c) + asciiCount (Str.asBytes value) := List.countP_append
    rw [hcount, List.length_cons]
    omega

/-- **The loop does not use up its range** on a text with less ASCII characters than two for each
iteration. -/
theorem decodeLoopExit_ne_exhausted {iterations : ℕ} {value : Str}
    (h : asciiCount value.asBytes < 2 * iterations) (decoded : Str) :
    decodeLoopExit iterations value ≠ .exhausted decoded := by
  induction iterations generalizing value with
  | zero => omega
  | succ iterations ih =>
    rw [decodeLoopExit]
    split
    · simp
    split
    · simp
    rename_i next hnext
    split
    · simp
    · rename_i hne
      refine ih ?_
      rcases percentDecode_eq_or_asciiCount_lt value.asBytes with heq | hlt
      · rw [heq] at hnext
        exact absurd (Utf8.encode_injective (Utf8.decode_eq_some_iff.1 hnext)) hne
      · have hbytes : Str.asBytes next = percentDecode value.asBytes :=
          Utf8.decode_eq_some_iff.1 hnext
        rw [hbytes]
        omega

/-! ### Accepted base paths -/

/-- The characters that have no place in a base path: those that end a path or a literal, the line
separators, and the control characters. -/
def Forbidden (c : Char) : Prop :=
  c ∈ ['?', '#', '\'', '"', '\\', '\u2028', '\u2029'] ∨ c.toNat ≤ 0x1F ∨
    0x7F ≤ c.toNat ∧ c.toNat ≤ 0x9F

/-- The check of the code is for the forbidden characters. -/
theorem isForbiddenCharacter_eq_true_iff {c : Char} :
    isForbiddenCharacter c = true ↔ Forbidden c := by
  simp only [isForbiddenCharacter, isControl, Forbidden, Bool.or_eq_true, Bool.and_eq_true,
    beq_iff_eq, decide_eq_true_eq, List.mem_cons, List.not_mem_nil, or_false, or_assoc]

/-- Between two slashes, or between a slash and an end, there are one or two dots and nothing
else. -/
def HasDots (value : Str) : Prop :=
  ∃ u dots v, value = u ++ dots ++ v ∧ (dots = str "." ∨ dots = str "..") ∧
    (u = [] ∨ str "/" <:+ u) ∧ (v = [] ∨ str "/" <+: v)

/-- The check of the code is for a segment of one or two dots. -/
theorem hasDotSegment_eq_true_iff {value : Str} : hasDotSegment value = true ↔ HasDots value := by
  simp only [hasDotSegment, List.any_eq_true, Bool.or_eq_true, beq_iff_eq, mem_split_iff]
  constructor
  · rintro ⟨dots, ⟨-, u, v, hvalue, hu, hv⟩, hdots⟩
    exact ⟨u, dots, v, hvalue, hdots, hu, hv⟩
  · rintro ⟨u, dots, v, hvalue, hdots, hu, hv⟩
    have hslash : '/' ∉ dots := by
      rcases hdots with rfl | rfl <;> decide
    exact ⟨dots, ⟨hslash, u, v, hvalue, hu, hv⟩, hdots⟩

/-- **An accepted base path stays safe under any number of decodings**, and the loop that decides
about it ends at a fixed point or with an error: `decode_repeatedly` is called on inputs of at most
`maxBasePathLength` characters. -/
theorem safe_under_decoding (url : UrlCrate) :
    (∀ input basePath, normalizeBasePath url input = .ok basePath → basePath ≠ [] →
      ∀ k, ∃ decoded, decodeTimes k basePath = some decoded ∧
        (∀ c ∈ decoded, ¬ Forbidden c) ∧ ¬ str "//" <:+: decoded ∧ ¬ HasDots decoded) ∧
    ∀ input : Str, input.length ≤ maxBasePathLength →
      (∃ decoded, decodeLoopExit maxBasePathLength input = .fixedPoint decoded ∧
        decodeOnce decoded = some decoded) ∨
      ∃ error, decodeLoopExit maxBasePathLength input = .failed error := by
  have hloop : ∀ input : Str, input.length ≤ maxBasePathLength → ∀ decoded,
      decodeLoopExit maxBasePathLength input ≠ .exhausted decoded := by
    intro input hlen
    refine decodeLoopExit_ne_exhausted ?_
    have := asciiCount_asBytes_le input
    unfold maxBasePathLength at hlen ⊢
    omega
  constructor
  · intro input basePath h hne k
    obtain ⟨haccepted, rfl⟩ := accepted_of_normalizeBasePath h hne
    obtain ⟨fixed, hfixed, hforbidden, hslashes, hdots⟩ := haccepted.decoded
    have hsafe : ¬ Unsafe fixed := by
      rintro (hx | hx | hx)
      · exact absurd hx (by rw [hforbidden]; simp)
      · exact hslashes hx
      · exact absurd hx (by rw [hdots]; simp)
    -- the base path is decoded like the input, which has a slash more at most
    obtain ⟨t, ht, hall⟩ := exists_trimEndMatches_append (· == '/') input
    have hslash : ∀ c ∈ t, c = '/' := fun c hc ↦ by simpa using hall c hc
    rw [decodeRepeatedly, decodeLoop_eq] at hfixed
    rcases hexit : decodeLoopExit maxBasePathLength input with decoded | error | decoded
    · rw [hexit] at hfixed
      obtain rfl := Except.ok.inj hfixed
      obtain ⟨y, hy, hrejected⟩ := (decodeTimes_of_fixedPoint hexit).2 k
      rw [ht] at hy
      obtain ⟨d, hd, rfl⟩ := decodeTimes_append_slashes hslash hy
      have hd' : ¬ Unsafe d := fun hx ↦ hsafe (hrejected (hx.append_slashes hslash))
      refine ⟨d, hd, fun c hc ↦ ?_, fun hx ↦ hd' (Or.inr (Or.inl hx)), ?_⟩
      · exact fun hx ↦ hd' (Or.inl (List.any_eq_true.2
          ⟨c, hc, isForbiddenCharacter_eq_true_iff.2 hx⟩))
      · exact fun hx ↦ hd' (Or.inr (Or.inr (hasDotSegment_eq_true_iff.2 hx)))
    · rw [hexit] at hfixed
      exact absurd hfixed (by simp [DecodeExit.result])
    · exact absurd hexit (hloop input haccepted.length_le decoded)
  · intro input hlen
    rcases hexit : decodeLoopExit maxBasePathLength input with decoded | error | decoded
    · exact Or.inl ⟨decoded, rfl, (decodeTimes_of_fixedPoint hexit).1⟩
    · exact Or.inr ⟨error, rfl⟩
    · exact absurd hexit (hloop input hlen decoded)

/-- The theorem for an accepted path with a slash at its end. -/
theorem safe_under_decoding_regions :
    (∃ decoded, decodeTimes 3 (str "/regions/r1") = some decoded ∧
      (∀ c ∈ decoded, ¬ Forbidden c) ∧ ¬ str "//" <:+: decoded ∧ ¬ HasDots decoded) ∧
    ((∃ decoded, decodeLoopExit maxBasePathLength (str "/regions/r1/") = .fixedPoint decoded ∧
      decodeOnce decoded = some decoded) ∨
      ∃ error, decodeLoopExit maxBasePathLength (str "/regions/r1/") = .failed error) :=
  ⟨(safe_under_decoding .unreserved).1 _ _ normalizeBasePath_unreserved (by decide) 3,
    (safe_under_decoding .unreserved).2 _ (by decide)⟩

end KseRewriteProxy
