import Mathlib.Data.List.Basic
import Mathlib.Tactic.SplitIfs

/-!
# UTF-8 one byte at a time

Well-formed UTF-8 is defined by the encoder: a byte sequence is `Valid` when it is the encoding of
a list of characters. `run` is the byte automaton that recognizes it: the state says how many
bytes the current character still lacks and in which range its next byte must lie.

* `valid_iff_run`: the automaton ends between two characters exactly on valid sequences;
* `run_ne_reject_iff`: it has not rejected exactly when the bytes so far start some valid sequence;
* `Valid.append_cancel_middle`: in a valid sequence, what stands around a valid non-empty part is
  valid, because a character never starts inside another one.

The first byte of a character bounds the second (`first_three`, `first_four`): this excludes the
overlong forms, the surrogates and what is above the last code point, so that every sequence the
automaton accepts is the encoding of exactly one character. From a state that has not rejected, the
missing bytes can always be supplied (`State.Proper`), which is what the second statement rests on.

`fromUtf8` is the checked conversion with its error report, built on the same automaton.
-/

namespace Text.Utf8

/-- The UTF-8 encoding of a list of characters. -/
def encode (cs : List Char) : List UInt8 :=
  cs.flatMap String.utf8EncodeChar

/-- A byte sequence is valid UTF-8 when it encodes some characters. -/
def Valid (bs : List UInt8) : Prop :=
  ∃ cs, encode cs = bs

@[simp] theorem encode_nil : encode [] = [] :=
  rfl

@[simp] theorem encode_append (cs ds : List Char) : encode (cs ++ ds) = encode cs ++ encode ds :=
  List.flatMap_append

theorem encode_cons (c : Char) (cs : List Char) :
    encode (c :: cs) = String.utf8EncodeChar c ++ encode cs :=
  rfl

theorem valid_encode (cs : List Char) : Valid (encode cs) :=
  ⟨cs, rfl⟩

/-- Two valid texts make a valid one. -/
theorem Valid.append {bs ds : List UInt8} (hb : Valid bs) (hd : Valid ds) : Valid (bs ++ ds) := by
  obtain ⟨cs, rfl⟩ := hb
  obtain ⟨es, rfl⟩ := hd
  exact ⟨cs ++ es, encode_append cs es⟩

/-- The characters that a byte sequence encodes. -/
def decode (bs : List UInt8) : Option (List Char) :=
  bs.toByteArray.utf8Decode?.map Array.toList

/-- **Decoding inverts encoding.** -/
theorem decode_eq_some_iff {bs : List UInt8} {cs : List Char} :
    decode bs = some cs ↔ encode cs = bs := by
  constructor
  · intro h
    obtain ⟨chars, hchars, rfl⟩ := Option.map_eq_some_iff.1 h
    have hget := ByteArray.utf8Encode_get_utf8Decode? (h := Option.isSome_of_eq_some hchars)
    rw [Option.get_of_eq_some _ hchars] at hget
    have hdata := congrArg (fun bytes ↦ bytes.data.toList) hget
    rwa [List.toList_data_toByteArray, List.utf8Encode, List.toList_data_toByteArray] at hdata
  · rintro rfl
    show (List.utf8Encode cs).utf8Decode?.map Array.toList = some cs
    rw [List.utf8Decode?_utf8Encode]
    rfl

/-- **An encoding is injective.** -/
theorem encode_injective : Function.Injective encode := by
  intro cs ds h
  have hcs := decode_eq_some_iff.2 (rfl : encode cs = encode cs)
  rw [decode_eq_some_iff.2 h.symm] at hcs
  exact (Option.some.inj hcs).symm

/-- The bytes of a character: its own code for an ASCII character, and otherwise only bytes above
the ASCII range. -/
theorem toNat_of_mem_utf8EncodeChar {c : Char} {b : UInt8} (h : b ∈ String.utf8EncodeChar c) :
    (c.toNat < 0x80 ∧ String.utf8EncodeChar c = [b] ∧ b.toNat = c.toNat) ∨
      (0x80 ≤ c.toNat ∧ 0x80 ≤ b.toNat) := by
  have hc : c.val.toNat = c.toNat := rfl
  have hbyte : ∀ v : ℕ, (UInt8.ofNat v).toNat = v % 256 := fun v ↦ UInt8.toNat_ofNat'
  rw [String.utf8EncodeChar] at h ⊢
  split_ifs at h with h₁ h₂ h₃
  · obtain rfl := List.mem_singleton.1 h
    refine Or.inl ⟨by omega, if_pos h₁, ?_⟩
    rw [hbyte, hc]
    omega
  all_goals
    refine Or.inr ⟨by omega, ?_⟩
    simp only [List.mem_cons, List.not_mem_nil, or_false] at h
  · rcases h with rfl | rfl
    all_goals
      rw [hbyte]
      omega
  · rcases h with rfl | rfl | rfl
    all_goals
      rw [hbyte]
      omega
  · rcases h with rfl | rfl | rfl | rfl
    all_goals
      rw [hbyte]
      omega

/-- **An ASCII byte stands for its character**: in the encoding of other characters it does not
occur. -/
theorem mem_of_mem_encode {c : Char} (hc : c.toNat < 0x80) {cs : List Char}
    (h : UInt8.ofNat c.toNat ∈ encode cs) : c ∈ cs := by
  obtain ⟨d, hd, hmem⟩ := List.mem_flatMap.1 h
  have hbyte : (UInt8.ofNat c.toNat).toNat = c.toNat := by
    rw [UInt8.toNat_ofNat', Nat.mod_eq_of_lt (by omega)]
  rcases toNat_of_mem_utf8EncodeChar hmem with ⟨-, -, heq⟩ | ⟨-, hhigh⟩
  · have hcd : d.toNat = c.toNat := by omega
    rwa [← Char.ext (UInt32.toNat_inj.1 hcd)]
  · omega

/-! ### The automaton -/

/-- Where a scan stands between two bytes. -/
inductive State where
  /-- Between two characters. -/
  | start
  /-- Inside a character: how many bytes it lacks, and the range of the next one. -/
  | within (missing : ℕ) (lower upper : UInt8)
  /-- After a byte that no valid sequence has there. -/
  | reject
  deriving DecidableEq, Repr

/-- The number of bytes that the current character still lacks. -/
def State.missing : State → ℕ
  | within n _ _ => n
  | _ => 0

/-- The state after the first byte of a character. -/
def first (b : UInt8) : State :=
  if b < 0x80 then .start
  else if b < 0xC2 then .reject
  else if b ≤ 0xDF then .within 1 0x80 0xBF
  else if b ≤ 0xEF then
    .within 2 (if b = 0xE0 then 0xA0 else 0x80) (if b = 0xED then 0x9F else 0xBF)
  else if b ≤ 0xF4 then
    .within 3 (if b = 0xF0 then 0x90 else 0x80) (if b = 0xF4 then 0x8F else 0xBF)
  else .reject

/-- The state after one more byte. -/
def step : State → UInt8 → State
  | .start, b => first b
  | .within n lower upper, b =>
    if lower ≤ b ∧ b ≤ upper then
      if n ≤ 1 then .start else .within (n - 1) 0x80 0xBF
    else .reject
  | .reject, _ => .reject

/-- The state after some more bytes. -/
def run (q : State) (bs : List UInt8) : State :=
  bs.foldl step q

@[simp] theorem run_nil (q : State) : run q [] = q :=
  rfl

@[simp] theorem run_cons (q : State) (b : UInt8) (bs : List UInt8) :
    run q (b :: bs) = run (step q b) bs :=
  rfl

theorem run_append (q : State) (bs ds : List UInt8) : run q (bs ++ ds) = run (run q bs) ds :=
  List.foldl_append

@[simp] theorem run_reject (bs : List UInt8) : run .reject bs = .reject := by
  induction bs with
  | nil => rfl
  | cons b bs ih => exact ih

/-- What is not rejected has no rejected beginning. -/
theorem run_ne_reject_of_append {q : State} {bs ds : List UInt8}
    (h : run q (bs ++ ds) ≠ .reject) : run q bs ≠ .reject := by
  intro hr
  rw [run_append, hr, run_reject] at h
  exact h rfl

/-- A character that is not finished takes one byte from its range. -/
theorem run_within_eq_start {n : ℕ} {lower upper : UInt8} {bs : List UInt8}
    (h : run (.within n lower upper) bs = .start) :
    ∃ b ds, bs = b :: ds ∧ lower ≤ b ∧ b ≤ upper ∧
      run (if n ≤ 1 then .start else .within (n - 1) 0x80 0xBF) ds = .start := by
  cases bs with
  | nil => simp at h
  | cons b ds =>
    rw [run_cons, step] at h
    split at h
    · rename_i hb
      exact ⟨b, ds, rfl, hb.1, hb.2, h⟩
    · rw [run_reject] at h
      exact absurd h (by simp)

/-! ### The four lengths of a character

Bytes are compared as numbers from here on, so that the arithmetic of the encoder applies. -/

/-- A continuation byte. -/
def Continuation (b : UInt8) : Prop :=
  0x80 ≤ b.toNat ∧ b.toNat ≤ 0xBF

theorem first_one {a : UInt8} (h : a.toNat < 0x80) : first a = .start := by
  rw [first, if_pos (UInt8.lt_iff_toNat_lt.2 h)]

theorem first_two {a : UInt8} (h : 0xC2 ≤ a.toNat) (h' : a.toNat ≤ 0xDF) :
    first a = .within 1 0x80 0xBF := by
  simp only [first, UInt8.lt_iff_toNat_lt, UInt8.le_iff_toNat_le, UInt8.reduceToNat]
  rw [if_neg (by omega), if_neg (by omega), if_pos h']

/-- The first byte of three bounds the second: no overlong form, no surrogate. -/
theorem first_three {a : UInt8} (h : 0xE0 ≤ a.toNat) (h' : a.toNat ≤ 0xEF) :
    first a =
      .within 2 (if a = 0xE0 then 0xA0 else 0x80) (if a = 0xED then 0x9F else 0xBF) := by
  simp only [first, UInt8.lt_iff_toNat_lt, UInt8.le_iff_toNat_le, UInt8.reduceToNat]
  rw [if_neg (by omega), if_neg (by omega), if_neg (by omega), if_pos h']

/-- The first byte of four bounds the second: no overlong form, nothing above the last code point.
-/
theorem first_four {a : UInt8} (h : 0xF0 ≤ a.toNat) (h' : a.toNat ≤ 0xF4) :
    first a =
      .within 3 (if a = 0xF0 then 0x90 else 0x80) (if a = 0xF4 then 0x8F else 0xBF) := by
  simp only [first, UInt8.lt_iff_toNat_lt, UInt8.le_iff_toNat_le, UInt8.reduceToNat]
  rw [if_neg (by omega), if_neg (by omega), if_neg (by omega), if_neg (by omega), if_pos h']

/-- Every first byte belongs to one of the four lengths or is rejected. -/
theorem first_cases (a : UInt8) :
    a.toNat < 0x80 ∨ (0xC2 ≤ a.toNat ∧ a.toNat ≤ 0xDF) ∨ (0xE0 ≤ a.toNat ∧ a.toNat ≤ 0xEF) ∨
      (0xF0 ≤ a.toNat ∧ a.toNat ≤ 0xF4) ∨ first a = .reject := by
  simp only [first, UInt8.lt_iff_toNat_lt, UInt8.le_iff_toNat_le, UInt8.reduceToNat]
  by_cases h₁ : a.toNat < 0x80
  · exact Or.inl h₁
  by_cases h₂ : a.toNat < 0xC2
  · simp [h₁, h₂]
  by_cases h₃ : a.toNat ≤ 0xDF
  · exact Or.inr (Or.inl ⟨by omega, h₃⟩)
  by_cases h₄ : a.toNat ≤ 0xEF
  · exact Or.inr (Or.inr (Or.inl ⟨by omega, h₄⟩))
  by_cases h₅ : a.toNat ≤ 0xF4
  · exact Or.inr (Or.inr (Or.inr (Or.inl ⟨by omega, h₅⟩)))
  · simp [h₁, h₂, h₃, h₄, h₅]

/-- A byte within the bounds goes on with the sequence. -/
theorem step_within {n : ℕ} {lower upper b : UInt8} (h : lower.toNat ≤ b.toNat)
    (h' : b.toNat ≤ upper.toNat) :
    step (.within n lower upper) b = if n ≤ 1 then .start else .within (n - 1) 0x80 0xBF := by
  rw [step, if_pos ⟨UInt8.le_iff_toNat_le.2 h, UInt8.le_iff_toNat_le.2 h'⟩]

theorem step_continuation {n : ℕ} {b : UInt8} (h : Continuation b) :
    step (.within n 0x80 0xBF) b = if n ≤ 1 then .start else .within (n - 1) 0x80 0xBF :=
  step_within h.1 h.2

/-! ### Encoded characters are accepted -/

/-- The automaton reads one encoded character from boundary to boundary. -/
theorem run_utf8EncodeChar (c : Char) : run .start (String.utf8EncodeChar c) = .start := by
  have hc : c.val.toNat < 0xD800 ∨ 0xDFFF < c.val.toNat ∧ c.val.toNat < 0x110000 := c.valid
  have hcont : ∀ v : ℕ, Continuation (UInt8.ofNat (v % 64 + 128)) := by
    intro v
    simp only [Continuation, UInt8.toNat_ofNat', Nat.reducePow]
    omega
  unfold String.utf8EncodeChar
  simp only
  generalize c.val.toNat = v at hc
  split_ifs with h₁ h₂ h₃
  · rw [run_cons, step, first_one, run_nil]
    simp only [UInt8.toNat_ofNat', Nat.reducePow]
    omega
  · rw [run_cons, step, first_two, run_cons, step_continuation (hcont _),
      if_pos (Nat.le_refl _), run_nil]
    all_goals
      simp only [UInt8.toNat_ofNat', Nat.reducePow]
      omega
  · have ha : (UInt8.ofNat (v / 4096 % 16 + 224)).toNat = v / 4096 + 224 := by
      simp only [UInt8.toNat_ofNat', Nat.reducePow]
      omega
    have hb : (UInt8.ofNat (v / 64 % 64 + 128)).toNat = v / 64 % 64 + 128 := by
      simp only [UInt8.toNat_ofNat', Nat.reducePow]
      omega
    rw [run_cons, step, first_three (by omega) (by omega), run_cons, step_within, if_neg (by simp),
      run_cons, step_continuation (hcont _), if_pos (Nat.le_refl _), run_nil]
    · rw [hb]
      split_ifs with h
      · rw [← UInt8.toNat_inj, ha] at h
        simp only [UInt8.reduceToNat] at h ⊢
        omega
      · simp only [UInt8.reduceToNat]
        omega
    · rw [hb]
      split_ifs with h
      · rw [← UInt8.toNat_inj, ha] at h
        simp only [UInt8.reduceToNat] at h ⊢
        omega
      · simp only [UInt8.reduceToNat]
        omega
  · have ha : (UInt8.ofNat (v / 262144 % 8 + 240)).toNat = v / 262144 + 240 := by
      simp only [UInt8.toNat_ofNat', Nat.reducePow]
      omega
    have hb : (UInt8.ofNat (v / 4096 % 64 + 128)).toNat = v / 4096 % 64 + 128 := by
      simp only [UInt8.toNat_ofNat', Nat.reducePow]
      omega
    rw [run_cons, step, first_four (by omega) (by omega), run_cons, step_within, if_neg (by simp),
      run_cons, step_continuation (hcont _), if_neg (by simp), run_cons,
      step_continuation (hcont _), if_pos (Nat.le_refl _), run_nil]
    · rw [hb]
      split_ifs with h
      · rw [← UInt8.toNat_inj, ha] at h
        simp only [UInt8.reduceToNat] at h ⊢
        omega
      · simp only [UInt8.reduceToNat]
        omega
    · rw [hb]
      split_ifs with h
      · rw [← UInt8.toNat_inj, ha] at h
        simp only [UInt8.reduceToNat] at h ⊢
        omega
      · simp only [UInt8.reduceToNat]
        omega

/-- **The automaton accepts every encoding.** -/
theorem run_encode (cs : List Char) : run .start (encode cs) = .start := by
  induction cs with
  | nil => rfl
  | cons c cs ih => rw [encode_cons, run_append, run_utf8EncodeChar, ih]

/-! ### Accepted sequences are encodings

Each of the four lengths is inverted by naming the character whose code point the bytes spell. -/

/-- The encoder on a code point given as a number. -/
private theorem exists_char {v : ℕ} (hv : v < 0xD800 ∨ 0xDFFF < v ∧ v < 0x110000) :
    ∃ c : Char, c.val.toNat = v := by
  refine ⟨⟨UInt32.ofNat v, ?_⟩, ?_⟩
  · rw [UInt32.isValidChar, Nat.isValidChar, UInt32.toNat_ofNat', Nat.mod_eq_of_lt (by omega)]
    exact hv
  · rw [UInt32.toNat_ofNat', Nat.mod_eq_of_lt (by omega)]

private theorem ofNat_eq {a : UInt8} {n : ℕ} (h : n = a.toNat) : UInt8.ofNat n = a := by
  rw [h, UInt8.ofNat_toNat]

theorem exists_char_one {a : UInt8} (ha : a.toNat < 0x80) :
    ∃ c, String.utf8EncodeChar c = [a] := by
  obtain ⟨c, hc⟩ := exists_char (v := a.toNat) (by omega)
  refine ⟨c, ?_⟩
  unfold String.utf8EncodeChar
  simp only [hc]
  rw [if_pos (by omega), ofNat_eq rfl]

theorem exists_char_two {a b : UInt8} (ha : 0xC2 ≤ a.toNat) (ha' : a.toNat ≤ 0xDF)
    (hb : Continuation b) : ∃ c, String.utf8EncodeChar c = [a, b] := by
  obtain ⟨hb, hb'⟩ := hb
  obtain ⟨c, hc⟩ := exists_char (v := (a.toNat - 192) * 64 + (b.toNat - 128)) (by omega)
  refine ⟨c, ?_⟩
  unfold String.utf8EncodeChar
  simp only [hc]
  rw [if_neg (by omega), if_pos (by omega), ofNat_eq (a := a) (by omega),
    ofNat_eq (a := b) (by omega)]

theorem exists_char_three {a b c : UInt8} (ha : 0xE0 ≤ a.toNat) (ha' : a.toNat ≤ 0xEF)
    (hlow : a.toNat = 0xE0 → 0xA0 ≤ b.toNat) (hhigh : a.toNat = 0xED → b.toNat ≤ 0x9F)
    (hb : Continuation b) (hc : Continuation c) :
    ∃ ch, String.utf8EncodeChar ch = [a, b, c] := by
  obtain ⟨hb, hb'⟩ := hb
  obtain ⟨hc, hc'⟩ := hc
  obtain ⟨ch, hch⟩ := exists_char
    (v := (a.toNat - 224) * 4096 + (b.toNat - 128) * 64 + (c.toNat - 128)) (by omega)
  refine ⟨ch, ?_⟩
  unfold String.utf8EncodeChar
  simp only [hch]
  rw [if_neg (by omega), if_neg (by omega), if_pos (by omega), ofNat_eq (a := a) (by omega),
    ofNat_eq (a := b) (by omega), ofNat_eq (a := c) (by omega)]

theorem exists_char_four {a b c d : UInt8} (ha : 0xF0 ≤ a.toNat) (ha' : a.toNat ≤ 0xF4)
    (hlow : a.toNat = 0xF0 → 0x90 ≤ b.toNat) (hhigh : a.toNat = 0xF4 → b.toNat ≤ 0x8F)
    (hb : Continuation b) (hc : Continuation c) (hd : Continuation d) :
    ∃ ch, String.utf8EncodeChar ch = [a, b, c, d] := by
  obtain ⟨hb, hb'⟩ := hb
  obtain ⟨hc, hc'⟩ := hc
  obtain ⟨hd, hd'⟩ := hd
  obtain ⟨ch, hch⟩ := exists_char
    (v := (a.toNat - 240) * 262144 + (b.toNat - 128) * 4096 + (c.toNat - 128) * 64 +
      (d.toNat - 128)) (by omega)
  refine ⟨ch, ?_⟩
  unfold String.utf8EncodeChar
  simp only [hch]
  rw [if_neg (by omega), if_neg (by omega), if_neg (by omega), ofNat_eq (a := a) (by omega),
    ofNat_eq (a := b) (by omega), ofNat_eq (a := c) (by omega), ofNat_eq (a := d) (by omega)]

/-- A text that starts with one encoded character and goes on validly is valid. -/
private theorem Valid.of_char (bs : List UInt8) {ds : List UInt8}
    (hc : ∃ c, String.utf8EncodeChar c = bs)
    (hd : Valid ds) : Valid (bs ++ ds) := by
  obtain ⟨c, rfl⟩ := hc
  obtain ⟨cs, rfl⟩ := hd
  exact ⟨c :: cs, rfl⟩

/-- The lower bound of the second byte, as a number. -/
private theorem lower_toNat {a b k : UInt8} {m : ℕ} (hm : 0x80 ≤ m) (hm' : m < 256)
    (h : (if a = k then UInt8.ofNat m else 0x80) ≤ b) :
    0x80 ≤ b.toNat ∧ (a.toNat = k.toNat → m ≤ b.toNat) := by
  rw [UInt8.le_iff_toNat_le] at h
  split_ifs at h with hk
  · rw [UInt8.toNat_ofNat', Nat.mod_eq_of_lt hm'] at h
    exact ⟨by omega, fun _ ↦ h⟩
  · simp only [UInt8.reduceToNat] at h
    exact ⟨h, fun hk' ↦ absurd (UInt8.toNat_inj.1 hk') hk⟩

/-- The upper bound of the second byte, as a number. -/
private theorem upper_toNat {a b k : UInt8} {m : ℕ} (hm : m ≤ 0xBF)
    (h : b ≤ (if a = k then UInt8.ofNat m else 0xBF)) :
    b.toNat ≤ 0xBF ∧ (a.toNat = k.toNat → b.toNat ≤ m) := by
  rw [UInt8.le_iff_toNat_le] at h
  split_ifs at h with hk
  · rw [UInt8.toNat_ofNat', Nat.mod_eq_of_lt (by omega)] at h
    exact ⟨by omega, fun _ ↦ h⟩
  · simp only [UInt8.reduceToNat] at h
    exact ⟨h, fun hk' ↦ absurd (UInt8.toNat_inj.1 hk') hk⟩

private theorem continuation_of_le {b : UInt8} (h : 0x80 ≤ b) (h' : b ≤ 0xBF) : Continuation b :=
  ⟨UInt8.le_iff_toNat_le.1 h, UInt8.le_iff_toNat_le.1 h'⟩

/-- **What the automaton accepts is valid.** The induction is on the length, one character at a
time. -/
theorem valid_of_run {bs : List UInt8} (h : run .start bs = .start) : Valid bs := by
  induction hn : bs.length using Nat.strongRecOn generalizing bs with
  | ind n ih =>
    subst hn
    cases bs with
    | nil => exact ⟨[], rfl⟩
    | cons a bs =>
      rw [run_cons, step] at h
      rcases first_cases a with ha | ⟨ha, ha'⟩ | ⟨ha, ha'⟩ | ⟨ha, ha'⟩ | ha
      · rw [first_one ha] at h
        exact Valid.of_char [a] (exists_char_one ha) (ih _ (by simp) h rfl)
      · rw [first_two ha ha'] at h
        obtain ⟨b, bs, rfl, hb, hb', h⟩ := run_within_eq_start h
        exact Valid.of_char [a, b] (exists_char_two ha ha' (continuation_of_le hb hb'))
          (ih _ (by simp only [List.length_cons]; omega) h rfl)
      · rw [first_three ha ha'] at h
        obtain ⟨b, bs, rfl, hb, hb', h⟩ := run_within_eq_start h
        obtain ⟨c, bs, rfl, hc, hc', h⟩ := run_within_eq_start h
        obtain ⟨hlow, hlow'⟩ := lower_toNat (m := 0xA0) (by omega) (by omega) hb
        obtain ⟨hhigh, hhigh'⟩ := upper_toNat (m := 0x9F) (by omega) hb'
        exact Valid.of_char [a, b, c]
          (exists_char_three ha ha' hlow' hhigh' ⟨hlow, hhigh⟩ (continuation_of_le hc hc'))
          (ih _ (by simp only [List.length_cons]; omega) h rfl)
      · rw [first_four ha ha'] at h
        obtain ⟨b, bs, rfl, hb, hb', h⟩ := run_within_eq_start h
        obtain ⟨c, bs, rfl, hc, hc', h⟩ := run_within_eq_start h
        obtain ⟨d, bs, rfl, hd, hd', h⟩ := run_within_eq_start h
        obtain ⟨hlow, hlow'⟩ := lower_toNat (m := 0x90) (by omega) (by omega) hb
        obtain ⟨hhigh, hhigh'⟩ := upper_toNat (m := 0x8F) (by omega) hb'
        exact Valid.of_char [a, b, c, d]
          (exists_char_four ha ha' hlow' hhigh' ⟨hlow, hhigh⟩ (continuation_of_le hc hc')
            (continuation_of_le hd hd'))
          (ih _ (by simp only [List.length_cons]; omega) h rfl)
      · rw [ha, run_reject] at h
        exact absurd h (by simp)

/-- **The automaton accepts exactly the encodings.** -/
theorem valid_iff_run {bs : List UInt8} : Valid bs ↔ run .start bs = .start := by
  constructor
  · rintro ⟨cs, rfl⟩
    exact run_encode cs
  · exact valid_of_run

instance (bs : List UInt8) : Decidable (Valid bs) :=
  decidable_of_iff _ valid_iff_run.symm

/-! ### Boundaries inside a valid sequence -/

/-- A byte that can start a character cannot continue one. -/
theorem step_within_of_first {n : ℕ} {lower upper b : UInt8} (hlower : 0x80 ≤ lower.toNat)
    (hupper : upper.toNat ≤ 0xBF) (h : first b ≠ .reject) :
    step (.within n lower upper) b = .reject := by
  rw [step, if_neg]
  rintro ⟨hb, hb'⟩
  rw [UInt8.le_iff_toNat_le] at hb hb'
  rcases first_cases b with hc | ⟨hc, -⟩ | ⟨hc, -⟩ | ⟨hc, -⟩ | hc
  · omega
  · omega
  · omega
  · omega
  · exact h hc

/-- The ranges that occur in reachable states lie inside the continuation bytes. -/
def State.Proper : State → Prop
  | .within n lower upper =>
    1 ≤ n ∧ n ≤ 3 ∧ 0x80 ≤ lower.toNat ∧ upper.toNat ≤ 0xBF ∧ lower.toNat ≤ upper.toNat
  | _ => True

theorem first_proper (b : UInt8) : (first b).Proper := by
  unfold first
  split_ifs <;> simp_all [State.Proper]

/-- A step leads to a proper state. -/
theorem step_proper {q : State} (hq : q.Proper) (b : UInt8) : (step q b).Proper := by
  cases q with
  | start => exact first_proper b
  | reject => trivial
  | within n lower upper =>
    obtain ⟨-, hn, -⟩ := hq
    rw [step]
    split_ifs
    · trivial
    · refine ⟨by omega, by omega, by simp, by simp, by simp⟩
    · trivial

theorem run_proper {q : State} (hq : q.Proper) (bs : List UInt8) : (run q bs).Proper := by
  induction bs generalizing q with
  | nil => exact hq
  | cons b bs ih => exact ih (step_proper hq b)

/-- A character never starts inside another one: where valid text is read to the end of a
character, it was begun between two characters. -/
theorem eq_start_of_run {q : State} (hq : q.Proper) {s b : List UInt8}
    (h : run q (s ++ b) = .start) (hs : Valid s) (hne : s ≠ []) :
    q = .start ∧ run .start b = .start := by
  rw [valid_iff_run] at hs
  rw [run_append] at h
  have hstart : q = .start := by
    rcases q with - | ⟨n, lower, upper⟩ | -
    · rfl
    · -- the first byte of `s` starts a character, so it cannot be read inside one
      cases s with
      | nil => exact absurd rfl hne
      | cons c s =>
        have hc : first c ≠ .reject := by
          intro hc
          rw [run_cons, step, hc, run_reject] at hs
          exact absurd hs (by simp)
        rw [run_cons, step_within_of_first hq.2.2.1 hq.2.2.2.1 hc, run_reject, run_reject] at h
        exact absurd h (by simp)
    · rw [run_reject, run_reject] at h
      exact absurd h (by simp)
  rw [hstart, hs] at h
  exact ⟨hstart, h⟩

/-- **A valid part has valid surroundings.** If a valid sequence contains a valid non-empty part,
the text before the part ends on a character boundary. -/
theorem Valid.append_cancel_middle {a s b : List UInt8} (h : Valid (a ++ s ++ b)) (hs : Valid s)
    (hne : s ≠ []) : Valid a ∧ Valid b := by
  rw [valid_iff_run, List.append_assoc, run_append] at h
  obtain ⟨ha, hb⟩ := eq_start_of_run (run_proper (q := .start) trivial a) h hs hne
  exact ⟨valid_iff_run.2 ha, valid_iff_run.2 hb⟩

/-- **Decoding around a character**: the text before it and the text after it are decoded on their
own. -/
theorem decode_append_char_iff {a b : List UInt8} {c : Char} {cs : List Char} :
    decode (a ++ String.utf8EncodeChar c ++ b) = some cs ↔
      ∃ ds es, decode a = some ds ∧ decode b = some es ∧ cs = ds ++ c :: es := by
  have hchar : encode [c] = String.utf8EncodeChar c := List.append_nil _
  constructor
  · intro h
    have hvalid : Valid (a ++ String.utf8EncodeChar c ++ b) := ⟨cs, decode_eq_some_iff.1 h⟩
    obtain ⟨⟨ds, rfl⟩, ⟨es, rfl⟩⟩ := hvalid.append_cancel_middle ⟨[c], hchar⟩
      (by rw [← hchar, encode_cons]; simp)
    refine ⟨ds, es, decode_eq_some_iff.2 rfl, decode_eq_some_iff.2 rfl, encode_injective ?_⟩
    rw [decode_eq_some_iff.1 h, encode_append, encode_cons, List.append_assoc]
  · rintro ⟨ds, es, hds, hes, rfl⟩
    rw [decode_eq_some_iff, encode_append, encode_cons, decode_eq_some_iff.1 hds,
      decode_eq_some_iff.1 hes, List.append_assoc]

/-- A sequence of ASCII bytes is valid. -/
theorem valid_of_ascii {bs : List UInt8} (h : ∀ b ∈ bs, b.toNat < 0x80) : Valid bs := by
  rw [valid_iff_run]
  induction bs with
  | nil => rfl
  | cons b bs ih =>
    rw [run_cons, step, first_one (h b (List.mem_cons_self ..))]
    exact ih fun c hc ↦ h c (List.mem_cons_of_mem _ hc)

/-- **The automaton rejects as soon as no valid sequence starts so.** -/
theorem run_ne_reject_iff {bs : List UInt8} :
    run .start bs ≠ .reject ↔ ∃ more, Valid (bs ++ more) := by
  constructor
  · intro h
    have hproper := run_proper (q := .start) trivial bs
    rcases hq : run .start bs with - | ⟨n, lower, upper⟩ | -
    · exact ⟨[], by rw [List.append_nil, valid_iff_run, hq]⟩
    · rw [hq] at hproper
      obtain ⟨h1, h3, -, -, hle⟩ := hproper
      have htail : Continuation 0x80 := ⟨by simp, by simp⟩
      refine ⟨lower :: List.replicate (n - 1) 0x80, ?_⟩
      rw [valid_iff_run, run_append, hq, run_cons, step_within (Nat.le_refl _) hle]
      obtain rfl | rfl | rfl : n = 1 ∨ n = 2 ∨ n = 3 := by omega
      · rfl
      · rfl
      · rfl
    · exact absurd hq h
  · rintro ⟨more, hm⟩ hr
    rw [valid_iff_run, run_append, hr, run_reject] at hm
    exact absurd hm (by simp)

/-! ### The unfinished character at the end -/

/-- `tail` is the beginning of one character that is not finished: its first byte announces the
bytes that follow it and the ones still missing. -/
def Unfinished (tail : List UInt8) : Prop :=
  ∃ b t, tail = b :: t ∧ 0 < (run .start tail).missing ∧
    (first b).missing = t.length + (run .start tail).missing

/-- A state in which bytes are missing is within a sequence. -/
theorem State.eq_within_of_missing {q : State} (h : 0 < q.missing) :
    ∃ lower upper, q = .within q.missing lower upper := by
  rcases q with - | ⟨n, lower, upper⟩ | -
  · exact absurd h (by simp [State.missing])
  · exact ⟨lower, upper, rfl⟩
  · exact absurd h (by simp [State.missing])

/-- A byte inside a character that leaves the character unfinished supplies one missing byte. -/
theorem missing_step {q : State} (hq : 0 < q.missing) {b : UInt8} (h : 0 < (step q b).missing) :
    q.missing = (step q b).missing + 1 := by
  obtain ⟨lower, upper, heq⟩ := State.eq_within_of_missing hq
  rw [heq] at h ⊢
  generalize q.missing = n at *
  rw [step] at *
  split_ifs at *
  · exact absurd h (by simp [State.missing])
  · simp only [State.missing]
    omega
  · exact absurd h (by simp [State.missing])

/-- A byte that finishes a character was the only one missing. -/
theorem missing_eq_one_of_step {q : State} (hq : q.Proper) (hm : 0 < q.missing) {b : UInt8}
    (h : step q b = .start) : q.missing = 1 := by
  obtain ⟨lower, upper, heq⟩ := State.eq_within_of_missing hm
  rw [heq] at h hq ⊢
  generalize q.missing = n at *
  obtain ⟨h1, -⟩ := hq
  rw [step] at h
  split_ifs at h
  simp only [State.missing]
  omega

/-- Inside a character, bytes that are not rejected are counted off. -/
theorem missing_run {q : State} (hq : q.Proper) {bs : List UInt8} (hlen : bs.length ≤ q.missing)
    (h : run q bs ≠ .reject) : (run q bs).missing + bs.length = q.missing := by
  induction bs generalizing q with
  | nil => rfl
  | cons b bs ih =>
    rw [List.length_cons] at hlen ⊢
    rw [run_cons] at h ⊢
    rcases hs : step q b with - | ⟨n, lower, upper⟩ | -
    · have hone := missing_eq_one_of_step hq (by omega) hs
      obtain rfl : bs = [] := List.eq_nil_of_length_eq_zero (by omega)
      rw [hone, run_nil]
      rfl
    · have hn : 0 < (step q b).missing := by
        have := step_proper hq b
        rw [hs] at this ⊢
        exact this.1
      have hcount := missing_step (by omega) hn
      rw [hs] at h hcount
      have hproper := step_proper hq b
      rw [hs] at hproper
      have := ih hproper (by omega) h
      omega
    · rw [hs, run_reject] at h
      exact absurd rfl h

theorem unfinished_singleton {b : UInt8} (h : 0 < (first b).missing) : Unfinished [b] :=
  ⟨b, [], rfl, h, by simp [step]⟩

/-- One more byte that does not finish the character keeps it a single unfinished one. -/
theorem Unfinished.push {tail : List UInt8} (h : Unfinished tail) {b : UInt8}
    (hb : 0 < (step (run .start tail) b).missing) : Unfinished (tail ++ [b]) := by
  obtain ⟨c, t, rfl, hpos, hlen⟩ := h
  have hrun : run .start (c :: t ++ [b]) = step (run .start (c :: t)) b := run_append _ _ _
  refine ⟨c, t ++ [b], rfl, by rwa [hrun], ?_⟩
  rw [hrun, hlen, missing_step hpos hb, List.length_append, List.length_singleton]
  omega

/-- The same for some more bytes. -/
theorem Unfinished.append {tail : List UInt8} (h : Unfinished tail) {bs : List UInt8}
    (hlen : bs.length ≤ (run .start tail).missing)
    (hpos : 0 < (run .start (tail ++ bs)).missing) : Unfinished (tail ++ bs) := by
  obtain ⟨b, t, rfl, -, hfirst⟩ := h
  have hcount := missing_run (run_proper (q := .start) trivial (b :: t)) hlen (by
    intro hr
    rw [run_append, hr] at hpos
    exact absurd hpos (by simp [State.missing]))
  rw [← run_append] at hcount
  refine ⟨b, t ++ bs, rfl, hpos, ?_⟩
  rw [hfirst, List.length_append]
  omega

/-- `tail` begins one encoded character and does not end it. -/
def Incomplete (tail : List UInt8) : Prop :=
  tail ≠ [] ∧ ∃ c more, more ≠ [] ∧ tail ++ more = String.utf8EncodeChar c

/-- **What is unfinished for the automaton is the beginning of one character.** -/
theorem Unfinished.incomplete {tail : List UInt8} (h : Unfinished tail) : Incomplete tail := by
  obtain ⟨b, t, rfl, hpos, hfirst⟩ := h
  have hrun : run .start (b :: t) ≠ .reject ∧ run .start (b :: t) ≠ .start := by
    constructor
    all_goals
      intro hr
      rw [hr] at hpos
      exact absurd hpos (by simp [State.missing])
  obtain ⟨more, cs, hcs⟩ := run_ne_reject_iff.1 hrun.1
  refine ⟨List.cons_ne_nil _ _, ?_⟩
  cases cs with
  | nil => exact absurd hcs (by simp)
  | cons c cs =>
    have hchar := run_utf8EncodeChar c
    rw [encode_cons, List.append_eq_append_iff] at hcs
    rcases hcs with ⟨more', hlong, -⟩ | ⟨rest, hshort, -⟩
    · -- the character would end where the automaton still misses bytes of it
      rcases hc : String.utf8EncodeChar c with - | ⟨b', e⟩
      · exact absurd hc (by simp)
      · rw [hc, List.cons_append, List.cons.injEq] at hlong
        obtain ⟨rfl, rfl⟩ := hlong
        rw [hc] at hchar
        have hend : run (first b) e = .start := hchar
        rw [List.length_append] at hfirst
        have hcount := missing_run (first_proper b) (show e.length ≤ (first b).missing by omega)
          (by rw [hend]; simp)
        rw [hend] at hcount
        have hnone : State.start.missing = 0 := rfl
        omega
    · refine ⟨c, rest, ?_, hshort.symm⟩
      rintro rfl
      rw [List.append_nil] at hshort
      exact hrun.2 (hshort ▸ hchar)

/-- An unfinished character has at most three bytes. -/
theorem Unfinished.length_le {tail : List UInt8} (h : Unfinished tail) : tail.length ≤ 3 := by
  obtain ⟨b, t, rfl, hpos, hfirst⟩ := h
  have hle : (first b).missing ≤ 3 := by
    have hproper := first_proper b
    rcases hb : first b with - | ⟨n, lower, upper⟩ | -
    · exact Nat.zero_le 3
    · rw [hb] at hproper
      exact hproper.2.1
    · exact Nat.zero_le 3
  rw [List.length_cons]
  omega

/-! ### The checked conversion -/

/-- Why a byte sequence is not valid UTF-8: the length of its longest valid prefix, and the
length of the offending part, or nothing when the input ends inside a character. -/
structure Utf8Error where
  /-- The length of the longest valid prefix. -/
  validUpTo : ℕ
  /-- The length of the invalid part, or `none` when the input ended too early. -/
  errorLen : Option ℕ
  deriving DecidableEq, Repr

/-- The check from a given state: `boundary` is the position of the last character boundary and
`pos` the current one. -/
def fromUtf8From (q : State) (boundary pos : ℕ) : List UInt8 → Except Utf8Error Unit
  | [] => if q = .start then .ok () else .error ⟨boundary, none⟩
  | b :: bs =>
    match step q b with
    | .reject => .error ⟨boundary, some (max 1 (pos - boundary))⟩
    | .start => fromUtf8From .start (pos + 1) (pos + 1) bs
    | q' => fromUtf8From q' boundary (pos + 1) bs

/-- The checked conversion of bytes to text. -/
def fromUtf8 (input : List UInt8) : Except Utf8Error Unit :=
  fromUtf8From .start 0 0 input

/-- What a result of the check says about the input. -/
def Reports (input : List UInt8) : Except Utf8Error Unit → Prop
  | .ok () => run .start input = .start
  | .error ⟨_, some _⟩ => run .start input = .reject
  | .error ⟨validUpTo, none⟩ =>
    run .start (input.take validUpTo) = .start ∧ Unfinished (input.drop validUpTo)

/-- The check keeps, from byte to byte: a valid part up to the boundary and after it nothing or
one unfinished character. -/
private theorem reports_fromUtf8From (done tail : List UInt8)
    (hdone : run .start done = .start) (htail : tail = [] ∨ Unfinished tail) (bs : List UInt8) :
    Reports (done ++ tail ++ bs)
      (fromUtf8From (run .start tail) done.length (done ++ tail).length bs) := by
  induction bs generalizing done tail with
  | nil =>
    rw [fromUtf8From, List.append_nil]
    rcases htail with rfl | htail
    · rw [run_nil, if_pos rfl, List.append_nil]
      exact hdone
    · rw [if_neg]
      · exact ⟨by rwa [List.take_left], by rwa [List.drop_left]⟩
      · obtain ⟨-, -, -, hpos, -⟩ := htail
        intro h
        rw [h] at hpos
        exact absurd hpos (by simp [State.missing])
  | cons b bs ih =>
    have hsplit : done ++ tail ++ b :: bs = done ++ (tail ++ [b]) ++ bs := by simp
    have hlen : (done ++ tail).length + 1 = (done ++ (tail ++ [b])).length := by
      simp only [List.length_append, List.length_singleton]
      omega
    have hrun : run .start (tail ++ [b]) = step (run .start tail) b := run_append _ _ _
    rw [fromUtf8From]
    rcases hq : step (run .start tail) b with - | ⟨n, lower, upper⟩ | -
    · -- a character ends here
      have hdone' : run .start (done ++ (tail ++ [b])) = .start := by
        rw [run_append, hdone, hrun, hq]
      have := ih _ _ hdone' (Or.inl rfl)
      rw [hsplit, hlen]
      simpa using this
    · -- a character goes on
      have hmiss : 0 < (step (run .start tail) b).missing := by
        have := step_proper (run_proper (q := .start) trivial tail) b
        rw [hq] at this ⊢
        exact this.1
      have htail' : Unfinished (tail ++ [b]) := by
        rcases htail with rfl | htail
        · exact unfinished_singleton hmiss
        · exact htail.push hmiss
      have := ih _ _ hdone (Or.inr htail')
      rwa [hrun, hq, ← hsplit, ← hlen] at this
    · show run .start (done ++ tail ++ b :: bs) = .reject
      rw [hsplit, run_append, run_append, hdone, hrun, hq, run_reject]

/-- **The check reports correctly.** -/
theorem reports_fromUtf8 (input : List UInt8) : Reports input (fromUtf8 input) :=
  reports_fromUtf8From [] [] rfl (Or.inl rfl) input

end Text.Utf8
