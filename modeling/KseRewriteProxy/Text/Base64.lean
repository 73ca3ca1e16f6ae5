import Mathlib.Data.List.Basic
import Mathlib.Data.List.Nodup

/-!
# Base64

Base64 over an arbitrary alphabet of 64 symbols, with or without padding. Decoding is strict: the
padding is where it belongs, and the bits that it stands for are zero.

`decode_encode` says that decoding undoes encoding, so that encoding is injective
(`encode_injective`), `mem_of_mem_encode` which bytes occur, and `mem_of_decode` that a text with
others is not decoded.

Three bytes are one number of 24 bits and four symbols are its digits; a rest of one or two bytes is
a number with zero bits behind it, written in two or three symbols. So everything is said of numbers
and their digits (`bits_symbols`), and the recursion is on groups of three bytes.
-/

namespace Text.Base64

/-- 64 distinct symbols, and another one for the padding. -/
structure Alphabet where
  table : List UInt8
  pad : UInt8
  length_table : table.length = 64
  nodup_table : table.Nodup
  pad_not_mem : pad ∉ table

namespace Alphabet

variable (A : Alphabet)

/-- The symbol of a group of six bits. -/
def symbol (n : ℕ) : UInt8 :=
  A.table.getD n A.pad

/-- The six bits of a symbol. -/
def value (b : UInt8) : Option ℕ :=
  A.table.idxOf? b

theorem symbol_mem {n : ℕ} (h : n < 64) : A.symbol n ∈ A.table := by
  have hlt : n < A.table.length := A.length_table.symm ▸ h
  rw [symbol, List.getD_eq_getElem?_getD, List.getElem?_eq_getElem hlt]
  exact List.getElem_mem hlt

theorem value_symbol {n : ℕ} (h : n < 64) : A.value (A.symbol n) = some n := by
  have hlt : n < A.table.length := A.length_table.symm ▸ h
  rw [value, symbol, List.getD_eq_getElem?_getD, List.getElem?_eq_getElem hlt,
    List.idxOf?_eq_some_iff]
  refine ⟨hlt, rfl, fun j hj heq ↦ ?_⟩
  exact absurd ((List.Nodup.getElem_inj_iff A.nodup_table).1 heq) (Nat.ne_of_lt hj)

end Alphabet

variable (A : Alphabet)

/-! ### Encoding -/

/-- The symbols of `count` groups of six bits, the most significant group first. -/
def symbols (bits : ℕ) : ℕ → List UInt8
  | 0 => []
  | count + 1 => symbols (bits / 64) count ++ [A.symbol (bits % 64)]

/-- Encode, with or without padding. -/
def encode (padded : Bool) : List UInt8 → List UInt8
  | [] => []
  | [a] => symbols A (a.toNat * 16) 2 ++ if padded then [A.pad, A.pad] else []
  | [a, b] => symbols A ((a.toNat * 256 + b.toNat) * 4) 3 ++ if padded then [A.pad] else []
  | a :: b :: c :: rest =>
    symbols A ((a.toNat * 256 + b.toNat) * 256 + c.toNat) 4 ++ encode padded rest

/-! ### Decoding -/

/-- The bits of a row of symbols. -/
def bits (symbols : List UInt8) : Option ℕ :=
  symbols.foldlM (fun bits b ↦ (A.value b).map (bits * 64 + ·)) 0

/-- A last group of two symbols: one byte. -/
def decodeTwo (w x : UInt8) : Option (List UInt8) :=
  (bits A [w, x]).bind fun n ↦ if n % 16 = 0 then some [.ofNat (n / 16)] else none

/-- A last group of three symbols: two bytes. -/
def decodeThree (w x y : UInt8) : Option (List UInt8) :=
  (bits A [w, x, y]).bind fun n ↦
    if n % 4 = 0 then some [.ofNat (n / 1024), .ofNat (n / 4)] else none

/-- Decode, with or without padding. -/
def decode (padded : Bool) : List UInt8 → Option (List UInt8)
  | [] => some []
  | [_] => none
  | [w, x] => if padded then none else decodeTwo A w x
  | [w, x, y] => if padded then none else decodeThree A w x y
  | w :: x :: y :: z :: rest =>
    if padded && z == A.pad && rest.isEmpty then
      if y == A.pad then decodeTwo A w x else decodeThree A w x y
    else
      (bits A [w, x, y, z]).bind fun n ↦
        (decode padded rest).map ([.ofNat (n / 65536), .ofNat (n / 256), .ofNat n] ++ ·)

/-! ### The round trip -/

theorem length_symbols (n count : ℕ) : (symbols A n count).length = count := by
  induction count generalizing n with
  | zero => rfl
  | succ count ih => rw [symbols, List.length_append, ih, List.length_singleton]

theorem mem_of_mem_symbols {n count : ℕ} {b : UInt8} (h : b ∈ symbols A n count) :
    b ∈ A.table := by
  induction count generalizing n with
  | zero => exact absurd h List.not_mem_nil
  | succ count ih =>
    rcases List.mem_append.1 h with h | h
    · exact ih h
    · exact List.mem_singleton.1 h ▸ A.symbol_mem (Nat.mod_lt _ (by decide))

/-- How many numbers fit into `count` groups of six bits. -/
def capacity : ℕ → ℕ
  | 0 => 1
  | count + 1 => 64 * capacity count

theorem bits_symbols {n count : ℕ} (h : n < capacity count) :
    bits A (symbols A n count) = some n := by
  induction count generalizing n with
  | zero =>
    rw [capacity, Nat.lt_one_iff] at h
    rw [h]
    rfl
  | succ count ih =>
    have hdiv : n / 64 < capacity count := Nat.div_lt_of_lt_mul h
    have hmod : n % 64 < 64 := Nat.mod_lt _ (by decide)
    rw [bits, symbols, List.foldlM_append, show List.foldlM _ 0 _ = _ from ih hdiv]
    simp only [List.foldlM_cons, List.foldlM_nil, A.value_symbol hmod]
    show some (n / 64 * 64 + n % 64) = some n
    rw [Nat.div_add_mod']

/-- The bytes of an encoding are symbols and padding. -/
theorem mem_of_mem_encode {padded : Bool} {input : List UInt8} {b : UInt8}
    (h : b ∈ encode A padded input) : b ∈ A.table ∨ (padded = true ∧ b = A.pad) := by
  have hpadding : ∀ {more : List UInt8}, (∀ b ∈ more, b = A.pad) → ∀ {padded : Bool},
      b ∈ (if padded then more else []) → padded = true ∧ b = A.pad := by
    intro more hmore padded hb
    cases padded with
    | false => exact absurd hb List.not_mem_nil
    | true => exact ⟨rfl, hmore b hb⟩
  fun_induction encode A padded input with
  | case1 => exact absurd h List.not_mem_nil
  | case2 a =>
    exact (List.mem_append.1 h).imp (mem_of_mem_symbols A) (hpadding (by simp))
  | case3 a b' =>
    exact (List.mem_append.1 h).imp (mem_of_mem_symbols A) (hpadding (by simp))
  | case4 a b' c rest ih =>
    rcases List.mem_append.1 h with h | h
    · exact Or.inl (mem_of_mem_symbols A h)
    · exact ih h

/-- Rows of other symbols have no bits. -/
theorem mem_table_of_bits {row : List UInt8} {n : ℕ} (h : bits A row = some n) :
    ∀ b ∈ row, b ∈ A.table := by
  have hfrom : ∀ start, row.foldlM (fun bits b ↦ (A.value b).map (bits * 64 + ·)) start = some n →
      ∀ b ∈ row, b ∈ A.table := by
    clear h
    induction row with
    | nil => exact fun _ _ _ hb ↦ absurd hb List.not_mem_nil
    | cons b row ih =>
      intro start h
      rw [List.foldlM_cons] at h
      obtain ⟨next, hnext, hrest⟩ := Option.bind_eq_some_iff.1 h
      obtain ⟨v, hv, -⟩ := Option.map_eq_some_iff.1 hnext
      refine List.forall_mem_cons.2 ⟨?_, ih next hrest⟩
      obtain ⟨hlt, hget, -⟩ := List.idxOf?_eq_some_iff.1 hv
      exact hget ▸ List.getElem_mem hlt
  exact hfrom 0 h

/-- **What is decoded consists of the alphabet**: symbols, and the padding. -/
theorem mem_of_decode {padded : Bool} {input output : List UInt8}
    (h : decode A padded input = some output) : ∀ b ∈ input, b ∈ A.table ∨ b = A.pad := by
  have hbits : ∀ {row : List UInt8} {f : ℕ → Option (List UInt8)} {out : List UInt8},
      (bits A row).bind f = some out → ∀ b ∈ row, b ∈ A.table ∨ b = A.pad := by
    intro row f out hrow b hb
    obtain ⟨n, hn, -⟩ := Option.bind_eq_some_iff.1 hrow
    exact Or.inl (mem_table_of_bits A hn b hb)
  fun_induction decode A padded input generalizing output with
  | case1 => exact fun _ hb ↦ absurd hb List.not_mem_nil
  | case2 => exact absurd h (by simp)
  | case3 w x hp => exact absurd h (by simp)
  | case4 w x hp => exact hbits h
  | case5 => exact absurd h (by simp)
  | case6 w x y hp => exact hbits h
  | case7 w x y z rest hcond hy =>
    simp only [Bool.and_eq_true, beq_iff_eq, List.isEmpty_iff] at hcond hy
    obtain ⟨⟨-, rfl⟩, rfl⟩ := hcond
    subst hy
    have hgroup := hbits h
    simp only [List.forall_mem_cons, List.not_mem_nil, false_implies, implies_true] at hgroup ⊢
    exact ⟨hgroup.1, hgroup.2.1, Or.inr trivial, Or.inr trivial, trivial⟩
  | case8 w x y z rest hcond hy =>
    simp only [Bool.and_eq_true, beq_iff_eq, List.isEmpty_iff] at hcond
    obtain ⟨⟨-, rfl⟩, rfl⟩ := hcond
    have hgroup := hbits h
    simp only [List.forall_mem_cons, List.not_mem_nil, false_implies, implies_true] at hgroup ⊢
    exact ⟨hgroup.1, hgroup.2.1, hgroup.2.2.1, Or.inr trivial, trivial⟩
  | case9 w x y z rest hcond ih =>
    have hgroup := hbits h
    obtain ⟨n, -, hrest⟩ := Option.bind_eq_some_iff.1 h
    obtain ⟨tail, htail, -⟩ := Option.map_eq_some_iff.1 hrest
    simp only [List.forall_mem_cons, List.not_mem_nil, false_implies, implies_true] at hgroup ⊢
    exact ⟨hgroup.1, hgroup.2.1, hgroup.2.2.1, hgroup.2.2.2.1, ih htail⟩

/-- Symbols of a number. -/
theorem exists_symbols_two (n : ℕ) : ∃ w x, symbols A n 2 = [w, x] :=
  List.length_eq_two.1 (length_symbols A n 2)

theorem exists_symbols_three (n : ℕ) : ∃ w x y, symbols A n 3 = [w, x, y] :=
  List.length_eq_three.1 (length_symbols A n 3)

/-- One byte is read back from two symbols. -/
theorem decodeTwo_of_symbols {w x a : UInt8} (h : symbols A (a.toNat * 16) 2 = [w, x]) :
    decodeTwo A w x = some [a] := by
  have ha := a.toNat_lt
  rw [decodeTwo, ← h, bits_symbols A (by simp only [capacity]; omega), Option.bind_some,
    if_pos (Nat.mul_mod_left _ _), Nat.mul_div_cancel _ (by decide), UInt8.ofNat_toNat]

/-- Two bytes are read back from three symbols. -/
theorem decodeThree_of_symbols {w x y a b : UInt8}
    (h : symbols A ((a.toNat * 256 + b.toNat) * 4) 3 = [w, x, y]) :
    decodeThree A w x y = some [a, b] := by
  have ha := a.toNat_lt
  have hb := b.toNat_lt
  have hfirst : (a.toNat * 256 + b.toNat) * 4 / 1024 = a.toNat := by omega
  have hsecond : UInt8.ofNat ((a.toNat * 256 + b.toNat) * 4 / 4) = b := by
    rw [Nat.mul_div_cancel _ (by decide), ← UInt8.toNat_inj, UInt8.toNat_ofNat']
    omega
  rw [decodeThree, ← h, bits_symbols A (by simp only [capacity]; omega), Option.bind_some,
    if_pos (Nat.mul_mod_left _ _), hfirst, hsecond, UInt8.ofNat_toNat]

/-- **Decoding undoes encoding.** -/
theorem decode_encode (padded : Bool) (input : List UInt8) :
    decode A padded (encode A padded input) = some input := by
  fun_induction encode A padded input with
  | case1 => rfl
  | case2 a =>
    obtain ⟨w, x, h⟩ := exists_symbols_two A (a.toNat * 16)
    have hgroup := decodeTwo_of_symbols A h
    rw [h]
    cases padded with
    | false => exact hgroup
    | true => simpa [decode] using hgroup
  | case3 a b =>
    obtain ⟨w, x, y, h⟩ := exists_symbols_three A ((a.toNat * 256 + b.toNat) * 4)
    have hgroup := decodeThree_of_symbols A h
    have hy : y ≠ A.pad := by
      have hmem : y ∈ symbols A ((a.toNat * 256 + b.toNat) * 4) 3 := by simp [h]
      exact fun hpad ↦ A.pad_not_mem (hpad ▸ mem_of_mem_symbols A hmem)
    rw [h]
    cases padded with
    | false => exact hgroup
    | true => simpa [decode, hy] using hgroup
  | case4 a b c rest ih =>
    have ha := a.toNat_lt
    have hb := b.toNat_lt
    have hc := c.toNat_lt
    generalize hn : (a.toNat * 256 + b.toNat) * 256 + c.toNat = n
    obtain ⟨w, x, y, z, h⟩ : ∃ w x y z, symbols A n 4 = [w, x, y, z] := by
      obtain ⟨w, x, y, h⟩ := exists_symbols_three A (n / 64)
      exact ⟨w, x, y, A.symbol (n % 64), by rw [symbols, h]; rfl⟩
    have hz : z ≠ A.pad := by
      have hmem : z ∈ symbols A n 4 := by simp [h]
      exact fun hpad ↦ A.pad_not_mem (hpad ▸ mem_of_mem_symbols A hmem)
    have hbits : bits A (symbols A n 4) =
        some n := bits_symbols A (by simp only [capacity]; omega)
    rw [h] at hbits ⊢
    have hfirst : UInt8.ofNat (n / 65536) = a := by
      rw [← UInt8.toNat_inj, UInt8.toNat_ofNat']
      omega
    have hsecond : UInt8.ofNat (n / 256) = b := by
      rw [← UInt8.toNat_inj, UInt8.toNat_ofNat']
      omega
    have hthird : UInt8.ofNat n = c := by
      rw [← UInt8.toNat_inj, UInt8.toNat_ofNat']
      omega
    rw [List.cons_append, List.cons_append, List.cons_append, List.cons_append, List.nil_append,
      decode, if_neg (by simp [hz]), hbits, Option.bind_some, ih, hfirst, hsecond, hthird]
    rfl

/-- Encodings of different inputs differ. -/
theorem encode_injective (padded : Bool) : Function.Injective (encode A padded) := by
  intro input input' h
  have hdecode := decode_encode A padded input
  rw [h, decode_encode] at hdecode
  exact (Option.some.inj hdecode).symm

end Text.Base64
