import KseRewriteProxy.Text.Replace
import KseRewriteProxy.Text.Utf8

/-!
# Bytes, sizes and errors of the rewriters

The data that every rewriter of `literal.rs` shares: byte strings, machine sizes with their checked
addition, and the error type.

A Rust `&[u8]` or `Vec<u8>` is a list of bytes. A `&str` is a list of Unicode scalar values, with
`Text.Utf8.encode` for `as_bytes`. A `usize` is a number with the proof that it is within its bound,
so that a count of the model is one that the code can hold.

The code adds counts with `checked_add` and reports an overflow as an error of its own, so an
addition here returns nothing when it does not fit (`checkedAdd_eq_some_iff`,
`checkedAdd_eq_none_iff`). These two are all that later modules use of machine sizes.
-/

namespace KseRewriteProxy

/-- A Rust `&[u8]` or `Vec<u8>`. -/
abbrev Bytes := List UInt8

/-- A Rust `&str` or `String`, as its Unicode scalar values. -/
abbrev Str := List Char

/-- `str::as_bytes`. -/
abbrev Str.asBytes (s : Str) : Bytes :=
  Text.Utf8.encode s

/-- A byte string literal. -/
def bytes (s : String) : Bytes :=
  Text.Utf8.encode s.toList

theorem valid_bytes (s : String) : Text.Utf8.Valid (bytes s) :=
  Text.Utf8.valid_encode _

/-! ### Machine sizes -/

/-- `usize::MAX` on the 64-bit target of the container image. -/
def usizeMax : ℕ :=
  UInt64.size - 1

/-- A `usize`. -/
structure Usize where
  /-- Its value. -/
  val : ℕ
  /-- It fits. -/
  val_le : val ≤ usizeMax
  deriving DecidableEq

namespace Usize

/-- `usize::MAX`. -/
def max : Usize :=
  ⟨usizeMax, Nat.le_refl _⟩

/-- `0usize`. -/
def zero : Usize :=
  ⟨0, Nat.zero_le _⟩

@[simp] theorem val_max : max.val = usizeMax :=
  rfl

@[simp] theorem val_zero : zero.val = 0 :=
  rfl

/-- `usize::checked_add`. -/
def checkedAdd (a : Usize) (n : ℕ) : Option Usize :=
  if h : a.val + n ≤ usizeMax then some ⟨a.val + n, h⟩ else none

theorem checkedAdd_eq_some_iff {a b : Usize} {n : ℕ} :
    a.checkedAdd n = some b ↔ a.val + n = b.val := by
  unfold checkedAdd
  constructor
  · intro h
    split at h
    · obtain rfl := Option.some.inj h
      rfl
    · exact absurd h (by simp)
  · intro h
    rw [dif_pos (h ▸ b.val_le)]
    exact congrArg some (by cases b; simp only at h; subst h; rfl)

theorem checkedAdd_eq_none_iff {a : Usize} {n : ℕ} :
    a.checkedAdd n = none ↔ usizeMax < a.val + n := by
  unfold checkedAdd
  split <;> simp <;> omega

end Usize

/-! ### Errors -/

/-- `RewriteError`. -/
inductive RewriteError where
  | emptyRules
  | emptySource
  | invalidReplacement
  | tooLarge (limit : Usize)
  | invalidUtf8
  | alreadyFinished
  deriving DecidableEq

/-- The message of an error. -/
def RewriteError.message : RewriteError → String
  | emptyRules => "rewrite pipeline must contain at least one rule"
  | emptySource => "rewrite source must not be empty"
  | invalidReplacement => "rewrite replacement must end with the source literal"
  | tooLarge limit =>
    "decoded response exceeds the configured " ++ toString limit.val ++ " byte limit"
  | invalidUtf8 => "response text is not valid UTF-8"
  | alreadyFinished => "rewrite stream has already finished"

end KseRewriteProxy
