import KseRewriteProxy.Rewrite.MigMeta
import KseRewriteProxy.Text.Base64

/-!
# The scan of the `_mig_meta` transform

`migMetaLoop` moves three cursors over the input. Here the same work is a recursion over the text
that is left (`migMetaScan`), and a turn of the loop depends on what stands behind an occurrence of
the marker only (`following`): nothing that opens a value, a value in quotes, or a quote that is
never closed.

* `migMetaLoop_eq_migMetaScan`: from any position, the loop appends to its output what the scan
  makes of the rest;
* `rewriteMigMetaBaseUri_eq_migMetaScan`: so the transform computes the scan;
* `turns`: the turns of the scan over a text, from which the text is read back
  (`flatMap_text_turns`).

The induction is on the length of the text that is left. A turn that finds an assignment goes on
behind its closing quote, and one that finds none goes on behind the marker, so the text gets
shorter (`length_lt_of_following`).
-/

namespace KseRewriteProxy

open Text

/-! ### What stands behind the marker -/

/-- What may stand between the marker and the opening quote: an equals sign in whitespace. -/
def IsOpening (opening : Bytes) : Prop :=
  ∃ u v, opening = u ++ 0x3D :: v ∧ (∀ b ∈ u, isAsciiWhitespace b = true) ∧
    ∀ b ∈ v, isAsciiWhitespace b = true

/-- An opening at the start of a text, the quote behind it, and the rest. -/
def readOpening (text : Bytes) : Option (Bytes × UInt8 × Bytes) :=
  match text.dropWhile isAsciiWhitespace with
  | [] => none
  | sign :: value =>
    match value.dropWhile isAsciiWhitespace with
    | [] => none
    | quote :: tail =>
      if sign = 0x3D ∧ isQuote quote = true then
        some (text.takeWhile isAsciiWhitespace ++ sign :: value.takeWhile isAsciiWhitespace, quote,
          tail)
      else none

/-- What a turn of the scan finds behind the marker. -/
inductive Following where
  /-- No opening with a quote. -/
  | malformed
  /-- A quote that is not closed. -/
  | unterminated
  /-- An assignment, and the text behind the closing quote. -/
  | assigned (opening : Bytes) (quote : UInt8) (payload rest : Bytes)

/-- The turn of the scan at a text behind the marker. -/
def following (text : Bytes) : Following :=
  match readOpening text with
  | none => .malformed
  | some (opening, quote, tail) =>
    match tail.idxOf? quote with
    | none => .unterminated
    | some k => .assigned opening quote (tail.take k) (tail.drop (k + 1))

/-- An opening is read up to its quote. -/
theorem readOpening_eq_some_iff {text opening tail : Bytes} {quote : UInt8} :
    readOpening text = some (opening, quote, tail) ↔
      IsOpening opening ∧ isQuote quote = true ∧ text = opening ++ quote :: tail := by
  constructor
  · intro h
    rw [readOpening] at h
    split at h
    · exact absurd h (by simp)
    · rename_i sign value hsign
      split at h
      · exact absurd h (by simp)
      · rename_i quote' tail' hquote
        split at h
        · rename_i hcond
          obtain ⟨rfl, hq⟩ := hcond
          obtain ⟨rfl, rfl, rfl⟩ : _ = opening ∧ quote' = quote ∧ tail' = tail := by
            simpa using h
          refine ⟨⟨_, _, rfl, fun b hb ↦ ?_, fun b hb ↦ ?_⟩, hq, ?_⟩
          · exact List.all_eq_true.1 List.all_takeWhile b hb
          · exact List.all_eq_true.1 List.all_takeWhile b hb
          · rw [List.append_assoc, List.cons_append, ← hquote, List.takeWhile_append_dropWhile,
              ← hsign, List.takeWhile_append_dropWhile]
        · exact absurd h (by simp)
  · rintro ⟨⟨u, v, rfl, hu, hv⟩, hq, rfl⟩
    have hquote : isAsciiWhitespace quote = false := by
      rw [isQuote, Bool.or_eq_true, beq_iff_eq, beq_iff_eq] at hq
      rcases hq with rfl | rfl <;> decide
    have hvalue : (v ++ quote :: tail).takeWhile isAsciiWhitespace = v ∧
        (v ++ quote :: tail).dropWhile isAsciiWhitespace = quote :: tail := by
      rw [List.takeWhile_append_of_pos hv, List.dropWhile_append_of_pos hv]
      simp [hquote]
    have hspace : (u ++ 0x3D :: (v ++ quote :: tail)).takeWhile isAsciiWhitespace = u ∧
        (u ++ 0x3D :: (v ++ quote :: tail)).dropWhile isAsciiWhitespace =
          0x3D :: (v ++ quote :: tail) := by
      rw [List.takeWhile_append_of_pos hu, List.dropWhile_append_of_pos hu]
      simp [show isAsciiWhitespace 0x3D = false by decide]
    rw [List.append_assoc, List.cons_append, readOpening, hspace.2, hspace.1]
    show (match (v ++ quote :: tail).dropWhile isAsciiWhitespace with
      | [] => none
      | quote' :: tail' => if _ ∧ isQuote quote' = true then some _ else none) = _
    rw [hvalue.2, hvalue.1]
    simp [hq]

/-- The first occurrence of a byte splits a text. -/
theorem idxOf?_eq_some_iff_append {tail : Bytes} {quote : UInt8} {payload rest : Bytes}
    (hpayload : quote ∉ payload) (h : tail = payload ++ quote :: rest) :
    tail.idxOf? quote = some payload.length := by
  subst h
  refine List.idxOf?_eq_some_iff.2 ⟨by simp, by simp, fun j hj heq ↦ hpayload ?_⟩
  rw [List.getElem_append_left hj] at heq
  exact heq ▸ List.getElem_mem hj

/-- **The assignments**: an opening, a quote, a payload without that quote, and the quote. -/
theorem following_eq_assigned_iff {text opening payload rest : Bytes} {quote : UInt8} :
    following text = .assigned opening quote payload rest ↔
      IsOpening opening ∧ isQuote quote = true ∧ quote ∉ payload ∧
        text = opening ++ quote :: (payload ++ quote :: rest) := by
  constructor
  · intro h
    rw [following] at h
    split at h
    · exact absurd h (by simp)
    · rename_i opening' quote' tail hopening
      split at h
      · exact absurd h (by simp)
      · rename_i k hk
        obtain ⟨rfl, rfl, rfl, rfl⟩ : opening' = opening ∧ quote' = quote ∧ _ = payload ∧
            _ = rest := by simpa using h
        obtain ⟨hlt, hget, hfirst⟩ := List.idxOf?_eq_some_iff.1 hk
        obtain ⟨hshape, hq, rfl⟩ := readOpening_eq_some_iff.1 hopening
        refine ⟨hshape, hq, fun hmem ↦ ?_, ?_⟩
        · obtain ⟨j, hj, heq⟩ := List.getElem_of_mem hmem
          rw [List.length_take] at hj
          rw [List.getElem_take] at heq
          exact hfirst j (by omega) heq
        · have hdrop : tail.drop k = quote' :: tail.drop (k + 1) := by
            rw [List.drop_eq_getElem_cons hlt, hget]
          rw [← hdrop, List.take_append_drop]
  · rintro ⟨hshape, hq, hpayload, rfl⟩
    have hopening : readOpening (opening ++ quote :: (payload ++ quote :: rest)) =
        some (opening, quote, payload ++ quote :: rest) :=
      readOpening_eq_some_iff.2 ⟨hshape, hq, rfl⟩
    simp [following, hopening, idxOf?_eq_some_iff_append hpayload rfl]

/-- A closed quote behind an opening is an assignment. -/
theorem following_assigned {opening payload : Bytes} {quote : UInt8} (hopening : IsOpening opening)
    (hquote : isQuote quote = true) (hpayload : quote ∉ payload) (rest : Bytes) :
    following (opening ++ quote :: (payload ++ quote :: rest)) =
      .assigned opening quote payload rest :=
  following_eq_assigned_iff.2 ⟨hopening, hquote, hpayload, rfl⟩

/-- No opening and quote stand behind the marker. -/
theorem following_eq_malformed_iff {text : Bytes} :
    following text = .malformed ↔
      ∀ opening quote tail, IsOpening opening → isQuote quote = true →
        text ≠ opening ++ quote :: tail := by
  rw [following]
  split
  · rename_i hnone
    refine iff_of_true rfl fun opening quote tail hshape hq heq ↦ ?_
    rw [readOpening_eq_some_iff.2 ⟨hshape, hq, heq⟩] at hnone
    exact absurd hnone (by simp)
  · rename_i opening quote tail hopening
    obtain ⟨hshape, hq, heq⟩ := readOpening_eq_some_iff.1 hopening
    refine iff_of_false ?_ fun h ↦ h opening quote tail hshape hq heq
    split <;> simp

/-- The quote behind the opening does not occur again. -/
theorem following_eq_unterminated_iff {text : Bytes} :
    following text = .unterminated ↔
      ∃ opening quote tail, IsOpening opening ∧ isQuote quote = true ∧ quote ∉ tail ∧
        text = opening ++ quote :: tail := by
  constructor
  · intro h
    rw [following] at h
    split at h
    · exact absurd h (by simp)
    · rename_i opening quote tail hopening
      obtain ⟨hshape, hq, heq⟩ := readOpening_eq_some_iff.1 hopening
      split at h
      · rename_i hnone
        exact ⟨opening, quote, tail, hshape, hq, List.idxOf?_eq_none_iff.1 hnone, heq⟩
      · exact absurd h (by simp)
  · rintro ⟨opening, quote, tail, hshape, hq, htail, heq⟩
    have hopening := readOpening_eq_some_iff.2 ⟨hshape, hq, heq⟩
    simp [following, hopening, List.idxOf?_eq_none_iff.2 htail]

/-! ### The loop, turn by turn -/

section Loop

variable {codec : MetadataCodec} {desired : Str} {input output : Bytes}
  {searchFrom copiedUntil k : ℕ}

theorem drop_skipAsciiWhitespace (input : Bytes) (position : ℕ) :
    input.drop (skipAsciiWhitespace input position) =
      (input.drop position).dropWhile isAsciiWhitespace := by
  rw [skipAsciiWhitespace, ← List.drop_drop]
  generalize input.drop position = text
  calc text.drop (text.takeWhile isAsciiWhitespace).length
      = (text.takeWhile isAsciiWhitespace ++ text.dropWhile isAsciiWhitespace).drop
          (text.takeWhile isAsciiWhitespace).length := by rw [List.takeWhile_append_dropWhile]
    _ = text.dropWhile isAsciiWhitespace := List.drop_left

/-- The opening as the loop reads it, by positions of the input. -/
theorem readOpening_drop {behind position position' : ℕ}
    (hposition : position = skipAsciiWhitespace input behind)
    (hposition' : position' = skipAsciiWhitespace input (position + 1)) :
    readOpening (input.drop behind) =
      if input[position]? = some 0x3D then
        ((input[position']?).filter isQuote).map fun quote ↦
          ((input.take position').drop behind, quote, input.drop (position' + 1))
      else none := by
  have hspace := drop_skipAsciiWhitespace input behind
  have hvalue := drop_skipAsciiWhitespace input (position + 1)
  rw [← hposition] at hspace
  rw [← hposition'] at hvalue
  rw [readOpening, ← hspace, ← List.head?_drop, ← List.head?_drop]
  rcases hsign : input.drop position with - | ⟨sign, value⟩
  · simp
  · have hbehind : input.drop (position + 1) = value := by
      rw [← List.drop_drop, hsign]
      rfl
    rw [hbehind] at hvalue
    show (match value.dropWhile isAsciiWhitespace with
      | [] => none
      | quote :: tail => _) = _
    rw [← hvalue]
    rcases hquote : input.drop position' with - | ⟨quote, tail⟩
    · simp
    · have htail : input.drop (position' + 1) = tail := by
        rw [← List.drop_drop, hquote]
        rfl
      have hsplit : input.drop behind = ((input.drop behind).takeWhile isAsciiWhitespace ++
          sign :: value.takeWhile isAsciiWhitespace) ++ quote :: tail := by
        conv_lhs => rw [← List.takeWhile_append_dropWhile (p := isAsciiWhitespace)
          (l := input.drop behind), ← hspace, hsign,
          ← List.takeWhile_append_dropWhile (p := isAsciiWhitespace) (l := value), ← hvalue,
          hquote]
        simp
      have hlength : position' = behind + ((input.drop behind).takeWhile isAsciiWhitespace ++
          sign :: value.takeWhile isAsciiWhitespace).length := by
        rw [hposition', skipAsciiWhitespace, hbehind, hposition, skipAsciiWhitespace,
          List.length_append, List.length_cons]
        omega
      generalize (input.drop behind).takeWhile isAsciiWhitespace ++
        sign :: value.takeWhile isAsciiWhitespace = opening at hsplit hlength ⊢
      have hopening : (input.take position').drop behind = opening := by
        rw [List.drop_take, hlength, Nat.add_sub_cancel_left, hsplit, List.take_left]
      rw [htail, hopening]
      by_cases hs : sign = 0x3D
      · by_cases hq : isQuote quote = true
        · simp [hs, hq]
        · simp [hs, hq]
      · simp [hs]

theorem migMetaLoop_of_find_none
    (hfind : find assignment.toList (input.drop searchFrom) = none) :
    migMetaLoop codec desired input searchFrom copiedUntil output = (output, copiedUntil) := by
  rw [migMetaLoop]
  split
  · rfl
  · rename_i k hk
    rw [hfind] at hk
    exact absurd hk (by simp)

/-- What a turn of the loop does when the marker is found, with the opening as it is read. -/
theorem migMetaLoop_of_find (behind : ℕ)
    (hfind : find assignment.toList (input.drop searchFrom) = some k)
    (hbehind : behind = searchFrom + k + assignment.length) :
    migMetaLoop codec desired input searchFrom copiedUntil output =
      match readOpening (input.drop behind) with
      | none => migMetaLoop codec desired input behind copiedUntil output
      | some (opening, quote, tail) =>
        match tail.idxOf? quote with
        | none => (output, copiedUntil)
        | some length =>
          match rewriteMigMetaPayload codec (tail.take length) desired with
          | none =>
            migMetaLoop codec desired input (behind + opening.length + 1 + length + 1) copiedUntil
              output
          | some rewritten =>
            migMetaLoop codec desired input (behind + opening.length + 1 + length + 1)
              (behind + opening.length + 1 + length)
              (output ++ (input.take (behind + opening.length + 1)).drop copiedUntil ++
                rewritten) := by
  subst hbehind
  conv_lhs => rw [migMetaLoop]
  split
  · rename_i hnone
    rw [hfind] at hnone
    exact absurd hnone (by simp)
  rename_i k' hk'
  rw [hfind] at hk'
  obtain rfl := Option.some.inj hk'
  rw [readOpening_drop rfl rfl]
  dsimp only
  have hle : searchFrom + k + assignment.length ≤
      skipAsciiWhitespace input (searchFrom + k + assignment.length) := Nat.le_add_right _ _
  generalize skipAsciiWhitespace input (searchFrom + k + assignment.length) = position at hle ⊢
  have hle' : position + 1 ≤ skipAsciiWhitespace input (position + 1) := Nat.le_add_right _ _
  generalize skipAsciiWhitespace input (position + 1) = position' at hle' ⊢
  by_cases hsign : input[position]? = some 0x3D
  · rw [if_pos hsign, if_neg (not_not.2 hsign)]
    rcases hquote : (input[position']?).filter isQuote with - | quote
    · rfl
    · have hlt : position' < input.length := by
        obtain ⟨hget, -⟩ := Option.filter_eq_some_iff.1 hquote
        exact (List.getElem?_eq_some_iff.1 hget).1
      have hstart : searchFrom + k + assignment.length +
          ((input.take position').drop (searchFrom + k + assignment.length)).length + 1 =
          position' + 1 := by
        rw [List.length_drop, List.length_take]
        omega
      rw [Option.map_some]
      dsimp only
      rw [hstart]
      rcases hend : (input.drop (position' + 1)).idxOf? quote with - | length
      · rfl
      · have hpayload : (input.take (position' + 1 + length)).drop (position' + 1) =
            (input.drop (position' + 1)).take length := by
          rw [List.drop_take, Nat.add_sub_cancel_left]
        dsimp only
        rewrite [hpayload]
        rcases rewriteMigMetaPayload codec ((input.drop (position' + 1)).take length) desired with
          - | rewritten
        · rfl
        · rfl
  · rw [if_neg hsign, if_pos hsign]

end Loop

/-! ### The text up to a marker -/

/-- A text that ends with its first occurrence of the marker. -/
def EndsAtMarker (before : Bytes) : Prop :=
  find assignment.toList before = some (before.length - assignment.length)

instance (before : Bytes) : Decidable (EndsAtMarker before) :=
  inferInstanceAs (Decidable (_ = _))

/-- A text that ends at its first marker has it there in every longer text. -/
theorem EndsAtMarker.find_append {before : Bytes} (h : EndsAtMarker before) (rest : Bytes) :
    find assignment.toList (before ++ rest) = some (before.length - assignment.length) :=
  find_append_of_some h rest

theorem EndsAtMarker.length_le {before : Bytes} (h : EndsAtMarker before) :
    assignment.length ≤ before.length := by
  have := add_length_le_of_find h
  rw [assignment.toList_length] at this
  omega

theorem EndsAtMarker.isSuffix {before : Bytes} (h : EndsAtMarker before) :
    assignment.toList <:+ before := by
  have hsplit := eq_append_of_find h
  rw [assignment.toList_length, Nat.sub_add_cancel h.length_le, List.drop_length,
    List.append_nil] at hsplit
  exact ⟨_, hsplit.symm⟩

theorem EndsAtMarker.isInfix {before : Bytes} (h : EndsAtMarker before) :
    assignment.toList <:+: before :=
  ⟨_, _, (eq_append_of_find h).symm⟩

/-- A text in which the marker is found starts with a text that ends there. -/
theorem endsAtMarker_take {input : Bytes} {k : ℕ} (h : find assignment.toList input = some k) :
    EndsAtMarker (input.take (k + assignment.length)) ∧
      (input.take (k + assignment.length)).length = k + assignment.length := by
  have hle := add_length_le_of_find h
  obtain ⟨hk, hmarker, hfirst⟩ := find_eq_some_iff.1 h
  rw [assignment.toList_length] at hle
  have hlength : (input.take (k + assignment.length)).length = k + assignment.length := by
    rw [List.length_take]
    omega
  refine ⟨?_, hlength⟩
  rw [EndsAtMarker, hlength, Nat.add_sub_cancel]
  refine find_eq_some_iff.2 ⟨by omega, ?_, fun j hj hp ↦ hfirst j hj ?_⟩
  · rw [List.drop_take, Nat.add_sub_cancel_left]
    exact List.prefix_take_iff.2 ⟨hmarker, le_refl _⟩
  · rw [List.drop_take] at hp
    exact hp.trans (List.take_prefix _ _)

theorem length_drop_lt_of_find {input : Bytes} {k : ℕ}
    (h : find assignment.toList input = some k) :
    (input.drop (k + assignment.length)).length < input.length := by
  have hle := add_length_le_of_find h
  have hpos := assignment.length_pos
  rw [assignment.toList_length] at hle
  rw [List.length_drop]
  omega

/-- The scan goes on with a shorter text. -/
theorem length_lt_of_following {text opening payload rest : Bytes} {quote : UInt8}
    (h : following text = .assigned opening quote payload rest) : rest.length < text.length := by
  obtain ⟨-, -, -, rfl⟩ := following_eq_assigned_iff.1 h
  simp only [List.length_append, List.length_cons]
  omega

/-- **Induction along the scan**: the marker does not occur, or what stands behind its first
occurrence is one of the three cases of `following`. -/
theorem markerInduction {motive : Bytes → Prop}
    (absent : ∀ input, find assignment.toList input = none → motive input)
    (malformed : ∀ before rest, EndsAtMarker before → following rest = .malformed →
      motive rest → motive (before ++ rest))
    (unterminated : ∀ before rest, EndsAtMarker before → following rest = .unterminated →
      motive rest → motive (before ++ rest))
    (assigned : ∀ before opening quote payload rest, EndsAtMarker before → IsOpening opening →
      isQuote quote = true → quote ∉ payload → motive rest →
      motive (before ++ (opening ++ quote :: (payload ++ quote :: rest))))
    (input : Bytes) : motive input := by
  induction hn : input.length using Nat.strongRecOn generalizing input with
  | ind n ih =>
    subst hn
    rcases hfind : find assignment.toList input with - | k
    · exact absent input hfind
    · obtain ⟨hbefore, hlength⟩ := endsAtMarker_take hfind
      have hlt := length_drop_lt_of_find hfind
      have hrest := ih _ hlt (input.drop (k + assignment.length)) rfl
      rw [← List.take_append_drop (k + assignment.length) input]
      generalize input.take (k + assignment.length) = before at hbefore
      generalize input.drop (k + assignment.length) = rest at hlt hrest
      rcases hcase : following rest with - | - | ⟨opening, quote, payload, rest'⟩
      · exact malformed before rest hbefore hcase hrest
      · exact unterminated before rest hbefore hcase hrest
      · have hrest' := ih _ (Nat.lt_trans (length_lt_of_following hcase) hlt) rest' rfl
        obtain ⟨hopening, hquote, hpayload, rfl⟩ := following_eq_assigned_iff.1 hcase
        exact assigned before opening quote payload rest' hbefore hopening hquote hpayload hrest'

/-! ### The turns of a scan -/

/-- What a turn of the scan passes. -/
inductive Turn where
  /-- A text without an assignment. -/
  | copied (text : Bytes)
  /-- A text that ends with a marker whose opening quote is not closed. -/
  | unterminated (text : Bytes)
  /-- A text that ends with an assignment: its payload stands between two quotes. -/
  | assigned (head : Bytes) (quote : UInt8) (payload : Bytes)

/-- The scan of an input, from left to right. Behind a marker that is not the one of an assignment
it continues right there, and behind an assignment it continues behind the closing quote. -/
def turns (input : Bytes) : List Turn :=
  match hfind : find assignment.toList input with
  | none => [.copied input]
  | some k =>
    have hlt := length_drop_lt_of_find hfind
    match hcase : following (input.drop (k + assignment.length)) with
    | .malformed =>
      .copied (input.take (k + assignment.length)) :: turns (input.drop (k + assignment.length))
    | .unterminated =>
      .unterminated (input.take (k + assignment.length)) ::
        turns (input.drop (k + assignment.length))
    | .assigned opening quote payload rest =>
      have := Nat.lt_trans (length_lt_of_following hcase) hlt
      .assigned (input.take (k + assignment.length) ++ opening) quote payload :: turns rest
termination_by input.length
decreasing_by
  · exact hlt
  · exact hlt
  · exact this

theorem turns_of_find_none {input : Bytes} (h : find assignment.toList input = none) :
    turns input = [.copied input] := by
  rw [turns]
  split
  · rfl
  · rename_i k hk
    rw [h] at hk
    exact absurd hk (by simp)

/-- The first turn of a scan, when the marker is found. -/
theorem turns_append {before : Bytes} (hbefore : EndsAtMarker before) (rest : Bytes) :
    turns (before ++ rest) =
      match following rest with
      | .malformed => .copied before :: turns rest
      | .unterminated => .unterminated before :: turns rest
      | .assigned opening quote payload rest' =>
        .assigned (before ++ opening) quote payload :: turns rest' := by
  have hlength : before.length - assignment.length + assignment.length = before.length :=
    Nat.sub_add_cancel hbefore.length_le
  conv_lhs => rw [turns]
  split
  · rename_i hnone
    rw [hbefore.find_append] at hnone
    exact absurd hnone (by simp)
  · rename_i k hk
    rw [hbefore.find_append] at hk
    obtain rfl := Option.some.inj hk
    have htake : (before ++ rest).take (before.length - assignment.length + assignment.length) =
        before := by rw [hlength, List.take_left]
    have hdrop : (before ++ rest).drop (before.length - assignment.length + assignment.length) =
        rest := by rw [hlength, List.drop_left]
    dsimp only
    split
    · rename_i hcase
      rw [hdrop] at hcase
      rw [hcase, hdrop, htake]
    · rename_i hcase
      rw [hdrop] at hcase
      rw [hcase, hdrop, htake]
    · rename_i opening quote payload rest' hcase
      rw [hdrop] at hcase
      rw [hcase, htake]

namespace Turn

/-- The text that a turn passes. -/
def text : Turn → Bytes
  | copied text => text
  | unterminated text => text
  | assigned head quote payload => head ++ quote :: (payload ++ [quote])

/-- Every quote of the turn is closed. -/
def closed : Turn → Bool
  | copied _ => true
  | unterminated _ => false
  | assigned _ _ _ => true

/-- The payload that stands in the place of another. -/
def exchangedPayload (codec : MetadataCodec) (desired : Str) (payload : Bytes) : Bytes :=
  (rewriteMigMetaPayload codec payload desired).getD payload

/-- The text of a turn, with the payload of an assignment exchanged. -/
def exchanged (codec : MetadataCodec) (desired : Str) : Turn → Bytes
  | copied text => text
  | unterminated text => text
  | assigned head quote payload =>
    head ++ quote :: (exchangedPayload codec desired payload ++ [quote])

end Turn

/-- **The turns of a scan partition the input.** -/
theorem flatMap_text_turns (input : Bytes) : (turns input).flatMap Turn.text = input := by
  induction input using markerInduction with
  | absent input hfind =>
    rw [turns_of_find_none hfind]
    simp [Turn.text]
  | malformed before rest hbefore hcase ih =>
    rw [turns_append hbefore, hcase]
    simp [Turn.text, ih]
  | unterminated before rest hbefore hcase ih =>
    rw [turns_append hbefore, hcase]
    simp [Turn.text, ih]
  | assigned before opening quote payload rest hbefore hopening hquote hpayload ih =>
    rw [turns_append hbefore, following_assigned hopening hquote hpayload]
    simp [Turn.text, ih]

/-- What the loop of `rewrite_mig_meta_base_uri` computes: the payloads are exchanged up to the
first quote that is not closed. There the loop breaks, and everything that follows is copied. -/
def migMetaScan (codec : MetadataCodec) (desired : Str) (input : Bytes) : Bytes :=
  ((turns input).takeWhile Turn.closed).flatMap (Turn.exchanged codec desired) ++
    ((turns input).dropWhile Turn.closed).flatMap Turn.text

section Scan

variable {codec : MetadataCodec} {desired : Str} {before : Bytes}

theorem migMetaScan_of_find_none {input : Bytes} (h : find assignment.toList input = none) :
    migMetaScan codec desired input = input := by
  rw [migMetaScan, turns_of_find_none h, List.takeWhile_cons_of_pos rfl,
    List.dropWhile_cons_of_pos rfl]
  simp [Turn.exchanged]

/-- The scan at the first occurrence of the marker. -/
theorem migMetaScan_append (hbefore : EndsAtMarker before) (rest : Bytes) :
    migMetaScan codec desired (before ++ rest) =
      before ++ match following rest with
        | .malformed => migMetaScan codec desired rest
        | .unterminated => rest
        | .assigned opening quote payload rest' =>
          opening ++ quote :: (Turn.exchangedPayload codec desired payload ++
            quote :: migMetaScan codec desired rest') := by
  rw [migMetaScan, turns_append hbefore]
  rcases following rest with - | - | ⟨opening, quote, payload, rest'⟩
  · rw [List.takeWhile_cons_of_pos rfl, List.dropWhile_cons_of_pos rfl]
    simp [Turn.exchanged, migMetaScan]
  · simp [Turn.closed, Turn.text, flatMap_text_turns]
  · rw [List.takeWhile_cons_of_pos rfl, List.dropWhile_cons_of_pos rfl]
    simp [Turn.exchanged, migMetaScan]

end Scan

/-! ### The loop computes the scan -/

section Run

variable {codec : MetadataCodec} {desired : Str} {input output before rest : Bytes}
  {searchFrom copiedUntil : ℕ}

/-- A turn of the loop, by what stands behind the marker. -/
theorem migMetaLoop_step (hbefore : EndsAtMarker before)
    (htext : input.drop searchFrom = before ++ rest) :
    migMetaLoop codec desired input searchFrom copiedUntil output =
      match following rest with
      | .malformed =>
        migMetaLoop codec desired input (searchFrom + before.length) copiedUntil output
      | .unterminated => (output, copiedUntil)
      | .assigned opening _ payload _ =>
        match rewriteMigMetaPayload codec payload desired with
        | none =>
          migMetaLoop codec desired input
            (searchFrom + before.length + opening.length + 1 + payload.length + 1) copiedUntil
            output
        | some rewritten =>
          migMetaLoop codec desired input
            (searchFrom + before.length + opening.length + 1 + payload.length + 1)
            (searchFrom + before.length + opening.length + 1 + payload.length)
            (output ++ (input.take (searchFrom + before.length + opening.length + 1)).drop
              copiedUntil ++ rewritten) := by
  have hle := hbefore.length_le
  have hfind := hbefore.find_append rest
  rw [← htext] at hfind
  have hdrop : input.drop (searchFrom + before.length) = rest := by
    rw [← List.drop_drop, htext, List.drop_left]
  rw [migMetaLoop_of_find (searchFrom + before.length) hfind (by omega), hdrop, following]
  rcases readOpening rest with - | ⟨opening, quote, tail⟩
  · rfl
  · dsimp only
    rcases hend : tail.idxOf? quote with - | length
    · rfl
    · have hlt := (List.idxOf?_eq_some_iff.1 hend).1
      have hlength : (tail.take length).length = length := by
        rw [List.length_take]
        omega
      dsimp only
      rw [hlength]

/-- What is not copied yet, when the search goes on behind `u`. -/
theorem drop_take_add {a b : ℕ} {u v : Bytes} (hab : a ≤ b) (hb : b ≤ input.length)
    (h : input.drop b = u ++ v) :
    (input.take (b + u.length)).drop a = (input.take b).drop a ++ u := by
  rw [List.take_add, h, List.take_left, List.drop_append_of_le_length]
  rw [List.length_take]
  omega

theorem drop_take_append_drop {a b : ℕ} (hab : a ≤ b) (hb : b ≤ input.length) :
    (input.take b).drop a ++ input.drop b = input.drop a := by
  rw [← List.drop_append_of_le_length (by rw [List.length_take]; omega), List.take_append_drop]

/-- **The loop computes the scan**: what is copied so far, and the scan of what is left. -/
theorem migMetaLoop_eq_migMetaScan (codec : MetadataCodec) (desired : Str) (input text : Bytes) :
    ∀ (searchFrom copiedUntil : ℕ) (output : Bytes), input.drop searchFrom = text →
      copiedUntil ≤ searchFrom → searchFrom ≤ input.length →
      ((migMetaLoop codec desired input searchFrom copiedUntil output).1 ++
          input.drop (migMetaLoop codec desired input searchFrom copiedUntil output).2 =
        output ++ (input.take searchFrom).drop copiedUntil ++ migMetaScan codec desired text) ∧
      ((migMetaLoop codec desired input searchFrom copiedUntil output).2 = 0 →
        (migMetaLoop codec desired input searchFrom copiedUntil output).1 = output ∧
          copiedUntil = 0) := by
  induction text using markerInduction with
  | absent text hfind =>
    intro searchFrom copiedUntil output htext hcopied hsearch
    rw [migMetaLoop_of_find_none (htext ▸ hfind), migMetaScan_of_find_none hfind, ← htext,
      List.append_assoc, drop_take_append_drop hcopied hsearch]
    exact ⟨rfl, fun hzero ↦ ⟨rfl, hzero⟩⟩
  | malformed before rest hbefore hcase ih =>
    intro searchFrom copiedUntil output htext hcopied hsearch
    have hlength := congrArg List.length htext
    have hrest : input.drop (searchFrom + before.length) = rest := by
      rw [← List.drop_drop, htext, List.drop_left]
    rw [List.length_drop, List.length_append] at hlength
    obtain ⟨hrun, hzero⟩ := ih (searchFrom + before.length) copiedUntil output hrest (by omega)
      (by omega)
    rw [migMetaLoop_step hbefore htext, migMetaScan_append hbefore, hcase]
    refine ⟨?_, hzero⟩
    rw [hrun, drop_take_add hcopied hsearch htext]
    simp only [List.append_assoc]
  | unterminated before rest hbefore hcase ih =>
    intro searchFrom copiedUntil output htext hcopied hsearch
    rw [migMetaLoop_step hbefore htext, migMetaScan_append hbefore, hcase, ← htext,
      List.append_assoc, drop_take_append_drop hcopied hsearch]
    exact ⟨rfl, fun hzero ↦ ⟨rfl, hzero⟩⟩
  | assigned before opening quote payload rest hbefore hopening hquote hpayload ih =>
    intro searchFrom copiedUntil output htext hcopied hsearch
    rw [migMetaLoop_step hbefore htext, migMetaScan_append hbefore,
      following_assigned hopening hquote hpayload]
    -- the input up to the payload, the payload, and the closing quote
    have hhead : input.drop searchFrom =
        (before ++ (opening ++ [quote])) ++ (payload ++ ([quote] ++ rest)) := by
      rw [htext]
      simp
    have hstart : searchFrom + before.length + opening.length + 1 =
        searchFrom + (before ++ (opening ++ [quote])).length := by
      simp only [List.length_append, List.length_singleton]
      omega
    have htail : input.drop (searchFrom + (before ++ (opening ++ [quote])).length) =
        payload ++ ([quote] ++ rest) := by
      rw [← List.drop_drop, hhead, List.drop_left]
    have hclose : input.drop (searchFrom + (before ++ (opening ++ [quote])).length +
        payload.length) = [quote] ++ rest := by
      rw [← List.drop_drop, htail, List.drop_left]
    have hrest : input.drop (searchFrom + (before ++ (opening ++ [quote])).length +
        payload.length + 1) = rest := by
      rw [← List.drop_drop, hclose]
      rfl
    dsimp only
    rw [hstart]
    generalize hu : before ++ (opening ++ [quote]) = u at hhead htail hclose hrest ⊢
    have hscan : ∀ l, before ++ (opening ++ quote :: l) = u ++ l := by
      intro l
      rw [← hu]
      simp
    have hlength := congrArg List.length hhead
    simp only [List.length_drop, List.length_append, List.length_singleton] at hlength
    rcases hrewritten : rewriteMigMetaPayload codec payload desired with - | rewritten
    · obtain ⟨hrun, hzero⟩ :=
        ih (searchFrom + u.length + payload.length + 1) copiedUntil output hrest
        (by omega) (by omega)
      have hcopy : (input.take (searchFrom + u.length + payload.length + 1)).drop copiedUntil =
          (input.take searchFrom).drop copiedUntil ++ (u ++ (payload ++ [quote])) := by
        rw [← drop_take_add (v := rest) hcopied hsearch (by rw [hhead]; simp)]
        congr 2
        simp only [List.length_append, List.length_singleton]
        omega
      refine ⟨?_, hzero⟩
      rw [hrun, hcopy, hscan, Turn.exchangedPayload, hrewritten, Option.getD_none]
      simp
    · obtain ⟨hrun, hzero⟩ := ih (searchFrom + u.length + payload.length + 1)
        (searchFrom + u.length + payload.length)
        (output ++ (input.take (searchFrom + u.length)).drop copiedUntil ++ rewritten) hrest
        (by omega) (by omega)
      have hquoted : (input.take (searchFrom + u.length + payload.length + 1)).drop
          (searchFrom + u.length + payload.length) = [quote] := by
        rw [List.drop_take, hclose, Nat.add_sub_cancel_left]
        rfl
      refine ⟨?_, fun h ↦ absurd (hzero h).2 ?_⟩
      · rw [hrun, hquoted, drop_take_add hcopied hsearch hhead, hscan, Turn.exchangedPayload,
          hrewritten, Option.getD_some]
        simp
      · have := hbefore.length_le
        have := assignment.length_pos
        rw [← hu, List.length_append]
        omega

end Run

/-- **The code computes the scan.** -/
theorem rewriteMigMetaBaseUri_eq_migMetaScan (codec : MetadataCodec) (input : Bytes)
    (desired : Str) :
    rewriteMigMetaBaseUri codec input desired = migMetaScan codec desired input := by
  obtain ⟨hrun, hzero⟩ := migMetaLoop_eq_migMetaScan codec desired input input 0 0 [] rfl
    (le_refl 0) (Nat.zero_le _)
  rw [List.nil_append, List.take_zero, List.drop_nil, List.nil_append] at hrun
  rw [rewriteMigMetaBaseUri, ← hrun]
  rcases hloop : migMetaLoop codec desired input 0 0 [] with ⟨output, copiedUntil⟩
  rw [hloop] at hzero
  show (if copiedUntil = 0 then input else output ++ input.drop copiedUntil) = _
  split
  · rename_i hcopied
    rw [(hzero hcopied).1, hcopied, List.nil_append, List.drop_zero]
  · rfl

end KseRewriteProxy
