import KseRewriteProxy.Rewrite.Policy

/-!
# The `_mig_meta` transform

`rewrite_mig_meta_base_uri` of `rewrite.rs`: looks for assignments `window._mig_meta = '…'` whose
payload is the Base64 of a JSON object, and exchanges the `baseURI` of the object.

Base64 and JSON come from the crates `base64` and `serde_json`. They are the parameter
`MetadataCodec`, with the operations that the code calls. A payload is exchanged only if it decodes,
is an object, and has the expected `baseURI`; otherwise it is copied as it stands.

The loop of the source moves three cursors over the input: where it searches next, up to where it
has copied, and where it reads. The definition keeps them, with the searches and the slices of the
source, so that it can be compared line by line; that it is a scan from left to right is proved in
the module on the scan.
-/

namespace KseRewriteProxy

open Text

/-- What the transform calls of `base64` and `serde_json`. -/
structure MetadataCodec where
  /-- `serde_json::Value`. -/
  Value : Type
  /-- `STANDARD.decode`. -/
  decode : Bytes → Option Bytes
  /-- `STANDARD.encode`. -/
  encode : Bytes → Bytes
  /-- `serde_json::from_slice`. -/
  fromSlice : Bytes → Option Value
  /-- `serde_json::to_vec`. -/
  toVec : Value → Option Bytes
  /-- `get("baseURI")` and `as_str` of it: the string under the top-level key. -/
  baseUri : Value → Option Str
  /-- The value with another string under the top-level key. -/
  setBaseUri : Value → Str → Value

/-- `ASSIGNMENT`. -/
def assignment : Needle UInt8 :=
  ⟨bytes "window._mig_meta", by decide⟩

/-- `u8::is_ascii_whitespace`. -/
def isAsciiWhitespace (byte : UInt8) : Bool :=
  byte == 0x20 || byte == 0x09 || byte == 0x0A || byte == 0x0C || byte == 0x0D

/-- `skip_ascii_whitespace`: the position behind the whitespace at `position`. -/
def skipAsciiWhitespace (input : Bytes) (position : ℕ) : ℕ :=
  position + ((input.drop position).takeWhile isAsciiWhitespace).length

/-- A quote that may enclose a payload. -/
def isQuote (byte : UInt8) : Bool :=
  byte == 0x27 || byte == 0x22

/-- The `baseURI` that is exchanged. -/
def migMetaBaseUri : Str :=
  str "/proxy/ys1000"

/-- `rewrite_mig_meta_payload`. -/
def rewriteMigMetaPayload (codec : MetadataCodec) (encoded : Bytes) (desiredBaseUri : Str) :
    Option Bytes := do
  let decoded ← codec.decode encoded
  let metadata ← codec.fromSlice decoded
  let baseUri ← codec.baseUri metadata
  if baseUri = migMetaBaseUri then
    (codec.toVec (codec.setBaseUri metadata desiredBaseUri)).map codec.encode
  else none

/-- The loop of `rewrite_mig_meta_base_uri`, with its three variables. It returns the output and
`copied_until`. -/
def migMetaLoop (codec : MetadataCodec) (desiredBaseUri : Str) (input : Bytes)
    (searchFrom copiedUntil : ℕ) (output : Bytes) : Bytes × ℕ :=
  match hfind : find assignment.toList (input.drop searchFrom) with
  | none => (output, copiedUntil)
  | some relativeStart =>
    have hstart : input.length - (searchFrom + relativeStart + assignment.length) <
        input.length - searchFrom := by
      have := add_length_le_of_find hfind
      have := assignment.length_pos
      rw [List.length_drop, assignment.toList_length] at *
      omega
    let assignmentStart := searchFrom + relativeStart
    let position := skipAsciiWhitespace input (assignmentStart + assignment.length)
    if input[position]? ≠ some 0x3D then
      migMetaLoop codec desiredBaseUri input (assignmentStart + assignment.length) copiedUntil
        output
    else
      let position' := skipAsciiWhitespace input (position + 1)
      match (input[position']?).filter isQuote with
      | none =>
        migMetaLoop codec desiredBaseUri input (assignmentStart + assignment.length) copiedUntil
          output
      | some quote =>
        let encodedStart := position' + 1
        match (input.drop encodedStart).idxOf? quote with
        | none => (output, copiedUntil)
        | some relativeEnd =>
          have : input.length - (encodedStart + relativeEnd + 1) <
              input.length - searchFrom := by
            have : assignmentStart + assignment.length ≤ position :=
              Nat.le_add_right _ _
            have : position + 1 ≤ position' := Nat.le_add_right _ _
            omega
          let encodedEnd := encodedStart + relativeEnd
          match rewriteMigMetaPayload codec ((input.take encodedEnd).drop encodedStart)
              desiredBaseUri with
          | none =>
            migMetaLoop codec desiredBaseUri input (encodedEnd + 1) copiedUntil output
          | some rewritten =>
            migMetaLoop codec desiredBaseUri input (encodedEnd + 1) encodedEnd
              (output ++ (input.take encodedStart).drop copiedUntil ++ rewritten)
termination_by input.length - searchFrom

/-- `rewrite_mig_meta_base_uri`. -/
def rewriteMigMetaBaseUri (codec : MetadataCodec) (input : Bytes) (desiredBaseUri : Str) :
    Bytes :=
  let (output, copiedUntil) := migMetaLoop codec desiredBaseUri input 0 0 []
  if copiedUntil = 0 then input else output ++ input.drop copiedUntil

end KseRewriteProxy
