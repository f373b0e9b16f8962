import GlobPreset.Text.Quoted

/-!
# UTF-8

Which texts have a form in UTF-8. Scalar values do, and surrogates do not. A surrogate that stands
for a byte is written as that byte where the operating system reads it; in turn the system hands
over such a text for bytes that are not UTF-8.

## Main definitions

* `Text.encodingError?` — the first surrogates that are in the way of writing a text.
* `Text.decodingError?` — the first bytes that are in the way of reading a text.
* `EncodingError.message`, `DecodingError.message` — the wording of the two.
-/

set_option autoImplicit false

namespace GlobPreset

/-- Surrogates that UTF-8 has no form for. -/
structure EncodingError where
  /-- The number of code points in front of them. -/
  position : Nat
  /-- The surrogates. -/
  run : Text
deriving DecidableEq, Repr

/-- What is wrong with bytes that are not UTF-8. -/
inductive DecodingFlaw where
  | invalidStart
  | invalidContinuation
  | endOfData
deriving DecidableEq, Repr

/-- Bytes that are not UTF-8. -/
structure DecodingError where
  /-- The number of bytes in front of them. -/
  position : Nat
  /-- The first of them. -/
  byte : Nat
  /-- How many they are. -/
  count : Nat
  /-- What is wrong with them. -/
  flaw : DecodingFlaw
deriving DecidableEq, Repr

namespace Text

/-! ### Writing -/

/-- The first surrogates of a text that do not pass, up to the end of the run that they are in. -/
def encodingError? (passes : CodePoint → Bool) (t : Text) : Option EncodingError :=
  let isWritten (c : CodePoint) : Bool := !c.isSurrogate || passes c
  match t.dropWhile isWritten with
  | [] => none
  | rest => some ⟨(t.takeWhile isWritten).length, rest.takeWhile CodePoint.isSurrogate⟩

/-! ### Reading -/

/-- The ranges of the bytes that have to follow a byte, if it can start a scalar value. -/
def followers? (byte : Nat) : Option (List (Nat × Nat)) :=
  let tail := (0x80, 0xBF)
  if 0xC2 ≤ byte && byte ≤ 0xDF then some [tail]
  else if byte = 0xE0 then some [(0xA0, 0xBF), tail]
  else if byte = 0xED then some [(0x80, 0x9F), tail]
  else if 0xE1 ≤ byte && byte ≤ 0xEF then some [tail, tail]
  else if byte = 0xF0 then some [(0x90, 0xBF), tail, tail]
  else if 0xF1 ≤ byte && byte ≤ 0xF3 then some [tail, tail, tail]
  else if byte = 0xF4 then some [(0x80, 0x8F), tail, tail]
  else none

/-- How many bytes in front are in the ranges, one after another, and whether the text ends with
them while more would have to follow. -/
def followed : List (Nat × Nat) → Text → Nat × Bool
  | [], _ => (0, false)
  | _ :: _, [] => (0, true)
  | range :: ranges, c :: rest =>
    match c.byte? with
    | none => (0, false)
    | some byte =>
      if range.1 ≤ byte && byte ≤ range.2 then
        let (count, ends) := followed ranges rest
        (count + 1, ends)
      else (0, false)

/-- The first bytes of a text that are not UTF-8. -/
def decodingError? (t : Text) : Option DecodingError :=
  match t.dropWhile (fun c => !c.isSurrogate) with
  | [] => none
  | c :: rest =>
    let position := byteCount (t.takeWhile (fun c => !c.isSurrogate))
    let byte := c.byte?.getD 0
    match followers? byte with
    | none => some ⟨position, byte, 1, .invalidStart⟩
    | some ranges =>
      let (count, ends) := followed ranges rest
      some ⟨position, byte, count + 1, if ends then .endOfData else .invalidContinuation⟩

/-! ### Wording -/

/-- What stands at the positions from one to another. -/
def atPositions (one many : Text) (first last : Nat) : Text :=
  if first = last then one ++ " in position ".toText ++ ofNat first
  else many ++ " in position ".toText ++ ofNat first ++ .of '-' :: ofNat last

end Text

/-- The wording of surrogates that cannot be written. -/
def EncodingError.message (e : EncodingError) : Text :=
  "'utf-8' codec can't encode ".toText ++
    Text.atPositions
      ("character '".toText ++ e.run.flatMap (Text.quoteChar (.of '\'')) ++ [.of '\''])
      "characters".toText e.position (e.position + e.run.length - 1) ++
    ": surrogates not allowed".toText

/-- The wording of a flaw. -/
def DecodingFlaw.message : DecodingFlaw → Text
  | invalidStart => "invalid start byte".toText
  | invalidContinuation => "invalid continuation byte".toText
  | endOfData => "unexpected end of data".toText

/-- The wording of bytes that are not UTF-8. -/
def DecodingError.message (e : DecodingError) : Text :=
  "'utf-8' codec can't decode ".toText ++
    Text.atPositions ("byte 0x".toText ++ Text.hexDigits 2 e.byte) "bytes".toText e.position
      (e.position + e.count - 1) ++
    ": ".toText ++ e.flaw.message

end GlobPreset
