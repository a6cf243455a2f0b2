import PagePartials.Encoding.Basic

/-!
# UTF-16

A character in one or two units of two bytes. The numbers of characters up to `FFFF` are units of
their own; what a number has above `10000` is split over a pair of units, ten bits in each, and the
pair is told by the ranges of its halves, which no character has its number in.

Either byte of a unit can come first. A text can say which one does by a byte order mark in front;
signed texts have one, and where it is missing from bytes they are refused. No mark is missed in
bytes that are none, or that are no text anyway.

## Main definitions

* `Utf16.ByteOrder`: which byte of a unit comes first
* `Utf16.encode order t`, `Utf16.decode order bs`: texts without a mark
* `Utf16.encodeSigned t`, `Utf16.decodeSigned bs`: texts with a mark
-/

namespace PagePartials

namespace Utf16

/-! ## Units -/

/-- Which byte of a unit comes first: the lower one or the upper one. -/
inductive ByteOrder where
  | little
  | big
  deriving DecidableEq, Repr

namespace ByteOrder

/-- The bytes of a unit. -/
def bytes (order : ByteOrder) (unit : Nat) : Bytes :=
  let lower : UInt8 := .ofNat (unit % 0x100)
  let upper : UInt8 := .ofNat (unit / 0x100)
  match order with
  | little => [lower, upper]
  | big => [upper, lower]

/-- The unit with the given bytes. -/
def unit (order : ByteOrder) (a b : UInt8) : Nat :=
  match order with
  | little => a.toNat + 0x100 * b.toNat
  | big => 0x100 * a.toNat + b.toNat

/-- The name of the encoding in errors. -/
def encodingName : ByteOrder → Text
  | little => "utf-16-le".toList
  | big => "utf-16-be".toList

/-- The byte order mark. -/
def mark (order : ByteOrder) : Bytes := order.bytes 0xFEFF

end ByteOrder

/-- Whether the unit is the first half of a pair. -/
def isFirstHalf (unit : Nat) : Bool := 0xD800 ≤ unit && unit < 0xDC00

/-- Whether the unit is the second half of a pair. -/
def isSecondHalf (unit : Nat) : Bool := 0xDC00 ≤ unit && unit < 0xE000

/-- The units of a character. -/
def unitsOf (c : Char) : List Nat :=
  if c.toNat < 0x10000 then [c.toNat]
  else [0xD800 + (c.toNat - 0x10000) / 0x400, 0xDC00 + c.toNat % 0x400]

/-- The character of a pair. -/
def charOf (first second : Nat) : Char :=
  .ofNat (0x10000 + (first - 0xD800) * 0x400 + (second - 0xDC00))

/-! ## Texts without a mark -/

/-- The bytes of a text. -/
def encode (order : ByteOrder) (t : Text) : Bytes := (t.flatMap unitsOf).flatMap order.bytes

/-- The text of the bytes from a position on. -/
def decodeFrom (order : ByteOrder) (position : Nat) : Bytes → Except Undecodable Text
  | [] => .ok []
  | [b] => .error ⟨order.encodingName, position, [b], .truncation⟩
  | a :: b :: bs =>
    if isFirstHalf (order.unit a b) then
      match bs with
      | c :: d :: bs =>
        if isSecondHalf (order.unit c d) then
          (decodeFrom order (position + 4) bs).map
            (charOf (order.unit a b) (order.unit c d) :: ·)
        else .error ⟨order.encodingName, position, [a, b], .loneFirst⟩
      | rest => .error ⟨order.encodingName, position, a :: b :: rest, .ending⟩
    else if isSecondHalf (order.unit a b) then
      .error ⟨order.encodingName, position, [a, b], .loneSecond⟩
    else (decodeFrom order (position + 2) bs).map (.ofNat (order.unit a b) :: ·)

/-- The text with the given bytes. -/
def decode (order : ByteOrder) (bs : Bytes) : Except Undecodable Text := decodeFrom order 0 bs

example : (decode .big (encode .big "aé😀".toList)).toOption = some "aé😀".toList := by
  decide +kernel
example : decode .little [0x00, 0xD8, 0x61] =
    .error ⟨"utf-16-le".toList, 0, [0x00, 0xD8, 0x61], .ending⟩ := rfl

/-! ## Texts with a mark -/

/-- The bytes of a text, with a mark in front. -/
def encodeSigned (t : Text) : Bytes := ByteOrder.little.mark ++ encode .little t

/-- What is said of bytes without a mark. -/
def unsigned : Text := "UTF-16 stream does not start with BOM".toList

/-- The text with the given bytes, which a mark is in front of. -/
def decodeSigned (bs : Bytes) : Except DecodingError Text :=
  if ByteOrder.little.mark.isPrefixOf bs then
    (decodeFrom .little 2 (bs.drop 2)).mapError .undecodable
  else if ByteOrder.big.mark.isPrefixOf bs then
    (decodeFrom .big 2 (bs.drop 2)).mapError .undecodable
  else match decode .little bs with
    | .ok [] => .ok []
    | .ok _ => .error (.refused unsigned)
    | .error e => .error (.undecodable e)

example : (decodeSigned [0xFE, 0xFF, 0x00, 0x61]).toOption = some ['a'] := by decide +kernel
example : decodeSigned [0x61, 0x00] = .error (.refused unsigned) := by rfl

end Utf16

end PagePartials
