import PagePartials.Text.Quoted

/-!
# Codecs

A codec keeps texts as bytes: it gives the bytes of a text, and the text of bytes. It may fail at
either. Mostly it then tells where the trouble starts, how far it reaches, and what it is; but some
codecs refuse bytes or a text without naming a place in it. Texts hold characters only, so a codec
that gives lone surrogates for some bytes has no place here.

## Main definitions

* `Undecodable`: bytes that are no text
* `Unencodable`: characters that have no bytes
* `Undecodable.message`, `Unencodable.message`: the errors as they are shown
* `Codec`: from texts to bytes and back
-/

namespace PagePartials

/-- A list of bytes. -/
abbrev Bytes := List UInt8

/-- What is wrong with bytes that are no text. -/
inductive ByteFlaw where
  /-- No character starts with the byte. -/
  | start
  /-- A character is broken off by a byte that cannot continue it. -/
  | continuation
  /-- The bytes end within a character. -/
  | ending
  /-- The byte is beyond the characters of the encoding. -/
  | range
  /-- The bytes end within a unit of several bytes. -/
  | truncation
  /-- The second half of a pair of units stands without the first one. -/
  | loneSecond
  /-- The first half of a pair of units stands without the second one. -/
  | loneFirst
  /-- Any other flaw, as it is shown. -/
  | other (reason : Text)
  deriving DecidableEq, Repr

/-- The flaw as it is shown. -/
def ByteFlaw.message : ByteFlaw → Text
  | start => "invalid start byte".toList
  | continuation => "invalid continuation byte".toList
  | ending => "unexpected end of data".toList
  | range => "ordinal not in range(128)".toList
  | truncation => "truncated data".toList
  | loneSecond => "illegal encoding".toList
  | loneFirst => "illegal UTF-16 surrogate".toList
  | other reason => reason

/-- Bytes that are no text: the encoding, where they start, the bytes, and what is wrong. -/
structure Undecodable where
  encoding : Text
  position : Nat
  bytes : Bytes
  flaw : ByteFlaw
  deriving DecidableEq, Repr

/-- A stretch of positions, the last one included. -/
def stretch (first length : Nat) : Text :=
  Nat.toDigits 10 first ++ '-' :: Nat.toDigits 10 (first + length - 1)

/-- The error as it is shown. -/
def Undecodable.message (e : Undecodable) : Text :=
  let place :=
    match e.bytes with
    | [b] =>
      "byte 0x".toList ++ hexDigits 2 b.toNat ++ " in position ".toList ++
        Nat.toDigits 10 e.position
    | bs => "bytes in position ".toList ++ stretch e.position bs.length
  e.encoding.quoted ++ " codec can't decode ".toList ++ place ++ ": ".toList ++ e.flaw.message

/-- What is wrong with characters that have no bytes. -/
inductive CharFlaw where
  /-- The characters are beyond those of the encoding, which has so many. -/
  | range (limit : Nat)
  /-- Any other flaw, as it is shown. -/
  | other (reason : Text)
  deriving DecidableEq, Repr

/-- The flaw as it is shown. -/
def CharFlaw.message : CharFlaw → Text
  | range limit => "ordinal not in range(".toList ++ Nat.toDigits 10 limit ++ [')']
  | other reason => reason

/-- Characters that have no bytes: the encoding, where they start, the characters, and what is
wrong. -/
structure Unencodable where
  encoding : Text
  position : Nat
  chars : Text
  flaw : CharFlaw
  deriving DecidableEq, Repr

/-- The error as it is shown. -/
def Unencodable.message (e : Unencodable) : Text :=
  let place :=
    match e.chars with
    | [c] =>
      "character '".toList ++ escapedNumber c ++ "' in position ".toList ++
        Nat.toDigits 10 e.position
    | cs => "characters in position ".toList ++ stretch e.position cs.length
  e.encoding.quoted ++ " codec can't encode ".toList ++ place ++ ": ".toList ++ e.flaw.message

/-- Why a codec gives no text for bytes: some of them are no text, or it refuses them otherwise,
with a message. -/
inductive DecodingError where
  | undecodable (e : Undecodable)
  | refused (message : Text)
  deriving DecidableEq, Repr

/-- Why a codec gives no bytes for a text: some characters have none, or it refuses the text
otherwise, with a message. -/
inductive EncodingError where
  | unencodable (e : Unencodable)
  | refused (message : Text)
  deriving DecidableEq, Repr

/-- A way to keep texts as bytes. -/
structure Codec where
  encode : Text → Except EncodingError Bytes
  decode : Bytes → Except DecodingError Text

end PagePartials
