import PagePartials.Encoding.Utf8
import PagePartials.Encoding.Utf16

/-!
# Encodings that are built in

The encodings whose bytes are worked out here: UTF-8, UTF-16, ASCII and Latin-1. All others that a
page may be kept in, UTF-32 and the code pages among them, are left out; they come in as codecs from
outside, where encodings are asked for by name.

UTF-8 comes plain and signed: a signed text has a byte order mark in front, which is written with
every text and dropped where one is read. A signed text cut off within the mark is empty. UTF-16
comes plain in either byte order, and signed.

Case does not matter in the name of an encoding, and neither do the signs between its words.

Newlines are written as they are; on reading, a carriage return, with or without a newline after
it, becomes a newline.

## Main definitions

* `Charset`: the encodings that are built in
* `Charset.ofName? n`: the one of them called `n`
* `Charset.encode`, `Charset.decode`: from texts to bytes and back
* `Charset.codec`: both together
* `Text.unifyNewlines t`: `t` as it is read
-/

namespace PagePartials

/-- An encoding that is built in. -/
inductive Charset where
  | utf8
  | signedUtf8
  | utf16 (order : Utf16.ByteOrder)
  | signedUtf16
  | ascii
  | latin1
  deriving DecidableEq, Repr

namespace Charset

/-! ## Names -/

/-- The words of an encoding's name, in lower case and joined by underscores. -/
def plainName (name : Text) : Text :=
  let isWordChar (c : Char) : Bool := c.isAlphanum || c == '.'
  let words := (name.map fun c => if isWordChar c then c.toLower else ' ')
  ['_'].intercalate ((Text.pieces ' ' words).filter (· != []))

/-- The proper name of an encoding. -/
def properName : Charset → String
  | utf8 => "utf_8"
  | signedUtf8 => "utf_8_sig"
  | utf16 .little => "utf_16_le"
  | utf16 .big => "utf_16_be"
  | signedUtf16 => "utf_16"
  | ascii => "ascii"
  | latin1 => "latin_1"

/-- The other names of an encoding. In these a point is as good as an underscore. -/
def aliases : Charset → List String
  | utf8 => ["utf8", "utf", "u8", "utf8_ucs2", "utf8_ucs4", "cp65001"]
  | signedUtf8 => []
  | utf16 .little => ["unicodelittleunmarked", "utf_16le"]
  | utf16 .big => ["unicodebigunmarked", "utf_16be"]
  | signedUtf16 => ["u16", "utf16"]
  | ascii => ["646", "ansi_x3.4_1968", "ansi_x3_4_1968", "ansi_x3.4_1986", "cp367", "csascii",
      "ibm367", "iso646_us", "iso_646.irv_1991", "iso_ir_6", "us", "us_ascii"]
  | latin1 => ["latin1", "latin", "l1", "8859", "cp819", "csisolatin1", "ibm819", "iso8859",
      "iso8859_1", "iso_8859_1", "iso_8859_1_1987", "iso_ir_100"]

/-- Whether a plain name is the proper name or one of the others. -/
def isNameAmong (proper : String) (aliases : List String) (plain : Text) : Bool :=
  plain == proper.toList ||
    aliases.any fun a => plain == a.toList || plain.replace '.' '_' == a.toList

/-- Whether a plain name is one of an encoding. -/
def isCalled (e : Charset) (plain : Text) : Bool := isNameAmong e.properName e.aliases plain

/-- The name, written just so, for whatever encoding the place has. -/
def placeName : Text := "locale".toList

/-- All encodings that are built in. -/
def all : List Charset :=
  [utf8, signedUtf8, utf16 .little, utf16 .big, signedUtf16, ascii, latin1]

/-- The encoding of the given name, if one that is built in has it. Every place has UTF-8. -/
def ofName? (name : Text) : Option Charset :=
  if name = placeName then some utf8 else all.find? (·.isCalled (plainName name))

example : ofName? "UTF8".toList = some utf8 := by decide +kernel
example : ofName? "UTF-16LE".toList = some (utf16 .little) := by decide +kernel
example : ofName? "latin-1".toList = some latin1 := by decide +kernel
example : ofName? "iso8859.1".toList = some latin1 := by decide +kernel
example : ofName? "utf.8".toList = none := by decide +kernel
example : ofName? "nope".toList = none := by decide +kernel

/-! ## Encodings of one byte -/

/-- The bytes of a text whose characters all lie below the limit; otherwise the first run of those
that do not. -/
def encodeBelow (encoding : Text) (limit : Nat) (t : Text) : Except Unencodable Bytes :=
  let fits (c : Char) : Bool := c.toNat < limit
  match t.dropWhile fits with
  | [] => .ok (t.map fun c => .ofNat c.toNat)
  | rest =>
    .error ⟨encoding, (t.takeWhile fits).length, rest.takeWhile fun c => !fits c, .range limit⟩

/-- The text of bytes that are all below `80`; otherwise the first that is not. -/
def decodeAscii (encoding : Text) (bs : Bytes) : Except Undecodable Text :=
  let fits (b : UInt8) : Bool := b.toNat < 0x80
  match bs.dropWhile fits with
  | [] => .ok (bs.map fun b => .ofNat b.toNat)
  | b :: _ => .error ⟨encoding, (bs.takeWhile fits).length, [b], .range⟩

/-! ## All encodings -/

/-- The byte order mark in UTF-8. -/
def mark : Bytes := [0xEF, 0xBB, 0xBF]

/-- The text with the given bytes in UTF-8, which a mark is in front of, or the first part of one,
or none. -/
def decodeSignedUtf8 (bs : Bytes) : Except Undecodable Text :=
  if mark.isPrefixOf bs then Utf8.decode (bs.drop mark.length)
  else if bs.isPrefixOf mark then .ok []
  else Utf8.decode bs

/-- The name of ASCII in errors. -/
def asciiName : Text := "ascii".toList

/-- The name of Latin-1 in errors. -/
def latin1Name : Text := "latin-1".toList

/-- The bytes of a text. -/
def encode (e : Charset) (t : Text) : Except Unencodable Bytes :=
  match e with
  | utf8 => .ok (Utf8.encode t)
  | signedUtf8 => .ok (mark ++ Utf8.encode t)
  | utf16 order => .ok (Utf16.encode order t)
  | signedUtf16 => .ok (Utf16.encodeSigned t)
  | ascii => encodeBelow asciiName 0x80 t
  | latin1 => encodeBelow latin1Name 0x100 t

/-- The text with the given bytes. -/
def decode (e : Charset) (bs : Bytes) : Except DecodingError Text :=
  match e with
  | utf8 => (Utf8.decode bs).mapError .undecodable
  | signedUtf8 => (decodeSignedUtf8 bs).mapError .undecodable
  | utf16 order => (Utf16.decode order bs).mapError .undecodable
  | signedUtf16 => Utf16.decodeSigned bs
  | ascii => (decodeAscii asciiName bs).mapError .undecodable
  | latin1 => .ok (bs.map fun b => .ofNat b.toNat)

/-- The codec of an encoding. -/
def codec (e : Charset) : Codec where
  encode t := (e.encode t).mapError .unencodable
  decode := e.decode

end Charset

/-- The text with a newline for each carriage return and for each carriage return that a newline
follows. -/
def Text.unifyNewlines : Text → Text
  | '\r' :: '\n' :: t => '\n' :: unifyNewlines t
  | '\r' :: t => '\n' :: unifyNewlines t
  | c :: t => c :: unifyNewlines t
  | [] => []

end PagePartials
