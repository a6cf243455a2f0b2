import PagePartials.Encoding.Basic

/-!
# UTF-8

A character in one to four bytes. The first byte tells how many follow and holds the upper bits of
the character's number; each following byte, from `80` to `BF`, holds six more. The range of the
second byte is narrower after some first bytes, so that no number is written in more bytes than it
needs and none names a surrogate or lies beyond the last character.

## Main definitions

* `Utf8.encode t`: the bytes of `t`
* `Utf8.Pending`: a character whose bytes have not all been read
* `Utf8.decode bs`: the text with bytes `bs`, or the first bytes that are wrong
-/

namespace PagePartials

namespace Utf8

/-- The bytes of a character. -/
def encodeChar (c : Char) : Bytes :=
  let n := c.toNat
  let tail (k : Nat) : UInt8 := .ofNat (0x80 + k % 0x40)
  if n < 0x80 then [.ofNat n]
  else if n < 0x800 then [.ofNat (0xC0 + n / 0x40), tail n]
  else if n < 0x10000 then [.ofNat (0xE0 + n / 0x1000), tail (n / 0x40), tail n]
  else [.ofNat (0xF0 + n / 0x40000), tail (n / 0x1000), tail (n / 0x40), tail n]

/-- The bytes of a text. -/
def encode (t : Text) : Bytes := t.flatMap encodeChar

/-- A character whose bytes have not all been read: where it starts, the bytes read, the number
they hold, how many bytes are to follow, and the range of the next one. -/
structure Pending where
  position : Nat
  bytes : Bytes
  value : Nat
  owed : Nat
  low : Nat
  high : Nat
  deriving DecidableEq, Repr

/-- The character that starts with the given byte, if one does. -/
def begin? (position : Nat) (b : UInt8) : Option Pending :=
  let n := b.toNat
  let pending (value owed low high : Nat) : Option Pending :=
    some ⟨position, [b], value, owed, low, high⟩
  if n < 0x80 then pending n 0 0x80 0xBF
  else if n < 0xC2 then none
  else if n < 0xE0 then pending (n - 0xC0) 1 0x80 0xBF
  else if n = 0xE0 then pending (n - 0xE0) 2 0xA0 0xBF
  else if n = 0xED then pending (n - 0xE0) 2 0x80 0x9F
  else if n < 0xF0 then pending (n - 0xE0) 2 0x80 0xBF
  else if n = 0xF0 then pending (n - 0xF0) 3 0x90 0xBF
  else if n < 0xF4 then pending (n - 0xF0) 3 0x80 0xBF
  else if n = 0xF4 then pending (n - 0xF0) 3 0x80 0x8F
  else none

/-- The character after one more byte, if the byte can follow. -/
def Pending.next? (p : Pending) (b : UInt8) : Option Pending :=
  if p.low ≤ b.toNat ∧ b.toNat ≤ p.high then
    some ⟨p.position, p.bytes ++ [b], p.value * 0x40 + (b.toNat - 0x80), p.owed - 1, 0x80, 0xBF⟩
  else none

/-- The name of the encoding in errors. -/
def encodingName : Text := "utf-8".toList

/-- The error that the bytes of a broken character are. -/
def Pending.broken (p : Pending) (flaw : ByteFlaw) : Undecodable :=
  ⟨encodingName, p.position, p.bytes, flaw⟩

/-- The character that a byte belongs to, perhaps begun before it. -/
def advance (position : Nat) (before : Option Pending) (b : UInt8) : Except Undecodable Pending :=
  match before with
  | none =>
    match begin? position b with
    | some p => .ok p
    | none => .error ⟨encodingName, position, [b], .start⟩
  | some p =>
    match p.next? b with
    | some q => .ok q
    | none => .error (p.broken .continuation)

/-- The text of the bytes from a position on, with a character perhaps begun before it. -/
def decodeFrom (position : Nat) : Option Pending → Bytes → Except Undecodable Text
  | none, [] => .ok []
  | some p, [] => .error (p.broken .ending)
  | before, b :: bs =>
    match advance position before b with
    | .error e => .error e
    | .ok p =>
      if p.owed = 0 then (decodeFrom (position + 1) none bs).map (.ofNat p.value :: ·)
      else decodeFrom (position + 1) (some p) bs

/-- The text with the given bytes. -/
def decode (bs : Bytes) : Except Undecodable Text := decodeFrom 0 none bs

example : (decode [0x68, 0xC3, 0xA9]).toOption = some "hé".toList := by decide +kernel
example : decode [0xE2, 0x82] = .error ⟨encodingName, 0, [0xE2, 0x82], .ending⟩ := rfl
example : decode [0xED, 0xA0, 0x80] = .error ⟨encodingName, 0, [0xED], .continuation⟩ := rfl

end Utf8

end PagePartials
