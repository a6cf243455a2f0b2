import PagePartials.Text.Basic
import PagePartials.Text.Printable

/-!
# Quoted texts

The form in which a log record or an error shows a text: between single quotes, or between double
quotes when the text holds a single quote and no double one. A backslash and the quote in use are
escaped, the tab, the newline and the carriage return have letters, and what cannot be printed is
written by its number.

## Main definitions

* `escapedNumber c`: the number of `c` after a backslash
* `quoteMark t`: the quote that `t` is written with
* `Text.quoted t`: `t` between its quotes
-/

namespace PagePartials

/-- The number in hexadecimal, with zeros in front up to the given width. -/
def hexDigits (width n : Nat) : Text :=
  let digits := Nat.toDigits 16 n
  List.replicate (width - digits.length) '0' ++ digits

/-- A character written by its number, in two, four or eight hexadecimal digits. -/
def escapedNumber (c : Char) : Text :=
  let n := c.toNat
  if n ≤ 0xFF then '\\' :: 'x' :: hexDigits 2 n
  else if n ≤ 0xFFFF then '\\' :: 'u' :: hexDigits 4 n
  else '\\' :: 'U' :: hexDigits 8 n

/-- The quote a text is written with: the double one only if the text holds single quotes and no
double ones. -/
def quoteMark (t : Text) : Char := if '\'' ∈ t ∧ '"' ∉ t then '"' else '\''

/-- A character inside the given quotes. -/
def quotedChar (mark c : Char) : Text :=
  if c = '\\' ∨ c = mark then ['\\', c]
  else if c = '\t' then ['\\', 't']
  else if c = '\n' then ['\\', 'n']
  else if c = '\r' then ['\\', 'r']
  else if isPrintable c then [c]
  else escapedNumber c

/-- The text between its quotes. -/
def Text.quoted (t : Text) : Text :=
  let mark := quoteMark t
  mark :: t.flatMap (quotedChar mark) ++ [mark]

example : Text.quoted "it's".toList = "\"it's\"".toList := by decide +kernel
example : Text.quoted "\t'\"".toList = "'\\t\\'\"'".toList := by decide +kernel

end PagePartials
