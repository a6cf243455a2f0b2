import PagePartials.Text.Basic

/-!
# Letter case

Lower and upper case, as far as the unaccented Latin letters are concerned. A section name keeps
only `a` to `z` and the digits, and a log level is looked up by its capital letters, so a letter
matters here only if its other case is, or contains, one of those. Besides the Latin letters
themselves these are

* the Kelvin sign, whose lower case is `k`, and the dotted capital I, whose lower case is `i`
  followed by a combining dot;
* the dotless `ı` and the long `ſ`, whose upper cases are `I` and `S`, and the two ligatures of an
  `s` with a `t`, whose upper case is `ST`.

Every other character stands for itself: neither it nor its other case could be told apart from
any other separator, or could complete any name that the log has.

## Main definitions

* `lowerCase c`, `upperCase c`: the two cases of `c`, one character or two
* `Text.lower t`, `Text.upper t`: the two cases of a text
-/

namespace PagePartials

/-- The lower case of a character. -/
def lowerCase (c : Char) : Text :=
  if c = '\u212a' then ['k']
  else if c = '\u0130' then ['i', '\u0307']
  else [c.toLower]

/-- The upper case of a character. -/
def upperCase (c : Char) : Text :=
  if c = '\u0131' then ['I']
  else if c = '\u017f' then ['S']
  else if c = '\ufb05' ∨ c = '\ufb06' then ['S', 'T']
  else [c.toUpper]

namespace Text

/-- The text in lower case. -/
def lower (t : Text) : Text := t.flatMap lowerCase

/-- The text in upper case. -/
def upper (t : Text) : Text := t.flatMap upperCase

end Text

end PagePartials
