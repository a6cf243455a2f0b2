import PagePartials.Text.Basic
import PagePartials.Text.CharClass

/-!
# Blanks

The characters that count as white space, and the two operations that lean on them: trimming a
text at both ends, and asking whether it holds nothing else.

The class holds the Unicode white space together with the four information separators; the zero
width space, the Mongolian vowel separator and the byte order mark are not in it.

## Main definitions

* `isBlank c`: whether `c` is white space
* `Text.trimStart t`, `Text.trimEnd t`, `Text.trim t`: `t` without blanks at its ends
* `Text.isBlank t`: whether `t` holds nothing but blanks
-/

namespace PagePartials

/-- The white space characters. -/
def blank : CharClass where
  ranges := [(0x9, 0xD), (0x1C, 0x20), (0x85, 0x85), (0xA0, 0xA0), (0x1680, 0x1680),
    (0x2000, 0x200A), (0x2028, 0x2029), (0x202F, 0x202F), (0x205F, 0x205F), (0x3000, 0x3000)]

/-- Whether the character is white space. -/
def isBlank (c : Char) : Bool := blank.contains c

example : isBlank '\n' ∧ isBlank ' ' ∧ isBlank '\x1c' ∧ ¬ isBlank '\u200b' := by decide

namespace Text

/-- The text without the blanks it starts with. -/
def trimStart (t : Text) : Text := t.dropWhile PagePartials.isBlank

/-- The text without the blanks it ends with. -/
def trimEnd (t : Text) : Text := (t.reverse.dropWhile PagePartials.isBlank).reverse

/-- The text without the blanks at its two ends. -/
def trim (t : Text) : Text := trimEnd (trimStart t)

/-- Whether the text holds nothing but blanks. -/
def isBlank (t : Text) : Bool := t.all PagePartials.isBlank

@[simp] theorem isBlank_nil : isBlank [] = true := rfl

@[simp] theorem isBlank_append (s t : Text) : isBlank (s ++ t) = (isBlank s && isBlank t) := by
  simp [isBlank]

theorem isBlank_eq_false_iff {t : Text} :
    isBlank t = false ↔ ∃ c ∈ t, PagePartials.isBlank c = false := by
  simp [isBlank]

end Text

end PagePartials
