import PagePartials.Comment

/-!
# Section markers

A marker is a comment that begins or ends a section. Four forms are known, tried in this order:

* `<!-- begin: NAME -->` begins a section;
* `<!-- end: NAME -->` and `<!-- End of NAME -->` end one;
* `<!-- NAME -->` begins a section if `NAME` contains neither `end` nor `End of`.

Any other comment is no marker, so `<!-- append here -->` is text like any other.

## Main definitions

* `Marker`: the beginning or the end of a section, with the name it carries
* `Marker.ofComment? t`: the marker that a comment of text `t` is
* `Marker.ofLine? l`: the marker that a line carries
-/

namespace PagePartials

/-- The beginning or the end of a section, with the name written in the marker. -/
inductive Marker where
  | begins (name : Text)
  | ends (name : Text)
  deriving DecidableEq, Repr

namespace Marker

/-- The name written in the marker. -/
def name : Marker → Text
  | begins n => n
  | ends n => n

/-- Whether the marker begins a section. -/
def isBegin : Marker → Bool
  | begins _ => true
  | ends _ => false

/-- Whether the marker ends a section. -/
def isEnd (m : Marker) : Bool := !m.isBegin

/-- What a comment that begins a section starts with. -/
def beginWord : Text := "begin:".toList

/-- What a comment that ends a section starts with. -/
def endWord : Text := "end:".toList

/-- The other word that a comment ending a section may start with. -/
def endOfWord : Text := "End of".toList

/-- The word that keeps a comment from beginning a section by its name alone. -/
def plainEnd : Text := "end".toList

/-- The marker that a comment of the given text is. -/
def ofComment? (t : Text) : Option Marker :=
  match Text.after? beginWord t, Text.after? endWord t, Text.after? endOfWord t with
  | some n, _, _ => some (begins n.trim)
  | none, some n, _ => some (ends n.trim)
  | none, none, some n => some (ends n.trim)
  | none, none, none =>
    if Text.occursIn plainEnd t || Text.occursIn endOfWord t then none else some (begins t)

/-- The marker that a line carries. -/
def ofLine? (line : Text) : Option Marker := (Comment.text? line).bind ofComment?

example : ofLine? "<p><!-- begin: Main Nav -->\n".toList = some (begins "Main Nav".toList) := by
  decide
example : ofLine? "<!-- append here -->".toList = none := by decide

end Marker

end PagePartials
