import PagePartials.Path
import PagePartials.Text.Blank

/-!
# Sections and their partials

A section is a region of a page that becomes a template of its own. This module holds a section
as it stands among others, and what follows from where it stands: its path, the name of its
partial template, the line that includes that partial in another, and the text of the partial.

The partial holds the marker that begins the section, the section's own lines, one include line
for each section right inside it, and the marker that ends it. Own lines that repeat one of the
two markers are left out, and so is a blank line that is the only one.

## Main definitions

* `Section`: a section's name, own lines and markers
* `PlacedSection`: a section with the names around it and the paths right inside it
* `SectionPath.partialName p`: the file name of the partial of the section at path `p`
* `SectionPath.includeLine p`: the line that includes that partial
* `Section.render s below`: the text of the partial of `s`
* `PlacedSection.isEmittable s`: whether that text holds anything but blanks
* `PlacedSection.location s`: where the partial lies below the directory of all partials
-/

namespace PagePartials

/-- A region of a page: its name, its own lines, and the lines with its markers. -/
structure Section where
  name : Text
  content : List Text
  startComment : Option Text
  endComment : Option Text
  deriving DecidableEq, Repr

/-- A section where it stands: the names of the sections around it, outermost first, and the
paths of the sections right inside it. -/
structure PlacedSection extends Section where
  above : List Text
  below : List Text
  deriving DecidableEq, Repr

/-! ## Paths of sections -/

namespace SectionPath

/-- The path through the given names. -/
def join (names : List Text) : Text := ['/'].intercalate names

/-- The file name of the partial at a path. -/
def partialName (path : Text) : Text := '_' :: path.replace '/' '_' ++ ".html".toList

/-- How a template refers to the partial at a path. -/
def reference (path : Text) : Text := "'partials/".toList ++ partialName path ++ ['\'']

/-- The line that includes the partial at a path. -/
def includeLine (path : Text) : Text :=
  "    <%= render ".toList ++ reference path ++ " %>\n".toList

/-- Where the partial at a path lies: each name of the path but the last is a directory. -/
def location (path : Text) : Path :=
  .ofSegments ((Text.pieces '/' path).dropLast ++ [partialName path])

end SectionPath

/-! ## The text of a partial -/

namespace Section

/-- Whether the section has one own line and no more. -/
def hasLoneLine (s : Section) : Bool :=
  match s.content with
  | [_] => true
  | _ => false

/-- Whether the partial keeps one of the section's own lines. -/
def keeps (s : Section) (line : Text) : Bool :=
  some line != s.startComment && some line != s.endComment && !(s.hasLoneLine && line.isBlank)

/-- The own lines that the partial keeps. -/
def keptLines (s : Section) : List Text := s.content.filter s.keeps

/-- The text of the partial, for a section with the sections at the given paths inside it. -/
def render (s : Section) (below : List Text) : Text :=
  s.startComment.getD [] ++ s.keptLines.flatten ++ below.flatMap SectionPath.includeLine ++
    s.endComment.getD []

end Section

namespace PlacedSection

/-- The path of a section: the names around it and its own. -/
def fullPath (s : PlacedSection) : Text := SectionPath.join (s.above ++ [s.name])

/-- How many sections stand around a section. -/
def depth (s : PlacedSection) : Nat := s.above.length

/-- The file name of the section's partial. -/
def partialName (s : PlacedSection) : Text := SectionPath.partialName s.fullPath

/-- The line that includes the section's partial. -/
def includeLine (s : PlacedSection) : Text := SectionPath.includeLine s.fullPath

/-- Where the section's partial lies. -/
def location (s : PlacedSection) : Path := SectionPath.location s.fullPath

/-- The text of the section's partial. -/
def render (s : PlacedSection) : Text := s.toSection.render s.below

/-- Whether the section's partial holds anything but blanks. -/
def isEmittable (s : PlacedSection) : Bool := !s.render.isBlank

end PlacedSection

end PagePartials
