import PagePartials.Text.Basic

/-!
# Paths

A path names a file or a directory: names one below the other, counted from where the command
runs or from the top of the file system. Reading a path drops what has no meaning in it, repeated
and trailing slashes and the segments `.`; a segment `..` keeps its place, since it need not undo
the name before it.

## Main definitions

* `Path`: where a path starts and the names it goes through
* `Path.ofText t`, `Path.toText p`: the path written `t`, the text of `p`
* `Path.append p q`: `q` taken from `p`
* `Path.parent p`, `Path.name p`: `p` without its last name, and that name
-/

namespace PagePartials

/-- Where a path starts. Two slashes in front are kept apart from one; three and more are one. -/
inductive Anchor where
  | relative
  | top
  | doubleTop
  deriving DecidableEq, Repr

/-- A path: where it starts and the names it goes through. -/
structure Path where
  anchor : Anchor
  names : List Text
  deriving DecidableEq, Repr

/-- The text in front of the first name. -/
def Anchor.toText : Anchor → Text
  | relative => []
  | top => ['/']
  | doubleTop => ['/', '/']

/-- Where a path with the given text starts. -/
def Anchor.ofText : Text → Anchor
  | '/' :: '/' :: '/' :: _ => top
  | '/' :: '/' :: _ => doubleTop
  | '/' :: _ => top
  | _ => relative

namespace Path

/-- Whether a segment of a path names anything: the empty one and `.` do not. -/
def isName (segment : Text) : Bool := segment != [] && segment != ['.']

/-- The segment that leads back to the directory above. -/
def up : Text := ['.', '.']

/-- The relative path through the given segments. -/
def ofSegments (segments : List Text) : Path := ⟨.relative, segments.filter isName⟩

/-- The path with the given text. -/
def ofText (t : Text) : Path := ⟨.ofText t, (Text.pieces '/' t).filter isName⟩

/-- The text of a path; a relative path through no name is written `.`. -/
def toText (p : Path) : Text :=
  if p.anchor = .relative ∧ p.names = [] then ['.']
  else p.anchor.toText ++ ['/'].intercalate p.names

/-- The second path, taken from the first; a path that does not start here stands for itself. -/
def append (p q : Path) : Path :=
  if q.anchor = .relative then ⟨p.anchor, p.names ++ q.names⟩ else q

instance : HDiv Path Path Path := ⟨append⟩

/-- The path without its last name. -/
def parent (p : Path) : Path := ⟨p.anchor, p.names.dropLast⟩

theorem length_names_parent_lt {p : Path} (h : p.names ≠ []) :
    p.parent.names.length < p.names.length := by
  have := List.length_pos_iff.mpr h
  simp [parent]
  omega

/-- The last name of a path, empty if it has none. -/
def name (p : Path) : Text := p.names.getLast?.getD []

example : (ofText "./p//q/../z/".toList).toText = "p/q/../z".toList := by decide
example : (ofText "".toList).toText = ".".toList := by decide
example : (ofText "p".toList / ofText "/x".toList).toText = "/x".toList := by decide

end Path

end PagePartials
