import PagePartials.Document.Body
import PagePartials.Log
import PagePartials.Marker
import PagePartials.SectionName

/-!
# Reading lines

The lines of a page, each with what it does: it begins a section, ends the open one, or is text.
Reading goes from line to line and remembers the names given so far and the sections that are
open. An end marker closes the innermost open section if its normalized name starts that section's
name, so that the number a name may have been given does no harm; otherwise it is text like any
other line, and worth a notice.

## Main definitions

* `Event`: what a line does
* `Progress`: what reading remembers between lines
* `Progress.read p l`: what line `l` does after `p`, and what is remembered then
* `Event.notices opened es`: what there is to report about `es`
* `Body.ofEvents es`: the body that `es` describe
-/

namespace PagePartials

/-- What a line does. -/
inductive Event where
  /-- Text of the innermost open section. -/
  | text (line : Text)
  /-- An end marker that closes nothing, with the name it carries: text, too. -/
  | stray (name line : Text)
  /-- The beginning of a section with the given name. -/
  | opening (name line : Text)
  /-- The end of the innermost open section. -/
  | closing (line : Text)
  deriving DecidableEq, Repr

/-- The line itself. -/
def Event.line : Event → Text
  | text l => l
  | stray _ l => l
  | opening _ l => l
  | closing l => l

/-! ## From line to line -/

/-- What reading remembers: the names given so far, and the names of the open sections, innermost
first. -/
structure Progress where
  registry : SectionName.Registry
  opened : List Text
  deriving DecidableEq, Repr

namespace Progress

/-- Whether an end marker of the given name closes the innermost open section. -/
def closedBy (p : Progress) (name : Text) : Bool :=
  match p.opened with
  | [] => false
  | current :: _ => (SectionName.normalize name).isPrefixOf current

/-- What a line does, and what is remembered after it. -/
def read (p : Progress) (line : Text) : Event × Progress :=
  match Marker.ofLine? line with
  | none => (.text line, p)
  | some (.begins n) =>
    let (name, registry) := p.registry.assign n
    (.opening name line, ⟨registry, name :: p.opened⟩)
  | some (.ends n) =>
    if p.closedBy n then (.closing line, ⟨p.registry, p.opened.tail⟩) else (.stray n line, p)

/-- What the lines do, one after the other, and what is remembered after the last. -/
def readAll (p : Progress) : List Text → List Event × Progress
  | [] => ([], p)
  | l :: ls =>
    let (e, q) := p.read l
    let (es, r) := q.readAll ls
    (e :: es, r)

end Progress

/-! ## Notices -/

/-- The path that stands for the page itself. -/
def rootPath : Text := "root".toList

/-- The path of the innermost open section, or of the page. -/
def openPath (opened : List Text) : Text :=
  if opened.isEmpty then rootPath else SectionPath.join opened.reverse

/-- The paths of the open sections, outermost first. -/
def openPaths : List Text → List Text
  | [] => []
  | name :: outer => openPaths outer ++ [SectionPath.join (name :: outer).reverse]

/-- A notice for each end marker that closes nothing. -/
def Event.notices (opened : List Text) : List Event → List Notice
  | [] => []
  | text _ :: es => notices opened es
  | stray name _ :: es => .strayEnd name (openPath opened) :: notices opened es
  | opening name _ :: es => notices (name :: opened) es
  | closing _ :: es => notices opened.tail es

/-! ## The body -/

namespace Body

/-- The body up to the end of the section that is open where the events start, followed by what
comes after that end: for each section closed, the closing line and the body behind it. -/
def split : List Event → Body × List (Text × Body)
  | [] => (nil, [])
  | .text l :: es => let (b, after) := split es; (line l b, after)
  | .stray _ l :: es => let (b, after) := split es; (line l b, after)
  | .closing l :: es => let (b, after) := split es; (nil, (l, b) :: after)
  | .opening name l :: es =>
    match split es with
    | (b, []) => (nested name l b none nil, [])
    | (b, (stop, rest) :: after) => (nested name l b (some stop) rest, after)

/-- The body that the events describe. -/
def ofEvents (es : List Event) : Body := (split es).1

end Body

end PagePartials
