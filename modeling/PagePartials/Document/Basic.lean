import PagePartials.Document.Event

/-!
# Pages

A page is its header, the lines before the first section, followed by its body. The header ends
where the first section begins; a begin marker that names a product belongs to the header.

## Main definitions

* `Document`: header and body
* `Document.sections d`: the sections of a page where they stand, in order
* `Document.unterminated d`: those without an end marker
* `Reading`: a page with the notices that came up while it was read
* `Session.read s t`: the page with text `t`, read after other pages
* `Document.ofText t`: the page with text `t`
-/

namespace PagePartials

/-- A page: the text before the first section, and what follows. -/
structure Document where
  header : Text
  body : Body
  deriving DecidableEq, Repr

namespace Document

/-- The sections of the page where they stand, each before the sections inside it. -/
def sections (d : Document) : List PlacedSection := d.body.place []

/-- The sections that stand inside no other. -/
def top (d : Document) : List PlacedSection := d.body.top []

/-- The sections without an end marker. -/
def unterminated (d : Document) : List PlacedSection :=
  d.sections.filter fun s => s.endComment.isNone

end Document

/-- A page with the notices that came up while it was read. -/
structure Reading where
  document : Document
  notices : List Notice
  deriving DecidableEq, Repr

/-- What marks a comment as the identification of a product. -/
def productWord : Text := "Product:".toList

/-- Whether the line begins the first section and so ends the header. -/
def endsHeader (line : Text) : Bool :=
  match Marker.ofLine? line with
  | some (.begins _) => !Text.occursIn productWord line
  | _ => false

/-- What is left from one page to the next: the names given so far. -/
structure Session where
  registry : SectionName.Registry
  deriving DecidableEq, Repr

namespace Session

/-- The session that has read nothing. -/
def fresh : Session := ⟨.empty⟩

/-- The page with the given text. The names given earlier are forgotten first, so that a page is
read alike whatever was read before. -/
def read (s : Session) (t : Text) : Reading × Session :=
  let lines := Text.lines t
  let head := lines.takeWhile fun l => !endsHeader l
  let tail := lines.dropWhile fun l => !endsHeader l
  let (events, last) := Progress.readAll ⟨s.registry.reset, []⟩ tail
  let body := Body.ofEvents events
  let stray := body.lines.length
  ({ document := ⟨head.flatten, body⟩
     notices := Event.notices [] events ++ (openPaths last.opened).map .unterminated ++
       if stray = 0 then [] else [.discarded stray] },
    ⟨last.registry⟩)

/-- The pages with the given texts, read one after the other. -/
def readAll (s : Session) : List Text → List Reading
  | [] => []
  | t :: ts => (s.read t).1 :: readAll (s.read t).2 ts

end Session

/-- The page with the given text, with what there is to report about it. -/
def Reading.ofText (t : Text) : Reading := (Session.fresh.read t).1

/-- The page with the given text. -/
def Document.ofText (t : Text) : Document := (Reading.ofText t).document

end PagePartials
