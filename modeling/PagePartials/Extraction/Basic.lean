import PagePartials.Document.Basic
import PagePartials.Extraction.Issue
import PagePartials.Section.Table

/-!
# Extraction

What a page is split into: a partial for every section whose partial would not be blank, the index
that includes the partials of the outermost sections, a listing of the sections, and a summary.

## Main definitions

* `Partial`: a template, its name and where it lies
* `Extraction`: all that a page is split into
* `Outline`: the header and the sections of a page where they stand
* `Partial.collect ss`: the partials of the sections `ss`
* `indexOf`, `Outline.summary`, `listing`: the other parts
* `Extraction.ofOutline o source`: the whole
* `Extraction.ofText t source`: what the page with text `t` is split into
-/

namespace PagePartials

/-- A template made from a section. -/
structure Partial where
  name : Text
  fullPath : Text
  partialName : Text
  relativePath : Text
  content : Text
  deriving DecidableEq, Repr

/-- What a page is split into. -/
structure Extraction where
  summary : Text
  sectionsTree : Text
  indexContent : Text
  partials : List Partial
  deriving DecidableEq, Repr

/-- The header of a page, its outermost sections, and all its sections, each before the sections
inside it. -/
structure Outline where
  header : Text
  top : List PlacedSection
  all : List PlacedSection
  deriving DecidableEq, Repr

/-- The outline of a page. -/
def Document.outline (d : Document) : Outline := ⟨d.header, d.top, d.sections⟩

/-- The outline of a page whose sections are linked below the given root. -/
def SectionTable.outline (t : SectionTable) (root : Ref) (header : Text) : Outline where
  header := header
  top := (t.get root).children.map t.place
  all := (t.iter (t.get root).children).map t.place

/-! ## Partials -/

/-- Whether the text can name a partial: an underscore, anything on one line, and `.html`. -/
def isPartialName (t : Text) : Bool :=
  match t with
  | '_' :: rest => ".html".toList.isSuffixOf rest && !t.contains '\n'
  | _ => false

namespace Partial

/-- The partial of a section. A newline in the section's path spoils the partial's name. -/
def of? (s : PlacedSection) : Except (List Issue) Partial :=
  if isPartialName s.partialName then
    .ok ⟨s.name, s.fullPath, s.partialName, s.location.toText, s.render⟩
  else .error [⟨.notPartialName, [.field "partial_name".toList]⟩]

/-- The partials of the sections, with a notice for each section that is left out because its
partial would be blank. -/
def collect : List PlacedSection → List Notice × Except (List Issue) (List Partial)
  | [] => ([], .ok [])
  | s :: rest =>
    if s.isEmittable then
      match of? s with
      | .error issues => ([], .error issues)
      | .ok p =>
        let (notices, ps) := collect rest
        (notices, ps.map (p :: ·))
    else
      let (notices, ps) := collect rest
      (.skippedEmpty s.fullPath :: notices, ps)

end Partial

/-! ## Listing, index and summary -/

/-- A section in the listing: indented by its depth, with its path and its partial. -/
def PlacedSection.listingLine (s : PlacedSection) : Text :=
  List.replicate (2 * s.depth) ' ' ++ "- ".toList ++ s.fullPath ++ " -> ".toList ++ s.partialName

/-- The listing of sections, one to a line. -/
def listing (ss : List PlacedSection) : Text := ['\n'].intercalate (ss.map (·.listingLine))

/-- The tags that end a page. -/
def closingTags : List Text := ["</body>".toList, "</html>".toList]

/-- The end of an index that lacks a closing tag. -/
def closingLines : Text := "  </body>\n</html>\n".toList

/-- The text, ended by a newline. -/
def endLine (t : Text) : Text := if ['\n'].isSuffixOf t then t else t ++ ['\n']

/-- The index: the header, a line for each outermost section that has a partial, and the closing
tags unless both are there. -/
def indexOf (header : Text) (top : List PlacedSection) : Text :=
  let body := endLine header ++ (top.filter (·.isEmittable)).flatMap (·.includeLine)
  if closingTags.all fun tag => Text.occursIn tag body then body else body ++ closingLines

namespace Outline

/-- The sections without an end marker. -/
def unterminated (o : Outline) : List PlacedSection :=
  o.all.filter fun s => s.endComment.isNone

/-- The summary: the source if it is known, and how many sections, partials, and sections without
an end marker there are. -/
def summary (o : Outline) (source : Option Text) (partials : Nat) : Text :=
  let origin := source.getD []
  let unterminated := o.unterminated.length
  ['\n'].intercalate <|
    (if origin = [] then [] else ["Source: ".toList ++ origin]) ++
      ["Sections: ".toList ++ Nat.toDigits 10 o.all.length,
        "Partials: ".toList ++ Nat.toDigits 10 partials] ++
      (if unterminated = 0 then [] else ["Unterminated: ".toList ++ Nat.toDigits 10 unterminated])

end Outline

namespace Extraction

/-- What a page with the given outline is split into. -/
def ofOutline (o : Outline) (source : Option Text) :
    List Notice × Except (List Issue) Extraction :=
  let (notices, partials) := Partial.collect o.all
  (notices, partials.map fun ps =>
    { summary := o.summary source ps.length
      sectionsTree := "Sections:\n".toList ++ listing o.all
      indexContent := indexOf o.header o.top
      partials := ps })

/-- What the page with the given text is split into. -/
def ofText (t : Text) (source : Option Text) : List Notice × Except (List Issue) Extraction :=
  let reading := Reading.ofText t
  let (notices, extraction) := ofOutline reading.document.outline source
  (reading.notices ++ notices, extraction)

end Extraction

end PagePartials
