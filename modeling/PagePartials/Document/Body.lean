import PagePartials.Section

/-!
# The body of a page

What stands inside a section, or outside of all sections, in the order of the text: lines, and
sections with bodies of their own. The order among lines and sections is kept, so the text can be
read off a body again; the lists that a partial is made from, the own lines and the sections right
inside, are views of it.

## Main definitions

* `Body`: lines and sections, in order
* `Body.flatten b`: the text that `b` stands for
* `Body.lines b`, `Body.names b`: the own lines of `b` and the names of the sections right in it
* `Body.place above b`: all sections of `b` where they stand, each before those inside it
* `Body.top above b`: the sections right in `b`
* `Body.parents b`: for each section of `b`, which one it stands right inside
-/

namespace PagePartials

/-- Lines and sections, in the order of the text. A section has its name, the line with the marker
that begins it, what stands inside it, and the line with the marker that ends it, if there is
one. -/
inductive Body where
  | nil
  | line (text : Text) (rest : Body)
  | nested (name start : Text) (inner : Body) (stop : Option Text) (rest : Body)
  deriving DecidableEq, Repr

namespace Body

/-- The text that a body stands for. -/
def flatten : Body → Text
  | nil => []
  | line l rest => l ++ rest.flatten
  | nested _ start inner stop rest => start ++ inner.flatten ++ stop.getD [] ++ rest.flatten

/-- The lines that belong to no section of the body. -/
def lines : Body → List Text
  | nil => []
  | line l rest => l :: rest.lines
  | nested _ _ _ _ rest => rest.lines

/-- The names of the sections right in the body. -/
def names : Body → List Text
  | nil => []
  | line _ rest => rest.names
  | nested name _ _ _ rest => name :: rest.names

/-- How many sections the body holds, at whatever depth. -/
def count : Body → Nat
  | nil => 0
  | line _ rest => rest.count
  | nested _ _ inner _ rest => 1 + inner.count + rest.count

/-- One section where it stands. -/
def placeOne (above : List Text) (name start : Text) (inner : Body) (stop : Option Text) :
    PlacedSection where
  name := name
  content := inner.lines
  startComment := some start
  endComment := stop
  above := above
  below := inner.names.map fun n => SectionPath.join (above ++ [name, n])

/-- All sections of the body where they stand, each before the sections inside it. -/
def place (above : List Text) : Body → List PlacedSection
  | nil => []
  | line _ rest => rest.place above
  | nested name start inner stop rest =>
    placeOne above name start inner stop :: (inner.place (above ++ [name]) ++ rest.place above)

/-- The sections right in the body, where they stand. -/
def top (above : List Text) : Body → List PlacedSection
  | nil => []
  | line _ rest => rest.top above
  | nested name start inner stop rest => placeOne above name start inner stop :: rest.top above

/-- For each section of the body, in the order of `place`, the number of the section right around
it; the sections right in the body stand in `parent`, and numbers are given from `next` on. -/
def parentsFrom (parent : Option Nat) (next : Nat) : Body → List (Option Nat)
  | nil => []
  | line _ rest => rest.parentsFrom parent next
  | nested _ _ inner _ rest =>
    parent :: (inner.parentsFrom (some next) (next + 1) ++
      rest.parentsFrom parent (next + 1 + inner.count))

/-- For each section of the body, the number of the section right around it. -/
def parents (b : Body) : List (Option Nat) := b.parentsFrom none 0

theorem length_place (above : List Text) (b : Body) : (b.place above).length = b.count := by
  induction b generalizing above with
  | nil => rfl
  | line _ rest ih => exact ih above
  | nested name start inner stop rest ih₁ ih₂ => simp [place, count, ih₁, ih₂]; omega

end Body

end PagePartials
