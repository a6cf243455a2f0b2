import PagePartials.Section

/-!
# Linked sections

Sections that are built one by one and linked to each other. Each section has a place in the
table, and the place is what tells it from other sections, however alike they are. A section
points to its parent and lists its children; `addChild` keeps the two in step, but they may be set
to disagree, and everything here is defined on any state of the links. A section without a parent
is a root: it gives its descendants no part of their paths.

Where links lead in a circle the walks below stop after a bounded number of steps; the bound is
never reached where they do not.

## Main definitions

* `Ref`, `LinkedSection`, `SectionTable`: places, sections with their links, all of them
* `SectionTable.addChild t p c`: `t` with `c` made the last child of `p`
* `SectionTable.ancestors t r`: the sections around `r`, outermost first
* `SectionTable.walk t r`: the descendants of `r`, each before its own
* `SectionTable.place t r`: the section at `r` where it stands
-/

namespace PagePartials

/-- The place of a section in a table. -/
abbrev Ref := Nat

/-- A section with its links. -/
structure LinkedSection extends Section where
  parent : Option Ref
  children : List Ref
  deriving DecidableEq, Repr

/-- A section of the given name that holds nothing and is linked to nothing. -/
def LinkedSection.bare (name : Text) : LinkedSection where
  name := name
  content := []
  startComment := none
  endComment := none
  parent := none
  children := []

/-- The sections built so far, each at its place. -/
structure SectionTable where
  nodes : List LinkedSection
  deriving DecidableEq, Repr

/-- Why a section cannot be moved: its parent does not list it as a child. -/
inductive LinkError where
  | notListed
  deriving DecidableEq, Repr

/-- The error as it is shown. -/
def LinkError.message : LinkError → Text
  | notListed => "list.remove(x): x not in list".toList

namespace SectionTable

/-- The table without sections. -/
def empty : SectionTable := ⟨[]⟩

/-- How many sections the table holds. -/
def size (t : SectionTable) : Nat := t.nodes.length

/-- The section at a place. -/
def get (t : SectionTable) (r : Ref) : LinkedSection := t.nodes.getD r (.bare [])

/-- The table with the section at a place changed. -/
def update (t : SectionTable) (r : Ref) (f : LinkedSection → LinkedSection) : SectionTable :=
  ⟨t.nodes.modify r f⟩

/-- The table with one more section, at the place `t.size`. -/
def push (t : SectionTable) (s : LinkedSection) : SectionTable := ⟨t.nodes ++ [s]⟩

/-- Whether the section has no parent. -/
def isRoot (t : SectionTable) (r : Ref) : Bool := (t.get r).parent.isNone

section

variable {t : SectionTable} {r : Ref} {s : LinkedSection} {f : LinkedSection → LinkedSection}

@[simp] theorem size_update : (t.update r f).size = t.size := List.length_modify ..

@[simp] theorem get_push_self : (t.push s).get t.size = s := by simp [push, get, size]

theorem get_push_of_lt (h : r < t.size) : (t.push s).get r = t.get r := by
  simp [push, get, List.getElem?_append_left (show r < t.nodes.length from h)]

theorem get_update_self (h : r < t.size) : (t.update r f).get r = f (t.get r) := by
  simp [update, get, List.getElem?_eq_getElem (show r < t.nodes.length from h)]

theorem get_update_of_ne {x : Ref} (h : x ≠ r) : (t.update r f).get x = t.get x := by
  simp [update, get, Ne.symm h]

theorem get_of_size_le (h : t.size ≤ r) : t.get r = .bare [] := by
  simp [get, List.getElem?_eq_none (show t.nodes.length ≤ r from h)]

theorem size_push (t : SectionTable) (s : LinkedSection) : (t.push s).size = t.size + 1 :=
  List.length_append

end

/-! ## Linking -/

/-- The table with `child` a child of `parent`, last if it was none before. -/
def adopt (t : SectionTable) (parent child : Ref) : SectionTable :=
  let t :=
    if child ∈ (t.get parent).children then t
    else t.update parent fun s => { s with children := s.children ++ [child] }
  t.update child fun s => { s with parent := some parent }

/-- The table with `child` moved from its parent, if it has another one, to the end of the
children of `parent`. -/
def addChild (t : SectionTable) (parent child : Ref) : Except LinkError SectionTable :=
  match (t.get child).parent with
  | none => .ok (t.adopt parent child)
  | some old =>
    if old = parent then .ok (t.adopt parent child)
    else if child ∈ (t.get old).children then
      .ok ((t.update old fun s => { s with children := s.children.erase child }).adopt parent child)
    else .error .notListed

/-! ## Walking -/

/-- The sections met on the way up from a section with the given parent, the nearest first, up to
but without the root. -/
def chain (t : SectionTable) : Nat → Option Ref → List Ref
  | 0, _ => []
  | _ + 1, none => []
  | fuel + 1, some r => if t.isRoot r then [] else r :: t.chain fuel (t.get r).parent

/-- The sections around a section, outermost first, the root left out. -/
def ancestors (t : SectionTable) (r : Ref) : List Ref :=
  (t.chain t.size (t.get r).parent).reverse

/-- How many links lead from a section to a child. -/
def links (t : SectionTable) : Nat := t.nodes.foldr (fun s n => s.children.length + n) 0

/-- More steps than any walk takes whose links do not lead in a circle. -/
def walkBound (t : SectionTable) : Nat := Nat.pow (t.links + 1) t.size

/-- The sections met from a stack of sections to visit, the children of each one put on the stack
as it is met. -/
def visit (t : SectionTable) : Nat → List Ref → List Ref
  | 0, _ => []
  | _ + 1, [] => []
  | fuel + 1, r :: stack => r :: t.visit fuel ((t.get r).children ++ stack)

/-- The descendants of a section, each before its own descendants. -/
def walk (t : SectionTable) (r : Ref) : List Ref := t.visit t.walkBound (t.get r).children

/-- The given sections, each followed by its descendants. -/
def iter (t : SectionTable) (rs : List Ref) : List Ref := rs.flatMap fun r => r :: t.walk r

/-- How many sections there are among the given ones and their descendants. -/
def count (t : SectionTable) (rs : List Ref) : Nat := (t.iter rs).length

/-- The descendants of a section that have no end marker. -/
def unterminated (t : SectionTable) (r : Ref) : List Ref :=
  (t.walk r).filter fun c => (t.get c).endComment.isNone

/-! ## Places in the tree -/

/-- The names of the sections around a section, outermost first. -/
def namesAbove (t : SectionTable) (r : Ref) : List Text :=
  (t.ancestors r).map fun a => (t.get a).name

/-- The path of a section. -/
def fullPath (t : SectionTable) (r : Ref) : Text :=
  SectionPath.join (t.namesAbove r ++ [(t.get r).name])

/-- A section where it stands. -/
def place (t : SectionTable) (r : Ref) : PlacedSection where
  toSection := (t.get r).toSection
  above := t.namesAbove r
  below := (t.get r).children.map t.fullPath

end SectionTable

end PagePartials
