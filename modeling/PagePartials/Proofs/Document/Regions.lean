import PagePartials.Proofs.Document.Grammar

/-!
# Sections with what stands inside them

A section where it stands among others lists its own lines and the paths of the sections right
inside it. Here it is kept together with the whole body between its markers, so that the lines it
takes up and the sections inside it, at whatever depth, can be had from it.

## Main definitions

* `Body.Region`: a section, with all that stands inside it
* `Body.regions above b`, `Body.topRegions above b`: the regions of `b`, and those right in it
* `Region.placed g`: the section of `g` where it stands
* `Region.span g`: the lines that `g` takes up
* `Region.subtree g`: `g` and the regions inside it, at whatever depth

## Main results

* `Body.map_placed_regions`: the regions of a body are its sections
* `Body.mem_regions_of_mem_subtree`: what stands inside a region of a body is a region of the body
-/

namespace PagePartials

namespace Body

/-- A section with all that stands inside it: the names around it, its name, the line that begins
it, the body inside, and the line that ends it, if there is one. -/
structure Region where
  above : List Text
  name : Text
  start : Text
  inner : Body
  stop : Option Text
  deriving DecidableEq, Repr

namespace Region

/-- The section where it stands. -/
def placed (g : Region) : PlacedSection := placeOne g.above g.name g.start g.inner g.stop

/-- The lines from the one that begins the section to the one that ends it, or to the end of the
page. -/
def span (g : Region) : List Text := g.start :: (g.inner.allLines ++ g.stop.toList)

end Region

/-- The regions of a body, in the order of `place`. -/
def regions (above : List Text) : Body → List Region
  | nil => []
  | line _ rest => rest.regions above
  | nested name start inner stop rest =>
    ⟨above, name, start, inner, stop⟩ :: (inner.regions (above ++ [name]) ++ rest.regions above)

/-- A region and those inside it, at whatever depth, each before the regions inside it. -/
def Region.subtree (g : Region) : List Region := g :: g.inner.regions (g.above ++ [g.name])

/-- The regions right in a body, in the order of `top`. -/
def topRegions (above : List Text) : Body → List Region
  | nil => []
  | line _ rest => rest.topRegions above
  | nested name start inner stop rest =>
    ⟨above, name, start, inner, stop⟩ :: rest.topRegions above

variable {b : Body} {above : List Text} {g : Region} {s : PlacedSection} {i : Nat}

/-- The regions of a body are its sections. -/
theorem map_placed_regions (b : Body) (above : List Text) :
    (b.regions above).map Region.placed = b.place above := by
  induction b generalizing above with
  | nil => rfl
  | line _ rest ih => exact ih above
  | nested name start inner stop rest ih₁ ih₂ =>
    rw [regions, place, List.map_cons, List.map_append, ih₁, ih₂]
    rfl

theorem map_placed_topRegions (b : Body) (above : List Text) :
    (b.topRegions above).map Region.placed = b.top above := by
  induction b with
  | nil => rfl
  | line _ rest ih => exact ih
  | nested name start inner stop rest _ ih =>
    rw [topRegions, top, List.map_cons, ih]
    rfl

theorem length_regions (b : Body) (above : List Text) : (b.regions above).length = b.count := by
  rw [← length_place above b, ← map_placed_regions, List.length_map]

theorem getElem?_place (hg : (b.regions above)[i]? = some g) :
    (b.place above)[i]? = some g.placed := by
  rw [← map_placed_regions, List.getElem?_map, hg]
  rfl

theorem exists_region (hs : (b.place above)[i]? = some s) :
    ∃ g, (b.regions above)[i]? = some g ∧ g.placed = s := by
  rw [← map_placed_regions, List.getElem?_map] at hs
  exact Option.map_eq_some_iff.mp hs

theorem regions_nested (above : List Text) (name start : Text) (inner : Body) (stop : Option Text)
    (rest : Body) : (nested name start inner stop rest).regions above =
      Region.subtree ⟨above, name, start, inner, stop⟩ ++ rest.regions above :=
  rfl

theorem allLines_nested (above : List Text) (name start : Text) (inner : Body) (stop : Option Text)
    (rest : Body) : (nested name start inner stop rest).allLines =
      Region.span ⟨above, name, start, inner, stop⟩ ++ rest.allLines := by
  simp [allLines, Region.span]

/-- Behind the first region of a body come those inside it, and then those after it. -/
theorem getElem?_regions_nested_succ (above : List Text) (name start : Text) (inner : Body)
    (stop : Option Text) (rest : Body) (i : Nat) :
    ((nested name start inner stop rest).regions above)[i + 1]? =
      if i < inner.count then (inner.regions (above ++ [name]))[i]?
      else (rest.regions above)[i - inner.count]? := by
  rw [regions, List.getElem?_cons_succ, List.getElem?_append, length_regions]

/-- What stands inside a region of a body is a region of the body. -/
theorem mem_regions_of_mem_subtree {h : Region} (hg : g ∈ b.regions above) (hh : h ∈ g.subtree) :
    h ∈ b.regions above := by
  induction b generalizing above with
  | nil => simp [regions] at hg
  | line _ rest ih => exact ih hg
  | nested name start inner stop rest ih₁ ih₂ =>
    simp only [regions, List.mem_cons, List.mem_append] at hg ⊢
    rcases hg with rfl | hg | hg
    · rcases List.mem_cons.mp hh with rfl | hh
      · exact .inl rfl
      · exact .inr (.inl hh)
    · exact .inr (.inl (ih₁ hg))
    · exact .inr (.inr (ih₂ hg))

end Body

end PagePartials
