import PagePartials.Proofs.Document.Regions
import PagePartials.Proofs.Document.Sections
import Mathlib.Data.List.Basic

/-!
# Which section stands in which

The sections of a page are numbered in the order of the text, and for each of them the body tells
the number of the section right around it. Read the other way round, this gives the sections right
inside each one: their paths are those that a section lists as standing below it, and the sections
inside no other are the outermost ones.

## Main definitions

* `Body.childNumbers b p`: the numbers of the sections of `b` that stand right inside section `p`
* `Document.children d p`: those sections
* `Document.regions d`, `Document.childRegions d p`: the same with all that stands inside them
* `Document.Encloses d i j`: section `j` stands inside section `i`, at whatever depth

## Main results

* `Body.mem_parentsFrom`: what can stand around the sections of a body
* `Document.children_none`: the sections inside no other are the outermost ones
* `Document.childRegions_eq`: the regions right inside a section are those of the body inside it
* `Document.below_eq`: a section lists the paths of the sections right inside it
-/

namespace PagePartials

namespace Body

/-- The numbers of the sections that stand right inside the section of the given number, or inside
no section where there is none. -/
def childNumbers (b : Body) (p : Option Nat) : List Nat := b.parents.idxsOf p

variable {b : Body} {p parent : Option Nat} {next : Nat} {above : List Text}

@[simp] theorem length_parentsFrom (b : Body) (parent : Option Nat) (next : Nat) :
    (b.parentsFrom parent next).length = b.count := by
  induction b generalizing parent next with
  | nil => rfl
  | line _ rest ih => exact ih parent next
  | nested _ _ inner _ rest ih₁ ih₂ =>
    simp only [parentsFrom, count, List.length_cons, List.length_append, ih₁, ih₂]
    omega

/-- A section of a body stands in the one around the body, or in one of the body. -/
theorem mem_parentsFrom (h : p ∈ b.parentsFrom parent next) :
    p = parent ∨ ∃ k, p = some k ∧ next ≤ k ∧ k < next + b.count := by
  induction b generalizing parent next with
  | nil => simp [parentsFrom] at h
  | line _ rest ih => exact ih h
  | nested _ _ inner _ rest ih₁ ih₂ =>
    simp only [parentsFrom, List.mem_cons, List.mem_append] at h
    simp only [count]
    rcases h with h | h | h
    · exact .inl h
    · rcases ih₁ h with h | ⟨k, h, hl, hu⟩
      · exact .inr ⟨next, h, by omega, by omega⟩
      · exact .inr ⟨k, h, by omega, by omega⟩
    · rcases ih₂ h with h | ⟨k, h, hl, hu⟩
      · exact .inl h
      · exact .inr ⟨k, h, by omega, by omega⟩

/-- Nothing in a body stands in a section that is neither around the body nor part of it. -/
theorem notMem_parentsFrom (hp : p ≠ parent)
    (hout : ∀ k ∈ p, k < next ∨ next + b.count ≤ k) : p ∉ b.parentsFrom parent next := by
  intro h
  rcases mem_parentsFrom h with h | ⟨k, rfl, hl, hu⟩
  · exact hp h
  · have := hout k rfl
    omega

/-! ## Sections with the numbers of their parents -/

/-- The regions of a body that stand right inside the section of the given number, where the body
stands in `parent` and its sections are numbered from `next` on. -/
def childRegionsFrom (b : Body) (p parent : Option Nat) (next : Nat) (above : List Text) :
    List Region :=
  (((b.parentsFrom parent next).zip (b.regions above)).filter (·.1 == p)).map (·.2)

/-- The sections of a body that stand right inside the section of the given number, where the body
stands in `parent` and its sections are numbered from `next` on. -/
def childrenFrom (b : Body) (p parent : Option Nat) (next : Nat) (above : List Text) :
    List PlacedSection :=
  (((b.parentsFrom parent next).zip (b.place above)).filter (·.1 == p)).map (·.2)

theorem childrenFrom_eq (b : Body) (p parent : Option Nat) (next : Nat) (above : List Text) :
    b.childrenFrom p parent next above =
      (b.childRegionsFrom p parent next above).map Region.placed := by
  rw [childrenFrom, childRegionsFrom, ← map_placed_regions, List.zip_map_right, List.filter_map,
    List.map_map, List.map_map]
  rfl

theorem childRegionsFrom_nested (p parent : Option Nat) (next : Nat) (above : List Text)
    (name start : Text) (inner : Body) (stop : Option Text) (rest : Body) :
    (nested name start inner stop rest).childRegionsFrom p parent next above =
      (if parent = p then [⟨above, name, start, inner, stop⟩] else []) ++
        (inner.childRegionsFrom p (some next) (next + 1) (above ++ [name]) ++
          rest.childRegionsFrom p parent (next + 1 + inner.count) above) := by
  have hlen : (inner.parentsFrom (some next) (next + 1)).length =
      (inner.regions (above ++ [name])).length := by
    rw [length_parentsFrom, length_regions]
  by_cases h : parent = p <;>
    simp [childRegionsFrom, parentsFrom, regions, List.zip_append hlen, h]

theorem childRegionsFrom_eq_nil (h : p ∉ b.parentsFrom parent next) :
    b.childRegionsFrom p parent next above = [] := by
  rw [childRegionsFrom, List.map_eq_nil_iff, List.filter_eq_nil_iff]
  rintro ⟨q, g⟩ hmem hq
  obtain rfl : q = p := by simpa using hq
  exact h (List.of_mem_zip hmem).1

/-- The regions right inside the section around a body are those right in the body. -/
theorem childRegionsFrom_parent (hparent : ∀ q ∈ parent, q < next) :
    b.childRegionsFrom parent parent next above = b.topRegions above := by
  induction b generalizing next with
  | nil => rfl
  | line _ rest ih => exact ih hparent
  | nested name start inner stop rest _ ih =>
    -- What is further inside has another parent, with a later number.
    have hin : parent ∉ inner.parentsFrom (some next) (next + 1) := by
      refine notMem_parentsFrom ?_ fun k hk => .inl (Nat.lt_succ_of_lt (hparent k hk))
      rintro rfl
      exact absurd (hparent next rfl) (Nat.lt_irrefl next)
    rw [childRegionsFrom_nested, if_pos rfl, childRegionsFrom_eq_nil hin,
      ih fun q hq => by have := hparent q hq; omega]
    rfl

/-- The regions right inside a section of a body are those right in the body inside it. -/
theorem childRegionsFrom_eq_topRegions {i : Nat} {g : Region}
    (hg : (b.regions above)[i]? = some g) (hparent : ∀ q ∈ parent, q < next) :
    b.childRegionsFrom (some (next + i)) parent next above =
      g.inner.topRegions (g.above ++ [g.name]) := by
  -- By induction on the body: only the part that holds the section holds any of its children.
  induction b generalizing above parent next i with
  | nil => simp [regions] at hg
  | line _ rest ih => exact ih hg hparent
  | nested name start inner stop rest ih₁ ih₂ =>
    have hne : parent ≠ some (next + i) := by
      rintro rfl
      exact absurd (hparent _ rfl) (by omega)
    have hinner : ∀ q ∈ some next, q < next + 1 := by simp
    have hbehind : ∀ q ∈ parent, q < next + 1 + inner.count := fun q hq => by
      have := hparent q hq
      omega
    rw [childRegionsFrom_nested, if_neg hne, List.nil_append]
    cases i with
    | zero =>
      obtain rfl : ⟨above, name, start, inner, stop⟩ = g := by simpa [regions] using hg
      have hrest : some (next + 0) ∉ rest.parentsFrom parent (next + 1 + inner.count) :=
        notMem_parentsFrom hne.symm (by simp; omega)
      rw [childRegionsFrom_eq_nil hrest, Nat.add_zero, childRegionsFrom_parent hinner,
        List.append_nil]
    | succ i =>
      rw [getElem?_regions_nested_succ] at hg
      split at hg
      -- The section stands in the first one of the body.
      next hi =>
        have hrest : some (next + (i + 1)) ∉ rest.parentsFrom parent (next + 1 + inner.count) :=
          notMem_parentsFrom hne.symm (by simp; omega)
        rw [childRegionsFrom_eq_nil hrest, List.append_nil,
          show next + (i + 1) = next + 1 + i by omega, ih₁ hg hinner]
      -- The section stands behind the first one.
      next hi =>
        have hin : some (next + (i + 1)) ∉ inner.parentsFrom (some next) (next + 1) :=
          notMem_parentsFrom (by simp) (by simp; omega)
        rw [childRegionsFrom_eq_nil hin, List.nil_append,
          show next + (i + 1) = next + 1 + inner.count + (i - inner.count) by omega,
          ih₂ hg hbehind]

/-- The sections right inside the one around a body are the outermost of the body. -/
theorem childrenFrom_parent (hparent : ∀ q ∈ parent, q < next) :
    b.childrenFrom parent parent next above = b.top above := by
  rw [childrenFrom_eq, childRegionsFrom_parent hparent, map_placed_topRegions]

theorem map_fullPath_top (b : Body) (above : List Text) :
    (b.top above).map (·.fullPath) = b.names.map fun n => SectionPath.join (above ++ [n]) := by
  induction b with
  | nil => rfl
  | line _ rest ih => exact ih
  | nested name start inner stop rest _ ih =>
    rw [top, names, List.map_cons, List.map_cons, ih]
    rfl

/-- A section lists the paths of the sections right in the body inside it. -/
theorem Region.below_placed (g : Region) :
    g.placed.below = (g.inner.top (g.above ++ [g.name])).map (·.fullPath) := by
  rw [map_fullPath_top]
  simp [placed, placeOne]

/-- Each section of a body lists the paths of the sections right inside it. -/
theorem below_eq {i : Nat} {s : PlacedSection} (hs : (b.place above)[i]? = some s)
    (hparent : ∀ q ∈ parent, q < next) :
    s.below = (b.childrenFrom (some (next + i)) parent next above).map (·.fullPath) := by
  obtain ⟨g, hg, rfl⟩ := exists_region hs
  rw [childrenFrom_eq, childRegionsFrom_eq_topRegions hg hparent, map_placed_topRegions,
    g.below_placed]

end Body

/-! ## The sections of a page -/

theorem filterMap_idxsOf {α β : Type} [BEq α] (a : α) (xs : List α) (ys : List β) :
    (xs.idxsOf a).filterMap (ys[·]?) = ((xs.zip ys).filter (·.1 == a)).map (·.2) := by
  induction xs generalizing ys with
  | nil => rfl
  | cons x xs ih =>
    have hshift (y : β) (ys : List β) :
        (xs.idxsOf a 1).filterMap ((y :: ys)[·]?) = (xs.idxsOf a).filterMap (ys[·]?) := by
      rw [List.idxsOf_start, List.filterMap_map]
      rfl
    cases ys with
    | nil => simp
    | cons y ys => by_cases h : x == a <;> simp [h, hshift, ih]

namespace Document

/-- The sections that stand right inside the section of the given number, or inside no section
where there is none, in the order of the text. -/
def children (d : Document) (p : Option Nat) : List PlacedSection :=
  (d.body.childNumbers p).filterMap (d.sections[·]?)

/-- The regions of the page, in the order of its sections. -/
def regions (d : Document) : List Body.Region := d.body.regions []

/-- The regions that stand right inside the section of the given number. -/
def childRegions (d : Document) (p : Option Nat) : List Body.Region :=
  (d.body.childNumbers p).filterMap (d.regions[·]?)

/-- Whether section `j` stands inside section `i`, at whatever depth. -/
def Encloses (d : Document) : Nat → Nat → Prop :=
  Relation.TransGen fun i j => d.body.parents[j]? = some (some i)

variable {d : Document} {p : Option Nat} {c s : PlacedSection} {i : Nat}

theorem children_eq (d : Document) (p : Option Nat) :
    d.children p = d.body.childrenFrom p none 0 [] :=
  filterMap_idxsOf p d.body.parents d.sections

theorem mem_sections_of_mem_children (h : c ∈ d.children p) : c ∈ d.sections := by
  obtain ⟨j, -, hj⟩ := List.mem_filterMap.mp h
  exact List.mem_of_getElem? hj

theorem isName_of_mem_children {t : Text} (h : c ∈ (ofText t).children p) :
    ∀ n ∈ c.names, SectionName.IsName n :=
  fun _ => isName_of_mem_names (mem_sections_of_mem_children h)

/-- The sections inside no other are the outermost ones. -/
theorem children_none (d : Document) : d.children none = d.top := by
  rw [children_eq]
  exact Body.childrenFrom_parent (by simp)

theorem map_placed_regions (d : Document) : d.regions.map Body.Region.placed = d.sections :=
  d.body.map_placed_regions []

theorem childRegions_none (d : Document) : d.childRegions none = d.body.topRegions [] := by
  have hc : d.body.childRegionsFrom none none 0 [] = d.body.topRegions [] :=
    Body.childRegionsFrom_parent (by simp)
  rw [← hc]
  exact filterMap_idxsOf none d.body.parents d.regions

/-- The regions right inside a section are those right in the body inside it. -/
theorem childRegions_eq {g : Body.Region} (hg : d.regions[i]? = some g) :
    d.childRegions (some i) = g.inner.topRegions (g.above ++ [g.name]) := by
  have hc : d.body.childRegionsFrom (some (0 + i)) none 0 [] =
      g.inner.topRegions (g.above ++ [g.name]) :=
    Body.childRegionsFrom_eq_topRegions hg (by simp)
  rw [Nat.zero_add] at hc
  rw [← hc]
  exact filterMap_idxsOf (some i) d.body.parents d.regions

/-- **A section lists the paths of the sections right inside it**, in the order of the text. -/
theorem below_eq (hs : d.sections[i]? = some s) :
    s.below = (d.children (some i)).map (·.fullPath) := by
  have hb : s.below = (d.body.childrenFrom (some (0 + i)) none 0 []).map (·.fullPath) :=
    Body.below_eq hs (by simp)
  rw [children_eq, hb, Nat.zero_add]

end Document

end PagePartials
