import PagePartials.Extraction.Basic
import Mathlib.Data.List.GetD

/-!
# Walks over linked sections

A walk keeps a stack of sections to visit. What it does with the sections on top of the stack does
not depend on those below, so it visits one part of the stack after the other. Where the sections
of a body stand in a table, linked as they stand in each other, a walk meets them in the order of
the body, the way up from each of them leads through the sections around it, and the outline of
the table is that of the page.

## Main definitions

* `Body.childRefs next b`: the places of the sections right in `b`
* `Body.linked parent next b`: the sections of `b`, linked to each other
* `SectionTable.Holds t parent next b`: these sections stand in `t`
* `SectionTable.Leads t p above`: the names on the way up from `p` are `above`

## Main results

* `SectionTable.visit_append`: a stack is visited part by part
* `SectionTable.size_lt_walkBound`: a walk may take more steps than there are sections
* `SectionTable.Holds.walk_eq`: a walk meets the sections of a body in their order
* `SectionTable.Holds.map_place`: they stand in the table where they stand in the body
* `SectionTable.Holds.outline_eq`: the outline of a table that holds the sections of a page
-/

namespace PagePartials

/-! ## Visiting -/

namespace SectionTable

variable {t : SectionTable} {r : Ref}

@[simp] theorem visit_nil (t : SectionTable) (fuel : Nat) : t.visit fuel [] = [] := by
  cases fuel <;> rfl

theorem visit_cons (t : SectionTable) (fuel : Nat) (r : Ref) (rs : List Ref) :
    t.visit (fuel + 1) (r :: rs) = r :: t.visit fuel ((t.get r).children ++ rs) :=
  rfl

/-- A stack is visited part by part: its upper part first, and then, with the steps that are left,
its lower part. -/
theorem visit_append (t : SectionTable) (fuel : Nat) (rs qs : List Ref) :
    t.visit fuel (rs ++ qs) =
      t.visit fuel rs ++ t.visit (fuel - (t.visit fuel rs).length) qs := by
  induction fuel generalizing rs with
  | zero => rfl
  | succ fuel ih =>
    cases rs with
    | nil => simp
    | cons r rs =>
      rw [List.cons_append, visit_cons, visit_cons, ← List.append_assoc, ih, List.length_cons,
        Nat.add_sub_add_right, List.cons_append]

theorem length_children_le_links {s : LinkedSection} (hs : s ∈ t.nodes) :
    s.children.length ≤ t.links := by
  unfold links
  generalize t.nodes = nodes at hs
  induction nodes with
  | nil => exact absurd hs List.not_mem_nil
  | cons u us ih =>
    rcases List.mem_cons.mp hs with rfl | hs
    · exact Nat.le_add_right ..
    · exact Nat.le_trans (ih hs) (Nat.le_add_left ..)

/-- Where there is a link, a walk may take more steps than there are sections. -/
theorem size_lt_walkBound (h : (t.get r).children ≠ []) : t.size < t.walkBound := by
  have hr : r < t.nodes.length := by
    refine Nat.lt_of_not_le fun hr => h ?_
    rw [get, List.getD_eq_default _ _ hr]
    rfl
  have hlinks : 0 < t.links := by
    refine Nat.lt_of_lt_of_le (List.length_pos_iff.mpr h) (length_children_le_links ?_)
    rw [get, List.getD_eq_getElem _ _ hr]
    exact List.getElem_mem hr
  calc t.size
      < 2 ^ t.size := Nat.lt_two_pow_self
    _ ≤ (t.links + 1) ^ t.size := Nat.pow_le_pow_left (Nat.succ_le_succ hlinks) _

end SectionTable

/-! ## The sections of a body, linked -/

namespace Body

/-- The places of the sections right in a body whose sections take up the places from `next` on. -/
def childRefs (next : Nat) : Body → List Ref
  | nil => []
  | line _ rest => rest.childRefs next
  | nested _ _ inner _ rest => next :: rest.childRefs (next + 1 + inner.count)

/-- One section, linked to `parent` and to the sections right inside it, which take up the places
from `next` on. -/
def linkOne (parent next : Nat) (name start : Text) (inner : Body) (stop : Option Text) :
    LinkedSection where
  name := name
  content := inner.lines
  startComment := some start
  endComment := stop
  parent := some parent
  children := inner.childRefs next

/-- The sections of a body, in the order of `place`, linked to each other and to `parent`, where
they take up the places from `next` on. -/
def linked (parent next : Nat) : Body → List LinkedSection
  | nil => []
  | line _ rest => rest.linked parent next
  | nested name start inner stop rest =>
    linkOne parent (next + 1) name start inner stop ::
      (inner.linked next (next + 1) ++ rest.linked parent (next + 1 + inner.count))

@[simp] theorem length_linked (b : Body) (parent next : Nat) :
    (b.linked parent next).length = b.count := by
  induction b generalizing parent next with
  | nil => rfl
  | line _ rest ih => exact ih parent next
  | nested _ _ inner _ rest ih₁ ih₂ =>
    simp only [linked, count, List.length_cons, List.length_append, ih₁, ih₂]
    omega

/-- The links to the parents are those that the body gives. -/
theorem map_parent_linked (b : Body) (parent next : Nat) :
    (b.linked parent next).map (·.parent) = b.parentsFrom (some parent) next := by
  induction b generalizing parent next with
  | nil => rfl
  | line _ rest ih => exact ih parent next
  | nested _ _ inner _ rest ih₁ ih₂ =>
    rw [linked, parentsFrom, List.map_cons, List.map_append, ih₁, ih₂]
    rfl

theorem count_eq_zero_of_childRefs {b : Body} {next : Nat} (h : b.childRefs next = []) :
    b.count = 0 := by
  induction b with
  | nil => rfl
  | line _ rest ih => exact ih h
  | nested => exact absurd h (List.cons_ne_nil _ _)

/-- The places of the sections of a body: that of the first one, those of the sections inside it, and
those of the sections behind it. -/
theorem range'_count_nested (next : Nat) (name start : Text) (inner : Body) (stop : Option Text)
    (rest : Body) : List.range' next (nested name start inner stop rest).count =
      next :: (List.range' (next + 1) inner.count ++
        List.range' (next + 1 + inner.count) rest.count) := by
  rw [count, show 1 + inner.count + rest.count = inner.count + rest.count + 1 by omega,
    List.range'_succ, ← List.range'_append_1]

end Body

namespace SectionTable

open Body (nested linkOne placeOne)

variable {t : SectionTable} {parent next r : Nat} {b inner rest : Body} {name start : Text}
  {stop : Option Text} {above : List Text}

/-- The sections of the body stand in the table, at the places from `next` on, linked to each other
and to `parent`. -/
def Holds (t : SectionTable) (parent next : Nat) (b : Body) : Prop :=
  ∃ before behind, t.nodes = before ++ (b.linked parent next ++ behind) ∧ before.length = next

/-- The names of the sections met on the way up from a place, that of the section there among them,
outermost first. -/
def Leads (t : SectionTable) (p : Ref) (above : List Text) : Prop :=
  ∀ fuel, above.length ≤ fuel →
    (t.chain fuel (some p)).reverse.map (fun a => (t.get a).name) = above

/-- The way up ends at a root. -/
theorem leads_root (h : (t.get r).parent = none) : t.Leads r [] := by
  have hroot : t.isRoot r = true := by simp [isRoot, h]
  intro fuel _
  cases fuel with
  | zero => rfl
  | succ fuel => simp [chain, hroot]

/-! ### Walking -/

namespace Holds

theorem get_eq (h : t.Holds parent next (nested name start inner stop rest)) :
    t.get next = linkOne parent (next + 1) name start inner stop := by
  obtain ⟨before, behind, hnodes, rfl⟩ := h
  rw [get, hnodes, List.getD_append_right _ _ _ _ (Nat.le_refl _), Nat.sub_self]
  rfl

theorem name_eq (h : t.Holds parent next (nested name start inner stop rest)) :
    (t.get next).name = name := by
  rw [h.get_eq]
  rfl

theorem parent_eq (h : t.Holds parent next (nested name start inner stop rest)) :
    (t.get next).parent = some parent := by
  rw [h.get_eq]
  rfl

theorem children_eq (h : t.Holds parent next (nested name start inner stop rest)) :
    (t.get next).children = inner.childRefs (next + 1) := by
  rw [h.get_eq]
  rfl

theorem of_nested (h : t.Holds parent next (nested name start inner stop rest)) :
    t.Holds next (next + 1) inner ∧ t.Holds parent (next + 1 + inner.count) rest := by
  obtain ⟨before, behind, hnodes, rfl⟩ := h
  rw [Body.linked, List.cons_append, List.append_assoc] at hnodes
  constructor
  · refine ⟨before ++ [linkOne parent (before.length + 1) name start inner stop],
      rest.linked parent (before.length + 1 + inner.count) ++ behind, ?_, List.length_append⟩
    rw [hnodes, List.append_assoc, List.singleton_append]
  · refine ⟨before ++ linkOne parent (before.length + 1) name start inner stop ::
      inner.linked before.length (before.length + 1), behind, ?_, ?_⟩
    · rw [hnodes, List.append_assoc, List.cons_append]
    · simp only [List.length_append, List.length_cons, Body.length_linked]
      omega

theorem count_le (h : t.Holds parent next b) : next + b.count ≤ t.size := by
  obtain ⟨before, behind, hnodes, rfl⟩ := h
  rw [size, hnodes, List.length_append, List.length_append, Body.length_linked]
  omega

/-- With enough steps, visiting the sections right in a body meets all its sections in order. -/
theorem visit_eq (h : t.Holds parent next b) {fuel : Nat} (hfuel : b.count ≤ fuel) :
    t.visit fuel (b.childRefs next) = List.range' next b.count := by
  -- By induction on the body: on top of the stack lies the first section, then come the sections
  -- inside it, and the stack below them is the one for the rest of the body.
  induction b generalizing parent next fuel with
  | nil => exact visit_nil t fuel
  | line _ rest ih => exact ih h hfuel
  | nested name start inner stop rest ih₁ ih₂ =>
    obtain ⟨hinner, hrest⟩ := h.of_nested
    rw [Body.count] at hfuel
    obtain ⟨fuel, rfl⟩ := Nat.exists_eq_add_of_le' (show 1 ≤ fuel by omega)
    rw [Body.range'_count_nested, Body.childRefs, visit_cons, h.children_eq, visit_append,
      ih₁ hinner (by omega), List.length_range', ih₂ hrest (by omega)]

/-- **A walk meets the sections of a body in their order**: from a section that has the sections
right in the body as its children, all sections of the body. -/
theorem walk_eq (h : t.Holds parent next b) (hr : (t.get r).children = b.childRefs next) :
    t.walk r = List.range' next b.count := by
  rw [walk, hr]
  refine h.visit_eq ?_
  by_cases hnil : b.childRefs next = []
  · rw [Body.count_eq_zero_of_childRefs hnil]
    exact Nat.zero_le _
  · have := size_lt_walkBound (hr ▸ hnil : (t.get r).children ≠ [])
    have := h.count_le
    omega

/-- The sections right in a body, each with the walk from there, are all sections of the body. -/
theorem iter_eq (h : t.Holds parent next b) :
    t.iter (b.childRefs next) = List.range' next b.count := by
  induction b generalizing parent next with
  | nil => rfl
  | line _ rest ih => exact ih h
  | nested name start inner stop rest _ ih =>
    obtain ⟨hinner, hrest⟩ := h.of_nested
    have hwalk := hinner.walk_eq h.children_eq
    have hrest' : (rest.childRefs (next + 1 + inner.count)).flatMap (fun r => r :: t.walk r) =
        List.range' (next + 1 + inner.count) rest.count := ih hrest
    rw [Body.range'_count_nested, iter, Body.childRefs, List.flatMap_cons, hwalk, hrest',
      List.cons_append]

/-! ### The way up -/

theorem leads_inner (h : t.Holds parent next (nested name start inner stop rest))
    (hp : t.Leads parent above) : t.Leads next (above ++ [name]) := by
  intro fuel hfuel
  rw [List.length_append, List.length_singleton] at hfuel
  obtain ⟨fuel, rfl⟩ := Nat.exists_eq_add_of_le' (show 1 ≤ fuel by omega)
  have hroot : ¬ t.isRoot next = true := by simp [isRoot, h.parent_eq]
  rw [chain, if_neg hroot, h.parent_eq, List.reverse_cons, List.map_append, hp fuel (by omega),
    List.map_singleton, h.name_eq]

theorem namesAbove_eq (h : t.Holds parent next (nested name start inner stop rest))
    (hp : t.Leads parent above) (hlen : above.length ≤ next) : t.namesAbove next = above := by
  have hsize := h.count_le
  rw [Body.count] at hsize
  rw [namesAbove, ancestors, h.parent_eq]
  exact hp t.size (by omega)

theorem map_fullPath (h : t.Holds parent next b) (hp : t.Leads parent above)
    (hlen : above.length ≤ next) :
    (b.childRefs next).map t.fullPath = b.names.map fun n => SectionPath.join (above ++ [n]) := by
  induction b generalizing parent next with
  | nil => rfl
  | line _ rest ih => exact ih h hp hlen
  | nested name start inner stop rest _ ih =>
    have hpath : t.fullPath next = SectionPath.join (above ++ [name]) := by
      rw [fullPath, h.namesAbove_eq hp hlen, h.name_eq]
    rw [Body.childRefs, Body.names, List.map_cons, List.map_cons, hpath,
      ih h.of_nested.2 hp (by omega)]

theorem place_eq (h : t.Holds parent next (nested name start inner stop rest))
    (hp : t.Leads parent above) (hlen : above.length ≤ next) :
    t.place next = placeOne above name start inner stop := by
  have hbelow := h.of_nested.1.map_fullPath (h.leads_inner hp)
    (by rw [List.length_append, List.length_singleton]; omega)
  rw [place, h.namesAbove_eq hp hlen, h.children_eq, hbelow, h.get_eq]
  simp [placeOne, linkOne]

/-- The sections right in the body stand in the table where they stand in the body. -/
theorem map_place_childRefs (h : t.Holds parent next b) (hp : t.Leads parent above)
    (hlen : above.length ≤ next) : (b.childRefs next).map t.place = b.top above := by
  induction b generalizing parent next with
  | nil => rfl
  | line _ rest ih => exact ih h hp hlen
  | nested name start inner stop rest _ ih =>
    rw [Body.childRefs, Body.top, List.map_cons, h.place_eq hp hlen, ih h.of_nested.2 hp (by omega)]

/-- The sections of the body stand in the table where they stand in the body. -/
theorem map_place (h : t.Holds parent next b) (hp : t.Leads parent above)
    (hlen : above.length ≤ next) : (List.range' next b.count).map t.place = b.place above := by
  induction b generalizing parent next above with
  | nil => rfl
  | line _ rest ih => exact ih h hp hlen
  | nested name start inner stop rest ih₁ ih₂ =>
    obtain ⟨hinner, hrest⟩ := h.of_nested
    have hlen' : (above ++ [name]).length ≤ next + 1 := by
      rw [List.length_append, List.length_singleton]
      omega
    rw [Body.range'_count_nested, List.map_cons, List.map_append, h.place_eq hp hlen,
      ih₁ hinner (h.leads_inner hp) hlen', ih₂ hrest hp (by omega), Body.place]

/-- The outline of a table with the sections of a page, linked to a root. -/
theorem outline_eq {d : Document} (h : t.Holds r next d.body) (hroot : (t.get r).parent = none)
    (hr : (t.get r).children = d.body.childRefs next) : t.outline r d.header = d.outline := by
  have hleads : t.Leads r [] := leads_root hroot
  rw [outline, hr, h.iter_eq, h.map_place hleads (Nat.zero_le _),
    h.map_place_childRefs hleads (Nat.zero_le _)]
  rfl

end Holds

end SectionTable

end PagePartials
