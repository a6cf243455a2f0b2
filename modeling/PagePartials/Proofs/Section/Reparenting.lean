import PagePartials.Proofs.Document.Sections
import PagePartials.Proofs.Section.Ancestors

/-!
# Paths of sections that are moved

When a section is added to another one, all that stands under it moves along. The path of each
section that moves is then the path of the receiving section, unless that is a root, and behind it
the names on the way from the moved section down. All other sections keep their path, since the way
up from them does not pass through the link that changes.

## Main definitions

* `SectionTable.Way t c d way`: `way` leads from `c` down to `d`
* `SectionTable.pathBelow t p ns`: the path that the names `ns` make under `p`
* `SectionTable.depthBelow t p`: the depth of the sections right inside `p`

## Main results

* `SectionTable.under_iff_exists_way`: a way leads down to each section under another one
* `SectionTable.ancestors_addChild`: what does not move keeps the sections around it
* `SectionTable.WellLinked.names_addChild`: the names on the path of what moves
* `SectionTable.paths_addChild`: all paths, depths and partials after an addition
-/

namespace PagePartials

/-- Two parts of a path, joined, are the parts with a slash between them. -/
theorem SectionPath.join_append {ms ns : List Text} (hms : ms ≠ []) (hns : ns ≠ []) :
    join (ms ++ ns) = join ms ++ '/' :: join ns := by
  induction ms with
  | nil => exact absurd rfl hms
  | cons m ms ih =>
    cases ms with
    | nil =>
      obtain ⟨n, ns, rfl⟩ := List.exists_cons_of_ne_nil hns
      simp [join, List.intercalate_cons_cons]
    | cons m' ms =>
      have h := ih (List.cons_ne_nil _ _)
      simp only [join, List.cons_append] at h ⊢
      rw [List.intercalate_cons_cons, h, List.intercalate_cons_cons]
      simp only [List.append_assoc]

namespace SectionTable

open Relation

variable {t t' : SectionTable} {c d p x : Ref} {way : List Ref} {ms : List Move}

/-! ## The way down -/

/-- The sections from `c` down to another one, each the parent of the next. -/
inductive Way (t : SectionTable) (c : Ref) : Ref → List Ref → Prop
  | here : Way t c c [c]
  | down {x d : Ref} {way : List Ref} (hway : Way t c x way) (hd : t.ChildOf d x) :
      Way t c d (way ++ [d])

theorem Way.under (h : t.Way c d way) : t.Under d c := by
  induction h with
  | here => exact .refl
  | down _ hd ih => exact .head hd ih

theorem Way.ne_nil (h : t.Way c d way) : way ≠ [] := by
  cases h with
  | here => exact List.cons_ne_nil _ _
  | down => exact List.append_ne_nil_of_right_ne_nil _ (List.cons_ne_nil _ _)

/-- A way leads down to each section that stands under another one. -/
theorem under_iff_exists_way : t.Under d c ↔ ∃ way, t.Way c d way := by
  constructor
  · intro h
    induction h using ReflTransGen.head_induction_on with
    | refl => exact ⟨[c], .here⟩
    | head hd _ ih =>
      obtain ⟨way, hway⟩ := ih
      exact ⟨_, hway.down hd⟩
  · rintro ⟨way, h⟩
    exact h.under

theorem ne_of_not_under (h : ¬ t.Under d c) : d ≠ c := by
  rintro rfl
  exact h .refl

/-- What stands right inside a section under `c` is not `c` itself. -/
theorem IsAcyclic.ne_of_childOf (hacyclic : t.IsAcyclic) (hx : t.Under x c) (hd : t.ChildOf d x) :
    d ≠ c := by
  rintro rfl
  exact hacyclic d (.head' hd hx)

/-! ## The names on a path -/

/-- The path that the names make under a section. A root gives no part of it. -/
def pathBelow (t : SectionTable) (p : Ref) (ns : List Text) : Text :=
  if t.isRoot p then SectionPath.join ns else t.fullPath p ++ '/' :: SectionPath.join ns

/-- The depth of the sections right inside a section. -/
def depthBelow (t : SectionTable) (p : Ref) : Nat :=
  if t.isRoot p then 0 else (t.place p).depth + 1

/-- The names that a section gives to the paths of those under it. -/
def namesTo (t : SectionTable) (p : Ref) : List Text :=
  if t.isRoot p then [] else (t.place p).names

theorem length_namesTo (t : SectionTable) (p : Ref) : (t.namesTo p).length = t.depthBelow p := by
  unfold namesTo depthBelow
  split
  · rfl
  · simp [PlacedSection.names, PlacedSection.depth]

theorem join_namesTo_append (t : SectionTable) (p : Ref) {ns : List Text} (hns : ns ≠ []) :
    SectionPath.join (t.namesTo p ++ ns) = t.pathBelow p ns := by
  unfold namesTo pathBelow
  split
  · rfl
  · exact SectionPath.join_append (by simp [PlacedSection.names]) hns

/-- The names on the path of a section, from those of its parent. -/
theorem WellLinked.names_of_childOf (h : t.WellLinked) (hacyclic : t.IsAcyclic)
    (hx : t.ChildOf x p) : (t.place x).names = t.namesTo p ++ [(t.get x).name] := by
  rw [PlacedSection.names, place, namesAbove, h.ancestors_of_childOf hacyclic hx, namesTo]
  split
  · rfl
  · rw [List.map_append]
    rfl

/-! ## After an addition -/

section

variable (hp : p < t.size) (hc : c < t.size) (ht : t.addChild p c = .ok t')

include hp hc ht

theorem isRoot_addChild_of_ne (hx : x ≠ c) : t'.isRoot x = t.isRoot x := by
  rw [isRoot, isRoot, parent_addChild_of_ne hp hc ht hx]

theorem name_addChild (x : Ref) : (t'.get x).name = (t.get x).name :=
  congrArg Section.name (toSection_addChild hp hc ht x)

theorem childOf_addChild_self : t'.ChildOf c p := parent_addChild_self hp hc ht

theorem childOf_addChild_of_ne (hx : x ≠ c) : t'.ChildOf x d ↔ t.ChildOf x d := by
  rw [ChildOf, ChildOf, parent_addChild_of_ne hp hc ht hx]

/-- The way up from what does not move does not change. -/
theorem chain_addChild {start : Option Ref} (hstart : ∀ r ∈ start, ¬ t.Under r c) (fuel : Nat) :
    t'.chain fuel start = t.chain fuel start := by
  induction fuel generalizing start with
  | zero => rfl
  | succ fuel ih =>
    cases start with
    | none => rfl
    | some r =>
      have hr : ¬ t.Under r c := hstart r rfl
      have hne := ne_of_not_under hr
      have hup : ∀ q ∈ (t.get r).parent, ¬ t.Under q c := fun q hq h => hr (.head hq h)
      rw [chain, chain, isRoot_addChild_of_ne hp hc ht hne, parent_addChild_of_ne hp hc ht hne,
        ih hup]

/-- **What does not move keeps the sections around it.** -/
theorem ancestors_addChild (hd : ¬ t.Under d c) : t'.ancestors d = t.ancestors d := by
  have hne := ne_of_not_under hd
  have hup : ∀ q ∈ (t.get d).parent, ¬ t.Under q c := fun q hq h => hd (.head hq h)
  rw [ancestors, ancestors, size_addChild ht, parent_addChild_of_ne hp hc ht hne,
    chain_addChild hp hc ht hup]

theorem namesAbove_addChild (hd : ¬ t.Under d c) : t'.namesAbove d = t.namesAbove d := by
  rw [namesAbove, namesAbove, ancestors_addChild hp hc ht hd]
  exact List.map_congr_left fun a _ => name_addChild hp hc ht a

theorem fullPath_addChild (hd : ¬ t.Under d c) : t'.fullPath d = t.fullPath d := by
  rw [fullPath, fullPath, namesAbove_addChild hp hc ht hd, name_addChild hp hc ht]

theorem namesTo_addChild (hd : ¬ t.Under d c) : t'.namesTo d = t.namesTo d := by
  have hne := ne_of_not_under hd
  rw [namesTo, namesTo, isRoot_addChild_of_ne hp hc ht hne, PlacedSection.names,
    PlacedSection.names]
  simp only [place, namesAbove_addChild hp hc ht hd, name_addChild hp hc ht d]

/-- What moves is no root afterwards. -/
theorem isRoot_addChild_of_under (hx : t.Under x c) : t'.isRoot x = false := by
  by_cases hne : x = c
  · rw [hne]
    exact not_isRoot_of_childOf (childOf_addChild_self hp hc ht)
  · obtain ⟨q, hq, -⟩ := (ReflTransGen.cases_head hx).resolve_left hne
    exact not_isRoot_of_childOf ((childOf_addChild_of_ne hp hc ht hne).mpr hq)

/-- The ways down from the section that moves are the same as before. -/
theorem way_addChild (hacyclic : t.IsAcyclic) (h : t.Way c d way) : t'.Way c d way := by
  induction h with
  | here => exact .here
  | down hway hd ih =>
    have hne := hacyclic.ne_of_childOf hway.under hd
    exact ih.down ((childOf_addChild_of_ne hp hc ht hne).mpr hd)

/-- The same sections stand under the one that moves. -/
theorem under_addChild_iff (hacyclic : t.IsAcyclic) (hapart : ¬ t.Under p c) :
    t'.Under d c ↔ t.Under d c := by
  constructor
  · intro h
    induction h using ReflTransGen.head_induction_on with
    | refl => exact .refl
    | head hd _ ih =>
      rcases childOf_addChild hp hc ht hd with ⟨-, rfl⟩ | hd
      · exact absurd ih hapart
      · exact .head hd ih
  · intro h
    obtain ⟨way, hway⟩ := under_iff_exists_way.mp h
    exact (way_addChild hp hc ht hacyclic hway).under

/-- **The names on the path of what moves** are those of the section that it is added to, and the
names on the way down. -/
theorem WellLinked.names_addChild (h : t.WellLinked) (hacyclic : t.IsAcyclic)
    (hapart : ¬ t.Under p c) (hway : t.Way c d way) :
    (t'.place d).names = t.namesTo p ++ way.map fun r => (t.get r).name := by
  have hlinked' := h.addChild hp hc ht
  have hacyclic' := hacyclic.addChild hp hc ht hapart
  induction hway with
  | here =>
    rw [hlinked'.names_of_childOf hacyclic' (childOf_addChild_self hp hc ht),
      namesTo_addChild hp hc ht hapart, name_addChild hp hc ht]
    rfl
  | @down x d way hway hd ih =>
    have hne := hacyclic.ne_of_childOf hway.under hd
    have hd' := (childOf_addChild_of_ne hp hc ht hne).mpr hd
    have hroot : t'.isRoot x = false := isRoot_addChild_of_under hp hc ht hway.under
    rw [hlinked'.names_of_childOf hacyclic' hd', namesTo, if_neg (by simp [hroot]), ih,
      name_addChild hp hc ht, List.map_append, List.append_assoc]
    rfl

/-- The path of what moves. -/
theorem WellLinked.fullPath_addChild (h : t.WellLinked) (hacyclic : t.IsAcyclic)
    (hapart : ¬ t.Under p c) (hway : t.Way c d way) :
    t'.fullPath d = t.pathBelow p (way.map fun r => (t.get r).name) := by
  have hnames := h.names_addChild hp hc ht hacyclic hapart hway
  rw [← join_namesTo_append t p (by simpa using hway.ne_nil), ← hnames]
  rfl

/-- The depth of what moves. -/
theorem WellLinked.depth_addChild (h : t.WellLinked) (hacyclic : t.IsAcyclic)
    (hapart : ¬ t.Under p c) (hway : t.Way c d way) :
    (t'.place d).depth = t.depthBelow p + (way.length - 1) := by
  have hnames := congrArg List.length (h.names_addChild hp hc ht hacyclic hapart hway)
  have hpos := List.length_pos_iff.mpr hway.ne_nil
  rw [PlacedSection.names, List.length_append, List.length_append, length_namesTo,
    List.length_map, List.length_singleton] at hnames
  rw [PlacedSection.depth]
  omega

end

/-- **All paths after an addition.** However a table was built by additions, so that no section
stands under itself: when a section is added to one that does not stand under it, then for each
section under the moved one, itself among them, the path is made of the names on the way down from
there, behind the path of the receiving section unless that is a root, and its depth, its partial
and the reference to that follow. Which sections stand under the moved one stays the same, and so do
the path, depth and partial of every other section. -/
theorem paths_addChild (hms : empty.EachMeets Reaches ms) (hmade : empty.makeAll ms = .ok t)
    (hacyclic : t.IsAcyclic) (hp : p < t.size) (hc : c < t.size) (hapart : ¬ t.Under p c) :
    ∃ t', t.addChild p c = .ok t' ∧
      (∀ d, t'.Under d c ↔ ∃ way, t.Way c d way) ∧
      (∀ d way, t.Way c d way →
        t'.fullPath d = t.pathBelow p (way.map fun r => (t.get r).name) ∧
        (t'.place d).depth = t.depthBelow p + (way.length - 1) ∧
        (t'.place d).partialName =
          SectionPath.partialName (t.pathBelow p (way.map fun r => (t.get r).name)) ∧
        SectionPath.reference (t'.fullPath d) = "'partials/".toList ++
          SectionPath.partialName (t.pathBelow p (way.map fun r => (t.get r).name)) ++ ['\'']) ∧
      ∀ d, ¬ t'.Under d c →
        t'.fullPath d = t.fullPath d ∧ (t'.place d).depth = (t.place d).depth ∧
          (t'.place d).partialName = (t.place d).partialName := by
  obtain ⟨t₀, ht₀, hlinked, -⟩ := exists_makeAll_of_reaches hms
  obtain rfl : t₀ = t := Except.ok.inj (ht₀.symm.trans hmade)
  obtain ⟨t', ht⟩ := hlinked.exists_addChild p c
  refine ⟨t', ht, ?under, ?moved, ?kept⟩
  case under =>
    intro d
    rw [under_addChild_iff hp hc ht hacyclic hapart, under_iff_exists_way]
  case moved =>
    intro d way hway
    have hpath := hlinked.fullPath_addChild hp hc ht hacyclic hapart hway
    refine ⟨hpath, hlinked.depth_addChild hp hc ht hacyclic hapart hway, ?_, ?_⟩
    · exact congrArg SectionPath.partialName hpath
    · exact congrArg SectionPath.reference hpath
  case kept =>
    intro d hd
    rw [under_addChild_iff hp hc ht hacyclic hapart] at hd
    have hpath := fullPath_addChild hp hc ht hd
    have habove := namesAbove_addChild hp hc ht hd
    exact ⟨hpath, congrArg List.length habove, congrArg SectionPath.partialName hpath⟩

/-- The second section is put into the third, and the fourth one with it. -/
theorem paths_untangled : empty.EachMeets Reaches untangling ∧
    empty.makeAll untangling = .ok untangled ∧ untangled.IsAcyclic ∧ 2 < untangled.size ∧
    1 < untangled.size ∧ ¬ untangled.Under 2 1 ∧ untangled.fullPath 3 = "a/c".toList ∧
    ∃ t', untangled.addChild 2 1 = .ok t' ∧ t'.fullPath 3 = "b/a/c".toList ∧
      (t'.place 3).depth = 2 ∧ (t'.place 3).partialName = "_b_a_c.html".toList := by
  have hapart : ¬ untangled.Under 2 1 :=
    not_under_of_climb (n := 2) (by decide) (by decide)
  have hway : untangled.Way 1 3 [1, 3] := .down .here rfl
  obtain ⟨t', ht, -, hmoved, -⟩ := paths_addChild reaches_untangling makeAll_untangling
    isAcyclic_untangled (p := 2) (c := 1) (by decide) (by decide) hapart
  obtain ⟨hpath, hdepth, hname, -⟩ := hmoved 3 [1, 3] hway
  have hbelow : untangled.pathBelow 2 ([1, 3].map fun r => (untangled.get r).name) =
      "b/a/c".toList := by
    decide
  rw [hbelow] at hpath hname
  refine ⟨reaches_untangling, makeAll_untangling, isAcyclic_untangled, by decide, by decide,
    hapart, by decide, t', ht, hpath, hdepth.trans (by decide), hname.trans (by decide)⟩

end SectionTable

end PagePartials
