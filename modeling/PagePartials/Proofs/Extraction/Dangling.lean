import PagePartials.Proofs.Extraction.Index
import PagePartials.Proofs.Section.Ancestry

/-!
# Include lines without a partial

The index includes the outermost sections, and a partial includes the sections right inside its own.
Both are done before it is known which sections get a partial at all: a section whose partial would
be blank gets none. The index asks first whether that is so, and leaves such a section out. A
partial does not ask. So in whatever way a tree was put together, every include line of its index
has the partial that it names, and an include line of a partial has it unless the section inside is
blank.

## Main definitions

* `SectionTable.emitted t rs`: the sections, from `rs` down, that have a partial
* `SectionTable.indexed t rs`: those of `rs` that the index includes
* `SectionTable.IsIncluded t rs c`: there is an include line for `c`

## Main results

* `SectionTable.IsForest.mem_iter`: which sections are met from the given ones down
* `SectionTable.exists_makeAll_isForest`: every forest, built with names on one line
* `SectionTable.emitted_of_isIncluded`: which included sections have a partial
* `SectionTable.exists_dangling`: a section that is included and has none
-/

namespace PagePartials

namespace SectionTable

open Relation

variable {t t' : SectionTable} {a c p r : Ref} {m : Move} {ms : List Move} {rs : List Ref}

/-! ## Names on one line -/

/-- No section of the table has a newline in its name. -/
def IsNamedOnLine (t : SectionTable) : Prop := ∀ x, '\n' ∉ (t.get x).name

/-- The move makes no section with a newline in its name. -/
def NamesOnLine (_ : SectionTable) : Move → Prop
  | .create s => '\n' ∉ s.name
  | .add _ _ => True

namespace IsNamedOnLine

theorem empty : SectionTable.empty.IsNamedOnLine := by
  intro x
  rw [get_of_size_le (Nat.zero_le x)]
  exact List.not_mem_nil

theorem exists_make (h : t.WellLinked ∧ t.IsNamedOnLine) (hm : t.Reaches m ∧ t.NamesOnLine m) :
    ∃ t', t.make m = .ok t' ∧ t'.WellLinked ∧ t'.IsNamedOnLine := by
  obtain ⟨t', ht', hlinked⟩ := h.1.exists_make hm.1
  refine ⟨t', ht', hlinked, fun x => ?_⟩
  cases m with
  | create s =>
    obtain rfl : t.push (.single s) = t' := Except.ok.inj ht'
    rcases Nat.lt_trichotomy x t.size with hlt | rfl | hgt
    · rw [get_push_of_lt hlt]
      exact h.2 x
    · rw [get_push_self]
      exact hm.2
    · rw [get_of_size_le (by rw [size_push]; exact hgt)]
      exact List.not_mem_nil
  | add p c =>
    -- An addition changes links only.
    rw [get_addChild hm.1.1 hm.1.2 ht' x]
    exact h.2 x

theorem newline_notMem (h : t.IsNamedOnLine) (r : Ref) : ∀ n ∈ (t.place r).names, '\n' ∉ n := by
  intro n hn
  rcases List.mem_append.mp hn with hn | hn
  · obtain ⟨a, -, rfl⟩ := List.mem_map.mp hn
    exact h a
  · rw [List.mem_singleton.mp hn]
    exact h r

end IsNamedOnLine

/-- **Every forest** that is built by additions which lead in no circle, of sections named on one
line. -/
theorem exists_makeAll_isForest (hms : SectionTable.empty.EachMeets Reaches ms)
    (hapart : SectionTable.empty.EachMeets KeepsApart ms)
    (hnames : ∀ s, Move.create s ∈ ms → '\n' ∉ s.name) :
    ∃ t, SectionTable.empty.makeAll ms = .ok t ∧ t.WellLinked ∧ t.IsForest ∧ t.IsNamedOnLine := by
  obtain ⟨t, ht, hlinked, hacyclic⟩ := exists_makeAll_of_reaches hms
  have hline : SectionTable.empty.EachMeets NamesOnLine ms := by
    refine EachMeets.of_forall (fun m hm u => ?_) SectionTable.empty
    cases m with
    | create s => exact hnames s hm
    | add => exact trivial
  obtain ⟨t', ht', -, hnamed⟩ :=
    exists_makeAll (fun _ _ => IsNamedOnLine.exists_make) ⟨.empty, .empty⟩ (hms.and hline)
  obtain rfl : t = t' := Except.ok.inj (ht.symm.trans ht')
  exact ⟨t, ht, hlinked, (hacyclic hapart).isForest hlinked, hnamed⟩

/-! ## Sections with a partial -/

/-- The sections, among the given ones and those under them, that have a partial. -/
def emitted (t : SectionTable) (rs : List Ref) : List Ref :=
  (t.iter rs).filter fun r => (t.place r).isEmittable

/-- Those of the given sections that the index includes. -/
def indexed (t : SectionTable) (rs : List Ref) : List Ref :=
  rs.filter fun r => (t.place r).isEmittable

/-- Whether there is an include line for the section, in the index or in a partial. -/
def IsIncluded (t : SectionTable) (rs : List Ref) (c : Ref) : Prop :=
  c ∈ t.indexed rs ∨ ∃ r ∈ t.emitted rs, c ∈ (t.get r).children

theorem IsForest.mem_iter (h : t.IsForest) (hlinked : t.WellLinked) :
    a ∈ t.iter rs ↔ ∃ r ∈ rs, t.Under a r := by
  simp only [iter, List.mem_flatMap, List.mem_cons, h.mem_walk hlinked, Under,
    reflTransGen_iff_eq_or_transGen, eq_comm]

theorem IsForest.mem_iter_of_mem_children (h : t.IsForest) (hlinked : t.WellLinked)
    (hr : r ∈ t.iter rs) (hc : c ∈ (t.get r).children) : c ∈ t.iter rs := by
  obtain ⟨x, hx, hrx⟩ := (h.mem_iter hlinked).mp hr
  exact (h.mem_iter hlinked).mpr ⟨x, hx, .head (hlinked.childOf_of_mem hc) hrx⟩

theorem mem_emitted : r ∈ t.emitted rs ↔ r ∈ t.iter rs ∧ (t.place r).isEmittable = true :=
  List.mem_filter

/-- What the index includes has a partial. -/
theorem mem_emitted_of_mem_indexed (hr : r ∈ t.indexed rs) : r ∈ t.emitted rs := by
  obtain ⟨hr, hemittable⟩ := List.mem_filter.mp hr
  exact mem_emitted.mpr ⟨List.mem_flatMap.mpr ⟨r, hr, List.mem_cons_self⟩, hemittable⟩

theorem IsForest.mem_iter_of_isIncluded (h : t.IsForest) (hlinked : t.WellLinked)
    (hc : t.IsIncluded rs c) : c ∈ t.iter rs := by
  rcases hc with hc | ⟨r, hr, hc⟩
  · exact (mem_emitted.mp (mem_emitted_of_mem_indexed hc)).1
  · exact h.mem_iter_of_mem_children hlinked (mem_emitted.mp hr).1 hc

/-- The partials of the given sections and those under them, one for each that has one. -/
theorem collect_iter (h : t.IsNamedOnLine) (rs : List Ref) :
    Partial.collect ((t.iter rs).map t.place) =
      (((t.iter rs).filter fun r => !(t.place r).isEmittable).map
          fun r => .skippedEmpty (t.place r).fullPath,
        .ok ((t.emitted rs).map fun r => Partial.ofSection (t.place r))) := by
  have hnamed : ∀ s ∈ (t.iter rs).map t.place, isPartialName s.partialName = true := by
    rw [List.forall_mem_map]
    exact fun r _ => PlacedSection.isPartialName_partialName (h.newline_notMem r)
  rw [Partial.collect_eq_filter hnamed, List.filter_map, List.filter_map, List.map_map,
    List.map_map]
  rfl

/-- The index of the given sections includes those that have a partial. -/
theorem openIndex_map_place (t : SectionTable) (rs : List Ref) (header : Text) :
    openIndex header (rs.map t.place) =
      endLine header ++ (t.indexed rs).flatMap fun r => (t.place r).includeLine := by
  rw [openIndex, List.filter_map, List.flatMap_map]
  rfl

theorem render_place (t : SectionTable) (r : Ref) : (t.place r).render =
    (t.get r).startComment.getD [] ++ (t.get r).toSection.keptLines.flatten ++
      ((t.get r).children.flatMap fun c => (t.place c).includeLine) ++
        (t.get r).endComment.getD [] := by
  rw [PlacedSection.render, Section.render, place, List.flatMap_map]
  rfl

/-- **Which included sections have a partial.** However a forest is built, of sections that are
named on one line, of the given sections and those under them each has a partial unless that would
be blank. The index has include lines for the given ones that have a partial. A partial has an
include line for each section right inside its own, whether that has a partial or not: it has none
if it is blank. So where no section inside another is blank, all that is included has a partial. -/
theorem emitted_of_isIncluded (ms : List Move) (hms : SectionTable.empty.EachMeets Reaches ms)
    (hapart : SectionTable.empty.EachMeets KeepsApart ms)
    (hnames : ∀ s, Move.create s ∈ ms → '\n' ∉ s.name) :
    ∃ t, SectionTable.empty.makeAll ms = .ok t ∧ ∀ (rs : List Ref) (header : Text),
      (∃ notices, Partial.collect ((t.iter rs).map t.place) =
        (notices, .ok ((t.emitted rs).map fun r => Partial.ofSection (t.place r)))) ∧
      (∃ closing, (closing = [] ∨ closing = closingLines) ∧ indexOf header (rs.map t.place) =
        endLine header ++ ((t.indexed rs).flatMap fun r => (t.place r).includeLine) ++ closing) ∧
      (∀ r ∈ t.emitted rs, (Partial.ofSection (t.place r)).content =
        (t.get r).startComment.getD [] ++ (t.get r).toSection.keptLines.flatten ++
          ((t.get r).children.flatMap fun c => (t.place c).includeLine) ++
            (t.get r).endComment.getD []) ∧
      (∀ r ∈ t.indexed rs, r ∈ t.emitted rs) ∧
      (∀ c, t.IsIncluded rs c → (c ∈ t.emitted rs ↔ (t.place c).isEmittable = true)) ∧
      ((∀ r ∈ t.iter rs, ∀ c ∈ (t.get r).children, (t.place c).isEmittable = true) →
        ∀ c, t.IsIncluded rs c → c ∈ t.emitted rs) := by
  obtain ⟨t, ht, hlinked, hforest, hnamed⟩ := exists_makeAll_isForest hms hapart hnames
  refine ⟨t, ht, fun rs header => ⟨⟨_, collect_iter hnamed rs⟩, ?index,
    fun r _ => render_place t r, ?indexed, ?included, ?full⟩⟩
  case index =>
    rw [indexOf_eq, openIndex_map_place]
    split
    · exact ⟨[], .inl rfl, (List.append_nil _).symm⟩
    · exact ⟨closingLines, .inr rfl, rfl⟩
  case indexed => exact fun r => mem_emitted_of_mem_indexed
  case included =>
    intro c hc
    rw [mem_emitted]
    exact and_iff_right (hforest.mem_iter_of_isIncluded hlinked hc)
  case full =>
    intro hfull c hc
    rcases hc with hc | ⟨r, hr, hc⟩
    · exact mem_emitted_of_mem_indexed hc
    · have hr' : r ∈ t.iter rs := (mem_emitted.mp hr).1
      exact mem_emitted.mpr
        ⟨hforest.mem_iter_of_mem_children hlinked hr' hc, hfull r hr' c hc⟩

/-- A section with a line before its own, and a blank section in it. -/
def blankInside : List Move :=
  [.create (.named "root".toList),
    .create { Section.named "a".toList with startComment := some "x\n".toList },
    .create (.named "b".toList), .add 0 1, .add 1 2]

theorem reaches_blankInside : SectionTable.empty.EachMeets Reaches blankInside := by decide

theorem keepsApart_blankInside : SectionTable.empty.EachMeets KeepsApart blankInside :=
  EachMeets.imp (fun _ _ => ClimbsApart.keepsApart) (by decide)

theorem newline_notMem_blankInside : ∀ s, Move.create s ∈ blankInside → '\n' ∉ s.name := by
  intro s hs
  simp only [blankInside, List.mem_cons, Move.create.injEq, reduceCtorEq, List.not_mem_nil,
    or_false] at hs
  rcases hs with rfl | rfl | rfl <;> decide

/-- Of the two, the outer section has a partial, which has an include line for the blank one. That has
no partial, nor is any partial named as the include line says. -/
theorem exists_dangling : ∃ t ps, SectionTable.empty.makeAll blankInside = .ok t ∧
    SectionTable.empty.EachMeets Reaches blankInside ∧
    SectionTable.empty.EachMeets KeepsApart blankInside ∧
    (∀ s, Move.create s ∈ blankInside → '\n' ∉ s.name) ∧
    (Partial.collect ((t.iter (t.get 0).children).map t.place)).2 = .ok ps ∧
    t.IsIncluded (t.get 0).children 2 ∧
    (∃ p ∈ ps, (t.place 2).includeLine <:+: p.content) ∧
    ∀ p ∈ ps, p.partialName ≠ (t.place 2).partialName := by
  refine ⟨_, _, rfl, reaches_blankInside, keepsApart_blankInside, newline_notMem_blankInside, rfl,
    .inr ⟨1, by decide, by decide⟩, ?_, ?_⟩
  · decide
  · decide

theorem emitted_of_isIncluded_blankInside : ∃ t, SectionTable.empty.makeAll blankInside = .ok t ∧
    (∀ r ∈ t.indexed [1], r ∈ t.emitted [1]) ∧
    ∀ c, t.IsIncluded [1] c → (c ∈ t.emitted [1] ↔ (t.place c).isEmittable = true) := by
  obtain ⟨t, ht, h⟩ := emitted_of_isIncluded blankInside reaches_blankInside
    keepsApart_blankInside newline_notMem_blankInside
  obtain ⟨-, -, -, hindexed, hincluded, -⟩ := h [1] []
  exact ⟨t, ht, hindexed, hincluded⟩

end SectionTable

end PagePartials
