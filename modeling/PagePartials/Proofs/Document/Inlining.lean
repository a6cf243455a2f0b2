import PagePartials.Proofs.Document.Slices

/-!
# Partials put together again

Where the include lines of a partial are replaced by the partials they name, and so on inside those,
the section is inlined. An inlined section has the lines of its part of the page, but for the blank
line of each section that has no other own line: that one is left out. Own lines stand before the
sections right inside, so the order may change; it stays as it was where the page has them in that
order. The header, the inlined sections and the lines outside of all sections are together the lines
of the page.

## Main definitions

* `Body.inlined b`, `Region.inlined g`: the sections right in `b`, and that of `g`, inlined
* `Body.StartsWithLines b`: no own line of `b` stands behind a section right in it
* `Region.IsWhole g`: the section of `g` is marked, and its lines have their newlines

## Main results

* `Region.lines_inlined`: the lines of an inlined section
* `Body.perm_allLines`: no line of a body is lost or repeated but those left out
* `Body.lines_append_inlined`: where nothing is moved or left out
* `Document.lines_inlined_perm`: what inlining gives of a section and of a page
-/

namespace PagePartials

namespace Body

/-! ## Inlined sections -/

/-- The sections right in a body, each with those inside it, inlined in the same way, in place of
its include lines. -/
def inlined : Body → List Text
  | nil => []
  | line _ rest => rest.inlined
  | nested name start inner stop rest =>
    (placeOne [] name start inner stop).renderWith inner.inlined :: rest.inlined

/-- The section of a region, inlined. -/
def Region.inlined (g : Region) : Text := g.placed.renderWith g.inner.inlined

/-- Whether no own line of the body stands behind a section right in it. -/
def StartsWithLines : Body → Prop
  | nil => True
  | line _ rest => rest.StartsWithLines
  | nested _ _ _ _ rest => rest.lines = []

variable {b : Body} {above : List Text}

theorem inlined_eq (b : Body) (above : List Text) :
    b.inlined = (b.topRegions above).map Region.inlined := by
  induction b with
  | nil => rfl
  | line _ rest ih => exact ih
  | nested name start inner stop rest _ ih =>
    rw [inlined, topRegions, List.map_cons, ih]
    rfl

theorem startsWithLines_of_lines_eq_nil (h : b.lines = []) : b.StartsWithLines := by
  cases b with
  | nil => trivial
  | line l rest => simp [lines] at h
  | nested => exact h

namespace Region

variable {g : Region}

/-- Whether the section is marked as it should be, and all its lines have their newlines. -/
structure IsWhole (g : Region) : Prop where
  isMarked : g.placed.IsMarked
  isWholeLine : ∀ l ∈ g.span, Text.IsWholeLine l

theorem start_mem_span (g : Region) : g.start ∈ g.span := List.mem_cons_self

theorem stop_subset_span (g : Region) : g.stop.toList ⊆ g.span := fun _ hl =>
  List.mem_cons_of_mem _ (List.mem_append_right _ hl)

theorem shownLines_subset_span (g : Region) : g.placed.shownLines ⊆ g.span := fun _ hl =>
  List.mem_cons_of_mem _ (List.mem_append_left _
    (g.inner.lines_sublist_allLines.subset (g.placed.shownLines_sublist.subset hl)))

/-- The partial of a section is its text with the include lines of the sections right inside. -/
theorem render_placed (g : Region) : g.placed.render = g.placed.renderWith
    ((g.inner.topRegions (g.above ++ [g.name])).map fun k => k.placed.includeLine) := by
  rw [PlacedSection.render, Section.render_eq_renderWith, g.below_placed, ← map_placed_topRegions,
    List.map_map, List.map_map]
  rfl

theorem inlined_eq_renderWith (g : Region) : g.inlined =
    g.placed.renderWith ((g.inner.topRegions (g.above ++ [g.name])).map Region.inlined) := by
  rw [inlined, inlined_eq]

/-- An inlined section is its markers with what is shown of it and the inlined sections between
them. -/
theorem inlined_eq_flatten (h : g.placed.IsMarked) :
    g.inlined =
      ([g.start] ++ (g.placed.shownLines ++ g.inner.inlined) ++ g.stop.toList).flatten :=
  h.renderWith_eq g.inner.inlined

theorem IsWhole.isEnded_of_mem (h : g.IsWhole) (hin : ∀ x ∈ g.inner.inlined, Text.IsEnded x) :
    ∀ x ∈ [g.start] ++ (g.placed.shownLines ++ g.inner.inlined) ++ g.stop.toList,
      Text.IsEnded x := by
  simp only [List.forall_mem_append, List.forall_mem_singleton]
  refine ⟨⟨?_, fun l hl => ?_, hin⟩, fun l hl => ?_⟩
  · exact (h.isWholeLine _ g.start_mem_span).isEnded
  · exact (h.isWholeLine l (g.shownLines_subset_span hl)).isEnded
  · exact (h.isWholeLine l (g.stop_subset_span hl)).isEnded

end Region

theorem inlined_nested (above : List Text) (name start : Text) (inner : Body) (stop : Option Text)
    (rest : Body) : (nested name start inner stop rest).inlined =
      Region.inlined ⟨above, name, start, inner, stop⟩ :: rest.inlined :=
  rfl

theorem isEnded_of_mem_inlined (h : ∀ g ∈ b.regions above, g.IsWhole) :
    ∀ x ∈ b.inlined, Text.IsEnded x := by
  induction b generalizing above with
  | nil => simp [inlined]
  | line _ rest ih => exact ih h
  | nested name start inner stop rest ih₁ ih₂ =>
    rw [regions, List.forall_mem_cons, List.forall_mem_append] at h
    obtain ⟨hg, hinner, hrest⟩ := h
    rw [inlined_nested above, List.forall_mem_cons, Region.inlined_eq_flatten hg.isMarked]
    exact ⟨Text.isEnded_flatten (hg.isEnded_of_mem (ih₁ hinner)), ih₂ hrest⟩

namespace Region

variable {g : Region}

/-- The lines of an inlined section: its first marker, what is shown of it, the lines of the inlined
sections right inside, and its last marker. -/
theorem lines_inlined (h : ∀ k ∈ g.subtree, k.IsWhole) :
    Text.lines g.inlined =
      g.start :: (g.placed.shownLines ++ g.inner.inlined.flatMap Text.lines ++ g.stop.toList) := by
  obtain ⟨hg, hinner⟩ := List.forall_mem_cons.mp h
  have hshown : g.placed.shownLines.flatMap Text.lines = g.placed.shownLines :=
    Text.IsWholeLine.flatMap_lines fun l hl => hg.isWholeLine l (g.shownLines_subset_span hl)
  have hstart : [g.start].flatMap Text.lines = [g.start] :=
    Text.IsWholeLine.flatMap_lines
      (List.forall_mem_singleton.mpr (hg.isWholeLine _ g.start_mem_span))
  have hstop : g.stop.toList.flatMap Text.lines = g.stop.toList :=
    Text.IsWholeLine.flatMap_lines fun l hl => hg.isWholeLine l (g.stop_subset_span hl)
  rw [inlined_eq_flatten hg.isMarked, Text.lines_flatten_of_isEnded
    (hg.isEnded_of_mem (isEnded_of_mem_inlined hinner))]
  simp only [List.flatMap_append, hshown, hstart, hstop]
  rfl

/-- The lines of an inlined section are those of its part of the page, but for the lines left out,
if this holds of what is inside. -/
theorem perm_span (h : ∀ k ∈ g.subtree, k.IsWhole)
    (hin : (g.inner.inlined.flatMap Text.lines ++ g.inner.lines ++
      (g.inner.regions (g.above ++ [g.name])).flatMap (·.placed.hiddenLines)).Perm
        g.inner.allLines) :
    (Text.lines g.inlined ++ g.subtree.flatMap (·.placed.hiddenLines)).Perm g.span := by
  -- Every line is counted: own lines are either shown or left out.
  rw [List.perm_iff_count] at hin ⊢
  intro l
  have hinner := hin l
  have hown : g.inner.lines = g.placed.shownLines ++ g.placed.hiddenLines :=
    g.placed.shownLines_append_hiddenLines.symm
  rw [hown] at hinner
  rw [lines_inlined h, subtree, span]
  simp only [List.flatMap_cons, List.count_append, List.count_cons] at hinner ⊢
  omega

/-- Where no line is left out, the lines of an inlined section are its part of the page, if this
holds of what is inside. -/
theorem lines_inlined_eq_span (h : ∀ k ∈ g.subtree, k.IsWhole) (hhidden : g.placed.hiddenLines = [])
    (hin : g.inner.lines ++ g.inner.inlined.flatMap Text.lines = g.inner.allLines) :
    Text.lines g.inlined = g.span := by
  have hown : g.placed.shownLines = g.inner.lines := by
    have hcontent := g.placed.shownLines_append_hiddenLines
    rwa [hhidden, List.append_nil] at hcontent
  rw [lines_inlined h, hown, hin, span]

end Region

/-! ## Lines kept, and lines kept in place -/

/-- No line of a body is lost or repeated where the sections right in it are inlined, but the lines
left out. -/
theorem perm_allLines (h : ∀ g ∈ b.regions above, g.IsWhole) :
    (b.inlined.flatMap Text.lines ++ b.lines ++
      (b.regions above).flatMap (·.placed.hiddenLines)).Perm b.allLines := by
  induction b generalizing above with
  | nil => exact .nil
  | line l rest ih =>
    have hrest := ih h
    rw [List.append_assoc] at hrest ⊢
    exact List.perm_middle.trans (hrest.cons l)
  | nested name start inner stop rest ih₁ ih₂ =>
    rw [regions_nested, List.forall_mem_append] at h
    obtain ⟨hg, hrest⟩ := h
    have hfirst := Region.perm_span hg (ih₁ (List.forall_mem_cons.mp hg).2)
    have hbehind := ih₂ hrest
    rw [List.perm_iff_count] at hfirst hbehind ⊢
    intro l
    have hf := hfirst l
    have hb := hbehind l
    rw [inlined_nested above, lines, regions_nested, allLines_nested above]
    simp only [List.flatMap_cons, List.flatMap_append, List.count_append] at hf hb ⊢
    omega

/-- Where the own lines stand first and none is left out, the inlined sections put behind them give
the lines of the body. -/
theorem lines_append_inlined (h : ∀ g ∈ b.regions above, g.IsWhole) (hb : b.StartsWithLines)
    (hin : ∀ g ∈ b.regions above, g.inner.StartsWithLines ∧ g.placed.hiddenLines = []) :
    b.lines ++ b.inlined.flatMap Text.lines = b.allLines := by
  induction b generalizing above with
  | nil => rfl
  | line l rest ih => rw [lines, inlined, allLines, List.cons_append, ih h hb hin]
  | nested name start inner stop rest ih₁ ih₂ =>
    rw [regions_nested, List.forall_mem_append] at h hin
    obtain ⟨hg, hrest⟩ := h
    obtain ⟨hgin, hrestin⟩ := hin
    have hlines : rest.lines = [] := hb
    obtain ⟨⟨hstarts, hhidden⟩, hinnerin⟩ := List.forall_mem_cons.mp hgin
    have hfirst := Region.lines_inlined_eq_span hg hhidden
      (ih₁ (List.forall_mem_cons.mp hg).2 hstarts hinnerin)
    have hbehind := ih₂ hrest (startsWithLines_of_lines_eq_nil hlines) hrestin
    rw [hlines, List.nil_append] at hbehind
    rw [inlined_nested above, lines, allLines_nested above, hlines, List.nil_append,
      List.flatMap_cons, hfirst, hbehind]

end Body

/-! ## Inlining the sections of a page -/

namespace Document

variable {t : Text} {i : Nat} {g : Body.Region}

/-- The regions of an ended text are whole. -/
theorem isWhole_of_mem_regions (hend : t.IsEnded) (hg : g ∈ (ofText t).regions) : g.IsWhole := by
  obtain ⟨i, hi⟩ := List.mem_iff_getElem?.mp hg
  constructor
  · exact isMarked_of_mem_sections (List.mem_of_getElem? (Body.getElem?_place hi))
  · intro l hl
    obtain ⟨before, after, hcut⟩ := exists_cutsAt_of_region hi
    refine hend.isWholeLine ?_
    rw [(lines_eq_append t).1, hcut.eq_append]
    refine List.mem_append_right _ (List.mem_append_left _ (List.mem_append_right _ ?_))
    simpa [Body.Region.span, Body.Region.placed, Body.placeOne] using hl

/-- **Inlining loses no line but lone blank ones.** In a page whose text is empty or ends with a
newline, take for each section the partial with the inlined sections right inside it in place of
their include lines. The lines of that are the lines from the one that begins the section to the one
that ends it, or to the end of the text, in some order, without the blank line of each section, this
one or one inside it, that has no other own line. They are those lines in that order where no own
line of these sections stands behind a section right inside it and there is no such blank line. The
header, the inlined outermost sections and the lines outside of all sections are together the lines
of the text, without the blank lines left out. -/
theorem lines_inlined_perm (t : Text) (hend : t.IsEnded) :
    (ofText t).regions.map Body.Region.placed = (ofText t).sections ∧
    (∀ (i : Nat) (g : Body.Region), (ofText t).regions[i]? = some g →
      g.placed.render = g.placed.renderWith
        (((ofText t).childRegions (some i)).map fun k => k.placed.includeLine) ∧
      g.inlined = g.placed.renderWith
        (((ofText t).childRegions (some i)).map fun k => k.inlined) ∧
      (∃ before after, Text.lines t =
          Text.lines (ofText t).header ++ (before ++ g.span ++ after) ∧
        (beginLines before).length = i ∧ (g.stop = none → after = [])) ∧
      (Text.lines g.inlined ++ g.subtree.flatMap (·.placed.hiddenLines)).Perm g.span ∧
      ((∀ k ∈ g.subtree, k.inner.StartsWithLines ∧ k.placed.hiddenLines = []) →
        Text.lines g.inlined = g.span)) ∧
    (Text.lines (ofText t).header ++
        ((ofText t).childRegions none).flatMap (fun k => Text.lines k.inlined) ++
        (ofText t).body.lines ++ (ofText t).regions.flatMap (·.placed.hiddenLines)).Perm
      (Text.lines t) := by
  have hwhole : ∀ g ∈ (ofText t).regions, g.IsWhole := fun _ => isWhole_of_mem_regions hend
  obtain ⟨hlines, -⟩ := lines_eq_append t
  refine ⟨map_placed_regions _, fun i g hg => ?_, ?_⟩
  · obtain ⟨before, after, hcut⟩ := exists_cutsAt_of_region hg
    have hinside : ∀ k ∈ g.subtree, k.IsWhole := fun k hk =>
      hwhole k (Body.mem_regions_of_mem_subtree (List.mem_of_getElem? hg) hk)
    have hinner := (List.forall_mem_cons.mp hinside).2
    rw [childRegions_eq hg]
    refine ⟨g.render_placed, g.inlined_eq_renderWith, ⟨before, after, ?_, hcut.number, hcut.last⟩,
      Body.Region.perm_span hinside (Body.perm_allLines hinner), fun hkept => ?_⟩
    · rw [hlines, hcut.eq_append]
      simp [Body.Region.span, Body.Region.placed, Body.placeOne]
    · obtain ⟨⟨hstarts, hhidden⟩, hkept⟩ := List.forall_mem_cons.mp hkept
      exact Body.Region.lines_inlined_eq_span hinside hhidden
        (Body.lines_append_inlined hinner hstarts hkept)
  · have hbody := Body.perm_allLines hwhole
    rw [Body.inlined_eq _ [], List.flatMap_map] at hbody
    rw [childRegions_none, hlines, List.append_assoc, List.append_assoc]
    rw [List.append_assoc] at hbody
    exact hbody.append_left _

/-- A page with a section that has another one and then an own line inside it; the inner section has
nothing but a blank line. -/
def blankInside : Text :=
  ("<p>\n<!-- begin: a -->\n<!-- begin: b -->\n \n<!-- end: b -->\nx\n" ++
    "<!-- end: a -->\n").toList

/-- The outer section of that page, with all that stands inside it. -/
def blankInsideOuter : Body.Region where
  above := []
  name := "a".toList
  start := "<!-- begin: a -->\n".toList
  inner := .nested "b".toList "<!-- begin: b -->\n".toList (.line " \n".toList .nil)
    (some "<!-- end: b -->\n".toList) (.line "x\n".toList .nil)
  stop := some "<!-- end: a -->\n".toList

theorem regions_blankInside :
    (ofText blankInside).regions[0]? = some blankInsideOuter := by
  decide +kernel

/-- Inlined, the outer section has its own line before the inner section, and the blank line of that
one is left out. -/
theorem lines_inlined_blankInside : blankInside.IsEnded ∧
    (ofText blankInside).regions[0]? = some blankInsideOuter ∧
    Text.lines blankInsideOuter.inlined = ["<!-- begin: a -->\n".toList, "x\n".toList,
      "<!-- begin: b -->\n".toList, "<!-- end: b -->\n".toList, "<!-- end: a -->\n".toList] ∧
    (Text.lines blankInsideOuter.inlined ++ [" \n".toList]).Perm blankInsideOuter.span := by
  have hend : blankInside.IsEnded := .inr (by decide)
  obtain ⟨-, hregions, -⟩ := lines_inlined_perm blankInside hend
  obtain ⟨-, -, -, hperm, -⟩ := hregions 0 blankInsideOuter regions_blankInside
  exact ⟨hend, regions_blankInside, by decide +kernel, hperm⟩

end Document

end PagePartials
