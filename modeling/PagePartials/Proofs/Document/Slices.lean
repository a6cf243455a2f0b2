import PagePartials.Proofs.Document.Children
import PagePartials.Proofs.Document.Page
import PagePartials.Proofs.Section.Rendering

/-!
# Sections in their text

Every section takes up consecutive lines of the page: from the line that begins it to the line that
ends it, or to the end of the text where there is no such line. The sections are numbered as the
begin markers are, so the line that begins section `i` is the one with `i` begin markers before it
behind the header. A section that holds no other one has nothing but its own lines in between, and
its partial is those lines of the text.

## Main definitions

* `beginLines ls`: the lines of `ls` with a begin marker
* `PlacedSection.CutsAt s i ls before inside after`: the lines `ls`, cut around section `s`, which
  is the `i`-th to begin in them

## Main results

* `Body.WellMarked.map_startComment_place`: sections begin where the begin markers are
* `Body.WellMarked.exists_cutsAt`: the lines of a body, cut around one of its sections
* `Document.render_eq_slice`: what the partial of a section shows, and where that stands in the text
-/

namespace PagePartials

open SectionName (Registry)

/-! ## Begin markers -/

/-- The lines among the given ones that carry a begin marker. -/
def beginLines (ls : List Text) : List Text :=
  ls.filter fun l => (Marker.ofLine? l).any (·.isBegin)

section

variable {l n name : Text} {owner : Option Text} {ls ks : List Text}

@[simp] theorem beginLines_nil : beginLines [] = [] := rfl

@[simp] theorem beginLines_append (ls ks : List Text) :
    beginLines (ls ++ ks) = beginLines ls ++ beginLines ks := List.filter_append ..

theorem beginLines_cons_of_begins (h : Marker.ofLine? l = some (.begins n)) (ls : List Text) :
    beginLines (l :: ls) = l :: beginLines ls := by
  simp [beginLines, h, Marker.isBegin]

theorem beginLines_cons_of_isOwnLine (h : IsOwnLine owner l) (ls : List Text) :
    beginLines (l :: ls) = beginLines ls := by
  refine List.filter_cons_of_neg ?_
  cases hm : Marker.ofLine? l with
  | none => simp
  | some m =>
    cases m with
    | begins n => exact absurd hm (h.ofLine?_ne_begins n)
    | ends n => simp [Marker.isBegin]

theorem beginLines_cons_of_closes (h : Closes name l) (ls : List Text) :
    beginLines (l :: ls) = beginLines ls := by
  obtain ⟨n, hm, -⟩ := h
  simp [beginLines, hm, Marker.isBegin]

end

/-! ## Bodies cut around a section -/

/-- The lines `ls` are those of the section `s`, which begins with its first marker, holds `inside`,
and ends with its last marker if it has one, between the lines `before` and `after`. There are `i`
begin markers before it. The section's own lines are some of those inside, and all of them if no
section stands right inside; without an end marker nothing comes after it. -/
structure PlacedSection.CutsAt (s : PlacedSection) (i : Nat) (ls before inside after : List Text) :
    Prop where
  eq_append : ls = before ++ (s.startComment.toList ++ inside ++ s.endComment.toList) ++ after
  number : (beginLines before).length = i
  content : s.content.Sublist inside
  childless : s.below = [] → inside = s.content
  last : s.endComment = none → after = []

namespace PlacedSection.CutsAt

variable {s : PlacedSection} {i : Nat} {ls before inside after : List Text}

/-- A section cuts longer lists of lines, too; without an end marker only what is in front of the
lines may be more. -/
theorem extend (h : s.CutsAt i ls before inside after) (front behind : List Text)
    (hend : s.endComment = none → behind = []) :
    s.CutsAt ((beginLines front).length + i) (front ++ ls ++ behind) (front ++ before) inside
      (after ++ behind) where
  eq_append := by simp [h.eq_append, List.append_assoc]
  number := by simp [h.number]
  content := h.content
  childless := h.childless
  last he := by simp [h.last he, hend he]

end PlacedSection.CutsAt

namespace Body

variable {owner : Option Text} {atEnd : Bool} {r r' : Registry} {b : Body}

theorem lines_sublist_allLines (b : Body) : b.lines.Sublist b.allLines := by
  induction b with
  | nil => exact List.Sublist.refl _
  | line l rest ih => exact ih.cons_cons l
  | nested name start inner stop rest _ ih =>
    exact ((ih.trans (List.sublist_append_right ..)).trans (List.sublist_append_right ..)).cons _

theorem allLines_of_names_eq_nil (h : b.names = []) : b.allLines = b.lines := by
  induction b with
  | nil => rfl
  | line l rest ih => rw [allLines, lines, ih h]
  | nested => simp [names] at h

/-- Sections begin where the begin markers are. -/
theorem WellMarked.map_startComment_place (h : b.WellMarked owner atEnd r r') (above : List Text) :
    (b.place above).map (·.startComment) = (beginLines b.allLines).map some := by
  induction h generalizing above with
  | nil => rfl
  | line own _ ih => rw [allLines, beginLines_cons_of_isOwnLine own, ← ih above, place]
  | closed begins _ ends _ ihi iha =>
    simp [place, placeOne, allLines, beginLines_cons_of_begins begins,
      beginLines_cons_of_closes ends, ihi, iha]
  | unclosed begins _ ih =>
    simp [place, placeOne, allLines, beginLines_cons_of_begins begins, ih]

theorem WellMarked.length_beginLines (h : b.WellMarked owner atEnd r r') :
    (beginLines b.allLines).length = b.count := by
  have hl := congrArg List.length (h.map_startComment_place [])
  rw [List.length_map, List.length_map, length_place] at hl
  exact hl.symm

/-- Where the page goes on, every section has its end marker. -/
theorem WellMarked.endComment_ne_none (h : b.WellMarked owner atEnd r r') (he : atEnd = false)
    {above : List Text} {s : PlacedSection} (hs : s ∈ b.place above) : s.endComment ≠ none := by
  induction h generalizing above with
  | nil => simp [place] at hs
  | line _ _ ih => exact ih he hs
  | closed _ _ _ _ ihi iha =>
    simp only [place, List.mem_cons, List.mem_append] at hs
    rcases hs with rfl | hs | hs
    · simp [placeOne]
    · exact ihi rfl hs
    · exact iha he hs
  | unclosed => exact absurd he (by decide)

theorem Region.cutsAt_placed (g : Region) (ls : List Text) (hend : g.stop = none → ls = []) :
    g.placed.CutsAt 0 (g.span ++ ls) [] g.inner.allLines ls where
  eq_append := by simp [placed, placeOne, span]
  number := rfl
  content := g.inner.lines_sublist_allLines
  childless h := allLines_of_names_eq_nil (by simpa [placed, placeOne] using h)
  last := hend

/-- The lines of a body of the grammar can be cut around each of its sections, with the lines of the
body inside the section between its markers. -/
theorem WellMarked.exists_cutsAt (h : b.WellMarked owner atEnd r r') {above : List Text} {i : Nat}
    {g : Region} (hg : (b.regions above)[i]? = some g) :
    ∃ before after, g.placed.CutsAt i b.allLines before g.inner.allLines after := by
  -- By induction on the grammar: a cut of one part is a cut of the whole, with the lines of the
  -- other parts in front or behind.
  induction h generalizing above i with
  | nil => simp [regions] at hg
  | @line _ _ _ _ l _ own _ ih =>
    obtain ⟨before, after, hc⟩ := ih hg
    have hx := hc.extend [l] [] fun _ => rfl
    rw [beginLines_cons_of_isOwnLine own, beginLines_nil, List.length_nil, Nat.zero_add,
      List.append_nil] at hx
    exact ⟨_, _, hx⟩
  | @closed _ _ r _ _ n start stop inner rest begins inside ends after ihi iha =>
    cases i with
    | zero =>
      obtain rfl := Option.some.inj hg
      have hx := Region.cutsAt_placed ⟨above, (r.assign n).1, start, inner, some stop⟩
        rest.allLines (by simp)
      exact ⟨_, _, by simpa [allLines, Region.span] using hx⟩
    | succ i =>
      rw [getElem?_regions_nested_succ] at hg
      split at hg
      -- The section stands inside the first one, which the page goes on behind.
      next hi =>
        obtain ⟨before, behind, hc⟩ := ihi hg
        have hx := hc.extend [start] (stop :: rest.allLines) fun he =>
          absurd he (inside.endComment_ne_none rfl (List.mem_of_getElem? (getElem?_place hg)))
        rw [beginLines_cons_of_begins begins, beginLines_nil, List.length_singleton,
          Nat.add_comm 1 i] at hx
        exact ⟨_, _, by simpa [allLines] using hx⟩
      -- The section stands behind the first one.
      next hi =>
        obtain ⟨before, behind, hc⟩ := iha hg
        have hx := hc.extend (start :: (inner.allLines ++ [stop])) [] fun _ => rfl
        rw [beginLines_cons_of_begins begins, beginLines_append, beginLines_cons_of_closes ends,
          beginLines_nil, List.append_nil, List.length_cons, inside.length_beginLines,
          show inner.count + 1 + (i - inner.count) = i + 1 by omega] at hx
        exact ⟨_, _, by simpa [allLines] using hx⟩
  | @unclosed _ r _ n start inner begins inside ih =>
    cases i with
    | zero =>
      obtain rfl := Option.some.inj hg
      have hx := Region.cutsAt_placed ⟨above, (r.assign n).1, start, inner, none⟩ [] fun _ => rfl
      exact ⟨_, _, by simpa [allLines, Region.span] using hx⟩
    | succ i =>
      rw [getElem?_regions_nested_succ] at hg
      split at hg
      next hi =>
        obtain ⟨before, behind, hc⟩ := ih hg
        have hx := hc.extend [start] [] fun _ => rfl
        rw [beginLines_cons_of_begins begins, beginLines_nil, List.length_singleton,
          Nat.add_comm 1 i] at hx
        exact ⟨_, _, by simpa [allLines] using hx⟩
      next => simp [regions] at hg

end Body

/-! ## Partials that are slices of the text -/

namespace Document

variable {t : Text} {i : Nat} {s : PlacedSection}

/-- The lines of a text are those of its header and those of its body. -/
theorem lines_eq_append (t : Text) :
    Text.lines t = Text.lines (ofText t).header ++ (ofText t).body.allLines ∧
      Text.AreLines (ofText t).body.allLines := by
  obtain ⟨head, hhead, hlines, hwf⟩ := wellFormed_ofText t
  have hareLines : Text.AreLines head := hwf.areLines.sublist (List.sublist_append_left ..)
  rw [hhead, Text.lines_flatten hareLines]
  exact ⟨hlines, hwf.areLines.sublist (List.sublist_append_right ..)⟩

/-- The lines of a page can be cut around each of its regions. -/
theorem exists_cutsAt_of_region {g : Body.Region} (hg : (ofText t).regions[i]? = some g) :
    ∃ before after, g.placed.CutsAt i (ofText t).body.allLines before g.inner.allLines after := by
  obtain ⟨_, -, -, hwf⟩ := wellFormed_ofText t
  obtain ⟨r, hm⟩ := hwf.marked
  exact hm.exists_cutsAt hg

theorem exists_cutsAt (hs : (ofText t).sections[i]? = some s) :
    ∃ before inside after, s.CutsAt i (ofText t).body.allLines before inside after := by
  obtain ⟨g, hg, rfl⟩ := Body.exists_region hs
  obtain ⟨before, after, hc⟩ := exists_cutsAt_of_region hg
  exact ⟨before, _, after, hc⟩

/-- The lines of a section, markers included, are lines of the text. -/
theorem mem_lines_of_getElem?_sections (hs : (ofText t).sections[i]? = some s) {l : Text}
    (hl : l ∈ s.startComment.toList ++ s.content ++ s.endComment.toList) : l ∈ Text.lines t := by
  obtain ⟨before, inside, after, hcut⟩ := exists_cutsAt hs
  obtain ⟨hlines, -⟩ := lines_eq_append t
  rw [hlines, hcut.eq_append]
  refine List.mem_append_right _ (List.mem_append_left _ (List.mem_append_right _ ?_))
  exact ((hcut.content.append_left _).append_right _).subset hl

theorem flatMap_includeLine_below (hs : (ofText t).sections[i]? = some s) :
    s.below.flatMap SectionPath.includeLine =
      ((ofText t).children (some i)).flatMap (·.includeLine) := by
  rw [below_eq hs, List.flatMap_map]
  rfl

/-- **Partials show their sections line by line.** Every section begins with a marker. None of its
own lines repeats one of its markers, so the partial shows the first marker, all own lines, or none
where a blank line is the only one, an include line for each section right inside in the order of
the text, and the last marker. Where no section stands inside, and the own lines are not a lone
blank one, the partial is a slice of the text: the lines from the one that begins the section, which
has as many begin markers before it behind the header as the section has sections before it, to the
one that ends it, or to the end of the text. -/
theorem render_eq_slice (t : Text) (i : Nat) (s : PlacedSection)
    (hs : (ofText t).sections[i]? = some s) :
    ∃ start, s.startComment = some start ∧
      (∀ l ∈ s.content, l ≠ start ∧ some l ≠ s.endComment) ∧
      s.render = start ++ s.shownLines.flatten ++
        ((ofText t).children (some i)).flatMap (·.includeLine) ++ s.endComment.getD [] ∧
      ((ofText t).children (some i) = [] → (¬ ∃ l, s.content = [l] ∧ l.isBlank = true) →
        ∃ before after, Text.lines t = Text.lines (ofText t).header ++ (before ++
            (start :: s.content ++ s.endComment.toList) ++ after) ∧
          (beginLines before).length = i ∧ (s.endComment = none → after = []) ∧
          s.render = (start :: s.content ++ s.endComment.toList).flatten ∧
          t = (ofText t).header ++ before.flatten ++ s.render ++ after.flatten) := by
  have hmarked : s.IsMarked := isMarked_of_mem_sections (List.mem_of_getElem? hs)
  obtain ⟨start, _, -, hstart, -, -⟩ := hmarked.begins
  have hrender : s.render = start ++ s.shownLines.flatten ++
      ((ofText t).children (some i)).flatMap (·.includeLine) ++ s.endComment.getD [] := by
    rw [← flatMap_includeLine_below hs, PlacedSection.render, hmarked.render_eq, hstart]
    rfl
  refine ⟨start, hstart, fun l hl => ?_, hrender, fun hchildless hblank => ?_⟩
  · obtain ⟨hbegin, hend⟩ := hmarked.ne_marker hl
    rw [hstart] at hbegin
    exact ⟨fun he => hbegin (congrArg some he), hend⟩
  obtain ⟨before, inside, after, hcut⟩ := exists_cutsAt hs
  obtain ⟨hlines, -⟩ := lines_eq_append t
  -- Nothing stands in the section but its own lines.
  have hbelow : s.below = [] := by rw [below_eq hs, hchildless, List.map_nil]
  have hinside : inside = s.content := hcut.childless hbelow
  have hslice : s.render = (start :: s.content ++ s.endComment.toList).flatten := by
    rw [hrender, hchildless, Section.shownLines_eq_content hblank]
    cases s.endComment <;> simp
  rw [hcut.eq_append, hinside, hstart] at hlines
  refine ⟨before, after, hlines, hcut.number, hcut.last, hslice, ?_⟩
  calc t = (Text.lines t).flatten := (Text.flatten_lines t).symm
    _ = (ofText t).header ++ before.flatten ++ s.render ++ after.flatten := by
      rw [hlines, hslice]
      simp [Text.flatten_lines, List.append_assoc]

/-- A page with a numbered section inside another of the same base, an end marker that ends neither,
and a line behind both. -/
def numberedPage : Text :=
  ("<!-- begin: a -->\n<!-- begin: a -->\nx\n<!-- end: b -->\n<!-- end: a 2 -->\n" ++
    "<!-- end: a -->\ny").toList

/-- The inner section of that page. -/
def numberedSection : PlacedSection where
  name := "a_2".toList
  content := ["x\n".toList, "<!-- end: b -->\n".toList]
  startComment := some "<!-- begin: a -->\n".toList
  endComment := some "<!-- end: a 2 -->\n".toList
  above := ["a".toList]
  below := []

theorem sections_numberedPage : (ofText numberedPage).sections[1]? = some numberedSection := by
  decide +kernel

theorem children_numberedPage : (ofText numberedPage).children (some 1) = [] :=
  List.map_eq_nil_iff.mp (below_eq sections_numberedPage).symm

/-- The partial of the inner section is a slice of the page: no section stands inside it, and its
own lines are two. -/
theorem slice_numberedPage :
    (ofText numberedPage).sections[1]? = some numberedSection ∧
      (ofText numberedPage).children (some 1) = [] ∧
      (¬ ∃ l, numberedSection.content = [l] ∧ l.isBlank = true) ∧
      ∃ before after : List Text, (beginLines before).length = 1 ∧
        numberedPage = (ofText numberedPage).header ++ before.flatten ++ numberedSection.render ++
          after.flatten := by
  have hblank : ¬ ∃ l, numberedSection.content = [l] ∧ l.isBlank = true := by
    simp [numberedSection]
  obtain ⟨_, -, -, -, hslice⟩ :=
    render_eq_slice numberedPage 1 numberedSection sections_numberedPage
  obtain ⟨before, after, -, hnumber, -, -, ht⟩ := hslice children_numberedPage hblank
  exact ⟨sections_numberedPage, children_numberedPage, hblank, before, after, hnumber, ht⟩

end Document

end PagePartials
