import PagePartials.Proofs.Extraction.Fragments

/-!
# Include lines in partials

In a partial the include lines stand behind all own lines of the section, wherever the sections that
they stand for began. The pieces are put together as they are, so an include line is a line of its
own only if the piece in front of it ends with a newline. Every line of a text does, but perhaps the
last. That one can be an own line of a section that the text ends in, and if there are sections
inside, the first include line goes on from it.

## Main results

* `Text.lines_flatten_iff`: which texts are the lines of what they make together
* `Document.lines_render_iff`: when the include lines of a partial are lines of it
-/

namespace PagePartials

/-! ## Pieces that are lines -/

namespace Text

variable {l : Text} {ls : List Text}

theorem lines_flatten_iff : lines ls.flatten = ls ↔ AreLines ls :=
  ⟨fun h => h ▸ areLines_lines _, lines_flatten⟩

/-- A line without its newline is the last one. -/
theorem AreLines.getLast?_eq_of_not_ended (h : AreLines ls) (hl : l ∈ ls)
    (hend : l.getLast? ≠ some '\n') : ls.getLast? = some l := by
  obtain ⟨front, behind, rfl⟩ := List.append_of_mem hl
  rcases behind with _ | ⟨k, behind⟩
  · exact List.getLast?_concat
  · obtain ⟨-, hbehind, -⟩ := List.pairwise_append.mp h.ended
    exact absurd ((List.pairwise_cons.mp hbehind).1 k List.mem_cons_self) hend

end Text

theorem Body.allLines_ne_nil {b : Body} (h : b.names ≠ []) : b.allLines ≠ [] := by
  intro hnil
  cases b with
  | nil => exact h rfl
  | line | nested => exact List.cons_ne_nil _ _ hnil

/-! ## The lines of a partial -/

namespace Document

variable {t start : Text} {i : Nat} {s : PlacedSection}

/-- A section that holds others begins with a line that has its newline. -/
theorem start_ended (hs : (ofText t).sections[i]? = some s) (hstart : s.startComment = some start)
    (hinc : (ofText t).includeLines i ≠ []) : start.getLast? = some '\n' := by
  obtain ⟨g, hg, rfl⟩ := Body.exists_region hs
  obtain ⟨before, after, hcut⟩ := exists_cutsAt_of_region hg
  have hinner : g.inner.allLines ≠ [] := by
    refine Body.allLines_ne_nil fun hnames => hinc ?_
    have hbelow : g.placed.below = [] := by
      rw [Body.Region.placed, Body.placeOne, hnames, List.map_nil]
    rw [below_eq hs, List.map_eq_nil_iff] at hbelow
    rw [includeLines, hbelow, List.map_nil]
  have hlines : Text.AreLines (start :: g.inner.allLines) := by
    refine (lines_eq_append t).2.sublist ?_
    rw [hcut.eq_append, hstart, List.append_assoc, List.append_assoc]
    exact ((List.prefix_append _ _).sublist).trans (List.sublist_append_right before _)
  obtain ⟨w, -, rfl⟩ := hlines.eq_append_newline hinner
  exact List.getLast?_concat

/-- The pieces of a partial are lines just if no own line without its newline stands in front of an
include line. -/
theorem areLines_pieces_iff (hs : (ofText t).sections[i]? = some s)
    (hstart : s.startComment = some start) :
    Text.AreLines (start :: (s.shownLines ++ (ofText t).includeLines i) ++ s.endComment.toList) ↔
      ((ofText t).includeLines i ≠ [] → ∀ x ∈ s.shownLines, x.getLast? = some '\n') := by
  have hsource := areLines_shownLines hs hstart
  constructor
  · intro h hinc x hx
    obtain ⟨y, hy⟩ := List.exists_mem_of_ne_nil _ hinc
    have hpieces := (h.sublist (List.sublist_append_left ..)).tail
    exact (List.pairwise_append.mp hpieces.ended).2.2 x hx y hy
  · intro h
    by_cases hinc : (ofText t).includeLines i = []
    · rwa [hinc, List.append_nil]
    -- Everything up to the include lines has its newline, and so have they.
    · have hown : Text.AreLines (start :: s.shownLines) :=
        hsource.sublist (List.sublist_append_left ..)
      have hlast : Text.AreLines s.endComment.toList :=
        hsource.sublist (List.sublist_append_right ..)
      have hended : ∀ l ∈ start :: s.shownLines, l.getLast? = some '\n' :=
        List.forall_mem_cons.mpr ⟨start_ended hs hstart hinc, h hinc⟩
      have hbehind := (areLines_includeLines t i).append hlast fun _ _ hl =>
        (isPlainLine_of_mem_includeLines hl).getLast?_eq
      rw [List.cons_append, List.append_assoc]
      exact hown.append hbehind fun _ => hended

/-- Where an own line without its newline stands last, the text ends with it, and the first include
line goes on from it. -/
theorem lines_render_of_not_ended {xs ys : List Text} {x y : Text}
    (hs : (ofText t).sections[i]? = some s) (hstart : s.startComment = some start)
    (hshown : s.shownLines = xs ++ [x]) (hx : x.getLast? ≠ some '\n')
    (hinc : (ofText t).includeLines i = y :: ys) :
    s.endComment = none ∧ (Text.lines t).getLast? = some x ∧
      Text.lines s.render = start :: (xs ++ (x ++ y) :: ys) := by
  have hmem : x ∈ s.shownLines := by
    rw [hshown]
    exact List.mem_append_right _ List.mem_cons_self
  have hsource := areLines_shownLines hs hstart
  have hend : s.endComment = none := by
    cases he : s.endComment with
    | none => rfl
    | some e =>
      rw [he, Option.toList_some] at hsource
      exact absurd ((List.pairwise_append.mp hsource.ended).2.2 x (List.mem_cons_of_mem _ hmem) e
        List.mem_cons_self) hx
  refine ⟨hend, ?_, ?_⟩
  · have hcontent : x ∈ s.content := s.shownLines_sublist.subset hmem
    have hline : x ∈ Text.lines t := mem_lines_of_getElem?_sections hs (by simp [hcontent])
    exact (Text.areLines_lines t).getLast?_eq_of_not_ended hline hx
  · rw [hend, Option.toList_none, List.append_nil, hshown, ← List.cons_append] at hsource
    have hfront : Text.AreLines (start :: xs) := hsource.sublist (List.sublist_append_left ..)
    have hended : ∀ l ∈ start :: xs, l.getLast? = some '\n' := fun l hl =>
      (List.pairwise_append.mp hsource.ended).2.2 l hl x List.mem_cons_self
    have hjoined : Text.AreLines ((x ++ y) :: ys) := by
      have hlines := areLines_includeLines t i
      rw [hinc] at hlines
      exact hlines.append_head
        (hsource.newline_notMem (List.mem_append_right _ List.mem_cons_self) hx)
    have hrender : s.render = (start :: (xs ++ (x ++ y) :: ys)).flatten := by
      rw [render_eq_flatten hs hstart, hend, hshown, hinc]
      simp
    rw [hrender, ← List.cons_append]
    exact Text.lines_flatten (hfront.append hjoined fun _ => hended)

/-- **When the include lines of a partial are lines of it.** The lines of a section's partial are
its first marker, its own lines, but for a blank one that is the only one, an include line for each
section right inside it, in their order, and its last marker, just if no own line lacks its newline
where there are include lines. If one does, it is the last own line, the section has no last marker,
and the text ends with that line; then the first include line is no line of the partial but goes on
from it, and the others are lines of their own. -/
theorem lines_render_iff (t : Text) (i : Nat) (s : PlacedSection)
    (hs : (ofText t).sections[i]? = some s) :
    (Text.lines s.render = s.startComment.toList ++ s.shownLines ++ (ofText t).includeLines i ++
        s.endComment.toList ↔
      ((ofText t).includeLines i ≠ [] → ∀ x ∈ s.shownLines, x.getLast? = some '\n')) ∧
    ∀ (xs ys : List Text) (x y : Text), s.shownLines = xs ++ [x] → x.getLast? ≠ some '\n' →
      (ofText t).includeLines i = y :: ys →
      s.endComment = none ∧ (Text.lines t).getLast? = some x ∧
        Text.lines s.render = s.startComment.toList ++ xs ++ (x ++ y) :: ys := by
  obtain ⟨start, -, -, hstart, -, -⟩ :=
    (isMarked_of_mem_sections (List.mem_of_getElem? hs)).begins
  constructor
  · rw [← areLines_pieces_iff hs hstart, render_eq_flatten hs hstart, ← Text.lines_flatten_iff]
    simp [hstart]
  · intro xs ys x y hshown hx hinc
    rw [hstart]
    exact lines_render_of_not_ended hs hstart hshown hx hinc

/-- A page that ends with an own line of a section that holds another one. -/
def tailPage : Text := "<!-- begin: a -->\n<!-- begin: b -->\n<!-- end: b -->\ntail".toList

/-- The outer section of that page. -/
def tailSection : PlacedSection where
  name := "a".toList
  content := ["tail".toList]
  startComment := some "<!-- begin: a -->\n".toList
  endComment := none
  above := []
  below := ["a/b".toList]

/-- The include line goes on from the last line of that page. -/
theorem lines_render_tailSection : (ofText tailPage).sections[0]? = some tailSection ∧
    (ofText tailPage).includeLines 0 = ["    <%= render 'partials/_a_b.html' %>\n".toList] ∧
    ¬ Text.lines tailSection.render = tailSection.startComment.toList ++ tailSection.shownLines ++
      (ofText tailPage).includeLines 0 ++ tailSection.endComment.toList ∧
    Text.lines tailSection.render =
      ["<!-- begin: a -->\n".toList, "tail    <%= render 'partials/_a_b.html' %>\n".toList] := by
  have hs : (ofText tailPage).sections[0]? = some tailSection := by decide +kernel
  have hinc : (ofText tailPage).includeLines 0 =
      ["    <%= render 'partials/_a_b.html' %>\n".toList] := by decide +kernel
  obtain ⟨hiff, hjoined⟩ := lines_render_iff tailPage 0 tailSection hs
  refine ⟨hs, hinc, fun hlines => ?_, ?_⟩
  · have hended := hiff.mp hlines (by rw [hinc]; exact List.cons_ne_nil _ _) "tail".toList
      (by decide)
    revert hended
    decide
  · obtain ⟨-, -, hlines⟩ := hjoined [] [] "tail".toList _ (by decide) (by decide) hinc
    rw [hlines]
    decide

end Document

end PagePartials
