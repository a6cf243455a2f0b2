import PagePartials.Proofs.Document.Grammar

/-!
# What a partial shows

A partial leaves out own lines that repeat one of the section's markers, and a blank line that is
the only one. In a section whose lines are what the grammar of bodies asks of them no own line can
repeat a marker, since it would have begun or ended a section when it was read. So only the blank
line is ever left out.

## Main definitions

* `Section.shownLines s`: the own lines of `s`, but for a blank line that is the only one
* `Section.hiddenLines s`: that blank line, if there is one
* `Section.renderWith s insets`: the partial of `s` with other texts in place of its include lines

## Main results

* `Section.IsMarked.ne_marker`: no own line repeats a marker
* `Section.IsMarked.render_eq`: the partial shows all lines but the lone blank one
* `Section.IsMarked.renderWith_eq`: and so it does with other texts in it
-/

namespace PagePartials

namespace Section

/-- The own lines of a section, but for a blank line that is the only one. -/
def shownLines (s : Section) : List Text :=
  match s.content with
  | [l] => if l.isBlank then [] else [l]
  | ls => ls

variable {s : Section}

theorem shownLines_eq_content (h : ¬ ∃ l, s.content = [l] ∧ l.isBlank = true) :
    s.shownLines = s.content := by
  unfold shownLines
  split
  next l hl =>
    rw [if_neg fun hb => h ⟨l, hl, hb⟩, hl]
  next => rfl

theorem shownLines_sublist (s : Section) : s.shownLines.Sublist s.content := by
  unfold shownLines
  split
  next l hl =>
    rw [hl]
    split
    · exact List.nil_sublist _
    · exact List.Sublist.refl _
  next => exact List.Sublist.refl _

/-- What is shown is never just a blank line. -/
theorem shownLines_ne_singleton {l : Text} (hl : l.isBlank = true) : s.shownLines ≠ [l] := by
  unfold shownLines
  split
  next k _ =>
    split
    next => simp
    next hk =>
      rintro h
      obtain rfl : k = l := by simpa using h
      exact hk hl
  next hne => exact hne l

/-- The blank line of a section that has no other own line. -/
def hiddenLines (s : Section) : List Text :=
  match s.content with
  | [l] => if l.isBlank then [l] else []
  | _ => []

theorem shownLines_append_hiddenLines (s : Section) :
    s.shownLines ++ s.hiddenLines = s.content := by
  unfold shownLines hiddenLines
  split
  next l hl =>
    rw [hl]
    split <;> rfl
  next => exact List.append_nil _

/-- The text of a partial with the given texts in place of its include lines. -/
def renderWith (s : Section) (insets : List Text) : Text :=
  s.startComment.getD [] ++ s.keptLines.flatten ++ insets.flatten ++ s.endComment.getD []

theorem render_eq_renderWith (s : Section) (below : List Text) :
    s.render below = s.renderWith (below.map SectionPath.includeLine) := by
  rw [render, renderWith, List.flatMap_def]

namespace IsMarked

/-- No own line of a section repeats one of the section's markers. -/
theorem ne_marker (h : s.IsMarked) {l : Text} (hl : l ∈ s.content) :
    some l ≠ s.startComment ∧ some l ≠ s.endComment := by
  have hown : IsOwnLine (some s.name) l := h.own l hl
  constructor
  -- The first marker begins a section, and an own line does not.
  · obtain ⟨start, n, -, hs, hm, -⟩ := h.begins
    rw [hs]
    rintro ⟨⟩
    exact hown.ofLine?_ne_begins n hm
  -- The last marker names the section, and an own line does not.
  · intro he
    obtain ⟨n, hm, hn⟩ := h.ends l he.symm
    exact hown.not_prefix_name hm hn

/-- The partial keeps the own lines that are shown. -/
theorem keptLines_eq (h : s.IsMarked) : s.keptLines = s.shownLines := by
  have hkeeps : ∀ l ∈ s.content, s.keeps l = !(s.hasLoneLine && l.isBlank) := by
    intro l hl
    obtain ⟨hstart, hstop⟩ := h.ne_marker hl
    simp [keeps, hstart, hstop]
  rw [keptLines, List.filter_congr hkeeps]
  unfold hasLoneLine shownLines
  split
  next l hl => by_cases hb : l.isBlank <;> simp [hl, hb]
  next => simp

/-- **A partial shows all of its section**: the markers, the own lines but for a blank one that is
the only one, and an include line for each section right inside. -/
theorem render_eq (h : s.IsMarked) (below : List Text) :
    s.render below = s.startComment.getD [] ++ s.shownLines.flatten ++
      below.flatMap SectionPath.includeLine ++ s.endComment.getD [] := by
  rw [render, h.keptLines_eq]

/-- Any texts in place of the include lines stand behind the own lines that are shown. -/
theorem renderWith_eq (h : s.IsMarked) (insets : List Text) :
    s.renderWith insets =
      (s.startComment.toList ++ (s.shownLines ++ insets) ++ s.endComment.toList).flatten := by
  rw [renderWith, h.keptLines_eq]
  cases s.startComment <;> cases s.endComment <;> simp

end IsMarked

end Section

end PagePartials
