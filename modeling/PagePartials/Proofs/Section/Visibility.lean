import PagePartials.Proofs.Section.PartialName
import PagePartials.Proofs.Text.Cutting
import PagePartials.Section.Table

/-!
# Which sections are blank

A section has a partial only if that would hold more than blanks. Whether it would can be told from
the section alone, without putting the partial together: another section stands right inside it,
since an include line is never blank, or one of its markers or own lines has a character that is no
blank. The own lines that a partial leaves out make no difference. Such a line is blank, or it
repeats one of the markers, and the marker itself is in the partial.

## Main definitions

* `Text.IsVisible t`: `t` has a character that is no blank
* `Section.renderLines s ls below`: the partial of `s` with the lines `ls` as its own lines

## Main results

* `Section.isVisible_renderLines_iff`: when a partial with the given lines is not blank
* `Section.isVisible_renderLines_congr`: lines that are left out make no difference
* `SectionTable.isEmittable_place_iff`: which sections have a partial
-/

namespace PagePartials

/-! ## Visible texts -/

namespace Text

variable {t u : Text} {ls : List Text}

/-- Whether the text has a character that is no blank. -/
def IsVisible (t : Text) : Prop := ∃ c ∈ t, PagePartials.isBlank c = false

theorem isVisible_iff : t.IsVisible ↔ t.isBlank = false := isBlank_eq_false_iff.symm

theorem isVisible_iff_trim_ne_nil : t.IsVisible ↔ t.trim ≠ [] := by
  rw [isVisible_iff, ne_eq, trim_eq_nil_iff, Bool.not_eq_true]

theorem isVisible_append : Text.IsVisible (t ++ u) ↔ t.IsVisible ∨ u.IsVisible := by
  simp only [IsVisible, List.mem_append, or_and_right, exists_or]

/-- Joined texts are visible just if one of them is. -/
theorem isVisible_flatten : Text.IsVisible ls.flatten ↔ ∃ l ∈ ls, Text.IsVisible l := by
  induction ls with
  | nil => simp [IsVisible]
  | cons l ls ih => rw [List.flatten_cons, isVisible_append, ih, List.exists_mem_cons_iff]

theorem isVisible_getD {m : Option Text} :
    Text.IsVisible (m.getD []) ↔ ∃ l ∈ m, Text.IsVisible l := by
  cases m <;> simp [IsVisible]

end Text

/-- Include lines are visible just if there are any. -/
theorem SectionPath.isVisible_flatMap_includeLine {below : List Text} :
    Text.IsVisible (below.flatMap includeLine) ↔ below ≠ [] := by
  have hline (path : Text) : Text.IsVisible (includeLine path) :=
    Text.isVisible_iff.mpr (isBlank_includeLine path)
  rw [List.flatMap_def, Text.isVisible_flatten]
  constructor
  · rintro ⟨_, hmem, -⟩ rfl
    exact List.not_mem_nil hmem
  · intro hne
    obtain ⟨path, hpath⟩ := List.exists_mem_of_ne_nil below hne
    exact ⟨includeLine path, List.mem_map_of_mem hpath, hline path⟩

/-! ## Visible partials -/

namespace Section

open Text (IsVisible)

variable {s : Section} {l : Text} {ls below : List Text}

/-- The text of the partial with the given lines as the section's own lines. -/
def renderLines (s : Section) (ls below : List Text) : Text :=
  s.startComment.getD [] ++ ls.flatten ++ below.flatMap SectionPath.includeLine ++
    s.endComment.getD []

theorem render_eq_renderLines (s : Section) (below : List Text) :
    s.render below = s.renderLines s.keptLines below := rfl

theorem isVisible_renderLines_iff : (s.renderLines ls below).IsVisible ↔
    below ≠ [] ∨ (∃ l ∈ s.startComment, IsVisible l) ∨ (∃ l ∈ s.endComment, IsVisible l) ∨
      ∃ l ∈ ls, IsVisible l := by
  simp only [renderLines, Text.isVisible_append, Text.isVisible_getD, Text.isVisible_flatten,
    SectionPath.isVisible_flatMap_includeLine]
  exact Iff.of_eq (by ac_rfl)

/-- A visible line that is left out repeats a marker. -/
theorem eq_marker_of_not_keeps (hl : IsVisible l) (hk : s.keeps l = false) :
    some l = s.startComment ∨ some l = s.endComment := by
  have hblank : l.isBlank = false := Text.isVisible_iff.mp hl
  by_contra hne
  rw [not_or] at hne
  simp [keeps, hne.1, hne.2, hblank] at hk

/-- A visible own line is kept, or a marker is visible. -/
theorem exists_isVisible_of_mem_content (hmem : l ∈ s.content) (hl : IsVisible l) :
    (∃ l ∈ s.startComment, IsVisible l) ∨ (∃ l ∈ s.endComment, IsVisible l) ∨
      ∃ l ∈ s.keptLines, IsVisible l := by
  cases hk : s.keeps l with
  | true => exact .inr (.inr ⟨l, List.mem_filter.mpr ⟨hmem, hk⟩, hl⟩)
  | false =>
    rcases eq_marker_of_not_keeps hl hk with hstart | hend
    · exact .inl ⟨l, hstart.symm, hl⟩
    · exact .inr (.inl ⟨l, hend.symm, hl⟩)

/-- **The lines that are left out make no difference.** Whichever of them a partial had besides
those that are kept, it would show something just if it does without them. -/
theorem isVisible_renderLines_congr (hkept : s.keptLines ⊆ ls) (hown : ls ⊆ s.content) :
    (s.renderLines ls below).IsVisible ↔ (s.render below).IsVisible := by
  rw [render_eq_renderLines, isVisible_renderLines_iff, isVisible_renderLines_iff]
  constructor
  · rintro (hbelow | hstart | hend | ⟨l, hmem, hl⟩)
    · exact .inl hbelow
    · exact .inr (.inl hstart)
    · exact .inr (.inr (.inl hend))
    · exact .inr (exists_isVisible_of_mem_content (hown hmem) hl)
  · rintro (hbelow | hstart | hend | ⟨l, hmem, hl⟩)
    · exact .inl hbelow
    · exact .inr (.inl hstart)
    · exact .inr (.inr (.inl hend))
    · exact .inr (.inr (.inr ⟨l, hkept hmem, hl⟩))

end Section

/-! ## Sections with a partial -/

namespace PlacedSection

open Text (IsVisible)

variable {s : PlacedSection}

theorem isEmittable_iff_isVisible : s.isEmittable = true ↔ s.render.IsVisible := by
  rw [isEmittable, Text.isVisible_iff, Bool.not_eq_true']

/-- A section has a partial just if one stands right inside it, or one of its markers or own lines
is visible. -/
theorem isEmittable_iff : s.isEmittable = true ↔
    s.below ≠ [] ∨ (∃ l ∈ s.startComment, IsVisible l) ∨ (∃ l ∈ s.endComment, IsVisible l) ∨
      ∃ l ∈ s.content, IsVisible l := by
  have hall : (s.renderLines s.content s.below).IsVisible ↔
      (s.toSection.render s.below).IsVisible :=
    Section.isVisible_renderLines_congr (List.filter_subset_self _) (List.Subset.refl _)
  rw [isEmittable_iff_isVisible, render, ← hall, Section.isVisible_renderLines_iff]

end PlacedSection

namespace SectionTable

open Text (IsVisible)

/-- **Which sections have a partial.** Whatever name, own lines, markers and children a section of
a table has, it has a partial just if it has a child, or one of its markers or own lines has a
character that is no blank. That is to say, just if something is left of the partial's text when it
is trimmed; and so it is with the text that has, besides the lines that are kept, any of those that
are left out. -/
theorem isEmittable_place_iff (t : SectionTable) (r : Ref) :
    ((t.place r).isEmittable = true ↔ (t.get r).children ≠ [] ∨
      (∃ l ∈ (t.get r).startComment, IsVisible l) ∨ (∃ l ∈ (t.get r).endComment, IsVisible l) ∨
        ∃ l ∈ (t.get r).content, IsVisible l) ∧
    ((t.place r).isEmittable = true ↔ (t.place r).render.trim ≠ []) ∧
    ∀ ls, (t.get r).keptLines ⊆ ls → ls ⊆ (t.get r).content →
      ((t.place r).isEmittable = true ↔
        ((t.get r).renderLines ls (t.place r).below).trim ≠ []) := by
  refine ⟨?parts, ?trimmed, ?leftOut⟩
  case parts =>
    have hbelow : (t.place r).below ≠ [] ↔ (t.get r).children ≠ [] := by simp [place]
    rw [PlacedSection.isEmittable_iff, hbelow]
    rfl
  case trimmed =>
    rw [PlacedSection.isEmittable_iff_isVisible, Text.isVisible_iff_trim_ne_nil]
  case leftOut =>
    intro ls hkept hown
    rw [← Text.isVisible_iff_trim_ne_nil, Section.isVisible_renderLines_congr hkept hown]
    exact PlacedSection.isEmittable_iff_isVisible

/-- A section whose only own line repeats the marker before it. -/
def echoing : SectionTable :=
  ⟨[{ LinkedSection.bare "a".toList with
      content := ["x\n".toList], startComment := some "x\n".toList }]⟩

/-- No own line of that section is kept. It has a partial all the same, and would have one if the
line were kept. -/
theorem isEmittable_place_echoing :
    (echoing.get 0).keptLines = [] ∧ (echoing.get 0).keptLines ⊆ ["x\n".toList] ∧
      ["x\n".toList] ⊆ (echoing.get 0).content ∧ (echoing.place 0).isEmittable = true ∧
        ((echoing.get 0).renderLines ["x\n".toList] (echoing.place 0).below).trim ≠ [] := by
  obtain ⟨hparts, -, hlines⟩ := isEmittable_place_iff echoing 0
  have hkept : (echoing.get 0).keptLines ⊆ ["x\n".toList] := List.filter_subset_self _
  have hown : ["x\n".toList] ⊆ (echoing.get 0).content := List.Subset.refl _
  have hemittable : (echoing.place 0).isEmittable = true :=
    hparts.mpr (.inr (.inl ⟨"x\n".toList, rfl, 'x', by decide, by decide⟩))
  exact ⟨rfl, hkept, hown, hemittable, (hlines _ hkept hown).mp hemittable⟩

end SectionTable

end PagePartials
