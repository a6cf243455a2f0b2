import PagePartials.Extraction.Basic
import PagePartials.Proofs.Marker
import PagePartials.Proofs.Section.PartialName

/-!
# One partial for each section

Every section of a page has a partial: its begin marker keeps the partial from being blank, and its
path has no newline in it. So a page is always split, into as many partials as it has sections and
in their order. An include line names the partials of those sections whose paths are the same words.

## Main definitions

* `Partial.ofSection s`: the partial of section `s`

## Main results

* `Document.collect_sections`: the partials of a page's sections
* `Extraction.ofText_eq`: all that a page is split into
* `Extraction.partials_ofText`: every page is split, into the partials of its sections
* `Extraction.cites_iff_words_eq`: which partials an include line names
* `Extraction.not_partialName_injective`: an include line can name two partials
-/

namespace PagePartials

open SectionName (IsName separator)

/-! ## Collecting partials -/

namespace Partial

/-- The partial of a section. -/
def ofSection (s : PlacedSection) : Partial :=
  ⟨s.name, s.fullPath, s.partialName, s.location.toText, s.render⟩

/-- Sections whose partials can be named have a partial each, but for those that would be blank. -/
theorem collect_eq_filter {ss : List PlacedSection}
    (h : ∀ s ∈ ss, isPartialName s.partialName = true) :
    collect ss = ((ss.filter fun s => !s.isEmittable).map fun s => .skippedEmpty s.fullPath,
      .ok ((ss.filter (·.isEmittable)).map ofSection)) := by
  induction ss with
  | nil => rfl
  | cons s ss ih =>
    obtain ⟨hp, hss⟩ := List.forall_mem_cons.mp h
    by_cases he : s.isEmittable = true
    · simp [collect, he, of?, hp, ih hss, ofSection, Except.map]
    · simp [collect, he, ih hss]

theorem collect_eq {ss : List PlacedSection}
    (h : ∀ s ∈ ss, s.isEmittable = true ∧ isPartialName s.partialName = true) :
    collect ss = ([], .ok (ss.map ofSection)) := by
  have hall : ss.filter (·.isEmittable) = ss := List.filter_eq_self.mpr fun s hs => (h s hs).1
  have hnone : (ss.filter fun s => !s.isEmittable) = [] :=
    List.filter_eq_nil_iff.mpr fun s hs => by simp [(h s hs).1]
  rw [collect_eq_filter fun s hs => (h s hs).2, hall, hnone, List.map_nil]

end Partial

theorem SectionPath.isPartialName_partialName {path : Text} (h : '\n' ∉ path) :
    isPartialName (partialName path) = true := by
  have hname : '\n' ∉ '_' :: (path.replace '/' '_' ++ ".html".toList) :=
    notMem_partialName (by decide) (by decide) (.inr h)
  have hend : ".html".toList.isSuffixOf (path.replace '/' '_' ++ ".html".toList) = true :=
    List.isSuffixOf_iff_suffix.mpr (List.suffix_append ..)
  rw [partialName, List.cons_append, isPartialName, hend]
  simpa using hname

namespace PlacedSection

variable {s : PlacedSection}

theorem isEmittable_of_isMarked (h : s.IsMarked) : s.isEmittable = true := by
  obtain ⟨start, n, -, hs, hm, -⟩ := h.begins
  simp [isEmittable, render, Section.render, hs, Marker.isBlank_eq_false hm]

theorem isPartialName_partialName (hs : ∀ n ∈ s.names, '\n' ∉ n) :
    isPartialName s.partialName = true :=
  SectionPath.isPartialName_partialName (notMem_fullPath (by decide) hs)

end PlacedSection

/-! ## The partials of a page -/

namespace Document

variable {t : Text}

/-- The partials of a page's sections, none of which is left out. -/
theorem collect_sections (t : Text) :
    Partial.collect (ofText t).sections = ([], .ok ((ofText t).sections.map Partial.ofSection)) :=
  Partial.collect_eq fun _ hs =>
    ⟨PlacedSection.isEmittable_of_isMarked (isMarked_of_mem_sections hs),
      PlacedSection.isPartialName_partialName fun _ hn =>
        (isName_of_mem_names hs hn).notMem (by decide) (by decide)⟩

/-- The partials of two sections have the same name just if the paths of the sections are the same
words. -/
theorem partialName_eq_iff_words_eq {s u : PlacedSection} (hs : s ∈ (ofText t).sections)
    (hu : u ∈ (ofText t).sections) : s.partialName = u.partialName ↔ s.words = u.words :=
  PlacedSection.partialName_eq_iff (fun _ => isName_of_mem_names hs)
    fun _ => isName_of_mem_names hu

end Document

namespace Extraction

/-- What a page is split into: no section is left out, and nothing is noticed but what came up while
the page was read. -/
theorem ofText_eq (t : Text) (source : Option Text) :
    ofText t source = ((Reading.ofText t).notices, .ok
      { summary := (Document.ofText t).outline.summary source (Document.ofText t).sections.length
        sectionsTree := "Sections:\n".toList ++ listing (Document.ofText t).sections
        indexContent := indexOf (Document.ofText t).header (Document.ofText t).top
        partials := (Document.ofText t).sections.map Partial.ofSection }) := by
  have hc := Document.collect_sections t
  unfold ofText ofOutline
  simp only [Document.outline, show (Reading.ofText t).document = Document.ofText t from rfl, hc,
    Except.map, List.append_nil, List.length_map]

/-- **Every page is split**, into the partials of its sections in their order. -/
theorem partials_ofText (t : Text) (source : Option Text) :
    ∃ notices e, ofText t source = (notices, .ok e) ∧
      e.partials = (Document.ofText t).sections.map Partial.ofSection :=
  ⟨_, _, ofText_eq t source, rfl⟩

/-- **An include line names the words of a path.** Two sections of a page have partials of the same
name, and the same include line, just if their paths are the same words. So a section's partial is
not named like that of a section inside it, nor like that of a section of another name beside it.
Of the partials that the page is split into, one for each section in order, the section's include
line names those of the sections whose paths are the same words: its own, and no other just if no
other path is the same words. -/
theorem cites_iff_words_eq (t : Text) (source : Option Text) :
    ∃ notices e, ofText t source = (notices, .ok e) ∧
      e.partials = (Document.ofText t).sections.map Partial.ofSection ∧
      (∀ s ∈ (Document.ofText t).sections, ∀ u ∈ (Document.ofText t).sections,
        (s.partialName = u.partialName ↔ s.words = u.words) ∧
        (s.includeLine = u.includeLine ↔ s.words = u.words) ∧
        (Cites s.includeLine (Partial.ofSection u).partialName ↔ s.words = u.words) ∧
        (s.names <+: u.names → s.names ≠ u.names → s.partialName ≠ u.partialName) ∧
        (s.above = u.above → s.name ≠ u.name → s.partialName ≠ u.partialName)) ∧
      ∀ (i : Nat) (s : PlacedSection), (Document.ofText t).sections[i]? = some s →
        ((∀ (j : Nat) (p : Partial), e.partials[j]? = some p →
            (Cites s.includeLine p.partialName ↔ j = i)) ↔
          ∀ (j : Nat) (u : PlacedSection), (Document.ofText t).sections[j]? = some u → j ≠ i →
            s.words ≠ u.words) := by
  -- Every page is split, so there are partials to speak of.
  obtain ⟨notices, e, he, hp⟩ := partials_ofText t source
  have hname : ∀ s ∈ (Document.ofText t).sections, ∀ n ∈ s.names, IsName n :=
    fun _ hs _ => Document.isName_of_mem_names hs
  have hcites : ∀ s ∈ (Document.ofText t).sections, ∀ u ∈ (Document.ofText t).sections,
      (Cites s.includeLine (Partial.ofSection u).partialName ↔ s.words = u.words) := by
    intro s hs u hu
    rw [PlacedSection.cites_includeLine_iff, eq_comm]
    exact Document.partialName_eq_iff_words_eq hs hu
  refine ⟨notices, e, he, hp, fun s hs u hu => ⟨?_, ?_, hcites s hs u hu, ?_, ?_⟩, ?_⟩
  · exact Document.partialName_eq_iff_words_eq hs hu
  · rw [PlacedSection.includeLine_eq_iff]
    exact Document.partialName_eq_iff_words_eq hs hu
  · exact PlacedSection.partialName_ne_of_prefix (hname s hs) (hname u hu)
  · intro ha hne h
    exact hne ((PlacedSection.partialName_eq_iff_of_above_eq (hname s hs) (hname u hu) ha).mp h)
  -- The partials stand in the order of the sections, so the places tell them apart.
  · intro i s hi
    have hs := List.mem_of_getElem? hi
    constructor
    · intro h j u hj hji hw
      have hpj : e.partials[j]? = some (Partial.ofSection u) := by simp [hp, hj]
      exact hji ((h j _ hpj).mp ((hcites s hs u (List.mem_of_getElem? hj)).mpr hw))
    · intro h j p hpj
      rw [hp, List.getElem?_map] at hpj
      obtain ⟨u, hj, rfl⟩ := Option.map_eq_some_iff.mp hpj
      rw [hcites s hs u (List.mem_of_getElem? hj)]
      constructor
      · intro hw
        by_contra hji
        exact h j u hj hji hw
      · rintro rfl
        rw [Option.some.inj (hi.symm.trans hj)]

/-- A page with a section `b` inside a section `a`, and a section `a_b` beside it. -/
def twinPaths : Text :=
  ("<!-- begin: a -->\n<!-- begin: b -->\n<!-- end: b -->\n<!-- end: a -->\n" ++
    "<!-- begin: a_b -->\n<!-- end: a_b -->\n").toList

theorem exists_of_map_eq {α β : Type} {f : α → β} {xs : List α} {ys : List β} {i : Nat} {y : β}
    (h : xs.map f = ys) (hy : ys[i]? = some y) : ∃ x, xs[i]? = some x ∧ f x = y := by
  rw [← h, List.getElem?_map] at hy
  exact Option.map_eq_some_iff.mp hy

theorem words_twinPaths :
    (Document.ofText twinPaths).sections.map PlacedSection.words =
      [["a".toList], ["a".toList, "b".toList], ["a".toList, "b".toList]] := by
  decide +kernel

theorem exists_twins : ∃ s u, (Document.ofText twinPaths).sections[1]? = some s ∧
    (Document.ofText twinPaths).sections[2]? = some u ∧ s.words = u.words := by
  obtain ⟨s, hs, hsw⟩ := exists_of_map_eq (i := 1) words_twinPaths rfl
  obtain ⟨u, hu, huw⟩ := exists_of_map_eq (i := 2) words_twinPaths rfl
  exact ⟨s, u, hs, hu, hsw.trans huw.symm⟩

/-- The line that includes one of the two sections includes the other. -/
theorem cites_twin : ∃ s u, (Document.ofText twinPaths).sections[1]? = some s ∧
    (Document.ofText twinPaths).sections[2]? = some u ∧
    Cites s.includeLine (Partial.ofSection u).partialName := by
  obtain ⟨s, u, hs, hu, hw⟩ := exists_twins
  obtain ⟨_, _, -, -, h, -⟩ := cites_iff_words_eq twinPaths none
  exact ⟨s, u, hs, hu, (h s (List.mem_of_getElem? hs) u (List.mem_of_getElem? hu)).2.2.1.mpr hw⟩

/-- Two sections of one page can have partials of the same name. -/
theorem not_partialName_injective : ¬ ∀ (t : Text) (i j : Nat) (s u : PlacedSection), i ≠ j →
    (Document.ofText t).sections[i]? = some s → (Document.ofText t).sections[j]? = some u →
    s.partialName ≠ u.partialName := by
  intro h
  obtain ⟨s, u, hs, hu, hw⟩ := exists_twins
  refine h twinPaths 1 2 s u (by decide) hs hu ?_
  exact (Document.partialName_eq_iff_words_eq (List.mem_of_getElem? hs)
    (List.mem_of_getElem? hu)).mpr hw

end Extraction

end PagePartials
