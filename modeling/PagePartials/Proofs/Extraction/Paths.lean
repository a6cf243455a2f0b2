import PagePartials.Proofs.Document.Locations
import PagePartials.Proofs.Extraction.Targets

/-!
# Paths told by locations

The name of a partial spells only the words of its section's path, but the partial lies in a
directory for each name around the section. Where none of these is empty the directories are all
names but the last, and they tell the last one from the words. So the place of a partial tells the
path of its section, also among the sections of different pages.

## Main results

* `PlacedSection.fullPath_eq_iff`: a path is told by the names on it, and tells them
* `PlacedSection.location_eq_iff_names_eq`: a location tells the names on the path
* `PlacedSection.location_toText_eq_iff`: a location is told by its text
* `Document.location_eq_iff_fullPath_eq`: partials lie at one location just if they have one path
-/

namespace PagePartials

open SectionName (IsName)

namespace PlacedSection

variable {s u : PlacedSection}

/-- Paths are equal just if the names on them are. -/
theorem fullPath_eq_iff (hs : ∀ n ∈ s.names, IsName n) (hu : ∀ n ∈ u.names, IsName n) :
    s.fullPath = u.fullPath ↔ s.names = u.names := by
  constructor
  · intro h
    rw [← pieces_fullPath hs, h, pieces_fullPath hu]
  · intro h
    show SectionPath.join s.names = SectionPath.join u.names
    rw [h]

/-- The directories tell the names above, and with those the partial's name tells the last one. -/
theorem location_eq_iff_names_eq (hs : ∀ n ∈ s.names, IsName n) (hu : ∀ n ∈ u.names, IsName n)
    (hsn : [] ∉ s.above) (hun : [] ∉ u.above) : s.location = u.location ↔ s.names = u.names := by
  rw [location_eq hs, location_eq hu, Document.filter_eq_self_of_nil_notMem hsn,
    Document.filter_eq_self_of_nil_notMem hun, names_eq_iff]
  constructor
  · intro h
    obtain ⟨habove, hname⟩ := List.append_inj' (Path.mk.inj h).2 rfl
    have hlast : s.partialName = u.partialName := by simpa using hname
    exact ⟨habove, (partialName_eq_iff_of_above_eq hs hu habove).mp hlast⟩
  · rintro ⟨habove, hname⟩
    rw [habove, (partialName_eq_iff_of_above_eq hs hu habove).mpr hname]

/-- A location is read back from its text. -/
theorem ofText_toText_location (hs : ∀ n ∈ s.names, IsName n) :
    Path.ofText s.location.toText = s.location :=
  (Partial.liesIn_ofSection hs).ofText_relativePath.trans (location_eq hs).symm

theorem location_toText_eq_iff (hs : ∀ n ∈ s.names, IsName n) (hu : ∀ n ∈ u.names, IsName n) :
    s.location.toText = u.location.toText ↔ s.location = u.location := by
  constructor
  · intro h
    rw [← ofText_toText_location hs, h, ofText_toText_location hu]
  · exact fun h => by rw [h]

end PlacedSection

namespace Document

open PlacedSection

theorem names_twinPaths : (ofText Extraction.twinPaths).sections.map (·.names) =
    [["a".toList], ["a".toList, "b".toList], ["a_b".toList]] := by
  decide +kernel

/-- Sections with different paths, on which no name is empty, can have partials of one name. -/
theorem exists_partialName_eq : ∃ (v : Text) (s u : PlacedSection),
    s ∈ (ofText v).sections ∧ u ∈ (ofText v).sections ∧ [] ∉ s.names ∧ [] ∉ u.names ∧
      s.fullPath ≠ u.fullPath ∧ s.partialName = u.partialName := by
  obtain ⟨s, hs, hsn⟩ := Extraction.exists_of_map_eq (i := 1) names_twinPaths rfl
  obtain ⟨u, hu, hun⟩ := Extraction.exists_of_map_eq (i := 2) names_twinPaths rfl
  have hs' := List.mem_of_getElem? hs
  have hu' := List.mem_of_getElem? hu
  refine ⟨Extraction.twinPaths, s, u, hs', hu', ?_, ?_, ?_, ?_⟩
  · rw [hsn]
    decide
  · rw [hun]
    decide
  · rw [Ne, fullPath_eq_iff (fun _ => isName_of_mem_names hs') fun _ => isName_of_mem_names hu',
      hsn, hun]
    decide
  · rw [partialName_eq_iff_words_eq hs' hu', words, words, hsn, hun]
    decide

/-- **Partials lie at one location just if they have one path.** Whether they stand on one page or
on two, sections around which no name is empty, whatever their own, have partials at one location,
and locations written alike, just if their paths are equal. The name of the partial alone does not
tell the path, even where no name on it is empty. -/
theorem location_eq_iff_fullPath_eq (t t' : Text) :
    (∀ s ∈ (ofText t).sections, ∀ u ∈ (ofText t').sections, [] ∉ s.above → [] ∉ u.above →
      (s.location = u.location ↔ s.fullPath = u.fullPath) ∧
      (s.location.toText = u.location.toText ↔ s.fullPath = u.fullPath)) ∧
    ∃ (v : Text) (s u : PlacedSection), s ∈ (ofText v).sections ∧ u ∈ (ofText v).sections ∧
      [] ∉ s.names ∧ [] ∉ u.names ∧ s.fullPath ≠ u.fullPath ∧ s.partialName = u.partialName := by
  refine ⟨fun s hs u hu hsa hua => ?_, exists_partialName_eq⟩
  have hns : ∀ n ∈ s.names, IsName n := fun _ => isName_of_mem_names hs
  have hnu : ∀ n ∈ u.names, IsName n := fun _ => isName_of_mem_names hu
  have hlocation : s.location = u.location ↔ s.fullPath = u.fullPath := by
    rw [location_eq_iff_names_eq hns hnu hsa hua, fullPath_eq_iff hns hnu]
  exact ⟨hlocation, (location_toText_eq_iff hns hnu).trans hlocation⟩

theorem names_nestedPair : (ofText Extraction.nestedPair).sections.map (·.names) =
    [["a".toList], ["a".toList, "b".toList]] := by
  decide +kernel

/-- The sections `b` inside `a` of two pages have partials at one location. -/
theorem location_eq_nestedPair : ∃ s u, (ofText Extraction.twinPaths).sections[1]? = some s ∧
    (ofText Extraction.nestedPair).sections[1]? = some u ∧ [] ∉ s.above ∧ [] ∉ u.above ∧
      s.location = u.location := by
  obtain ⟨s, hs, hsn⟩ := Extraction.exists_of_map_eq (i := 1) names_twinPaths rfl
  obtain ⟨u, hu, hun⟩ := Extraction.exists_of_map_eq (i := 1) names_nestedPair rfl
  have hs' := List.mem_of_getElem? hs
  have hu' := List.mem_of_getElem? hu
  have habove {v : PlacedSection} (hv : v.names = ["a".toList, "b".toList]) : [] ∉ v.above := by
    have hmem : [] ∉ v.names := by
      rw [hv]
      decide
    exact fun h => hmem (List.mem_append_left _ h)
  have hpath : s.fullPath = u.fullPath :=
    (fullPath_eq_iff (fun _ => isName_of_mem_names hs') fun _ => isName_of_mem_names hu').mpr
      (hsn.trans hun.symm)
  obtain ⟨h, -⟩ := location_eq_iff_fullPath_eq Extraction.twinPaths Extraction.nestedPair
  exact ⟨s, u, hs, hu, habove hsn, habove hun,
    (h s hs' u hu' (habove hsn) (habove hun)).1.mpr hpath⟩

end Document

end PagePartials
