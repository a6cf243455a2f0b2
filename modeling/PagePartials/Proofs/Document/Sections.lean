import PagePartials.Proofs.Document.Page
import PagePartials.Proofs.SectionName

/-!
# The sections of a page and their names

The names of a page's sections, in the order of the text, are those that a fresh registry gives for
the names in their begin markers. So two sections whose markers name the same base have different
names, and at most one section has the empty name. The names around a section are the names of the
sections it stands in.

## Main definitions

* `Section.markerName s`: the name in the begin marker of `s`
* `PlacedSection.names s`: the names on the path of `s`, outermost first

## Main results

* `Document.map_name_sections`: the names of a page's sections
* `Document.name_ne_of_normalize_eq`: sections that ask for one base have different names
* `Document.isName_of_mem_names`: what stands on a section's path is a name
* `Document.exists_around`: each name above a section is that of a section of the page
-/

namespace PagePartials

open SectionName (Registry normalize IsName)

/-- The name in the marker that begins a section. -/
def Section.markerName (s : Section) : Text :=
  ((s.startComment.bind Marker.ofLine?).map Marker.name).getD []

/-- The names on the path of a section, outermost first. -/
def PlacedSection.names (s : PlacedSection) : List Text := s.above ++ [s.name]

namespace Body

variable {owner : Option Text} {atEnd : Bool} {r r' : Registry} {b : Body} {above : List Text}

theorem markerName_placeOne {n name start : Text} {inner : Body} {stop : Option Text}
    (begins : Marker.ofLine? start = some (.begins n)) :
    (placeOne above name start inner stop).markerName = n := by
  simp [Section.markerName, placeOne, begins, Marker.name]

/-- The sections of a body of the grammar have the names that the registry gives for the names in
their begin markers, one after the other. -/
theorem WellMarked.map_name_place (h : b.WellMarked owner atEnd r r') (above : List Text) :
    (b.place above).map (·.name) = r.assignAll ((b.place above).map (·.markerName)) ∧
      r.assignedAfter ((b.place above).map (·.markerName)) = r' := by
  -- By induction on the grammar; the registry that one part leaves is the one the next begins with.
  induction h generalizing above with
  | nil => exact ⟨rfl, rfl⟩
  | line _ _ ih => exact ih above
  | @closed _ _ r _ _ n _ _ _ _ begins _ _ _ ihi iha =>
    obtain ⟨hni, hri⟩ := ihi (above ++ [(r.assign n).1])
    obtain ⟨hna, hra⟩ := iha above
    simp only [place, List.map_cons, List.map_append, markerName_placeOne begins]
    constructor
    · simp only [Registry.assignAll, Registry.assignAll_append, hri, ← hni, ← hna, placeOne]
    · rw [← List.cons_append, Registry.assignedAfter_append]
      simpa only [Registry.assignedAfter, List.foldl_cons, ← hri] using hra
  | @unclosed _ r _ n _ _ begins _ ih =>
    obtain ⟨hni, hri⟩ := ih (above ++ [(r.assign n).1])
    simp only [place, List.map_cons, List.append_nil, markerName_placeOne begins]
    constructor
    · simp only [Registry.assignAll, ← hni, placeOne]
    · simpa only [Registry.assignedAfter, List.foldl_cons] using hri

theorem isPrefix_above {s : PlacedSection} (hs : s ∈ b.place above) : above <+: s.above := by
  induction b generalizing above with
  | nil => simp [place] at hs
  | line _ rest ih => exact ih hs
  | nested name start inner stop rest ih₁ ih₂ =>
    simp only [place, List.mem_cons, List.mem_append] at hs
    rcases hs with rfl | hs | hs
    · exact List.prefix_rfl
    · exact (List.prefix_append ..).trans (ih₁ hs)
    · exact ih₂ hs

/-- What a section stands in, as far as it is part of the body, is a section of the body. -/
theorem exists_around {s : PlacedSection} {p : List Text} (hs : s ∈ b.place above)
    (hp : above <+: p) (hne : p ≠ above) (hps : p <+: s.above) :
    ∃ u ∈ b.place above, u.names = p := by
  induction b generalizing above with
  | nil => simp [place] at hs
  | line _ rest ih => exact ih hs hp hne
  | nested name start inner stop rest ih₁ ih₂ =>
    simp only [place, List.mem_cons, List.mem_append] at hs ⊢
    rcases hs with rfl | hs | hs
    · exact absurd (hps.eq_of_length (Nat.le_antisymm hps.length_le hp.length_le)) hne
    · by_cases hq : p = above ++ [name]
      · exact ⟨_, .inl rfl, hq.symm⟩
      -- The path ends below the section around `inner`, since it is longer than `above`.
      · have hlen : above.length < p.length := by
          refine Nat.lt_of_le_of_ne hp.length_le fun hl => hne ?_
          exact (hp.eq_of_length hl).symm
        have hin : above ++ [name] <+: p := by
          refine List.prefix_of_prefix_length_le (isPrefix_above hs) hps ?_
          simpa using Nat.succ_le_of_lt hlen
        obtain ⟨u, hu, hun⟩ := ih₁ hs hin hq
        exact ⟨u, .inr (.inl hu), hun⟩
    · obtain ⟨u, hu, hun⟩ := ih₂ hs hp hne
      exact ⟨u, .inr (.inr hu), hun⟩

end Body

theorem Section.IsMarked.isName {s : Section} (h : s.IsMarked) : IsName s.name := by
  obtain ⟨_, n, k, -, -, hn, hk⟩ := h.begins
  exact ⟨n, k, hk, hn⟩

namespace Document

variable {t : Text}

/-- The names of a page's sections are those that a fresh registry gives for the names in their
begin markers. -/
theorem map_name_sections (t : Text) :
    (ofText t).sections.map (·.name) =
      Registry.empty.assignAll ((ofText t).sections.map (·.markerName)) := by
  obtain ⟨_, -, -, hwf⟩ := wellFormed_ofText t
  obtain ⟨r, hm⟩ := hwf.marked
  exact (hm.map_name_place []).1

/-- Sections whose markers ask for one base have different names. -/
theorem name_ne_of_normalize_eq {i j : Nat} {s u : PlacedSection} (hij : i < j)
    (hs : (ofText t).sections[i]? = some s) (hu : (ofText t).sections[j]? = some u)
    (hb : normalize s.markerName = normalize u.markerName) : s.name ≠ u.name := by
  have hs' : ((ofText t).sections.map (·.markerName))[i]? = some s.markerName := by simp [hs]
  have hu' : ((ofText t).sections.map (·.markerName))[j]? = some u.markerName := by simp [hu]
  have hn := Registry.empty.getElem?_assignAll_ne hij hs' hu' hb
  rw [← map_name_sections, List.getElem?_map, List.getElem?_map, hs, hu] at hn
  simpa using hn

/-- A section's name is the base in its begin marker, perhaps with a number. -/
theorem name_eq_numbered {s : PlacedSection} (hs : s ∈ (ofText t).sections) :
    ∃ k, 1 ≤ k ∧ s.name = SectionName.numbered (normalize s.markerName) k := by
  obtain ⟨start, n, k, hstart, hm, hname, hk⟩ := (isMarked_of_mem_sections hs).begins
  have hmn : s.markerName = n := by simp [Section.markerName, hstart, hm, Marker.name]
  exact ⟨k, hk, by rw [hmn, hname]⟩

theorem name_eq_nil {s : PlacedSection} (hs : s ∈ (ofText t).sections) (hn : s.name = []) :
    normalize s.markerName = [] := by
  obtain ⟨k, -, hname⟩ := name_eq_numbered hs
  exact SectionName.numbered_eq_nil (hname.symm.trans hn)

/-- At most one section of a page has the empty name. -/
theorem eq_of_name_eq_nil {s u : PlacedSection} (hs : s ∈ (ofText t).sections)
    (hu : u ∈ (ofText t).sections) (hsn : s.name = []) (hun : u.name = []) : s = u := by
  have hb : normalize s.markerName = normalize u.markerName :=
    (name_eq_nil hs hsn).trans (name_eq_nil hu hun).symm
  -- Both ask for the empty base, so the one of them that comes later has a number.
  obtain ⟨i, hi⟩ := List.mem_iff_getElem?.mp hs
  obtain ⟨j, hj⟩ := List.mem_iff_getElem?.mp hu
  rcases Nat.lt_trichotomy i j with hij | rfl | hij
  · exact absurd (hsn.trans hun.symm) (name_ne_of_normalize_eq hij hi hj hb)
  · exact Option.some.inj (hi.symm.trans hj)
  · exact absurd (hun.trans hsn.symm) (name_ne_of_normalize_eq hij hj hi hb.symm)

/-- What a section of a page stands in is a section of the page. -/
theorem exists_around {s : PlacedSection} {p : List Text} (hs : s ∈ (ofText t).sections)
    (hne : p ≠ []) (hp : p <+: s.above) : ∃ u ∈ (ofText t).sections, u.names = p :=
  Body.exists_around hs List.nil_prefix hne hp

/-- What stands on a section's path is a name. -/
theorem isName_of_mem_names {s : PlacedSection} {n : Text} (hs : s ∈ (ofText t).sections)
    (hn : n ∈ s.names) : IsName n := by
  rcases List.mem_append.mp hn with hn | hn
  -- A name above the section is the name of a section that it stands in.
  · obtain ⟨p, q, hpq⟩ := List.append_of_mem hn
    have hp : p ++ [n] <+: s.above := ⟨q, by simp [hpq]⟩
    obtain ⟨u, hu, hun⟩ := exists_around hs (by simp) hp
    obtain ⟨-, hname⟩ := List.append_inj' hun rfl
    obtain rfl : u.name = n := by simpa using hname
    exact (isMarked_of_mem_sections hu).isName
  · rw [List.mem_singleton.mp hn]
    exact (isMarked_of_mem_sections hs).isName

end Document

end PagePartials
