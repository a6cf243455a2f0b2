import PagePartials.Proofs.Section.PartialName

/-!
# Which partials share a file

A partial begins with its section's begin marker, so partials are equal only where their sections
begin alike. Two partials lie in the same file in two cases: their sections have the same path, or
one section stands in a section without a name and the other one beside that section, with the
name of the first behind an underscore. In neither case do the two sections begin alike, so
sections whose partials share a file have different partials.

## Main definitions

* `PlacedSection.SkipsLevel s u`: the empty name above `s` and its own name give the name of `u`
* `PlacedSection.SharesFile s u`: the partials of `s` and `u` lie in the same file

## Main results

* `Document.head?_lines_render`: the first line of a partial
* `Document.location_eq_iff`: two partials lie at one location just if they share a file
* `Document.render_ne_of_sharesFile`: and then they are different
-/

namespace PagePartials

open SectionName (separator normalize IsName IsNumber)

/-! ## First lines -/

namespace Body

theorem eq_nil_of_allLines_eq_nil {b : Body} (h : b.allLines = []) : b = nil := by
  cases b with
  | nil => rfl
  | line l rest => simp [allLines] at h
  | nested name start inner stop rest => simp [allLines] at h

/-- The first line of a partial is the line that begins its section. -/
theorem head?_lines_render {b : Body} {above : List Text} {s : PlacedSection}
    (h : Text.AreLines b.allLines) (hs : s ∈ b.place above) :
    (Text.lines s.render).head? = s.startComment := by
  -- By induction on the body: the lines inside a section, and those behind it, are lines again.
  induction b generalizing above with
  | nil => simp [place] at hs
  | line l rest ih => exact ih h.tail hs
  | nested name start inner stop rest ih₁ ih₂ =>
    simp only [place, List.mem_cons, List.mem_append] at hs
    rcases hs with rfl | hs | hs
    · by_cases hend : inner.allLines ++ (stop.toList ++ rest.allLines) = []
      -- The marker is the last line of the page, and the partial is that line.
      · simp only [List.append_eq_nil_iff, Option.toList_eq_nil_iff] at hend
        obtain ⟨hinner, rfl, -⟩ := hend
        obtain rfl := eq_nil_of_allLines_eq_nil hinner
        have hr : (placeOne above name start nil none).render = [start].flatten := by
          simp [placeOne, PlacedSection.render, Section.render, Section.keptLines, lines, names]
        have hstart : Text.AreLines [start] := h.sublist (by simp [allLines])
        rw [hr, Text.lines_flatten hstart]
        rfl
      -- Another line follows the marker, so a newline sets it off from the rest of the partial.
      · obtain ⟨w, hw, rfl⟩ := h.eq_append_newline hend
        obtain ⟨t, ht⟩ : ∃ t, (placeOne above name (w ++ ['\n']) inner stop).render =
            w ++ '\n' :: t := by
          simp [placeOne, PlacedSection.render, Section.render]
        rw [ht, Text.lines_append_newline hw]
        rfl
    · refine ih₁ (h.sublist ?_) hs
      exact (List.sublist_append_left ..).cons _
    · refine ih₂ (h.sublist ?_) hs
      exact ((List.sublist_append_right ..).trans (List.sublist_append_right ..)).cons _

end Body

namespace Document

variable {t : Text} {s u : PlacedSection}

/-- The first line of a partial is the line that begins its section. -/
theorem head?_lines_render (hs : s ∈ (ofText t).sections) :
    (Text.lines s.render).head? = s.startComment := by
  obtain ⟨head, -, -, hwf⟩ := wellFormed_ofText t
  exact Body.head?_lines_render (hwf.areLines.sublist (List.sublist_append_right ..)) hs

theorem markerName_eq_of_render_eq (hs : s ∈ (ofText t).sections) (hu : u ∈ (ofText t).sections)
    (h : s.render = u.render) : s.markerName = u.markerName := by
  have hstart : s.startComment = u.startComment := by
    rw [← head?_lines_render hs, h, head?_lines_render hu]
  rw [Section.markerName, Section.markerName, hstart]

end Document

/-! ## Files that are shared -/

namespace PlacedSection

variable {s u : PlacedSection}

/-- Whether the first section stands right inside one without a name, and the second beside that
one, called like the first with an underscore in front. -/
def SkipsLevel (s u : PlacedSection) : Prop :=
  s.above = u.above ++ [[]] ∧ u.name = separator :: s.name

/-- Whether the partials of two sections lie in the same file: the sections have the same path, or
one of them skips a level that makes no directory. -/
def SharesFile (s u : PlacedSection) : Prop :=
  s.names = u.names ∨ SkipsLevel s u ∨ SkipsLevel u s

theorem names_eq_iff : s.names = u.names ↔ s.above = u.above ∧ s.name = u.name := by
  simp [names]

theorem SkipsLevel.words_eq (h : SkipsLevel s u) : s.words = u.words := by
  obtain ⟨ha, hn⟩ := h
  simp [words, names, ha, hn, Text.pieces]

theorem SkipsLevel.filter_above_eq (h : SkipsLevel s u) :
    s.above.filter (· != []) = u.above.filter (· != []) := by
  simp [h.1]

/-- The words on the rest of a path that goes through an empty name are those on the rest of a path
that does not, only if nothing stands between and the last names differ by an underscore. -/
theorem eq_cons_of_words_eq {inner : List Text} {n m : Text} (hin : ∀ b ∈ inner, IsName b)
    (hne : [] ∉ inner)
    (h : [] :: (inner.flatMap (Text.pieces separator) ++ Text.pieces separator n) =
      inner.flatMap (Text.pieces separator) ++ Text.pieces separator m) :
    inner = [] ∧ m = separator :: n := by
  rcases inner with _ | ⟨b, inner⟩
  -- Nothing stands between: joining the words again gives the names.
  · refine ⟨rfl, ?_⟩
    rw [← Text.intercalate_pieces separator m, ← show [] :: Text.pieces separator n =
      Text.pieces separator m from h]
    obtain ⟨q, qs, hq⟩ := List.exists_cons_of_ne_nil (Text.pieces_ne_nil separator n)
    rw [hq, List.intercalate_cons_cons, ← hq, Text.intercalate_pieces]
    rfl
  -- The first name between would begin with an empty word, as a number behind an underscore does;
  -- but then that number would be empty as well.
  · exfalso
    obtain ⟨c, w, rfl⟩ : ∃ c w, b = c :: w := by
      apply List.exists_cons_of_ne_nil
      rintro rfl
      exact hne List.mem_cons_self
    by_cases hc : c = separator
    · subst hc
      have hw : IsNumber w := (hin _ List.mem_cons_self).isNumber
      have hp : Text.pieces separator (separator :: w) = [[], w] := by
        rw [Text.pieces, if_pos rfl, Text.pieces_of_notMem hw.separator_notMem]
      simp only [List.flatMap_cons, hp, List.cons_append, List.cons.injEq] at h
      exact hw.ne_nil h.2.1.symm
    · obtain ⟨q, qs, hq⟩ := List.exists_cons_of_ne_nil (Text.pieces_ne_nil separator w)
      simp [List.flatMap_cons, Text.pieces, hc, hq] at h

end PlacedSection

namespace Document

variable {t : Text} {s u : PlacedSection}

open PlacedSection

/-- Where the empty name stands above a section, the same names stand above it. -/
theorem eq_of_above_eq {p q p' q' : List Text} (hs : s ∈ (ofText t).sections)
    (hu : u ∈ (ofText t).sections) (hsa : s.above = p ++ [] :: q) (hua : u.above = p' ++ [] :: q') :
    p = p' := by
  -- Each path leads through a section without a name, and there is only one on the page.
  obtain ⟨v, hv, hvn⟩ := exists_around (p := p ++ [[]]) hs (by simp) ⟨q, by simp [hsa]⟩
  obtain ⟨v', hv', hvn'⟩ := exists_around (p := p' ++ [[]]) hu (by simp) ⟨q', by simp [hua]⟩
  obtain ⟨hva, hvname⟩ := List.append_inj' hvn rfl
  obtain ⟨hva', hvname'⟩ := List.append_inj' hvn' rfl
  have hvv : v = v' := eq_of_name_eq_nil hv hv' (by simpa using hvname) (by simpa using hvname')
  rw [← hva, ← hva', hvv]

/-- The empty name stands above a section at most once. -/
theorem nil_notMem_of_above_eq {p q : List Text} (hs : s ∈ (ofText t).sections)
    (hsa : s.above = p ++ [] :: q) : [] ∉ p ∧ [] ∉ q := by
  constructor
  · intro hp
    obtain ⟨a, b, rfl⟩ := List.append_of_mem hp
    have hsa' : s.above = a ++ [] :: (b ++ [] :: q) := by simp [hsa]
    have h := eq_of_above_eq hs hs hsa hsa'
    simp at h
  · intro hq
    obtain ⟨a, b, rfl⟩ := List.append_of_mem hq
    have hsa' : s.above = (p ++ [] :: a) ++ [] :: b := by simp [hsa]
    have h := eq_of_above_eq hs hs hsa hsa'
    simp at h

theorem filter_eq_self_of_nil_notMem {ns : List Text} (h : [] ∉ ns) :
    ns.filter (· != []) = ns := by
  refine List.filter_eq_self.mpr fun n hn => ?_
  have hne : n ≠ [] := by
    rintro rfl
    exact h hn
  simpa using hne

theorem filter_append_nil_cons {p q : List Text} (hp : [] ∉ p) (hq : [] ∉ q) :
    (p ++ [] :: q).filter (· != []) = p ++ q := by
  rw [List.filter_append, List.filter_cons_of_neg (by simp), filter_eq_self_of_nil_notMem hp,
    filter_eq_self_of_nil_notMem hq]

/-- Two sections in the one without a name stand in the same sections, if the names above them are
the same but for the empty one. -/
theorem above_eq_of_filter_eq (hs : s ∈ (ofText t).sections) (hu : u ∈ (ofText t).sections)
    (hsa : [] ∈ s.above) (hua : [] ∈ u.above)
    (hf : s.above.filter (· != []) = u.above.filter (· != [])) : s.above = u.above := by
  obtain ⟨p, q, hpq⟩ := List.append_of_mem hsa
  obtain ⟨p', q', hpq'⟩ := List.append_of_mem hua
  -- The empty name is at the same place of both paths.
  obtain rfl := eq_of_above_eq hs hu hpq hpq'
  obtain ⟨hp, hq⟩ := nil_notMem_of_above_eq hs hpq
  obtain ⟨-, hq'⟩ := nil_notMem_of_above_eq hu hpq'
  rw [hpq, hpq', filter_append_nil_cons hp hq, filter_append_nil_cons hp hq'] at hf
  rw [hpq, hpq', List.append_cancel_left hf]

/-- A section in one without a name shares a file with one that is not, only if it skips just that
level. -/
theorem skipsLevel_of_words_eq (hs : s ∈ (ofText t).sections)
    (hsa : [] ∈ s.above) (hua : [] ∉ u.above)
    (hf : s.above.filter (· != []) = u.above.filter (· != [])) (hw : s.words = u.words) :
    SkipsLevel s u := by
  obtain ⟨p, q, hpq⟩ := List.append_of_mem hsa
  obtain ⟨hp, hq⟩ := nil_notMem_of_above_eq hs hpq
  rw [hpq, filter_append_nil_cons hp hq, filter_eq_self_of_nil_notMem hua] at hf
  have hin : ∀ b ∈ q, IsName b := fun b hb => isName_of_mem_names hs (by simp [names, hpq, hb])
  simp only [words, names, hpq, ← hf, List.flatMap_append, List.flatMap_cons, List.flatMap_nil,
    List.append_nil, List.append_assoc, List.append_cancel_left_eq, Text.pieces,
    List.singleton_append] at hw
  obtain ⟨rfl, hn⟩ := eq_cons_of_words_eq hin hq hw
  exact ⟨by simpa [hpq] using hf, hn⟩

/-- **Two partials lie at one location** just if their sections share a file. -/
theorem location_eq_iff (hs : s ∈ (ofText t).sections) (hu : u ∈ (ofText t).sections) :
    s.location = u.location ↔ SharesFile s u := by
  have hns : ∀ n ∈ s.names, IsName n := fun _ => isName_of_mem_names hs
  have hnu : ∀ n ∈ u.names, IsName n := fun _ => isName_of_mem_names hu
  have hl : s.location = u.location ↔
      s.above.filter (· != []) = u.above.filter (· != []) ∧ s.words = u.words := by
    rw [location_eq hns, location_eq hnu, ← partialName_eq_iff hns hnu]
    simp
  rw [hl]
  constructor
  · rintro ⟨hf, hw⟩
    have hsame := (partialName_eq_iff hns hnu).mpr hw
    -- The directories tell which names stand above, but for an empty one.
    by_cases hsa : [] ∈ s.above <;> by_cases hua : [] ∈ u.above
    -- Both stand in the one section without a name.
    · have ha := above_eq_of_filter_eq hs hu hsa hua hf
      have hn := (partialName_eq_iff_of_above_eq hns hnu ha).mp hsame
      exact .inl (names_eq_iff.mpr ⟨ha, hn⟩)
    -- Only one of them does.
    · exact .inr (.inl (skipsLevel_of_words_eq hs hsa hua hf hw))
    · exact .inr (.inr (skipsLevel_of_words_eq hu hua hsa hf.symm hw.symm))
    -- Neither does, so the directories are the names above.
    · rw [filter_eq_self_of_nil_notMem hsa, filter_eq_self_of_nil_notMem hua] at hf
      have hn := (partialName_eq_iff_of_above_eq hns hnu hf).mp hsame
      exact .inl (names_eq_iff.mpr ⟨hf, hn⟩)
  · rintro (h | h | h)
    · obtain ⟨ha, -⟩ := names_eq_iff.mp h
      exact ⟨by rw [ha], by rw [words, h, words]⟩
    · exact ⟨h.filter_above_eq, h.words_eq⟩
    · exact ⟨h.filter_above_eq.symm, h.words_eq.symm⟩

/-- A section that skips a level asks for another base than the one beside that level, which asks
for the empty one. -/
theorem normalize_ne_of_skipsLevel (hs : s ∈ (ofText t).sections) (hu : u ∈ (ofText t).sections)
    (h : SkipsLevel s u) : normalize s.markerName ≠ normalize u.markerName := by
  obtain ⟨k, -, hsn⟩ := name_eq_numbered hs
  obtain ⟨m, -, hun⟩ := name_eq_numbered hu
  obtain ⟨hnil, hnum⟩ := SectionName.numbered_eq_cons_separator (hun.symm.trans h.2)
  -- The name beside the level is a number behind an underscore; no name of the empty base is
  -- just that number.
  intro heq
  rw [heq, hnil] at hsn
  exact SectionName.numbered_nil_ne_of_isNumber hnum k hsn.symm

/-- **Partials that share a file are different**: the sections do not begin alike. -/
theorem render_ne_of_sharesFile {i j : Nat} (hij : i < j) (hi : (ofText t).sections[i]? = some s)
    (hj : (ofText t).sections[j]? = some u) (h : SharesFile s u) : s.render ≠ u.render := by
  have hs := List.mem_of_getElem? hi
  have hu := List.mem_of_getElem? hj
  intro hr
  -- Equal partials have one first line, so their sections ask for one base.
  have hb : normalize s.markerName = normalize u.markerName := by
    rw [markerName_eq_of_render_eq hs hu hr]
  rcases h with h | h | h
  · exact name_ne_of_normalize_eq hij hi hj hb (names_eq_iff.mp h).2
  · exact normalize_ne_of_skipsLevel hs hu h hb
  · exact normalize_ne_of_skipsLevel hu hs h hb.symm

end Document

end PagePartials
