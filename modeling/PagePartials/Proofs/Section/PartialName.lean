import PagePartials.Section
import PagePartials.Proofs.Document.Sections
import PagePartials.Proofs.Marker
import PagePartials.Proofs.Text.Pieces

/-!
# Names and places of partials

The name of a partial spells the words of its section's path, the pieces of the names on it between
their underscores, and nothing else: two paths give the same partial name, and so the same include
line, just if they are the same words. Where the partial lies tells more, since each name above the
section is a directory; but an empty name makes none.

## Main definitions

* `PlacedSection.words s`: the words of the path of `s`
* `Cites l n`: the line `l` includes the partial called `n`

## Main results

* `PlacedSection.partialName_eq_iff`: when two partials have the same name
* `PlacedSection.partialName_ne_of_prefix`: a section and one inside it have different partials
* `PlacedSection.partialName_eq_iff_of_above_eq`: so have sections of different names side by side
* `PlacedSection.location_eq`: the directories and the file that a partial lies in
-/

namespace PagePartials

open SectionName (separator IsName)

/-- What stands in an include line around the name of the partial. -/
def Cites (line name : Text) : Prop :=
  line = "    <%= render 'partials/".toList ++ name ++ "' %>\n".toList

/-- An include line is not blank, whatever the path is. -/
theorem SectionPath.isBlank_includeLine (path : Text) :
    Text.isBlank (includeLine path) = false := by
  have hc : '<' ∈ includeLine path :=
    List.mem_append_left _ (List.mem_append_left _ (by decide))
  exact Text.isBlank_eq_false_iff.mpr ⟨'<', hc, by decide⟩

/-- The name of a partial has no slash in it, and but for underscores and the ending only what is on
the path. -/
theorem SectionPath.notMem_partialName {path : Text} {c : Char} (hsep : c ≠ '_')
    (html : c ∉ ".html".toList) (hpath : c = '/' ∨ c ∉ path) : c ∉ partialName path := by
  have hreplaced : c ∉ path.replace '/' '_' := by
    intro hmem
    rcases Text.mem_replace hmem with h | ⟨hslash, h⟩
    · exact hsep h
    · exact hpath.elim hslash fun hnot => hnot h
  rw [partialName, List.cons_append, List.mem_cons, List.mem_append, not_or, not_or]
  exact ⟨hsep, hreplaced, html⟩

namespace PlacedSection

variable {s u : PlacedSection}

/-- The words of a section's path: the pieces of its names between their underscores. -/
def words (s : PlacedSection) : List Text := s.names.flatMap (Text.pieces separator)

theorem names_ne_nil (s : PlacedSection) : s.names ≠ [] := by simp [names]

theorem slash_notMem (hs : ∀ n ∈ s.names, IsName n) : ∀ n ∈ s.names, '/' ∉ n :=
  fun n hn => (hs n hn).notMem (by decide) (by decide)

/-- A path cut at its slashes is the names on it. -/
theorem pieces_fullPath (hs : ∀ n ∈ s.names, IsName n) : Text.pieces '/' s.fullPath = s.names :=
  Text.pieces_intercalate_of_notMem s.names_ne_nil (slash_notMem hs)

theorem partialName_eq (hs : ∀ n ∈ s.names, IsName n) :
    s.partialName = separator :: [separator].intercalate s.names ++ ".html".toList := by
  have hr : s.fullPath.replace '/' '_' = [separator].intercalate s.names :=
    Text.replace_intercalate (slash_notMem hs)
  rw [partialName, SectionPath.partialName, hr]
  rfl

/-- What stands in no name on a path stands nowhere on it, unless it is a slash. -/
theorem notMem_fullPath {c : Char} (hc : c ≠ '/') (hs : ∀ n ∈ s.names, c ∉ n) : c ∉ s.fullPath := by
  intro h
  rcases Text.mem_intercalate h with h | ⟨n, hn, hmem⟩
  · exact hc h
  · exact hs n hn hmem

/-- What stands in no name, and not behind it, stands in no partial's name. -/
theorem notMem_partialName (hs : ∀ n ∈ s.names, IsName n) {c : Char}
    (hc : SectionName.isKept c = false) (hsep : c ≠ separator) (html : c ∉ ".html".toList) :
    c ∉ s.partialName := by
  refine SectionPath.notMem_partialName hsep html ?_
  by_cases hslash : c = '/'
  · exact .inl hslash
  · exact .inr (notMem_fullPath hslash fun n hn => (hs n hn).notMem hc hsep)

/-- Two partials have the same name just if the paths of their sections are the same words. -/
theorem partialName_eq_iff (hs : ∀ n ∈ s.names, IsName n) (hu : ∀ n ∈ u.names, IsName n) :
    s.partialName = u.partialName ↔ s.words = u.words := by
  rw [partialName_eq hs, partialName_eq hu, List.cons_append, List.cons_append, List.cons_inj_right,
    List.append_left_inj]
  exact Text.intercalate_inj s.names_ne_nil u.names_ne_nil

theorem length_words_pos (ns : List Text) (h : ns ≠ []) :
    0 < (ns.flatMap (Text.pieces separator)).length := by
  obtain ⟨n, ns, rfl⟩ := List.exists_cons_of_ne_nil h
  have hp := List.length_pos_iff.mpr (Text.pieces_ne_nil separator n)
  rw [List.flatMap_cons, List.length_append]
  omega

/-- A section and one that stands inside it have partials of different names. -/
theorem partialName_ne_of_prefix (hs : ∀ n ∈ s.names, IsName n) (hu : ∀ n ∈ u.names, IsName n)
    (hp : s.names <+: u.names) (hne : s.names ≠ u.names) : s.partialName ≠ u.partialName := by
  obtain ⟨ns, hns⟩ := hp
  have hpos : ns ≠ [] := by
    rintro rfl
    exact hne (by simpa using hns)
  -- The path of the section inside has more words.
  intro h
  have hw := (partialName_eq_iff hs hu).mp h
  rw [words, words, ← hns, List.flatMap_append] at hw
  have := length_words_pos ns hpos
  have := congrArg List.length hw
  simp only [List.length_append] at this
  omega

/-- Sections that stand side by side have partials of one name just if they have one name. -/
theorem partialName_eq_iff_of_above_eq (hs : ∀ n ∈ s.names, IsName n)
    (hu : ∀ n ∈ u.names, IsName n) (ha : s.above = u.above) :
    s.partialName = u.partialName ↔ s.name = u.name := by
  rw [partialName_eq_iff hs hu, words, words, names, names, ha]
  simp only [List.flatMap_append, List.append_cancel_left_eq, List.flatMap_singleton]
  constructor
  · intro h
    rw [← Text.intercalate_pieces separator s.name, h, Text.intercalate_pieces]
  · exact fun h => by rw [h]

/-! ## Include lines -/

theorem cites_includeLine (s : PlacedSection) : Cites s.includeLine s.partialName := by
  have hl : "    <%= render 'partials/".toList =
      "    <%= render ".toList ++ "'partials/".toList := by
    decide
  have hr : "' %>\n".toList = ['\''] ++ " %>\n".toList := by decide
  unfold Cites includeLine SectionPath.includeLine SectionPath.reference partialName
  rw [hl, hr]
  simp only [List.append_assoc]

theorem cites_includeLine_iff {n : Text} : Cites s.includeLine n ↔ n = s.partialName := by
  constructor
  · intro h
    have hl := (cites_includeLine s).symm.trans h
    rw [List.append_left_inj, List.append_right_inj] at hl
    exact hl.symm
  · rintro rfl
    exact cites_includeLine s

theorem includeLine_eq_iff : s.includeLine = u.includeLine ↔ s.partialName = u.partialName := by
  constructor
  · intro h
    have hc := cites_includeLine s
    rw [h] at hc
    exact cites_includeLine_iff.mp hc
  · intro h
    have hc : Cites u.includeLine s.partialName := cites_includeLine_iff.mpr h
    exact (cites_includeLine s).trans hc.symm

/-- An include line is one line, with its newline. -/
theorem includeLine_eq_append (hs : ∀ n ∈ s.names, IsName n) :
    ∃ w, '\n' ∉ w ∧ s.includeLine = w ++ ['\n'] := by
  have hp : '\n' ∉ s.partialName :=
    notMem_partialName hs (by decide) (by decide) (by decide)
  have hr : "' %>\n".toList = "' %>".toList ++ ['\n'] := by decide
  refine ⟨"    <%= render 'partials/".toList ++ s.partialName ++ "' %>".toList, ?_, ?_⟩
  · exact List.not_mem_append (List.not_mem_append (by decide) hp) (by decide)
  · rw [cites_includeLine s, hr, List.append_assoc _ _ ['\n']]

/-- An include line can take no part in a comment. -/
theorem isApart_includeLine (hs : ∀ n ∈ s.names, IsName n) : Comment.IsApart s.includeLine := by
  have hp : '-' ∉ s.partialName :=
    notMem_partialName hs (by decide) (by decide) (by decide)
  rw [cites_includeLine s]
  refine ⟨List.not_mem_append (List.not_mem_append (by decide) hp) (by decide), ?_⟩
  rw [List.append_assoc, List.head?_append_of_ne_nil _ (by decide)]
  decide

/-- An include line is a line that can take no part in a comment. -/
theorem isPlainLine_includeLine (hs : ∀ n ∈ s.names, IsName n) : IsPlainLine s.includeLine :=
  ⟨isApart_includeLine hs, includeLine_eq_append hs⟩

theorem isBlank_includeLine (s : PlacedSection) : Text.isBlank s.includeLine = false :=
  SectionPath.isBlank_includeLine s.fullPath

/-! ## Locations -/

theorem isName_of_isName {n : Text} (h : IsName n) : Path.isName n = (n != []) := by
  have hdot : n ≠ ['.'] := by
    rintro rfl
    exact h.notMem (c := '.') (by decide) (by decide) List.mem_cons_self
  simp [Path.isName, hdot]

theorem isName_partialName (s : PlacedSection) : Path.isName s.partialName = true := by
  simp [Path.isName, partialName, SectionPath.partialName]

/-- A partial lies in a directory for each name above its section that is not empty. -/
theorem location_eq (hs : ∀ n ∈ s.names, IsName n) :
    s.location = ⟨.relative, s.above.filter (· != []) ++ [s.partialName]⟩ := by
  -- None of the names is a point.
  have hf : s.above.filter Path.isName = s.above.filter (· != []) :=
    List.filter_congr fun n hn => isName_of_isName (hs n (List.mem_append_left _ hn))
  rw [location, SectionPath.location, pieces_fullPath hs, names, List.dropLast_concat,
    Path.ofSegments, List.filter_append, hf, List.filter_singleton]
  simp only [show Path.isName (SectionPath.partialName s.fullPath) = true from s.isName_partialName]
  rfl

end PlacedSection

end PagePartials
