import PagePartials.Document.Basic
import PagePartials.Proofs.Document.Grammar
import PagePartials.Proofs.SectionName
import PagePartials.Proofs.Text.Lines
import Mathlib.Data.List.TakeWhile

/-!
# Pages and their texts

A page is well formed if its lines are the lines of a text, its header ends where the first section
begins, and its body is one of the grammar. Reading a text always gives a well-formed page with the
lines of that text, and a well-formed page is what its own text is read as.

## Main definitions

* `BeginsSections l`: whether line `l` ends the header
* `Document.WellFormed head b`: the header lines `head` and the body `b` make a page

## Main results

* `Document.wellFormed_ofText`: reading a text gives a well-formed page with its lines
* `Document.ofText_eq_of_lines`: which texts are read as a given page
* `Document.ofText_wellFormed`: the text of a well-formed page is read as that page
-/

namespace PagePartials

open SectionName (Registry normalize)

/-- Whether the line begins the first section of a page: it carries a begin marker and names no
product. -/
def BeginsSections (line : Text) : Prop :=
  (∃ n, Marker.ofLine? line = some (.begins n)) ∧ ¬ productWord <:+: line

theorem endsHeader_iff {l : Text} : endsHeader l = true ↔ BeginsSections l := by
  unfold endsHeader BeginsSections
  split
  next n hm => simp [hm, ← Text.occursIn_iff]
  next hm =>
    simp only [Bool.false_eq_true, false_iff, not_and, forall_exists_index]
    exact fun n hn => absurd hn (hm n)

theorem not_endsHeader_iff {l : Text} : (!endsHeader l) = true ↔ ¬ BeginsSections l := by
  rw [← endsHeader_iff, Bool.not_eq_true', Bool.not_eq_true]

instance : DecidablePred BeginsSections := fun _ => decidable_of_iff _ endsHeader_iff

namespace Document

/-- Header lines and a body that make a page: together they are the lines of a text, no header line
begins the first section, the first line of the body does, and the body is one of the grammar, with
the names that a fresh registry gives. -/
structure WellFormed (head : List Text) (b : Body) : Prop where
  areLines : Text.AreLines (head ++ b.allLines)
  header : ∀ l ∈ head, ¬ BeginsSections l
  first : ∀ l ∈ b.allLines.head?, BeginsSections l
  marked : ∃ r, b.WellMarked none true Registry.empty r

theorem ofText_eq (t : Text) :
    ofText t = ⟨((Text.lines t).takeWhile fun l => !endsHeader l).flatten,
      .ofEvents ((⟨.empty, []⟩ : Progress).readAll
        ((Text.lines t).dropWhile fun l => !endsHeader l)).1⟩ :=
  rfl

/-- **Reading a text gives a well-formed page** with the lines of that text. -/
theorem wellFormed_ofText (t : Text) :
    ∃ head, (ofText t).header = head.flatten ∧ Text.lines t = head ++ (ofText t).body.allLines ∧
      WellFormed head (ofText t).body := by
  let p : Text → Bool := fun l => !endsHeader l
  have hb : (ofText t).body.allLines = (Text.lines t).dropWhile p := by
    rw [ofText_eq]
    exact Body.allLines_readAll _ _
  have hl : Text.lines t = (Text.lines t).takeWhile p ++ (ofText t).body.allLines := by
    rw [hb, List.takeWhile_append_dropWhile]
  refine ⟨(Text.lines t).takeWhile p, rfl, hl, ?_, ?_, ?_, ?_⟩
  · rw [← hl]
    exact Text.areLines_lines t
  -- The header goes on as long as no line begins a section.
  · intro l hmem
    have hp : p l = true := List.mem_takeWhile_imp hmem
    exact not_endsHeader_iff.mp hp
  · intro l hfirst
    have hp : p l = false := by
      rw [hb] at hfirst
      have hne := List.head?_dropWhile_not p (Text.lines t)
      rw [Option.mem_def.mp hfirst] at hne
      exact hne
    exact endsHeader_iff.mp (by simpa [p] using hp)
  -- What follows is read as a body of the grammar, whatever it is.
  · exact ⟨_, Body.wellMarked_readAll _ _⟩

theorem isMarked_of_mem_sections {t : Text} {s : PlacedSection} (hs : s ∈ (ofText t).sections) :
    s.IsMarked := by
  obtain ⟨_, -, -, hwf⟩ := wellFormed_ofText t
  obtain ⟨r, hm⟩ := hwf.marked
  exact hm.isMarked hs

/-- The text of a page whose header lines and body are well formed is cut into those lines, and the
header ends where the body begins. -/
theorem WellFormed.ofText_flatten {head : List Text} {b : Body} (h : WellFormed head b) :
    ofText (head.flatten ++ b.flatten) = ⟨head.flatten, b⟩ := by
  obtain ⟨r, hm⟩ := h.marked
  have hl : Text.lines (head.flatten ++ b.flatten) = head ++ b.allLines := by
    rw [← b.flatten_allLines, ← List.flatten_append, Text.lines_flatten h.areLines]
  -- The cut falls behind the header: none of its lines begins a section, and the next one does.
  have hhead : ∀ l ∈ head, (!endsHeader l) = true := fun l hl =>
    not_endsHeader_iff.mpr (h.header l hl)
  have hbody : b.allLines.takeWhile (fun l => !endsHeader l) = [] ∧
      b.allLines.dropWhile (fun l => !endsHeader l) = b.allLines := by
    cases hb : b.allLines with
    | nil => exact ⟨rfl, rfl⟩
    | cons l ls =>
      have hf : endsHeader l = true := endsHeader_iff.mpr (h.first l (by simp [hb]))
      simp [hf]
  rw [ofText_eq, hl, List.takeWhile_append_of_pos hhead, List.dropWhile_append_of_pos hhead,
    hbody.1, hbody.2, List.append_nil, hm.ofEvents_readAll]

/-- A text whose lines are header lines and those of a body of the grammar is read as that header
and that body. -/
theorem ofText_eq_of_lines {t : Text} {head : List Text} {b : Body}
    (hlines : Text.lines t = head ++ b.allLines) (hheader : ∀ l ∈ head, ¬ BeginsSections l)
    (hfirst : ∀ l ∈ b.allLines.head?, BeginsSections l)
    (hmarked : ∃ r, b.WellMarked none true Registry.empty r) : ofText t = ⟨head.flatten, b⟩ := by
  have hwf : WellFormed head b := ⟨hlines ▸ Text.areLines_lines t, hheader, hfirst, hmarked⟩
  have ht : t = head.flatten ++ b.flatten := by
    rw [← b.flatten_allLines, ← List.flatten_append, ← hlines, Text.flatten_lines]
  calc ofText t = ofText (head.flatten ++ b.flatten) := congrArg ofText ht
    _ = ⟨head.flatten, b⟩ := hwf.ofText_flatten

/-- **A well-formed page is read back from its text**: the header it has, and in the body each
section with the name, the markers, the own lines and the sections inside it that it has. An end
marker that carries the name in the begin marker always ends the section, whatever number the
section's own name was given. -/
theorem ofText_wellFormed {head : List Text} {b : Body} (h : WellFormed head b) :
    ofText (head.flatten ++ b.flatten) = ⟨head.flatten, b⟩ ∧
      ∀ (r : Registry) (n line : Text), Marker.ofLine? line = some (.ends n) →
        Closes (r.assign n).1 line :=
  ⟨h.ofText_flatten, fun r n _ hm => ⟨n, hm, r.normalize_prefix_assign n⟩⟩

/-- A header that names a product. -/
def menuHead : List Text := ["<html>\n".toList, "<!-- begin: Product: menu -->\n".toList]

/-- A section with a numbered name inside another one, end markers that end nothing, and a section
without an end. -/
def menuBody : Body :=
  .nested "nav".toList "<!-- begin: Nav -->\n".toList
    (.line "a\n".toList
      (.nested "nav_2".toList "<!-- nav -->\n".toList
        (.line "<!-- end: other -->\n".toList .nil) (some "<!-- End of nav -->\n".toList)
        (.line "b\n".toList .nil)))
    (some "<!-- end: nav -->\n".toList)
    (.line "<!-- end: nav -->\n".toList
      (.nested "x".toList "<!-- x -->".toList .nil none .nil))

theorem wellFormed_menu : WellFormed menuHead menuBody where
  areLines := ⟨by decide, by decide, by decide⟩
  header := by decide
  first := by decide
  marked := ⟨_, .closed (n := "Nav".toList) (by decide)
    (.line (.of_none (by decide))
      (.closed (n := "nav".toList) (by decide)
        (.line (.of_ends (n := "other".toList) (by decide) (by decide)) .nil)
        ⟨"nav".toList, by decide, by decide⟩ (.line (.of_none (by decide)) .nil)))
    ⟨"nav".toList, by decide, by decide⟩
    (.line (.of_ends (n := "nav".toList) (by decide) (by decide))
      (.unclosed (n := "x".toList) (by decide) .nil))⟩

/-- The page with that header and that body is read back from its text. -/
theorem ofText_menu :
    WellFormed menuHead menuBody ∧
      ofText (menuHead.flatten ++ menuBody.flatten) = ⟨menuHead.flatten, menuBody⟩ :=
  ⟨wellFormed_menu, (ofText_wellFormed wellFormed_menu).1⟩

end Document

end PagePartials
