import PagePartials.Proofs.Document.Children
import PagePartials.Proofs.Extraction.Partials

/-!
# Indexes read as pages

An index is the header of a page, ended by a newline, with include lines and perhaps the closing
tags behind it. None of that begins a section: the header has no line that does, a newline or an
include line behind its last one changes no marker, and neither include lines nor closing tags carry
one. So an index is all header when it is read as a page. It ends with a newline and has its closing
tags, so splitting it adds nothing.

## Main results

* `exists_indexOf_eq`, `exists_lines_indexOf`: what stands behind the header in an index
* `Document.ofText_indexOf`: an index is read as a page without sections
* `indexOf_indexOf`: the index of an index is the index
* `Extraction.ofText_indexContent`: splitting an index gives no partials and the same index
-/

namespace PagePartials

open Comment (IsApart)
open SectionName (IsName)

/-! ## Lines that begin no section -/

theorem BeginsSections.of_append {l u : Text} (hu : IsApart u) (h : BeginsSections (l ++ u)) :
    BeginsSections l := by
  obtain ⟨⟨n, hn⟩, hproduct⟩ := h
  rw [Marker.ofLine?_append hu] at hn
  exact ⟨⟨n, hn⟩, fun hp => hproduct (hp.trans (List.prefix_append l u).isInfix)⟩

theorem not_beginsSections_of_isApart {u : Text} (hu : IsApart u) : ¬ BeginsSections u := by
  rintro ⟨⟨n, hn⟩, -⟩
  rw [Marker.ofLine?_eq_none hu] at hn
  exact Option.some_ne_none _ hn.symm

/-- Lines that can take no part in a comment, put behind lines that begin no section, make a text
without sections. -/
theorem Document.ofText_flatten_append {ls ks : List Text} (hls : Text.AreLines ls)
    (hks : Text.AreLines ks) (hbegins : ∀ l ∈ ls, ¬ BeginsSections l)
    (hapart : ∀ l ∈ ks, IsApart l) :
    ofText (ls.flatten ++ ks.flatten) = ⟨ls.flatten ++ ks.flatten, .nil⟩ := by
  have hnone : ∀ l ∈ Text.lines (ls.flatten ++ ks.flatten), ¬ BeginsSections l := by
    intro l hl
    rcases Text.mem_lines_append hls hks hl with h | h | ⟨x, hx, y, hy, rfl⟩
    · exact hbegins l h
    · exact not_beginsSections_of_isApart (hapart l h)
    · exact fun hb => hbegins x hx (hb.of_append (hapart y hy))
  have hread := ofText_eq_of_lines (List.append_nil _).symm hnone (by simp [Body.allLines])
    ⟨_, .nil⟩
  rwa [Text.flatten_lines] at hread

/-! ## What an index is made of -/

theorem isPlainLine_newline : IsPlainLine ['\n'] :=
  ⟨⟨by decide, by decide⟩, [], by simp, rfl⟩

/-- The lines that an index ends with if it lacks a closing tag. -/
def closers : List Text := ["  </body>\n".toList, "</html>\n".toList]

theorem flatten_closers : closers.flatten = closingLines := by decide

theorem isPlainLine_of_mem_closers {l : Text} (hl : l ∈ closers) : IsPlainLine l := by
  rcases List.mem_pair.mp hl with rfl | rfl
  · exact ⟨⟨by decide, by decide⟩, "  </body>".toList, by decide, by decide⟩
  · exact ⟨⟨by decide, by decide⟩, "</html>".toList, by decide, by decide⟩

/-- An index without the closing tags that it may lack. -/
def openIndex (header : Text) (top : List PlacedSection) : Text :=
  endLine header ++ (top.filter (·.isEmittable)).flatMap (·.includeLine)

theorem indexOf_eq (header : Text) (top : List PlacedSection) : indexOf header top =
    if closingTags.all fun tag => Text.occursIn tag (openIndex header top) then openIndex header top
    else openIndex header top ++ closingLines :=
  rfl

theorem exists_endLine_eq (t : Text) :
    ∃ ks : List Text, endLine t = t ++ ks.flatten ∧ (∀ l ∈ ks, IsPlainLine l) ∧
      (endLine t).getLast? = some '\n' := by
  unfold endLine
  split
  next h =>
    obtain ⟨w, rfl⟩ := List.isSuffixOf_iff_suffix.mp h
    exact ⟨[], by simp, by simp, by simp⟩
  next => exact ⟨[['\n']], by simp, by simpa using isPlainLine_newline, by simp⟩

theorem getLast?_append_flatten {t : Text} {ls : List Text} (ht : t.getLast? = some '\n')
    (hls : ∀ l ∈ ls, IsPlainLine l) : (t ++ ls.flatten).getLast? = some '\n' := by
  induction ls generalizing t with
  | nil => simpa using ht
  | cons l ls ih =>
    obtain ⟨hl, hls⟩ := List.forall_mem_cons.mp hls
    rw [List.flatten_cons, ← List.append_assoc]
    refine ih ?_ hls
    rw [List.getLast?_append, hl.getLast?_eq]
    rfl

variable {header : Text} {top : List PlacedSection}

/-- An index is the header, ended by a newline, with the include lines behind it, and behind these
the closing tags if one is missing. -/
theorem exists_indexOf_eq_endLine (header : Text) (top : List PlacedSection) :
    ∃ last : List Text, (last = [] ∨ last = closers) ∧ indexOf header top =
      endLine header ++ ((top.filter (·.isEmittable)).map (·.includeLine) ++ last).flatten := by
  have hopen : openIndex header top =
      endLine header ++ ((top.filter (·.isEmittable)).map (·.includeLine)).flatten := by
    rw [openIndex, List.flatMap_def]
  rw [indexOf_eq]
  split
  · exact ⟨[], .inl rfl, by rw [hopen, List.append_nil]⟩
  · refine ⟨closers, .inr rfl, ?_⟩
    rw [hopen, List.flatten_append, flatten_closers, List.append_assoc]

/-- What stands behind the header in an index are lines that can take no part in a comment. -/
theorem isPlainLine_behind (htop : ∀ s ∈ top, ∀ n ∈ s.names, IsName n) {last : List Text}
    (hlast : last = [] ∨ last = closers) :
    ∀ l ∈ (top.filter (·.isEmittable)).map (·.includeLine) ++ last, IsPlainLine l := by
  intro l hl
  rcases List.mem_append.mp hl with hl | hl
  · obtain ⟨s, hs, rfl⟩ := List.mem_map.mp hl
    exact PlacedSection.isPlainLine_includeLine (htop s (List.mem_of_mem_filter hs))
  · rcases hlast with rfl | rfl
    · exact absurd hl List.not_mem_nil
    · exact isPlainLine_of_mem_closers hl

/-- An index is the header with lines behind it that can take no part in a comment, and ends with a
newline. -/
theorem exists_indexOf_eq (htop : ∀ s ∈ top, ∀ n ∈ s.names, IsName n) (header : Text) :
    ∃ ks : List Text, indexOf header top = header ++ ks.flatten ∧ (∀ l ∈ ks, IsPlainLine l) ∧
      (indexOf header top).getLast? = some '\n' := by
  obtain ⟨ks, hend, hks, hnewline⟩ := exists_endLine_eq header
  obtain ⟨last, hlast, hindex⟩ := exists_indexOf_eq_endLine header top
  have hbehind := isPlainLine_behind htop hlast
  refine ⟨ks ++ ((top.filter (·.isEmittable)).map (·.includeLine) ++ last), ?_, fun l hl => ?_, ?_⟩
  · rw [hindex, hend, List.append_assoc, ← List.flatten_append]
  · exact (List.mem_append.mp hl).elim (hks l) (hbehind l)
  · rw [hindex]
    exact getLast?_append_flatten hnewline hbehind

/-- The lines of an index are those of the header, ended by a newline, the include lines, and
perhaps the closing tags. -/
theorem exists_lines_indexOf (htop : ∀ s ∈ top, ∀ n ∈ s.names, IsName n) (header : Text) :
    ∃ last : List Text, (last = [] ∨ last = closers) ∧ Text.lines (indexOf header top) =
      Text.lines (endLine header) ++ ((top.filter (·.isEmittable)).map (·.includeLine) ++ last) := by
  obtain ⟨-, -, -, hnewline⟩ := exists_endLine_eq header
  obtain ⟨last, hlast, hindex⟩ := exists_indexOf_eq_endLine header top
  have hended : Text.IsEnded (endLine header) := .inr hnewline
  refine ⟨last, hlast, ?_⟩
  rw [hindex, hended.lines_append,
    Text.lines_flatten (.of_ended fun l hl => (isPlainLine_behind htop hlast l hl).ended)]

/-- An index has its closing tags. -/
theorem occursIn_indexOf (header : Text) (top : List PlacedSection) :
    (closingTags.all fun tag => Text.occursIn tag (indexOf header top)) = true := by
  rw [indexOf_eq]
  split
  next h => exact h
  next =>
    rw [List.all_eq_true]
    intro tag htag
    have hin : Text.occursIn tag closingLines = true := by
      rcases List.mem_pair.mp htag with rfl | rfl <;> decide
    rw [Text.occursIn_iff] at hin ⊢
    exact hin.trans (List.suffix_append ..).isInfix

/-! ## Indexes as pages -/

/-- **The index of an index is the index.** -/
theorem indexOf_indexOf (htop : ∀ s ∈ top, ∀ n ∈ s.names, IsName n) (header : Text) :
    indexOf (indexOf header top) [] = indexOf header top := by
  obtain ⟨-, -, -, hlast⟩ := exists_indexOf_eq htop header
  have hend : endLine (indexOf header top) = indexOf header top := by
    obtain ⟨w, hw⟩ := List.getLast?_eq_some_iff.mp hlast
    unfold endLine
    rw [if_pos (List.isSuffixOf_iff_suffix.mpr ⟨w, hw.symm⟩)]
  have hopen : openIndex (indexOf header top) [] = indexOf header top := by
    rw [openIndex, hend, List.filter_nil, List.flatMap_nil, List.append_nil]
  rw [indexOf_eq (indexOf header top) [], hopen, if_pos (occursIn_indexOf header top)]

namespace Document

theorem isName_of_mem_top {t : Text} {s : PlacedSection} (hs : s ∈ (ofText t).top) :
    ∀ n ∈ s.names, IsName n := by
  rw [← children_none] at hs
  exact isName_of_mem_children hs

/-- **The index of a page is read as a page without sections.** -/
theorem ofText_indexOf (t : Text) :
    ofText (indexOf (ofText t).header (ofText t).top) =
      ⟨indexOf (ofText t).header (ofText t).top, .nil⟩ := by
  obtain ⟨head, hhead, -, hwf⟩ := wellFormed_ofText t
  obtain ⟨ks, hindex, hks, -⟩ :=
    exists_indexOf_eq (fun s hs => isName_of_mem_top hs) (ofText t).header
  rw [hindex, hhead]
  exact ofText_flatten_append (hwf.areLines.sublist (List.sublist_append_left ..))
    (.of_ended fun l hl => (hks l hl).ended) hwf.header fun l hl => (hks l hl).isApart

end Document

namespace Extraction

/-- The index of a page, and its partials. -/
theorem indexContent_ofText (t : Text) (source : Option Text) :
    ∃ notices e, ofText t source = (notices, .ok e) ∧
      e.indexContent = indexOf (Document.ofText t).header (Document.ofText t).top ∧
      e.partials = (Document.ofText t).sections.map Partial.ofSection :=
  ⟨_, _, ofText_eq t source, rfl, rfl⟩

/-- **Splitting an index gives no partials and the same index.** The index of any page, read as a
page itself, is all header and has no sections; what it is split into are no partials and the index
that it was. -/
theorem ofText_indexContent (t : Text) (source source' : Option Text) :
    ∃ notices e notices' e', ofText t source = (notices, .ok e) ∧
      (Document.ofText e.indexContent).header = e.indexContent ∧
      (Document.ofText e.indexContent).sections = [] ∧
      ofText e.indexContent source' = (notices', .ok e') ∧ e'.partials = [] ∧
      e'.indexContent = e.indexContent := by
  obtain ⟨notices, e, he, hindex, -⟩ := indexContent_ofText t source
  obtain ⟨notices', e', he', hindex', hpartials⟩ := indexContent_ofText e.indexContent source'
  have hdoc : Document.ofText e.indexContent = ⟨e.indexContent, .nil⟩ := by
    rw [hindex]
    exact Document.ofText_indexOf t
  rw [hdoc] at hindex' hpartials
  refine ⟨notices, e, notices', e', he, by rw [hdoc], by rw [hdoc]; rfl, he', hpartials, ?_⟩
  -- There are no sections to include, so the index is made from itself alone.
  rw [hindex', hindex]
  exact indexOf_indexOf (fun s hs => Document.isName_of_mem_top hs) _

end Extraction

end PagePartials
